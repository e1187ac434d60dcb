import Pigasus.PduGen
import Mathlib.Data.BitVec

/-!
# The slots of a PDU, and what the host reads in them
-/

namespace Pigasus

open Hdl Frames

/-! ## Bits -/

theorem extract_topBytes (x : BitVec 512) {k j : Nat} (h : j < k) :
    (topBytes x k).extractLsb' (8 * (k - 1 - j)) 8 = x.extractLsb' (8 * j) 8 := by
  induction k with
  | zero => omega
  | succ k ih =>
    show (topBytes x k ++ x.extractLsb' (8 * k) 8 : BitVec (8 * k + 8)).extractLsb' _ _ = _
    by_cases hj : j = k
    · subst hj
      rw [show 8 * (j + 1 - 1 - j) = 0 by omega]
      exact BitVec.extractLsb'_append_eq_right
    · rw [BitVec.extractLsb'_append_eq_of_le (by omega), show 8 * (k + 1 - 1 - j) - 8 = 8 * (k - 1 - j) by omega]
      exact ih (by omega)

theorem extract_swapBytes (x : BitVec 512) {j : Nat} (h : j < 64) :
    (swapBytes x).extractLsb' (8 * j) 8 = x.extractLsb' (8 * (63 - j)) 8 := by
  have := extract_topBytes x (k := 64) (j := 63 - j) (by omega)
  rwa [show 8 * (64 - 1 - (63 - j)) = 8 * j by omega] at this

section
variable (m : Metadata) (pduFlit pduSize : BitVec 16) (ruleCnt : BitVec 12) (pduId : BitVec 8)

theorem pduHdr_words : let h := pduHdr m pduFlit pduSize ruleCnt pduId
    h.extractLsb' 32 16 = m.tuple.dPort ∧ h.extractLsb' 48 16 = m.tuple.sPort ∧ h.extractLsb' 64 32 = m.tuple.dIP ∧
      h.extractLsb' 96 32 = m.tuple.sIP ∧ h.extractLsb' 128 32 = m.prot.setWidth 32 ∧ h.extractLsb' 160 32 = ruleCnt.setWidth 32 ∧
      h.extractLsb' 192 32 = pduSize.setWidth 32 ∧ h.extractLsb' 224 32 = pduFlit.setWidth 32 := by
  intro h
  have hh : h = pduHdr m pduFlit pduSize ruleCnt pduId := rfl
  unfold pduHdr at hh
  dsimp only at hh
  rw [hh]
  refine ⟨?_, ?_, ?_, ?_, ?_, ?_, ?_, ?_⟩
  -- what is below the field and what is above it is taken away part by part
  all_goals
    repeat first
      | rw [BitVec.extractLsb'_append_eq_of_le (by omega)]
      | rw [BitVec.extractLsb'_append_eq_of_add_le (by omega)]
    exact BitVec.extractLsb'_eq_self

end

/-! ## Slots in the memory -/

def pduAddr (base : PduAddr) (k : Nat) : PduAddr := base + BitVec.ofNat 12 (k + 1)

theorem pduAddr_inj (base : PduAddr) {j k : Nat} (hj : j + 1 < 4096) (hk : k + 1 < 4096) (h : pduAddr base j = pduAddr base k) : j = k := by
  have := congrArg BitVec.toNat h
  simp only [pduAddr, BitVec.toNat_add, BitVec.toNat_ofNat] at this
  omega

theorem pduAddr_ne (base : PduAddr) {k : Nat} (hk : k + 1 < 4096) : pduAddr base k ≠ base := by
  intro h
  have := congrArg BitVec.toNat h
  simp only [pduAddr, BitVec.toNat_add, BitVec.toNat_ofNat] at this
  omega

def Stored (base : PduAddr) (l : List PduSlot) (mem : PduAddr → PduSlot) : Prop := ∀ k x, l[k]? = some x → mem (pduAddr base k) = x

section
variable {base : PduAddr} {l : List PduSlot} {mem : PduAddr → PduSlot}

theorem Stored.nil : Stored base [] mem := by
  intro k x h
  simp at h

theorem Stored.snoc (h : Stored base l mem) (hl : l.length + 1 < 4096) (x : PduSlot) :
    Stored base (l ++ [x]) (upd mem (pduAddr base l.length) x) := by
  intro k y hy
  by_cases hk : k = l.length
  · subst hk
    simp only [List.getElem?_concat_length, Option.some.injEq] at hy
    simp [upd, hy]
  · have hlt : k < l.length := by
      have := (List.getElem?_eq_some_iff.1 hy).1
      rw [List.length_append, List.length_singleton] at this
      omega
    rw [List.getElem?_append_left hlt] at hy
    have hne : pduAddr base k ≠ pduAddr base l.length := fun he => hk (pduAddr_inj base (by omega) hl he)
    rw [upd, if_neg hne]
    exact h k y hy

theorem Stored.replace {x : PduSlot} (h : Stored base (l ++ [x]) mem) (hl : l.length + 1 < 4096) (y : PduSlot) :
    Stored base (l ++ [y]) (upd mem (pduAddr base l.length) y) := by
  apply Stored.snoc _ hl
  intro k z hz
  apply h
  rw [List.getElem?_append_left (List.getElem?_eq_some_iff.1 hz).1]
  exact hz

theorem Stored.header (h : Stored base l mem) (hl : l.length < 4096) (x : PduSlot) : Stored base l (upd mem base x) := by
  intro k y hy
  have hlt := (List.getElem?_eq_some_iff.1 hy).1
  rw [upd, if_neg (pduAddr_ne base (by omega))]
  exact h k y hy

end

def pktSlot (f : Flit512) : PduSlot := ⟨false, false, swapBytes f.data⟩

def ruleSlot (eop : Bool) (f : Flit512) : PduSlot := ⟨false, eop, f.data⟩

def pktSize (p : StreamPkt) : Nat := 64 * p.body.length + (64 - p.last.empty.toNat)

namespace PduSys

variable {m : Metadata} {base : PduAddr} {p : StreamPkt} {r : Frame512} {s : PduSys} {t : PduTick}

def settled (s : PduSys) : PduAddr → PduSlot :=
  wr s.gen.pending.en s.gen.pending.addr s.gen.pending.slot (wr s.gen.rbWr.en s.gen.rbWr.addr s.gen.rbWr.slot s.mem)

theorem rbWr_step (g : PduGen) (i : PduIn) : (g.step i).rbWr = g.pending := by
  unfold PduGen.step
  split
  · rfl
  · split <;> rfl
  · split
    · unfold PduGen.writeRule
      split <;> rfl
    · rfl
  · rfl
  · rfl

theorem settled_step (s : PduSys) (t : PduTick) : (s.step m base t).settled =
    wr (s.step m base t).gen.pending.en (s.step m base t).gen.pending.addr (s.step m base t).gen.pending.slot s.settled := by
  have h : (s.step m base t).gen.rbWr = s.gen.pending := rbWr_step _ _
  show wr _ _ _ (wr (s.step m base t).gen.rbWr.en (s.step m base t).gen.rbWr.addr (s.step m base t).gen.rbWr.slot
    (wr s.gen.rbWr.en s.gen.rbWr.addr s.gen.rbWr.slot s.mem)) = _
  rw [h]
  rfl

theorem settled_of_no_write (h : (s.step m base t).gen.wrenR = false) : (s.step m base t).settled = s.settled := by
  rw [settled_step]
  have : (s.step m base t).gen.pending.en = false := h
  rw [this]
  rfl

theorem settled_of_write (h : (s.step m base t).gen.wrenR = true) :
    (s.step m base t).settled = upd s.settled (s.step m base t).gen.addrR (s.step m base t).gen.pending.slot := by
  rw [settled_step]
  have : (s.step m base t).gen.pending.en = true := h
  rw [this]
  rfl

/-- The PDU from its packet to its header; all slots are stored once the writes on their way are done. -/
inductive Inv (m : Metadata) (base : PduAddr) (p : StreamPkt) (r : Frame512) (s : PduSys) : Prop
  | start (hs : s.gen.state = .start) (pkt : s.pkt = p.flits) (rules : s.rules = r.flits) (up : s.updates = [])
  | write (a b : List Flit512) (hs : s.gen.state = .write) (cut : p.flits = a ++ b) (hb : b ≠ []) (pkt : s.pkt = b)
      (rules : s.rules = r.flits) (addr : a ≠ [] → s.gen.addrR = base + BitVec.ofNat 12 a.length)
      (size : a ≠ [] → s.gen.pduSize = BitVec.ofNat 16 (64 * a.length)) (flit : s.gen.pduFlit = BitVec.ofNat 16 a.length)
      (cnt : s.gen.ruleCnt = 0) (upv : s.gen.updateValid = false) (mem : Stored base (a.map pktSlot) s.settled) (up : s.updates = [])
  | rule (a b : List Flit512) (hs : s.gen.state = .writeRuleId) (cut : r.body = a ++ b) (pkt : s.pkt = [])
      (rules : s.rules = b ++ [r.last]) (addr : s.gen.addrR = base + BitVec.ofNat 12 (p.flits.length + a.length))
      (size : s.gen.pduSize = BitVec.ofNat 16 (pktSize p)) (flit : s.gen.pduFlit = BitVec.ofNat 16 (p.flits.length + a.length))
      (cnt : s.gen.ruleCnt = BitVec.ofNat 12 a.length) (data : ∀ x ∈ a.getLast?, s.gen.dataR = x.data)
      (flags : s.gen.sopR = false ∧ s.gen.eopR = false) (upv : s.gen.updateValid = false)
      (mem : Stored base (p.flits.map pktSlot ++ a.map (ruleSlot false)) s.settled) (up : s.updates = [])
  | head (a : List Flit512) (x : Flit512) (hs : s.gen.state = .writeHead) (cut : r.body = a ++ [x]) (pkt : s.pkt = [])
      (rules : s.rules = []) (size : s.gen.pduSize = BitVec.ofNat 16 (pktSize p))
      (flit : s.gen.pduFlit = BitVec.ofNat 16 (p.flits.length + r.body.length + 1))
      (cnt : s.gen.ruleCnt = BitVec.ofNat 12 r.body.length)
      (mem : Stored base (p.flits.map pktSlot ++ a.map (ruleSlot false) ++ [ruleSlot true x]) s.settled) (up : s.updates = [])
  | done (a : List Flit512) (x : Flit512) (id : BitVec 8) (hs : s.gen.state = .wait ∨ s.gen.state = .start ∨ s.gen.state = .write)
      (cut : r.body = a ++ [x]) (pkt : s.pkt = []) (rules : s.rules = [])
      (upv : s.gen.state = .write → s.gen.updateValid = false)
      (mem : Stored base (p.flits.map pktSlot ++ a.map (ruleSlot false) ++ [ruleSlot true x]) s.settled)
      (hdr : s.settled base = ⟨true, false, pduHdr m (BitVec.ofNat 16 (p.flits.length + r.body.length + 1)) (BitVec.ofNat 16 (pktSize p))
        (BitVec.ofNat 12 r.body.length) id⟩)
      (up : s.updates = [BitVec.ofNat 12 (p.flits.length + r.body.length + 1)])

theorem addr_succ (base : PduAddr) (k : Nat) : base + BitVec.ofNat 12 k + 1 = base + BitVec.ofNat 12 (k + 1) := by
  apply BitVec.eq_of_toNat_eq
  have h1 : (1 : BitVec 12).toNat = 1 := rfl
  simp only [BitVec.toNat_add, BitVec.toNat_ofNat, h1]
  omega

theorem ofNat_succ (k : Nat) : BitVec.ofNat 16 k + 1 = BitVec.ofNat 16 (k + 1) := by
  apply BitVec.eq_of_toNat_eq
  have h1 : (1 : BitVec 16).toNat = 1 := rfl
  simp only [BitVec.toNat_add, BitVec.toNat_ofNat, h1]
  omega

theorem updates_step (s : PduSys) (t : PduTick) (h : (s.step m base t).gen.updateValid = false) : (s.step m base t).updates = s.updates := by
  have h : (s.gen.step (s.genIn m base t)).updateValid = false := h
  simp [PduSys.step, h]

theorem Inv.step_start (t : PduTick) (hs : s.gen.state = .start) (pkt : s.pkt = p.flits) (rules : s.rules = r.flits)
    (up : s.updates = []) : Inv m base p r (s.step m base t) := by
  have hpkt : (s.step m base t).pkt = p.flits := by simp [PduSys.step, hs, pkt]
  have hrules : (s.step m base t).rules = r.flits := by simp [PduSys.step, hs, rules]
  have hup : (s.step m base t).updates = [] := by
    rw [updates_step, up]
    simp [PduSys.step, PduGen.step, hs]
  have hst : (s.step m base t).gen.state = if s.gen.canStart (s.genIn m base t) then .write else .start := by
    simp [PduSys.step, PduGen.step, hs]
  by_cases hc : s.gen.canStart (s.genIn m base t) = true
  · rw [if_pos hc] at hst
    refine .write [] p.flits hst rfl p.toMarked.flits_ne_nil hpkt hrules (fun h => absurd rfl h) (fun h => absurd rfl h) ?_ ?_ ?_ .nil hup
    all_goals simp [PduSys.step, PduGen.step, hs]
  · rw [if_neg hc] at hst
    exact .start hst hpkt hrules hup

section
variable {a b : List Flit512} (hs : s.gen.state = .write) (rules : s.rules = r.flits)
  (addr : a ≠ [] → s.gen.addrR = base + BitVec.ofNat 12 a.length)
  (size : a ≠ [] → s.gen.pduSize = BitVec.ofNat 16 (64 * a.length)) (flit : s.gen.pduFlit = BitVec.ofNat 16 a.length)
  (cnt : s.gen.ruleCnt = 0) (upv : s.gen.updateValid = false) (mem : Stored base (a.map pktSlot) s.settled) (up : s.updates = [])
include hs rules addr size flit cnt upv mem up

theorem Inv.write_wait (t : PduTick) (hv : t.pktValid = false) (cut : p.flits = a ++ b) (hb : b ≠ []) (pkt : s.pkt = b) :
    Inv m base p r (s.step m base t) := by
  have hrules : (s.step m base t).rules = r.flits := by simp [PduSys.step, hs, rules]
  have hin : (s.genIn m base t).pkt = none := by simp [genIn, hv]
  have hg : (s.step m base t).gen = { s.gen with wrenR := false, sopR := false, eopR := false, rbWr := s.gen.pending } := by
    simp [PduSys.step, PduGen.step, hs, hin]
  have hpkt : (s.step m base t).pkt = b := by simp [PduSys.step, hv, pkt]
  refine .write a b (by rw [hg]; exact hs) cut hb hpkt hrules ?_ ?_ ?_ ?_ ?_ ?_ ?_
  · rw [hg]
    exact addr
  · rw [hg]
    exact size
  · rw [hg]
    exact flit
  · rw [hg]
    exact cnt
  · rw [hg]
    exact upv
  · rw [settled_of_no_write (by rw [hg])]
    exact mem
  · rw [updates_step, up]
    rw [hg]
    exact upv

theorem Inv.write_take (t : PduTick) (hlen : p.flits.length + r.body.length + 1 < 4096) {f : Flit512} (hv : t.pktValid = true)
    (cut : p.flits = a ++ f :: b) (pkt : s.pkt = f :: b) : Inv m base p r (s.step m base t) := by
  have hrules : (s.step m base t).rules = r.flits := by simp [PduSys.step, hs, rules]
  have hin : (s.genIn m base t).pkt = some f := by simp [genIn, hv, pkt]
  have hg : (s.step m base t).gen = s.gen.writePkt (s.genIn m base t) f := by simp [PduSys.step, PduGen.step, hs, hin]
  have hpkt : (s.step m base t).pkt = b := by simp [PduSys.step, hs, hv, pkt]
  have hsop : f.sop = true ↔ a = [] := p.sop a f b cut
  have heop : f.eop = true ↔ b = [] := Marked.mark_iff (f := p.toMarked) cut
  have hla : a.length + 1 ≤ p.flits.length := by
    rw [cut, List.length_append, List.length_cons]
    omega
  have haddr : (s.step m base t).gen.addrR = pduAddr base a.length := by
    rw [hg]
    show (if f.sop then base + 1 else s.gen.addrR + 1) = base + BitVec.ofNat 12 (a.length + 1)
    by_cases ha : a = []
    · simp [hsop.2 ha, ha]
    · have hf : ¬ f.sop = true := fun h => ha (hsop.1 h)
      rw [if_neg hf, addr ha, addr_succ]
  have hslot : (s.step m base t).gen.pending.slot = pktSlot f := by
    rw [hg]
    rfl
  have hmem : Stored base ((a ++ [f]).map pktSlot) (s.step m base t).settled := by
    rw [settled_of_write (by rw [hg]; rfl), haddr, hslot, List.map_append]
    have := mem.snoc (by rw [List.length_map]; omega) (pktSlot f)
    rwa [List.length_map] at this
  have hsize : (if f.sop then 0 else s.gen.pduSize) = BitVec.ofNat 16 (64 * a.length) := by
    by_cases ha : a = []
    · simp [hsop.2 ha, ha]
    · have hf : ¬ f.sop = true := fun h => ha (hsop.1 h)
      rw [if_neg hf, size ha]
  have hflit : (s.step m base t).gen.pduFlit = BitVec.ofNat 16 (a.length + 1) := by
    rw [hg]
    show s.gen.pduFlit + 1 = _
    rw [flit, ofNat_succ]
  have hupv : (s.step m base t).gen.updateValid = false := by
    rw [hg]
    exact upv
  have hup : (s.step m base t).updates = [] := by rw [updates_step s t hupv, up]
  have hst : (s.step m base t).gen.state = if f.eop then .writeRuleId else .write := by
    rw [hg]
    rfl
  have hpsize : (s.step m base t).gen.pduSize = (if f.sop then 0 else s.gen.pduSize) +
      (if f.eop then 64 - f.empty.setWidth 16 else 64) := by
    rw [hg]
    rfl
  have hcnt : (s.step m base t).gen.ruleCnt = 0 := by
    rw [hg]
    exact cnt
  by_cases hb' : b = []
  · -- the last flit
    have he := heop.2 hb'
    subst hb'
    obtain ⟨hbody, hlast⟩ := List.append_inj' (show p.body ++ [p.last] = a ++ [f] from cut) rfl
    rw [if_pos he] at hst
    have hn : p.flits.length = a.length + 1 := by simp [cut]
    refine .rule [] r.body hst rfl hpkt hrules ?_ ?_ ?_ hcnt ?_ ?_ hupv ?_ hup
    · rw [haddr, hn]
      rfl
    · have hl : p.last = f := (List.cons.inj hlast).1
      have hlt := f.empty.isLt
      rw [hpsize, hsize, if_pos he, pktSize, hbody, hl]
      apply BitVec.eq_of_toNat_eq
      have h64 : (64 : BitVec 16).toNat = 64 := rfl
      simp only [BitVec.toNat_add, BitVec.toNat_ofNat, BitVec.toNat_sub, BitVec.toNat_setWidth, h64]
      omega
    · rw [hflit, hn]
      rfl
    · intro x hx
      cases hx
    · rw [hg]
      exact ⟨rfl, rfl⟩
    · rw [cut]
      simpa using hmem
  · have he : ¬ f.eop = true := fun h => hb' (heop.1 h)
    rw [if_neg he] at hst
    refine .write (a ++ [f]) b hst (by rw [cut]; simp) hb' hpkt hrules ?_ ?_ ?_ hcnt hupv hmem hup
    · intro _
      rw [haddr, List.length_append]
      rfl
    · intro _
      rw [hpsize, hsize, if_neg he, List.length_append]
      apply BitVec.eq_of_toNat_eq
      have h64 : (64 : BitVec 16).toNat = 64 := rfl
      simp only [BitVec.toNat_add, BitVec.toNat_ofNat, List.length_singleton, h64]
      omega
    · rw [hflit, List.length_append]
      rfl

theorem Inv.step_write (t : PduTick) (hlen : p.flits.length + r.body.length + 1 < 4096) (cut : p.flits = a ++ b) (hb : b ≠ [])
    (pkt : s.pkt = b) : Inv m base p r (s.step m base t) := by
  cases hv : t.pktValid with
  | false => exact write_wait hs rules addr size flit cnt upv mem up t hv cut hb pkt
  | true =>
    obtain ⟨f, b, rfl⟩ := List.exists_cons_of_ne_nil hb
    exact write_take hs rules addr size flit cnt upv mem up t hlen hv cut pkt

end

section
variable {a b : List Flit512} (hs : s.gen.state = .writeRuleId) (pkt : s.pkt = [])
  (addr : s.gen.addrR = base + BitVec.ofNat 12 (p.flits.length + a.length))
  (size : s.gen.pduSize = BitVec.ofNat 16 (pktSize p)) (flit : s.gen.pduFlit = BitVec.ofNat 16 (p.flits.length + a.length))
  (cnt : s.gen.ruleCnt = BitVec.ofNat 12 a.length) (upv : s.gen.updateValid = false)
  (mem : Stored base (p.flits.map pktSlot ++ a.map (ruleSlot false)) s.settled) (up : s.updates = [])
include hs pkt addr size flit cnt upv mem up

theorem Inv.rule_wait (t : PduTick) (hv : t.ruleValid = false) (cut : r.body = a ++ b) (rules : s.rules = b ++ [r.last])
    (data : ∀ x ∈ a.getLast?, s.gen.dataR = x.data) (flags : s.gen.sopR = false ∧ s.gen.eopR = false) :
    Inv m base p r (s.step m base t) := by
  have hpkt : (s.step m base t).pkt = [] := by simp [PduSys.step, hs, pkt]
  have hin : (s.genIn m base t).rule = none := by simp [genIn, hv]
  have hg : (s.step m base t).gen = { s.gen with swap := false, wrenR := false, rbWr := s.gen.pending } := by
    simp [PduSys.step, PduGen.step, hs, hin]
  have hrules : (s.step m base t).rules = b ++ [r.last] := by simp [PduSys.step, hv, rules]
  refine .rule a b (by rw [hg]; exact hs) cut hpkt hrules ?_ ?_ ?_ ?_ ?_ ?_ ?_ ?_ ?_
  · rw [hg]
    exact addr
  · rw [hg]
    exact size
  · rw [hg]
    exact flit
  · rw [hg]
    exact cnt
  · rw [hg]
    exact data
  · rw [hg]
    exact flags
  · rw [hg]
    exact upv
  · rw [settled_of_no_write (by rw [hg])]
    exact mem
  · rw [updates_step, up]
    rw [hg]
    exact upv

theorem Inv.rule_take (t : PduTick) (hlen : p.flits.length + r.body.length + 1 < 4096) {y : Flit512} (hv : t.ruleValid = true)
    (cut : r.body = a ++ y :: b) (rules : s.rules = y :: b ++ [r.last]) (flags : s.gen.sopR = false ∧ s.gen.eopR = false) :
    Inv m base p r (s.step m base t) := by
  have hpkt : (s.step m base t).pkt = [] := by simp [PduSys.step, hs, pkt]
  have hy : y.eop = false := r.body_mark y (by rw [cut]; simp)
  have hin : (s.genIn m base t).rule = some y := by simp [genIn, hv, rules]
  have hg : (s.step m base t).gen = { s.gen with
      wrenR := true, dataR := y.data, addrR := s.gen.addrR + 1, swap := false,
      pduFlit := s.gen.pduFlit + 1, ruleCnt := s.gen.ruleCnt + 1, rbWr := s.gen.pending } := by
    simp [PduSys.step, PduGen.step, hs, hin, PduGen.writeRule, hy]
  have hrules : (s.step m base t).rules = b ++ [r.last] := by simp [PduSys.step, hs, hv, rules]
  have hupv : (s.step m base t).gen.updateValid = false := by
    rw [hg]
    exact upv
  have haddr : (s.step m base t).gen.addrR = pduAddr base (p.flits.length + a.length) := by
    rw [hg]
    show s.gen.addrR + 1 = _
    rw [addr, addr_succ]
    rfl
  have hslot : (s.step m base t).gen.pending.slot = ruleSlot false y := by
    rw [hg]
    simp [PduGen.pending, ruleSlot, flags]
  refine .rule (a ++ [y]) b (by rw [hg]; exact hs) (by rw [cut]; simp) hpkt hrules ?_ ?_ ?_ ?_ ?_ ?_ hupv ?_
    (by rw [updates_step s t hupv, up])
  · rw [haddr, List.length_append]
    rfl
  · rw [hg]
    exact size
  · rw [hg]
    show s.gen.pduFlit + 1 = _
    rw [flit, ofNat_succ, List.length_append]
    rfl
  · rw [hg]
    show s.gen.ruleCnt + 1 = _
    rw [cnt, List.length_append]
    apply BitVec.eq_of_toNat_eq
    have h1 : (1 : BitVec 12).toNat = 1 := rfl
    simp only [BitVec.toNat_add, BitVec.toNat_ofNat, List.length_singleton, h1]
    omega
  · intro x hx
    rw [hg]
    simp at hx
    simp [hx]
  · rw [hg]
    exact flags
  · rw [settled_of_write (by rw [hg]), haddr, hslot, List.map_append, ← List.append_assoc]
    have hla : a.length + (b.length + 1) = r.body.length := by rw [cut, List.length_append, List.length_cons]
    have := mem.snoc (by simp only [List.length_append, List.length_map]; omega) (ruleSlot false y)
    rwa [List.length_append, List.length_map, List.length_map] at this

theorem Inv.rule_end (t : PduTick) (hlen : p.flits.length + r.body.length + 1 < 4096) (hne : r.body ≠ []) (hv : t.ruleValid = true)
    (cut : r.body = a) (rules : s.rules = [r.last]) (data : ∀ x ∈ a.getLast?, s.gen.dataR = x.data) :
    Inv m base p r (s.step m base t) := by
  subst cut
  have hpkt : (s.step m base t).pkt = [] := by simp [PduSys.step, hs, pkt]
  obtain ⟨a', x, hax⟩ := (List.eq_nil_or_concat r.body).resolve_left hne
  rw [List.concat_eq_append] at hax
  have hin : (s.genIn m base t).rule = some r.last := by simp [genIn, hv, rules]
  have hcnt : s.gen.ruleCnt ≠ 0#12 := by
    intro h0
    have hpos := List.length_pos_iff.2 hne
    have := congrArg BitVec.toNat (cnt.symm.trans h0)
    simp only [BitVec.toNat_ofNat] at this
    omega
  have hg : (s.step m base t).gen = { s.gen with
      state := .writeHead, wrenR := true, sopR := false, eopR := true, swap := false, pduFlit := s.gen.pduFlit + 1,
      pduId := s.gen.checkPktCnt, checkPktCnt := s.gen.checkPktCnt + 1, rbWr := s.gen.pending } := by
    simp [PduSys.step, PduGen.step, hs, hin, PduGen.writeRule, r.last_mark, hcnt]
  have hrules : (s.step m base t).rules = [] := by simp [PduSys.step, hs, hv, rules]
  have hupv : (s.step m base t).gen.updateValid = false := by
    rw [hg]
    exact upv
  have hdata : s.gen.dataR = x.data := data x (by simp [hax])
  have hl : r.body.length = a'.length + 1 := by simp [hax]
  have haddr : (s.step m base t).gen.addrR = pduAddr base (p.flits.length + a'.length) := by
    rw [hg]
    show s.gen.addrR = _
    rw [addr, hl]
    rfl
  have hslot : (s.step m base t).gen.pending.slot = ruleSlot true x := by
    rw [hg]
    simp [PduGen.pending, ruleSlot, hdata]
  refine .head a' x (by rw [hg]) hax hpkt hrules ?_ ?_ ?_ ?_ (by rw [updates_step s t hupv, up])
  · rw [hg]
    exact size
  · rw [hg]
    show s.gen.pduFlit + 1 = _
    rw [flit, ofNat_succ]
  · rw [hg]
    exact cnt
  · rw [hax, List.map_append, List.map_singleton, ← List.append_assoc] at mem
    rw [settled_of_write (by rw [hg]), haddr, hslot]
    have := mem.replace (by simp only [List.length_append, List.length_map]; omega) (ruleSlot true x)
    rwa [List.length_append, List.length_map, List.length_map] at this

theorem Inv.step_rule (t : PduTick) (hlen : p.flits.length + r.body.length + 1 < 4096) (hne : r.body ≠ []) (cut : r.body = a ++ b)
    (rules : s.rules = b ++ [r.last]) (data : ∀ x ∈ a.getLast?, s.gen.dataR = x.data)
    (flags : s.gen.sopR = false ∧ s.gen.eopR = false) : Inv m base p r (s.step m base t) := by
  cases hv : t.ruleValid with
  | false => exact rule_wait hs pkt addr size flit cnt upv mem up t hv cut rules data flags
  | true =>
    cases b with
    | nil => exact rule_end hs pkt addr size flit cnt upv mem up t hlen hne hv (by simpa using cut) rules data
    | cons y b => exact rule_take hs pkt addr size flit cnt upv mem up t hlen hv cut rules flags

end

theorem Inv.step (t : PduTick) (hlen : p.flits.length + r.body.length + 1 < 4096) (hne : r.body ≠ []) (h : Inv m base p r s) :
    Inv m base p r (s.step m base t) := by
  cases h with
  | start hs pkt rules up => exact step_start t hs pkt rules up
  | write a b hs cut hb pkt rules addr size flit cnt upv mem up =>
    exact step_write hs rules addr size flit cnt upv mem up t hlen cut hb pkt
  | rule a b hs cut pkt rules addr size flit cnt data flags upv mem up =>
    exact step_rule hs pkt addr size flit cnt upv mem up t hlen hne cut rules data flags
  | head a x hs cut pkt rules size flit cnt mem up =>
    have hpkt : (s.step m base t).pkt = [] := by simp [PduSys.step, hs, pkt]
    have hrules : (s.step m base t).rules = [] := by simp [PduSys.step, rules]
    have hset : (s.step m base t).settled = upd s.settled base ⟨true, false, pduHdr m s.gen.pduFlit s.gen.pduSize s.gen.ruleCnt s.gen.pduId⟩ := by
      rw [settled_of_write]
      all_goals simp [PduSys.step, PduGen.step, hs, PduGen.pending, genIn]
    have hl : (p.flits.map pktSlot ++ a.map (ruleSlot false) ++ [ruleSlot true x]).length < 4096 := by
      have : r.body.length = a.length + 1 := by simp [cut]
      simp only [List.length_append, List.length_map, List.length_singleton]
      omega
    refine .done a x s.gen.pduId (.inl ?_) cut hpkt hrules ?_ ?_ ?_ ?_
    · simp [PduSys.step, PduGen.step, hs]
    · intro hw
      simp [PduSys.step, PduGen.step, hs] at hw
    · rw [hset]
      exact mem.header hl _
    · rw [hset, flit, size, cnt]
      simp [upd]
    · simp only [PduSys.step, PduGen.step, hs, up, if_true, List.nil_append, flit]
      congr 1
      apply BitVec.eq_of_toNat_eq
      simp only [BitVec.toNat_setWidth, BitVec.toNat_ofNat]
      omega
  | done a x id hs cut pkt rules upv mem hdr up =>
    have hpkt : (s.step m base t).pkt = [] := by simp [PduSys.step, pkt]
    have hrules : (s.step m base t).rules = [] := by simp [PduSys.step, rules]
    have hin : (s.genIn m base t).pkt = none := by simp [genIn, pkt]
    -- nothing is written and nothing is handed over in these states
    have hquiet : (s.step m base t).gen.wrenR = false ∧ (s.step m base t).gen.updateValid = false ∧
        ((s.step m base t).gen.state = .wait ∨ (s.step m base t).gen.state = .start ∨ (s.step m base t).gen.state = .write) := by
      rcases hs with hs | hs | hs
      · simp only [PduSys.step, PduGen.step, hs, true_and]
        split <;> simp
      · simp only [PduSys.step, PduGen.step, hs, true_and]
        split <;> simp
      · simp [PduSys.step, PduGen.step, hs, hin, upv hs]
    have hset := settled_of_no_write hquiet.1
    exact .done a x id hquiet.2.2 cut hpkt hrules (fun _ => hquiet.2.1) (by rw [hset]; exact mem) (by rw [hset]; exact hdr)
      (by rw [updates_step s t hquiet.2.1, up])

def Finished (s : PduSys) : Prop := s.rules = [] ∧ s.gen.state ≠ .writeHead ∧ s.gen.wrenR = false ∧ s.gen.rbWr.en = false

instance : Decidable s.Finished := inferInstanceAs (Decidable (_ ∧ _))

theorem settled_of_finished (h : s.Finished) : s.settled = s.mem := by
  have hp : s.gen.pending.en = false := h.2.2.1
  rw [settled, hp, h.2.2.2]
  rfl

/-! ## The PDU comes to its end -/

/-- Both inputs are valid and nothing is full. -/
def go : PduTick := ⟨true, true, true, false, true, false, true⟩

def budget (s : PduSys) : Nat :=
  match s.rules with
  | [] => if s.gen.state = .writeHead then 3 else if s.gen.wrenR then 2 else if s.gen.rbWr.en then 1 else 0
  | _ => s.pkt.length + s.rules.length + 3 + if s.gen.state = .start then (if s.gen.inMetaReady then 2 else 1) else 0

theorem budget_of_ne (h : s.rules ≠ []) : s.budget =
    s.pkt.length + s.rules.length + 3 + if s.gen.state = .start then (if s.gen.inMetaReady then 2 else 1) else 0 := by
  obtain ⟨x, l, hx⟩ := List.exists_cons_of_ne_nil h
  simp [budget, hx]

theorem finished_of_budget (h : s.budget = 0) : s.Finished := by
  unfold budget at h
  split at h
  · rename_i hr
    split at h
    · omega
    · rename_i hh
      split at h
      · omega
      · rename_i hw
        split at h
        · omega
        · rename_i he
          exact ⟨hr, hh, by simpa using hw, by simpa using he⟩
  · omega

theorem Inv.budget_le (h : Inv m base p r s) : s.budget ≤ p.flits.length + r.flits.length + 5 := by
  have hsmall : ∀ l, s.rules = l → s.pkt.length ≤ p.flits.length → l.length ≤ r.flits.length → s.budget ≤ p.flits.length + r.flits.length + 5 := by
    intro l hl h1 h2
    unfold budget
    split
    · split
      · omega
      · split
        · omega
        · split <;> omega
    · rw [hl]
      split
      · split <;> omega
      · omega
  cases h with
  | start hs pkt rules up => exact hsmall _ rules (by rw [pkt]) (by omega)
  | write a b hs cut hb pkt rules addr size flit cnt upv mem up =>
    refine hsmall _ rules ?_ (by omega)
    rw [pkt, cut, List.length_append]
    omega
  | rule a b hs cut pkt rules addr size flit cnt data flags upv mem up =>
    refine hsmall _ rules (by simp [pkt]) ?_
    rw [Marked.flits, cut]
    simp only [List.length_append]
    omega
  | head a x hs cut pkt rules size flit cnt mem up => exact hsmall _ rules (by simp [pkt]) (by simp)
  | done a x id hs cut pkt rules upv mem hdr up => exact hsmall _ rules (by simp [pkt]) (by simp)

theorem Inv.budget_step (h : Inv m base p r s) : (s.step m base go).budget ≤ s.budget - 1 := by
  cases h with
  | start hs pkt rules up =>
    have hr : s.rules ≠ [] := by
      rw [rules]
      exact r.flits_ne_nil
    have hrules : (s.step m base go).rules = s.rules := by simp [PduSys.step, hs]
    have hpkt : (s.step m base go).pkt = s.pkt := by simp [PduSys.step, hs]
    have hready : (s.step m base go).gen.inMetaReady = false := by simp [PduSys.step, PduGen.step, hs]
    rw [budget_of_ne hr, budget_of_ne (by rw [hrules]; exact hr), hrules, hpkt, hready, if_pos hs]
    cases hm : s.gen.inMetaReady with
    | true =>
      simp only [if_true]
      split <;> simp
    | false =>
      have hst : (s.step m base go).gen.state = .write := by simp [PduSys.step, PduGen.step, hs, PduGen.canStart, genIn, go, hm]
      simp [hst]
  | write a b hs cut hb pkt rules addr size flit cnt upv mem up =>
    obtain ⟨f, b, rfl⟩ := List.exists_cons_of_ne_nil hb
    have hr : s.rules ≠ [] := by
      rw [rules]
      exact r.flits_ne_nil
    have hrules : (s.step m base go).rules = s.rules := by simp [PduSys.step, hs]
    have hpkt : (s.step m base go).pkt = b := by simp [PduSys.step, hs, go, pkt]
    have hst : (s.step m base go).gen.state ≠ .start := by
      simp only [PduSys.step, PduGen.step, hs, genIn, go, pkt, if_true, List.head?_cons, PduGen.writePkt]
      split <;> simp
    rw [budget_of_ne hr, budget_of_ne (by rw [hrules]; exact hr), hrules, hpkt, if_neg hst, pkt, List.length_cons]
    omega
  | rule a b hs cut pkt rules addr size flit cnt data flags upv mem up =>
    have hr : s.rules ≠ [] := by simp [rules]
    have hpkt : (s.step m base go).pkt = [] := by simp [PduSys.step, hs, pkt]
    have hrules : (s.step m base go).rules = s.rules.tail := by simp [PduSys.step, hs, go]
    rw [budget_of_ne hr, rules, List.length_append, List.length_singleton]
    cases b with
    | nil =>
      have : (s.step m base go).budget ≤ 3 := by
        rw [rules] at hrules
        simp only [budget, hrules, List.nil_append, List.tail_cons]
        split
        · omega
        · split
          · omega
          · split <;> omega
      omega
    | cons y b =>
      have hy : y.eop = false := r.body_mark y (by rw [cut]; simp)
      have hst : (s.step m base go).gen.state ≠ .start := by
        simp [PduSys.step, PduGen.step, hs, genIn, go, rules, PduGen.writeRule, hy]
      rw [budget_of_ne (by rw [hrules, rules]; simp), hrules, hpkt, if_neg hst, rules]
      simp only [List.length_nil, List.cons_append, List.tail_cons, List.length_append, List.length_cons]
      omega
  | head a x hs cut pkt rules size flit cnt mem up =>
    have hrules : (s.step m base go).rules = [] := by simp [PduSys.step, rules]
    have hst : (s.step m base go).gen.state = .wait := by simp [PduSys.step, PduGen.step, hs]
    have hh : PduState.wait ≠ .writeHead := by simp
    simp only [budget, hrules, rules, hst, hs, if_neg hh, if_true]
    split
    · omega
    · split <;> omega
  | done a x id hs cut pkt rules upv mem hdr up =>
    have hrules : (s.step m base go).rules = [] := by simp [PduSys.step, rules]
    have hin : (s.genIn m base go).pkt = none := by simp [genIn, pkt]
    have hw : (s.step m base go).gen.wrenR = false ∧ (s.step m base go).gen.state ≠ .writeHead := by
      rcases hs with hs | hs | hs
      · simp only [PduSys.step, PduGen.step, hs, true_and]
        split <;> simp
      · simp only [PduSys.step, PduGen.step, hs, true_and]
        split <;> simp
      · simp [PduSys.step, PduGen.step, hs, hin]
    have hrb : (s.step m base go).gen.rbWr.en = s.gen.wrenR := congrArg PduWrite.en (rbWr_step s.gen _)
    have hh : s.gen.state ≠ .writeHead := by
      rcases hs with hs | hs | hs <;> simp [hs]
    simp only [budget, hrules, rules, if_neg hw.2, if_neg hh, hw.1, hrb]
    cases s.gen.wrenR <;> simp

theorem Inv.run (hlen : p.flits.length + r.body.length + 1 < 4096) (hne : r.body ≠ []) (ts : List PduTick) (h : Inv m base p r s) :
    Inv m base p r (Hdl.run (PduSys.step m base) s ts) := by
  induction ts generalizing s with
  | nil => exact h
  | cons t ts ih => exact ih (h.step t hlen hne)

theorem Inv.budget_run (hlen : p.flits.length + r.body.length + 1 < 4096) (hne : r.body ≠ []) (n : Nat) (h : Inv m base p r s) :
    (Hdl.run (PduSys.step m base) s (List.replicate n go)).budget ≤ s.budget - n := by
  induction n generalizing s with
  | zero => exact Nat.le_refl _
  | succ n ih =>
    have h1 := h.budget_step
    have h2 := ih (h.step go hlen hne)
    show (Hdl.run _ (s.step m base go) (List.replicate n go)).budget ≤ _
    omega

end PduSys

/-! ## What the host reads -/

theorem map_range_flatMap {α β : Type} (c : Nat) (e : α → Nat → β) (g : Nat → β) (l : List α)
    (h : ∀ k x, l[k]? = some x → ∀ j < c, g (c * k + j) = e x j) :
    (List.range (c * l.length)).map g = l.flatMap fun x => (List.range c).map (e x) := by
  induction l generalizing g with
  | nil => rfl
  | cons x l ih =>
    rw [List.length_cons, Nat.mul_add, Nat.mul_one, Nat.add_comm, List.range_add, List.map_append, List.flatMap_cons]
    congr 1
    · apply List.map_congr_left
      intro j hj
      simpa using h 0 x rfl j (List.mem_range.1 hj)
    · rw [List.map_map]
      apply ih
      intro k y hy j hj
      have := h (k + 1) y hy j hj
      rwa [Nat.mul_add, Nat.mul_one, Nat.add_comm (c * k) c, Nat.add_assoc] at this

/-- The first byte on the wire is on top. -/
def Flit512.byte (f : Flit512) (j : Nat) : BitVec 8 := f.data.extractLsb' (8 * (63 - j)) 8

/-- The bytes of a packet in wire order; `empty` counts those that its last flit lacks. -/
def StreamPkt.bytes (p : StreamPkt) : List (BitVec 8) :=
  (p.body.flatMap fun f => (List.range 64).map f.byte) ++ (List.range (64 - p.last.empty.toNat)).map p.last.byte

def Flit512.ruleId (f : Flit512) (j : Nat) : BitVec 16 := f.data.extractLsb' (16 * j) 16

def Flit512.ruleIds (f : Flit512) : List (BitVec 16) := (List.range 32).map f.ruleId

theorem StreamPkt.length_bytes (p : StreamPkt) : p.bytes.length = pktSize p := by
  simp [StreamPkt.bytes, pktSize, List.length_flatMap, Nat.mul_comm]

section
variable (slots : Nat → BitVec 512)

theorem hostWord_byte (i : Nat) :
    (hostWord slots (16 + i / 4)).extractLsb' (8 * (i % 4)) 8 = (slots (i / 64 + 1)).extractLsb' (8 * (i % 64)) 8 := by
  have h1 : (16 + i / 4) / 16 = i / 64 + 1 := by omega
  have h2 : 32 * ((16 + i / 4) % 16) + 8 * (i % 4) = 8 * (i % 64) := by omega
  rw [hostWord, extract_extract _ (by omega), h1, h2]

theorem hostWord_half (k i : Nat) :
    (hostWord slots (k * 16 + i / 2)).extractLsb' (16 * (i % 2)) 16 = (slots (k + i / 32)).extractLsb' (16 * (i % 32)) 16 := by
  have h1 : (k * 16 + i / 2) / 16 = k + i / 32 := by omega
  have h2 : 32 * ((k * 16 + i / 2) % 16) + 16 * (i % 2) = 16 * (i % 32) := by omega
  rw [hostWord, extract_extract _ (by omega), h1, h2]

end
structure Block.Holds (m : Metadata) (p : StreamPkt) (r : Frame512) (b : Block) : Prop where
  pduSize : b.pduSize.toNat = p.bytes.length
  payload : (List.range b.pduSize.toNat).map b.pduPayload = p.bytes
  srcIp : b.srcIp = m.tuple.sIP
  dstIp : b.dstIp = m.tuple.dIP
  srcPort : b.srcPort = m.tuple.sPort
  dstPort : b.dstPort = m.tuple.dPort
  protocol : b.protocol = m.prot.setWidth 32
  numRuleId : b.numRuleId.toNat = r.body.length
  ruleId : (List.range (32 * r.body.length)).map b.ruleId = r.body.flatMap Flit512.ruleIds
  pduFlit : b.pduFlit.toNat = p.flits.length + r.body.length + 1

section
variable {m : Metadata} {p : StreamPkt} {r : Frame512} {slots : Nat → BitVec 512} {i : BitVec 8}

theorem ruleOffset_eq {x : BitVec 32} (h : x.toNat = pktSize p) : ruleOffset x = (p.flits.length + 1) * 16 := by
  have he := p.last.empty.isLt
  have hl : p.flits.length = p.body.length + 1 := by simp [StreamPkt.flits, Marked.flits]
  simp only [ruleOffset, h, hl, pktSize]
  split <;> omega

theorem fillBlock_holds (hsize : pktSize p < 65536) (hlen : p.flits.length + r.body.length + 1 < 4096)
    (hdr : slots 0 = pduHdr m (BitVec.ofNat 16 (p.flits.length + r.body.length + 1)) (BitVec.ofNat 16 (pktSize p))
      (BitVec.ofNat 12 r.body.length) i)
    (hp : ∀ k f, p.flits[k]? = some f → slots (k + 1) = swapBytes f.data)
    (hr : ∀ k f, r.body[k]? = some f → slots (p.flits.length + 1 + k) = f.data) : (fillBlock (hostWord slots)).Holds m p r := by
  obtain ⟨hdp, hsp, hdi, hsi, hprot, hcnt, hsz, hfl⟩ := pduHdr_words m (BitVec.ofNat 16 (p.flits.length + r.body.length + 1))
    (BitVec.ofNat 16 (pktSize p)) (BitVec.ofNat 12 r.body.length) i
  rw [← hdr] at hdp hsp hdi hsi hprot hcnt hsz hfl
  have hs : (hostWord slots 6).toNat = pktSize p := by
    show ((slots 0).extractLsb' 192 32).toNat = _
    rw [hsz, BitVec.toNat_setWidth, BitVec.toNat_ofNat]
    omega
  have hbyte : ∀ i, (fillBlock (hostWord slots)).pduPayload i = (slots (i / 64 + 1)).extractLsb' (8 * (i % 64)) 8 := hostWord_byte slots
  have hpay : ∀ k f, p.flits[k]? = some f → ∀ j < 64, (fillBlock (hostWord slots)).pduPayload (64 * k + j) = f.byte j := by
    intro k f hf j hj
    rw [hbyte, show (64 * k + j) / 64 = k by omega, show (64 * k + j) % 64 = j by omega, hp k f hf, extract_swapBytes _ hj]
    rfl
  constructor
  · rw [StreamPkt.length_bytes]
    exact hs
  · show (List.range (hostWord slots 6).toNat).map _ = _
    rw [hs, pktSize, List.range_add, List.map_append, StreamPkt.bytes]
    refine congrArg₂ _ ?_ ?_
    · apply map_range_flatMap
      intro k f hf
      apply hpay
      rw [StreamPkt.flits, Marked.flits, List.getElem?_append_left (List.getElem?_eq_some_iff.1 hf).1]
      exact hf
    · rw [List.map_map]
      apply List.map_congr_left
      intro j hj
      rw [List.mem_range] at hj
      apply hpay
      · simp [StreamPkt.flits, Marked.flits]
      · omega
  · exact hsi
  · exact hdi
  · rw [← hsp]
    exact extract_extract (slots 0) (a := 32) (w := 32) (b := 16) (by omega)
  · rw [← hdp]
    exact extract_extract (slots 0) (a := 32) (w := 32) (b := 0) (by omega)
  · exact hprot
  · show ((slots 0).extractLsb' 160 32).toNat = _
    rw [hcnt, BitVec.toNat_setWidth, BitVec.toNat_ofNat]
    omega
  · apply map_range_flatMap
    intro k f hf j hj
    show (hostWord slots (ruleOffset (hostWord slots 6) + (32 * k + j) / 2)).extractLsb' (16 * ((32 * k + j) % 2)) 16 = _
    rw [ruleOffset_eq hs, hostWord_half, show (32 * k + j) / 32 = k by omega, show (32 * k + j) % 32 = j by omega, hr k f hf]
    rfl
  · show ((slots 0).extractLsb' 224 32).toNat = _
    rw [hfl, BitVec.toNat_setWidth, BitVec.toNat_ofNat]
    omega

end

namespace PduSys

variable {m : Metadata} {base : PduAddr} {p : StreamPkt} {r : Frame512} {s : PduSys}

/-- The slots of the PDU as they are in the memory. -/
def slot (s : PduSys) (base : PduAddr) (k : Nat) : PduSlot := s.mem (base + BitVec.ofNat 12 k)

theorem Inv.finished (hsize : pktSize p < 65536) (hlen : p.flits.length + r.body.length + 1 < 4096) (h : Inv m base p r s)
    (hf : s.Finished) : (fillBlock (hostWord fun k => (s.slot base k).data)).Holds m p r ∧
      s.updates.map BitVec.toNat = [p.flits.length + r.body.length + 1] ∧
      ∀ k ≤ p.flits.length + r.body.length, ((s.slot base k).eop = true ↔ k = p.flits.length + r.body.length) := by
  cases h with
  | start hs pkt rules up => exact absurd (rules.symm.trans hf.1) r.flits_ne_nil
  | write a b hs cut hb pkt rules addr size flit cnt upv mem up => exact absurd (rules.symm.trans hf.1) r.flits_ne_nil
  | rule a b hs cut pkt rules addr size flit cnt data flags upv mem up => exact absurd (rules.symm.trans hf.1) (by simp)
  | head a x hs cut pkt rules size flit cnt mem up => exact absurd hs hf.2.1
  | done a x id hs cut pkt rules upv mem hdr up =>
    rw [settled_of_finished hf] at mem hdr
    have hl : r.body.length = a.length + 1 := by simp [cut]
    have h0 : s.slot base 0 = s.mem base := by simp [slot]
    -- the slots behind the header, by their place in the list
    have hk : ∀ k y, (p.flits.map pktSlot ++ a.map (ruleSlot false) ++ [ruleSlot true x])[k]? = some y → s.slot base (k + 1) = y :=
      fun k y hy => mem k y hy
    have hpk : ∀ k f, p.flits[k]? = some f → s.slot base (k + 1) = pktSlot f := by
      intro k f hf
      apply hk
      have hlt := (List.getElem?_eq_some_iff.1 hf).1
      rw [List.append_assoc, List.getElem?_append_left (by simpa using hlt), List.getElem?_map, hf]
      rfl
    have hrk : ∀ k f, r.body[k]? = some f → s.slot base (p.flits.length + 1 + k) = ruleSlot (k == a.length) f := by
      intro k f hf
      have hlt := (List.getElem?_eq_some_iff.1 hf).1
      rw [show p.flits.length + 1 + k = p.flits.length + k + 1 by omega]
      apply hk
      rw [List.append_assoc, List.getElem?_append_right (by simp), List.length_map, Nat.add_sub_cancel_left]
      rw [cut] at hf
      by_cases hka : k = a.length
      · subst hka
        rw [List.getElem?_concat_length] at hf
        cases hf
        rw [List.getElem?_append_right (by simp)]
        simp
      · have hka' : k < a.length := by omega
        rw [List.getElem?_append_left hka'] at hf
        rw [List.getElem?_append_left (by simpa using hka'), List.getElem?_map, hf, beq_false_of_ne hka]
        rfl
    refine ⟨fillBlock_holds (i := id) hsize hlen ?_ (fun k f hf => ?_) (fun k f hf => ?_), ?_, ?_⟩
    · rw [h0, hdr]
    · rw [hpk k f hf]
      rfl
    · rw [hrk k f hf]
      rfl
    · rw [up]
      simp only [List.map_cons, List.map_nil, BitVec.toNat_ofNat]
      congr 1
      omega
    · intro k hle
      by_cases hk0 : k = 0
      · subst hk0
        rw [h0, hdr]
        simp only [Bool.false_eq_true, false_iff]
        omega
      · by_cases hkp : k ≤ p.flits.length
        · have hget : p.flits[k - 1]? = some (p.flits.get ⟨k - 1, by omega⟩) := by simp
          have := hpk _ _ hget
          rw [show k - 1 + 1 = k by omega] at this
          rw [this]
          simp only [pktSlot, Bool.false_eq_true, false_iff]
          omega
        · have hget : r.body[k - p.flits.length - 1]? = some (r.body.get ⟨k - p.flits.length - 1, by omega⟩) := by
            simp
          have := hrk _ _ hget
          rw [show p.flits.length + 1 + (k - p.flits.length - 1) = k by omega] at this
          rw [this]
          simp only [ruleSlot, beq_iff_eq]
          omega

end PduSys

/-- Whatever the timing of the inputs, a PDU that is written completely holds its packet, its tuple and its rules for
the host, and it is written completely once the inputs stay valid. -/
theorem pduGen_roundTrip (m : Metadata) (base : PduAddr) (p : StreamPkt) (r : Frame512) (hsize : p.bytes.length < 65536)
    (hne : r.body ≠ []) (hlen : p.flits.length + r.body.length + 1 < 4096) (g : PduGen) (hg : g.state = .start)
    (mem : PduAddr → PduSlot) (ts : List PduTick) :
    let s := Hdl.run (PduSys.step m base) ⟨g, p.flits, r.flits, mem, []⟩
    ((s ts).Finished → (fillBlock (hostWord fun k => ((s ts).slot base k).data)).Holds m p r ∧
        (s ts).updates.map BitVec.toNat = [p.flits.length + r.body.length + 1] ∧
        ∀ k ≤ p.flits.length + r.body.length, (((s ts).slot base k).eop = true ↔ k = p.flits.length + r.body.length)) ∧
      ∀ n, p.flits.length + r.flits.length + 5 ≤ n → (s (ts ++ List.replicate n PduSys.go)).Finished := by
  intro s
  have h0 : PduSys.Inv m base p r ⟨g, p.flits, r.flits, mem, []⟩ := .start hg rfl rfl rfl
  have h := h0.run hlen hne ts
  rw [StreamPkt.length_bytes] at hsize
  refine ⟨h.finished hsize hlen, fun n hn => ?_⟩
  apply PduSys.finished_of_budget
  have hb := h.budget_run hlen hne n
  have hle := h.budget_le
  show PduSys.budget (Hdl.run _ _ (ts ++ List.replicate n PduSys.go)) = 0
  rw [Hdl.run_append]
  omega

def PduSys.twoFlits : StreamPkt where
  body := [⟨0x0102, true, false, 0⟩]
  last := ⟨0x0a0b0c, false, true, 61⟩
  body_mark := by decide
  last_mark := rfl
  sop := sop_first rfl (by simp)

def PduSys.oneRule : Frame512 := ⟨[⟨0x00070005, true, false, 0⟩], ⟨0, false, true, 0⟩, by decide, rfl⟩

def PduGen.reset : PduGen :=
  ⟨.start, false, false, 0, false, false, 0, false, 0, 0, 0, 0, 0, false, 0, ⟨false, 0, default⟩⟩

theorem pduGen_roundTrip_twoFlits :
    let s := Hdl.run (PduSys.step default 4095) ⟨PduGen.reset, PduSys.twoFlits.flits, PduSys.oneRule.flits, fun _ => default, []⟩
      (List.replicate 9 PduSys.go)
    (fillBlock (hostWord fun k => (s.slot 4095 k).data)).Holds default PduSys.twoFlits PduSys.oneRule := by
  have h := fun ts => pduGen_roundTrip default 4095 PduSys.twoFlits PduSys.oneRule (by decide) (by decide) (by decide) PduGen.reset rfl
    (fun _ => default) ts
  exact ((h (List.replicate 9 PduSys.go)).1 ((h []).2 9 (by decide))).1

end Pigasus
