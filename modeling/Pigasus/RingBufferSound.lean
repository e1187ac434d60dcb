import Pigasus.RingBuffer
import Pigasus.WrapRing

/-!
# The PDU ring keeps what is not read

The generator's writes stay behind the tail, and what it commits is stored once its
writes are done. The ring lays the PDUs out as two pieces at most, and a transfer
reads a part of the first one.
-/

namespace Pigasus

open Hdl Frames WrapRing

namespace RingSys

variable {s : RingSys} {t : RingTick}

/-! ## The generator -/

abbrev base (s : RingSys) : PduAddr := BitVec.ofNat 12 s.ring.tail

def RoomAt (r : RingBuffer) : Prop := Room maxSlot threshold r.head r.tail

def settled (s : RingSys) : PduAddr → PduSlot :=
  wr s.gen.pending.en s.gen.pending.addr s.gen.pending.slot (wr s.gen.rbWr.en s.gen.rbWr.addr s.gen.rbWr.slot s.ring.mem)

theorem settled_step (s : RingSys) (t : RingTick) : (s.step t).settled =
    wr (s.step t).gen.pending.en (s.step t).gen.pending.addr (s.step t).gen.pending.slot s.settled := by
  have h : (s.step t).gen.rbWr = s.gen.pending := PduSys.rbWr_step _ _
  show wr _ _ _ (wr (s.step t).gen.rbWr.en (s.step t).gen.rbWr.addr (s.step t).gen.rbWr.slot
    (wr s.gen.rbWr.en s.gen.rbWr.addr s.gen.rbWr.slot s.ring.mem)) = _
  rw [h]
  rfl

theorem settled_of_no_write (h : (s.step t).gen.wrenR = false) : (s.step t).settled = s.settled := by
  rw [settled_step]
  have hp : (s.step t).gen.pending.en = false := h
  rw [hp]
  rfl

theorem settled_of_write (h : (s.step t).gen.wrenR = true) :
    (s.step t).settled = upd s.settled (s.step t).gen.addrR (s.step t).gen.pending.slot := by
  rw [settled_step]
  have hp : (s.step t).gen.pending.en = true := h
  rw [hp]
  rfl

theorem base_step (h : s.gen.updateValid = false) : (s.step t).base = s.base := by
  simp [base, step, ringIn, RingBuffer.step, h]

inductive GenInv (s : RingSys) : Prop
  | start (hs : s.gen.state = .start) (upv : s.gen.updateValid = false) (wren : s.gen.wrenR = false)
  | write (hs : s.gen.state = .write) (upv : s.gen.updateValid = false) (rules : s.rules = []) (cnt : s.gen.ruleCnt = 0)
      (flit : s.gen.pduFlit = BitVec.ofNat 16 s.pkts.length) (len : s.pkts.length < threshold)
      (addr : s.pkts ≠ [] → s.gen.addrR = s.base + BitVec.ofNat 12 s.pkts.length) (wren : s.gen.wrenR = true → s.pkts ≠ [])
      (mem : Stored s.base (s.pkts.map pktSlot) s.settled) (room : RoomAt s.ring)
  | rule (hs : s.gen.state = .writeRuleId) (upv : s.gen.updateValid = false)
      (cnt : s.gen.ruleCnt = BitVec.ofNat 12 s.rules.length)
      (flit : s.gen.pduFlit = BitVec.ofNat 16 (s.pkts.length + s.rules.length)) (len : s.pkts.length + s.rules.length < threshold)
      (addr : s.gen.addrR = s.base + BitVec.ofNat 12 (s.pkts.length + s.rules.length))
      (data : ∀ x ∈ s.rules.getLast?, s.gen.dataR = x.data) (flags : s.gen.sopR = false ∧ s.gen.eopR = false)
      (mem : Stored s.base (s.pkts.map pktSlot ++ s.rules.map (ruleSlot false)) s.settled) (room : RoomAt s.ring)
  | head (hs : s.gen.state = .writeHead) (upv : s.gen.updateValid = false) (rules : s.rules ≠ [])
      (flit : s.gen.pduFlit = BitVec.ofNat 16 (s.pkts.length + s.rules.length + 1)) (len : s.pkts.length + s.rules.length < threshold)
      (addr : s.gen.addrR = s.base + BitVec.ofNat 12 (s.pkts.length + s.rules.length))
      (mem : Stored s.base (s.pkts.map pktSlot ++ ruleSlots s.rules) s.settled) (room : RoomAt s.ring)
  | commit (hs : s.gen.state = .wait) (upv : s.gen.updateValid = true) (rules : s.rules ≠ [])
      (size : s.gen.updateSize.toNat = s.pkts.length + s.rules.length + 1) (len : s.pkts.length + s.rules.length < threshold)
      (addr : s.gen.addrR = s.base) (hdr : s.settled s.base = s.hdr) (noEop : s.hdr.eop = false)
      (mem : Stored s.base (s.pkts.map pktSlot ++ ruleSlots s.rules) s.settled) (room : RoomAt s.ring)
  | wait (hs : s.gen.state = .wait) (upv : s.gen.updateValid = false)
      (addr : s.gen.wrenR = true → RoomAt s.ring ∧ ∃ k < threshold, s.gen.addrR = s.base + BitVec.ofNat 12 k)

theorem ruleSlots_append (l : List Flit512) (x : Flit512) : ruleSlots (l ++ [x]) = l.map (ruleSlot false) ++ [ruleSlot true x] := by
  induction l with
  | nil => rfl
  | cons a l ih =>
    cases l with
    | nil => rfl
    | cons b l => exact congrArg (ruleSlot false a :: ·) ih

theorem length_ruleSlots (l : List Flit512) : (ruleSlots l).length = l.length := by
  rcases List.eq_nil_or_concat l with rfl | ⟨l, y, rfl⟩
  · rfl
  · simp [ruleSlots_append]

theorem GenInv.pending_addr (h : GenInv s) (hw : s.gen.wrenR = true) :
    RoomAt s.ring ∧ ∃ k < threshold, s.gen.addrR = s.base + BitVec.ofNat 12 k := by
  cases h with
  | start _ _ wren => exact absurd hw (by simp [wren])
  | write _ _ _ _ _ len addr wren _ room => exact ⟨room, _, len, addr (wren hw)⟩
  | rule _ _ _ _ len addr _ _ _ room => exact ⟨room, _, len, addr⟩
  | head _ _ _ _ len addr _ room => exact ⟨room, _, len, addr⟩
  | commit _ _ _ _ _ addr _ _ _ room => exact ⟨room, 0, by decide, by simpa using addr⟩
  | wait _ _ addr => exact addr hw

section Steps

variable (hok : s.Ok t) (hkeep : s.gen.updateValid = false → RoomAt s.ring → RoomAt (s.step t).ring)

include hok hkeep

theorem GenInv.step_start (hs : s.gen.state = .start) (upv : s.gen.updateValid = false)
    (hfree : 2 * threshold ≤ s.ring.freeSlot → RoomAt s.ring) : GenInv (s.step t) := by
  have hg : (s.step t).gen = s.gen.step (s.genIn t) := rfl
  have hp : (s.step t).pkts = [] := by simp [step, hs]
  have hr : (s.step t).rules = [] := by simp [step, hs]
  by_cases hc : s.gen.canStart (s.genIn t) = true
  · refine .write ?_ ?_ hr ?_ ?_ (by rw [hp]; decide) (fun h => absurd hp h) ?_ ?_ (hkeep upv (hfree (hok.room hs hc)))
    · simp [hg, PduGen.step, hs, hc]
    · simp [hg, PduGen.step, hs]
    · simp [hg, PduGen.step, hs]
    · simp [hg, PduGen.step, hs, hp]
    · simp [hg, PduGen.step, hs]
    · rw [hp]
      exact Stored.nil
  · refine .start ?_ ?_ ?_
    · simp [hg, PduGen.step, hs, hc]
    · simp [hg, PduGen.step, hs]
    · simp [hg, PduGen.step, hs]

section Write

variable (hs : s.gen.state = .write) (upv : s.gen.updateValid = false) (rules : s.rules = []) (cnt : s.gen.ruleCnt = 0)
  (flit : s.gen.pduFlit = BitVec.ofNat 16 s.pkts.length) (addr : s.pkts ≠ [] → s.gen.addrR = s.base + BitVec.ofNat 12 s.pkts.length)
  (mem : Stored s.base (s.pkts.map pktSlot) s.settled) (room : RoomAt s.ring)

include hs upv rules cnt flit addr mem room

theorem GenInv.write_take {f : Flit512} (hf : t.pkt = some f) : GenInv (s.step t) := by
  have hg : (s.step t).gen = s.gen.writePkt (s.genIn t) f := by simp [step, PduGen.step, hs, genIn, hf]
  have hp : (s.step t).pkts = s.pkts ++ [f] := by simp [step, hs, takenPkt, hf]
  have hr : (s.step t).rules = [] := by simp [step, hs, takenRule, rules]
  have hlen : s.pkts.length + 1 < threshold := by simpa [hp, hr] using hok.small
  have hlt : s.pkts.length + 1 < 4096 := hlen.trans (by decide)
  have haddr : (s.step t).gen.addrR = s.base + BitVec.ofNat 12 (s.pkts.length + 1) := by
    have hsop := hok.first f (by simp [takenPkt, hs, hf])
    rw [hg]
    show (if f.sop = true then s.base + 1 else s.gen.addrR + 1) = _
    by_cases he : s.pkts = []
    · rw [if_pos (by simp [hsop, he]), he]
      rfl
    · rw [if_neg (by simp [hsop, he]), addr he, PduSys.addr_succ]
  have hbase : (s.step t).base = s.base := base_step upv
  have hmem : Stored s.base ((s.pkts ++ [f]).map pktSlot) (s.step t).settled := by
    rw [settled_of_write (by rw [hg]; rfl), haddr, show (s.step t).gen.pending.slot = pktSlot f by rw [PduGen.pending, hg]; rfl]
    have h := mem.snoc (by simpa using hlt) (pktSlot f)
    rw [List.length_map] at h
    rwa [List.map_append]
  have hflit : (s.step t).gen.pduFlit = BitVec.ofNat 16 (s.pkts.length + 1) := by
    rw [hg, ← PduSys.ofNat_succ, ← flit]
    rfl
  have hcnt : (s.step t).gen.ruleCnt = 0 := by
    rw [hg]
    exact cnt
  have hupv : (s.step t).gen.updateValid = false := by
    rw [hg]
    exact upv
  by_cases heop : f.eop = true
  · refine .rule (by rw [hg]; simp [PduGen.writePkt, heop]) hupv (by rw [hcnt, hr]; rfl) ?_ ?_ ?_ (by simp [hr]) ?_ ?_ (hkeep upv room)
    · simpa [hp, hr] using hflit
    · simpa [hp, hr] using hlen
    · simpa [hp, hr, hbase] using haddr
    · exact ⟨by rw [hg]; rfl, by rw [hg]; rfl⟩
    · simpa [hp, hr, hbase] using hmem
  · refine .write (by rw [hg]; simp [PduGen.writePkt, heop]) hupv hr hcnt ?_ ?_ ?_ (by simp [hp]) ?_ (hkeep upv room)
    · simpa [hp] using hflit
    · simpa [hp] using hlen
    · simpa [hp, hbase] using haddr
    · simpa [hp, hbase] using hmem

theorem GenInv.write_idle (hf : t.pkt = none) : GenInv (s.step t) := by
  have hg : (s.step t).gen = { s.gen with wrenR := false, sopR := false, eopR := false, rbWr := s.gen.pending } := by
    simp [step, PduGen.step, hs, genIn, hf]
  have hp : (s.step t).pkts = s.pkts := by simp [step, hs, takenPkt, hf]
  have hr : (s.step t).rules = [] := by simp [step, hs, takenRule, rules]
  have hlen : s.pkts.length < threshold := by simpa [hp, hr] using hok.small
  have hset : (s.step t).settled = s.settled := settled_of_no_write (by rw [hg])
  have hbase : (s.step t).base = s.base := base_step upv
  refine .write (by rw [hg]; exact hs) (by rw [hg]; exact upv) hr (by rw [hg]; exact cnt) ?_ ?_ ?_ (by simp [hg]) ?_ (hkeep upv room)
  · rw [hg, hp]
    exact flit
  · rwa [hp]
  · rw [hg, hp, hbase]
    exact addr
  · rwa [hset, hp, hbase]

end Write

section Rule

variable (hs : s.gen.state = .writeRuleId) (upv : s.gen.updateValid = false) (cnt : s.gen.ruleCnt = BitVec.ofNat 12 s.rules.length)
  (flit : s.gen.pduFlit = BitVec.ofNat 16 (s.pkts.length + s.rules.length))
  (addr : s.gen.addrR = s.base + BitVec.ofNat 12 (s.pkts.length + s.rules.length))
  (data : ∀ x ∈ s.rules.getLast?, s.gen.dataR = x.data) (flags : s.gen.sopR = false ∧ s.gen.eopR = false)
  (mem : Stored s.base (s.pkts.map pktSlot ++ s.rules.map (ruleSlot false)) s.settled) (room : RoomAt s.ring)

include hs upv cnt flit addr mem room

include flags in
theorem GenInv.rule_take {f : Flit512} (hf : t.rule = some f) (hmid : f.eop = false) : GenInv (s.step t) := by
  have hg : (s.step t).gen = s.gen.writeRule f := by simp [step, PduGen.step, hs, genIn, hf]
  have hp : (s.step t).pkts = s.pkts := by simp [step, hs, takenPkt]
  have hr : (s.step t).rules = s.rules ++ [f] := by simp [step, hs, takenRule, hf, hmid]
  have hlen : s.pkts.length + (s.rules.length + 1) < threshold := by simpa [hp, hr] using hok.small
  have hlt : s.pkts.length + (s.rules.length + 1) < 4096 := hlen.trans (by decide)
  have hbase : (s.step t).base = s.base := base_step upv
  have hslot : (s.step t).gen.pending.slot = ruleSlot false f := by
    rw [PduGen.pending, hg]
    simp [PduGen.writeRule, hmid, flags, ruleSlot]
  have haddr : (s.step t).gen.addrR = s.base + BitVec.ofNat 12 (s.pkts.length + s.rules.length + 1) := by
    rw [← PduSys.addr_succ, ← addr, hg]
    simp [PduGen.writeRule, hmid]
  refine .rule ?_ ?_ ?_ ?_ ?_ ?_ ?_ ?_ ?_ (hkeep upv room)
  · rw [hg]
    simp [PduGen.writeRule, hmid, hs]
  · rw [hg]
    simp [PduGen.writeRule, hmid, upv]
  · rw [hg, hr]
    simp [PduGen.writeRule, hmid, cnt, BitVec.ofNat_add]
  · rw [hg, hp, hr]
    rw [List.length_append, List.length_singleton, ← Nat.add_assoc, ← PduSys.ofNat_succ, ← flit]
    simp [PduGen.writeRule, hmid]
  · rw [hp, hr]
    simpa using hlen
  · rw [haddr, hbase, hp, hr]
    simp [Nat.add_assoc]
  · rw [hr, hg]
    simp [PduGen.writeRule, hmid]
  · rw [hg]
    simp [PduGen.writeRule, hmid, flags]
  · rw [settled_of_write (by rw [hg]; simp [PduGen.writeRule, hmid]), hslot, haddr, hbase, hp, hr]
    have h := mem.snoc (by simp; omega) (ruleSlot false f)
    simpa [pduAddr] using h

include data

include flags in
theorem GenInv.rule_idle (hf : t.rule = none) : GenInv (s.step t) := by
  have hg : (s.step t).gen = { s.gen with swap := false, wrenR := false, rbWr := s.gen.pending } := by
    simp [step, PduGen.step, hs, genIn, hf]
  have hp : (s.step t).pkts = s.pkts := by simp [step, hs, takenPkt]
  have hr : (s.step t).rules = s.rules := by simp [step, hs, takenRule, hf]
  have hset : (s.step t).settled = s.settled := settled_of_no_write (by rw [hg])
  have hlen := hok.small
  rw [hp, hr] at hlen
  refine .rule (by rw [hg]; exact hs) (by rw [hg]; exact upv) ?_ ?_ ?_ ?_ ?_ (by rw [hg]; exact flags) ?_ (hkeep upv room)
  · rwa [hg, hr]
  · rwa [hg, hp, hr]
  · rwa [hp, hr]
  · rwa [hg, hp, hr, base_step upv]
  · rwa [hg, hr]
  · rwa [hset, hp, hr, base_step upv]

theorem GenInv.rule_end {f : Flit512} (hf : t.rule = some f) (hend : f.eop = true) : GenInv (s.step t) := by
  have hg : (s.step t).gen = s.gen.writeRule f := by simp [step, PduGen.step, hs, genIn, hf]
  have hp : (s.step t).pkts = s.pkts := by simp [step, hs, takenPkt]
  have hr : (s.step t).rules = s.rules := by simp [step, hs, takenRule, hf, hend]
  have hbase : (s.step t).base = s.base := base_step upv
  have hlen := hok.small
  rw [hp, hr] at hlen
  have hupv : (s.step t).gen.updateValid = false := by
    rw [hg]
    simp [PduGen.writeRule, hend, upv]
  have haddr : (s.step t).gen.addrR = s.base + BitVec.ofNat 12 (s.pkts.length + s.rules.length) := by
    rw [← addr, hg]
    simp [PduGen.writeRule, hend]
  rcases List.eq_nil_or_concat s.rules with hnil | ⟨l, x, hx⟩
  · -- no rule: nothing is committed
    have hz : s.gen.ruleCnt = 0 := by rw [cnt, hnil]; rfl
    refine .wait ?_ hupv (fun _ => ⟨hkeep upv room, _, hlen, ?_⟩)
    · rw [hg]
      simp [PduGen.writeRule, hend, hz]
    · rw [hbase, haddr]
  · rw [List.concat_eq_append] at hx
    have hlen' : s.pkts.length + (l.length + 1) < 4096 := by
      rw [hx] at hlen
      simp only [List.length_append, List.length_singleton] at hlen
      exact hlen.trans (by decide)
    have hne : s.gen.ruleCnt ≠ 0 := by
      intro h
      have hz := congrArg BitVec.toNat (cnt.symm.trans h)
      rw [hx] at hz
      simp at hz
      omega
    have hslot : (s.step t).gen.pending.slot = ruleSlot true x := by
      have hd : s.gen.dataR = x.data := data x (by simp [hx])
      rw [PduGen.pending, hg]
      simp [PduGen.writeRule, hend, hd, ruleSlot]
    refine .head ?_ hupv (by simp [hr, hx]) ?_ (by rwa [hp, hr]) (by rw [haddr, hbase, hp, hr]) ?_ (hkeep upv room)
    · rw [hg]
      simpa [PduGen.writeRule, hend] using hne
    · rw [hg, hp, hr, ← PduSys.ofNat_succ, ← flit]
      simp [PduGen.writeRule, hend]
    · rw [settled_of_write (by rw [hg]; simp [PduGen.writeRule, hend]), hslot, haddr, hbase, hp, hr, hx, ruleSlots_append, ← List.append_assoc]
      rw [hx, List.map_append, ← List.append_assoc] at mem
      have h := mem.replace (by simp; omega) (ruleSlot true x)
      simpa [pduAddr, Nat.add_assoc] using h

end Rule

theorem GenInv.step_head (hs : s.gen.state = .writeHead) (upv : s.gen.updateValid = false) (rules : s.rules ≠ [])
    (flit : s.gen.pduFlit = BitVec.ofNat 16 (s.pkts.length + s.rules.length + 1))
    (mem : Stored s.base (s.pkts.map pktSlot ++ ruleSlots s.rules) s.settled) (room : RoomAt s.ring) : GenInv (s.step t) := by
  have hg : (s.step t).gen = s.gen.step (s.genIn t) := rfl
  have hp : (s.step t).pkts = s.pkts := by simp [step, hs, takenPkt]
  have hr : (s.step t).rules = s.rules := by simp [step, hs, takenRule]
  have hbase : (s.step t).base = s.base := base_step upv
  have hlen := hok.small
  rw [hp, hr] at hlen
  have hlt : s.pkts.length + s.rules.length + 1 < 4096 := (Nat.succ_le_of_lt hlen).trans_lt (by decide)
  have hslot : (s.step t).gen.pending.slot = (s.step t).hdr := by
    simp [PduGen.pending, step, PduGen.step, hs, genIn]
  have hset : (s.step t).settled = upd s.settled s.base (s.step t).hdr := by
    rw [settled_of_write (by rw [hg]; simp [PduGen.step, hs]), hslot, hg]
    simp [PduGen.step, hs, genIn]
  refine .commit ?_ ?_ (by rwa [hr]) ?_ (by rwa [hp, hr]) ?_ ?_ ?_ ?_ (hkeep upv room)
  · rw [hg]
    simp [PduGen.step, hs]
  · rw [hg]
    simp [PduGen.step, hs]
  · rw [hg, hp, hr]
    simp [PduGen.step, hs, flit]
    omega
  · rw [hbase, hg]
    simp [PduGen.step, hs, genIn]
  · rw [hbase, hset]
    simp [upd]
  · simp [step, hs]
  · rw [hset, hbase, hp, hr]
    refine mem.header ?_ _
    rw [List.length_append, List.length_map, length_ruleSlots]
    omega

omit hok hkeep in
theorem GenInv.step_wait (hs : s.gen.state = .wait) : GenInv (s.step t) := by
  have hg : (s.step t).gen = s.gen.step (s.genIn t) := rfl
  by_cases hr : t.pdumetaReady = true
  · exact .start (by simp [hg, PduGen.step, hs, genIn, hr]) (by simp [hg, PduGen.step, hs]) (by simp [hg, PduGen.step, hs])
  · exact .wait (by simp [hg, PduGen.step, hs, genIn, hr]) (by simp [hg, PduGen.step, hs]) (by simp [hg, PduGen.step, hs])

theorem GenInv.step (h : GenInv s) (hfree : 2 * threshold ≤ s.ring.freeSlot → RoomAt s.ring) : GenInv (s.step t) := by
  cases h with
  | start hs upv _ => exact GenInv.step_start hok hkeep hs upv hfree
  | write hs upv rules cnt flit _ addr _ mem room =>
    cases hf : t.pkt with
    | none => exact GenInv.write_idle hok hkeep hs upv rules cnt flit addr mem room hf
    | some f => exact GenInv.write_take hok hkeep hs upv rules cnt flit addr mem room hf
  | rule hs upv cnt flit _ addr data flags mem room =>
    cases hf : t.rule with
    | none => exact GenInv.rule_idle hok hkeep hs upv cnt flit addr data flags mem room hf
    | some f =>
      by_cases he : f.eop = true
      · exact GenInv.rule_end hok hkeep hs upv cnt flit addr data mem room hf he
      · exact GenInv.rule_take hok hkeep hs upv cnt flit addr flags mem room hf (Bool.eq_false_iff.2 he)
  | head hs upv rules flit _ _ mem room => exact GenInv.step_head hok hkeep hs upv rules flit mem room
  | commit hs => exact GenInv.step_wait hs
  | wait hs => exact GenInv.step_wait hs

end Steps

/-! ## The slots of the ring -/

def slotAt (s : RingSys) (n : Nat) : PduSlot := s.settled (BitVec.ofNat 12 n)

def Laid (s : RingSys) (mem : Nat → PduSlot) (u v : List PduSlot) : Prop :=
  Lays maxSlot threshold PduSlot.eop mem s.ring.head s.ring.tail s.ring.lastTail u v

theorem ruleSlots_marks (l : List Flit512) : ∀ k x, (ruleSlots l)[k]? = some x → (x.eop = true ↔ k + 1 = l.length) := by
  rcases List.eq_nil_or_concat l with rfl | ⟨l, y, rfl⟩
  · simp [ruleSlots]
  · intro k x hx
    rw [List.concat_eq_append, ruleSlots_append] at hx
    rw [List.concat_eq_append, List.length_append, List.length_singleton]
    by_cases hk : k < l.length
    · rw [List.getElem?_append_left (by simpa using hk), List.getElem?_map, Option.map_eq_some_iff] at hx
      obtain ⟨f, -, rfl⟩ := hx
      simp [ruleSlot]
      omega
    · rw [List.getElem?_append_right (by simpa using hk), List.getElem?_singleton] at hx
      split at hx
      · cases hx
        rename_i hz
        rw [List.length_map] at hz
        simp [ruleSlot]
        omega
      · cases hx

theorem record_pduSlots (hr : s.rules ≠ []) (hh : s.hdr.eop = false) : Record PduSlot.eop s.pduSlots := by
  refine ⟨by simp [pduSlots], ?_⟩
  have hpos := List.length_pos_of_ne_nil hr
  intro k x hx
  rw [pduSlots, List.length_cons, List.length_append, List.length_map, length_ruleSlots]
  rw [pduSlots] at hx
  cases k with
  | zero =>
    rw [List.getElem?_cons_zero, Option.some.injEq] at hx
    rw [← hx, hh]
    exact ⟨by simp, by omega⟩
  | succ k =>
    rw [List.getElem?_cons_succ] at hx
    by_cases hk : k < s.pkts.length
    · rw [List.getElem?_append_left (by simpa using hk), List.getElem?_map, Option.map_eq_some_iff] at hx
      obtain ⟨f, -, rfl⟩ := hx
      simp [pktSlot]
      omega
    · rw [List.getElem?_append_right (by simpa using hk), List.length_map] at hx
      rw [ruleSlots_marks _ _ _ hx]
      omega

theorem length_pduSlots : s.pduSlots.length = s.pkts.length + s.rules.length + 1 := by
  rw [pduSlots, List.length_cons, List.length_append, List.length_map, length_ruleSlots]

theorem holds_pduSlots (hdr : s.settled s.base = s.hdr) (mem : Stored s.base (s.pkts.map pktSlot ++ ruleSlots s.rules) s.settled) :
    WrapRing.Holds s.slotAt s.ring.tail s.pduSlots := by
  intro k x hx
  rw [pduSlots] at hx
  cases k with
  | zero =>
    rw [List.getElem?_cons_zero, Option.some.injEq] at hx
    exact hdr.trans hx
  | succ k =>
    have h := mem k x hx
    rwa [pduAddr, base, ← BitVec.ofNat_add] at h

theorem occupiedSlot_eq {mem : Nat → PduSlot} {u v : List PduSlot} (h : Laid s mem u v) :
    s.ring.occupiedSlot = u.length + v.length := by
  have hh := h.headLt
  have ht := h.tailLt
  rw [h.length_eq, RingBuffer.occupiedSlot, RingBuffer.wrap]
  rcases h.shape with ⟨hle, -⟩ | ⟨hlt, -, -, hM, hT, -⟩
  · simp only [maxSlot, threshold] at *
    rw [if_neg (by simpa using hle), if_neg (by omega)]
    omega
  · simp only [maxSlot, threshold] at *
    rw [if_pos (by simpa using hlt), if_pos hlt]
    omega

theorem sendSlot_eq {mem : Nat → PduSlot} {u v : List PduSlot} (h : Laid s mem u v) : s.ring.sendSlot = u.length := by
  have hh := h.headLt
  have ht := h.tailLt
  rw [h.piece_eq, RingBuffer.sendSlot, RingBuffer.wrap]
  rcases h.shape with ⟨hle, -⟩ | ⟨hlt, -, -, hM, hT, -⟩
  · simp only [maxSlot, threshold] at *
    rw [if_neg (by simpa using hle), if_neg (by omega)]
    omega
  · simp only [maxSlot, threshold] at *
    rw [if_pos (by simpa using hlt), if_pos hlt]
    omega

theorem room_of_freeSlot {mem : Nat → PduSlot} {u v : List PduSlot} (h : Laid s mem u v) (hf : 2 * threshold ≤ s.ring.freeSlot) :
    RoomAt s.ring := by
  rw [RingBuffer.freeSlot, occupiedSlot_eq h] at hf
  refine h.room_of_free ?_
  simp only [maxSlot, threshold] at *
  omega

theorem ofNat_ne {a b : Nat} (ha : a < 4096) (hb : b < 4096) (h : a ≠ b) : BitVec.ofNat 12 a ≠ BitVec.ofNat 12 b := by
  intro he
  have hn := congrArg BitVec.toNat he
  simp only [BitVec.toNat_ofNat] at hn
  omega

theorem GenInv.pending_clear {mem : Nat → PduSlot} {u v : List PduSlot} (h : GenInv s) (hl : Laid s mem u v)
    (hw : s.gen.wrenR = true) : ∀ k < u.length, s.gen.addrR ≠ BitVec.ofNat 12 (s.ring.head + k) := by
  obtain ⟨hroom, j, hj, ha⟩ := h.pending_addr hw
  intro k hk
  have hend := hl.end_lt
  have ht := hl.tailLt
  rw [ha, base, ← BitVec.ofNat_add]
  refine ofNat_ne ?_ ?_ (hl.apart hroom hk hj).symm <;> simp only [maxSlot, threshold] at * <;> omega

theorem GenInv.room_of_write (h : GenInv s) (hw : (s.step t).gen.wrenR = true) : RoomAt s.ring := by
  have hg : (s.step t).gen = s.gen.step (s.genIn t) := rfl
  cases h with
  | start hs => simp [hg, PduGen.step, hs] at hw
  | write _ _ _ _ _ _ _ _ _ room => exact room
  | rule _ _ _ _ _ _ _ _ _ room => exact room
  | head _ _ _ _ _ _ _ room => exact room
  | commit _ _ _ _ _ _ _ _ _ room => exact room
  | wait hs => simp [hg, PduGen.step, hs] at hw

theorem Laid.mid {u v : List PduSlot} (h : Laid s s.slotAt u v) (hg : GenInv s) (hg' : GenInv (s.step t)) :
    ∃ u' v', Lays maxSlot threshold PduSlot.eop (s.step t).slotAt s.ring.head (s.step t).ring.tail (s.step t).ring.lastTail u' v' ∧
      u' ++ v' = u ++ v ++ (if s.gen.updateValid = true then s.pduSlots else []) ∧ u <+: u' := by
  by_cases hup : s.gen.updateValid = true
  · cases hg with
    | start _ upv => exact absurd hup (by simp [upv])
    | write _ upv => exact absurd hup (by simp [upv])
    | rule _ upv => exact absurd hup (by simp [upv])
    | head _ upv => exact absurd hup (by simp [upv])
    | wait _ upv => exact absurd hup (by simp [upv])
    | commit hs _ rules size len _ hdr noEop mem room =>
      have hset : (s.step t).slotAt = s.slotAt := by
        funext n
        rw [slotAt, settled_of_no_write (by simp [step, PduGen.step, hs])]
        rfl
      have hrec := record_pduSlots rules noEop
      have hT : s.pduSlots.length ≤ threshold := by
        rw [length_pduSlots]
        exact len
      have hmem := holds_pduSlots hdr mem
      rw [← length_pduSlots] at size
      rw [hset, if_pos hup]
      by_cases hfit : s.ring.tail + s.pduSlots.length < maxSlot
      · have ht : (s.step t).ring.tail = s.ring.tail + s.pduSlots.length := by simp [step, RingBuffer.step, ringIn, hup, size, hfit]
        have hl : (s.step t).ring.lastTail = s.ring.lastTail := by simp [step, RingBuffer.step, ringIn, hup, size, hfit]
        rw [ht, hl]
        exact h.commit room hrec hT hmem hfit
      · have ht : (s.step t).ring.tail = 0 := by simp [step, RingBuffer.step, ringIn, hup, size, hfit]
        have hlt : s.ring.tail + s.pduSlots.length < 4096 := by
          have := h.tailLt
          simp only [maxSlot, threshold] at *
          omega
        have hl : (s.step t).ring.lastTail = s.ring.tail + s.pduSlots.length := by
          simp [step, RingBuffer.step, ringIn, hup, size, hfit, Nat.mod_eq_of_lt hlt]
        rw [ht, hl]
        exact h.commit_wrap room hrec hT hmem (Nat.le_of_not_lt hfit)
  · have hfalse : s.gen.updateValid = false := Bool.eq_false_iff.2 hup
    have ht : (s.step t).ring.tail = s.ring.tail := by simp [step, RingBuffer.step, ringIn, hfalse]
    have hl : (s.step t).ring.lastTail = s.ring.lastTail := by simp [step, RingBuffer.step, ringIn, hfalse]
    rw [if_neg hup, List.append_nil, ht, hl]
    refine ⟨u, v, ?_, rfl, List.prefix_refl u⟩
    by_cases hw : (s.step t).gen.wrenR = true
    · obtain ⟨-, k, hk, ha⟩ := hg'.pending_addr hw
      refine h.write (hg.room_of_write hw) ?_
      intro a ha4 hout
      have htl := h.tailLt
      rw [slotAt, settled_of_write hw, upd, if_neg]
      · rfl
      · rw [ha, base_step hfalse, base, ← BitVec.ofNat_add]
        refine ofNat_ne ?_ ?_ ?_ <;> simp only [maxSlot, threshold] at * <;> omega
    · have hset : (s.step t).slotAt = s.slotAt := by
        funext n
        rw [slotAt, settled_of_no_write (Bool.eq_false_iff.2 hw)]
        rfl
      rw [hset]
      exact h

/-! ## The transfers -/

structure Busy (s : RingSys) (u : List PduSlot) (n f r : Nat) : Prop where
  wait : s.ring.wait = true
  start : s.ring.dmaStart = false
  done : s.dma.done = false
  span : s.ring.dmaBase + s.ring.dmaSize = s.ring.head + n
  last : ∃ x, u[n - 1]? = some x ∧ x.eop = true
  left : s.dma.left + f = n
  next : s.dma.next = s.ring.head + f
  count : f = r + (if s.ring.rdValid = true then 1 else 0) + (if s.ring.rdEnR = true then 1 else 0)
  pos : r < n
  valid : s.ring.rdValid = true → u[r]? = some s.ring.port.q ∧ s.ring.rdAddrR2 = s.ring.head + r
  en : s.ring.rdEnR = true → u[f - 1]? = some s.ring.port.r1 ∧ s.ring.rdAddrR1 + 1 = s.ring.head + f

/-- A transfer with `n` slots from the head on still to be freed; `f` of them are asked for, and `r` are returned. -/
inductive Dma (s : RingSys) (u : List PduSlot) : Nat → Nat → Nat → Prop
  | idle (wait : s.ring.wait = false) (start : s.ring.dmaStart = false) (left : s.dma.left = 0) (en : s.ring.rdEnR = false)
      (valid : s.ring.rdValid = false) : Dma s u 0 0 0
  | start {n : Nat} (wait : s.ring.wait = true) (start : s.ring.dmaStart = true) (left : s.dma.left = 0)
      (en : s.ring.rdEnR = false) (valid : s.ring.rdValid = false) (done : s.dma.done = false) (baseAt : s.ring.dmaBase = s.ring.head)
      (size : s.ring.dmaSize = n) (pos : 0 < n) (last : ∃ x, u[n - 1]? = some x ∧ x.eop = true) : Dma s u n 0 0
  | busy {n f r : Nat} (h : Busy s u n f r) : Dma s u n f r
  | done (wait : s.ring.wait = true) (start : s.ring.dmaStart = false) (left : s.dma.left = 0) (en : s.ring.rdEnR = false)
      (valid : s.ring.rdValid = false) (done : s.dma.done = true) : Dma s u 0 0 0

/-- A write that reaches the memory in this cycle is to no slot that is still to be asked for. -/
def Clear (s : RingSys) (n f : Nat) : Prop :=
  s.gen.rbWr.en = true → ∀ k, f ≤ k → k < n → s.gen.rbWr.addr ≠ BitVec.ofNat 12 (s.ring.head + k)

structure Inv (s : RingSys) (u v : List PduSlot) (n f r : Nat) : Prop where
  gen : GenInv s
  laid : Laid s s.slotAt u v
  dma : Dma s u n f r
  clear : Clear s n f
  log : s.committed = s.readOut ++ (u ++ v).drop r

variable {u v : List PduSlot} {n f r : Nat}

theorem Dma.le (h : Dma s u n f r) : n ≤ u.length := by
  have hlast : ∀ m, (∃ x, u[m - 1]? = some x ∧ x.eop = true) → m ≤ u.length := by
    rintro m ⟨x, hx, -⟩
    obtain ⟨hlt, -⟩ := List.getElem?_eq_some_iff.1 hx
    omega
  cases h with
  | idle => exact Nat.zero_le _
  | start _ _ _ _ _ _ _ _ _ last => exact hlast _ last
  | busy h => exact hlast _ h.last
  | done => exact Nat.zero_le _

theorem Dma.returned (h : Dma s u n f r) (hv : s.ring.rdValid = true) :
    u[r]? = some s.ring.port.q ∧ s.ring.rdAddrR2 = s.ring.head + r ∧ r < n := by
  cases h with
  | idle _ _ _ _ valid => exact absurd hv (by simp [valid])
  | start _ _ _ _ valid => exact absurd hv (by simp [valid])
  | busy h => exact ⟨(h.valid hv).1, (h.valid hv).2, h.pos⟩
  | done _ _ _ _ valid => exact absurd hv (by simp [valid])

theorem head_of_not_eop (h : (s.ring.rdValid && s.ring.port.q.eop) = false) : (s.step t).ring.head = s.ring.head := by
  simp [step, RingBuffer.step, h]

theorem Inv.head_of_eop (h : Inv s u v n f r) (he : (s.ring.rdValid && s.ring.port.q.eop) = true) :
    (s.step t).ring.head = if s.ring.head + r + 1 ≥ maxSlot then 0 else s.ring.head + r + 1 := by
  have hv : s.ring.rdValid = true := (Bool.and_eq_true_iff.1 he).1
  simp [step, RingBuffer.step, he, RingBuffer.nextHead, (h.dma.returned hv).2.1]

theorem Inv.room_keeps (h : Inv s u v n f r) (hup : s.gen.updateValid = false) (hroom : RoomAt s.ring) : RoomAt (s.step t).ring := by
  have ht : (s.step t).ring.tail = s.ring.tail := by simp [step, RingBuffer.step, ringIn, hup]
  rw [RoomAt, ht]
  cases he : s.ring.rdValid && s.ring.port.q.eop with
  | false => rwa [head_of_not_eop he]
  | true =>
    obtain ⟨hv, hq⟩ := Bool.and_eq_true_iff.1 he
    obtain ⟨hx, -, -⟩ := h.dma.returned hv
    rw [h.head_of_eop he]
    split
    · rename_i hge
      rcases h.laid.inner _ _ hx hq with hlt | ⟨hw, -⟩
      · omega
      · exact h.laid.room_wrap hroom hw
    · exact h.laid.room_free hroom hx

theorem Inv.gen_step (h : Inv s u v n f r) (hok : s.Ok t) : GenInv (s.step t) :=
  h.gen.step hok h.room_keeps (room_of_freeSlot h.laid)

theorem Inv.fetched (h : Inv s u v n f r) (hf : f < n) : u[f]? = some (s.ring.mem (BitVec.ofNat 12 (s.ring.head + f))) := by
  have hlt : f < u.length := hf.trans_le h.dma.le
  have hx := List.getElem?_eq_getElem hlt
  rw [hx, Option.some.injEq, ← h.laid.held f _ hx, slotAt, settled, wr_apply, if_neg, wr_apply, if_neg]
  · rintro ⟨hen, ha⟩
    exact h.clear hen f (Nat.le_refl f) hf ha.symm
  · rintro ⟨hen, ha⟩
    exact h.gen.pending_clear h.laid hen f hlt ha.symm

theorem Inv.clear_step (h : Inv s u v n f r) {n' f' : Nat}
    (hin : ∀ k, f' ≤ k → k < n' → ∃ j < u.length, (s.step t).ring.head + k = s.ring.head + j) : Clear (s.step t) n' f' := by
  intro hen k hf hn
  have hrb : (s.step t).gen.rbWr = s.gen.pending := PduSys.rbWr_step _ _
  obtain ⟨j, hj, he⟩ := hin k hf hn
  rw [hrb] at hen ⊢
  rw [he]
  exact h.gen.pending_clear h.laid hen j hj

theorem getElem?_of_initial {u' : List PduSlot} {k : Nat} {x : PduSlot} (h : u <+: u') (hx : u[k]? = some x) : u'[k]? = some x := by
  obtain ⟨w, rfl⟩ := h
  obtain ⟨hk, -⟩ := List.getElem?_eq_some_iff.1 hx
  rwa [List.getElem?_append_left hk]

theorem Inv.log_step (h : Inv s u v n f r) {u' v' : List PduSlot} (hr : r ≤ u.length)
    (hcat : u' ++ v' = u ++ v ++ (if s.gen.updateValid = true then s.pduSlots else [])) (hpre : u <+: u') :
    (s.step t).committed = (s.step t).readOut ++ (u' ++ v').drop (r + if s.ring.rdValid = true then 1 else 0) := by
  have hc : (s.step t).committed = s.readOut ++ (u' ++ v').drop r := by
    have hle : r ≤ (u ++ v).length := hr.trans (by simp)
    rw [hcat, List.drop_append_of_le_length hle, ← List.append_assoc, ← h.log]
    by_cases hup : s.gen.updateValid = true <;> simp [step, hup]
  rw [hc]
  by_cases hv : s.ring.rdValid = true
  · obtain ⟨hx, -, -⟩ := h.dma.returned hv
    have hx' : (u' ++ v')[r]? = some s.ring.port.q := by
      obtain ⟨hlt, -⟩ := List.getElem?_eq_some_iff.1 hx
      rw [List.getElem?_append_left (hlt.trans_le hpre.length_le)]
      exact getElem?_of_initial hpre hx
    obtain ⟨hlt, hget⟩ := List.getElem?_eq_some_iff.1 hx'
    rw [if_pos hv, List.drop_eq_getElem_cons hlt, hget]
    simp [step, hv]
  · simp [step, hv]

theorem Inv.busy_step (h : Inv s u v n f r) (hb : Busy s u n f r) {u' : List PduSlot} (hpre : u <+: u') {m : Nat} (hm : m ≤ r + if s.ring.rdValid = true then 1 else 0)
    (hgo : (r + if s.ring.rdValid = true then 1 else 0) < n) (hhead : (s.step t).ring.head = s.ring.head + m) :
    Busy (s.step t) (u'.drop m) (n - m) (f + (if s.dma.rdEn t.fetch = true then 1 else 0) - m)
      (r + (if s.ring.rdValid = true then 1 else 0) - m) := by
  obtain ⟨wait, start, done, span, last, left, next, count, -, valid, en⟩ := hb
  have hrd : s.dma.rdEn t.fetch = true → f < n := by
    intro hf
    have hpos : 0 < s.dma.left := by simpa using (Bool.and_eq_true_iff.1 hf).2
    omega
  have hle : f ≤ n := by omega
  refine ⟨?_, ?_, ?_, ?_, ?_, ?_, ?_, ?_, by omega, ?_, ?_⟩
  · simp [step, RingBuffer.step, ringIn, wait, done]
  · simp [step, RingBuffer.step, wait]
  · -- the slot that is returned is not the last one
    show (s.ring.rdValid && s.ring.rdAddrR2 == s.ring.dmaBase + s.ring.dmaSize - 1) = false
    by_cases hv : s.ring.rdValid = true
    · rw [if_pos hv] at hgo
      rw [(valid hv).2, span, hv, Bool.true_and, beq_eq_false_iff_ne]
      omega
    · simp [hv]
  · have hb : (s.step t).ring.dmaBase = s.ring.dmaBase := by simp [step, RingBuffer.step, wait]
    have hz : (s.step t).ring.dmaSize = s.ring.dmaSize := by simp [step, RingBuffer.step, wait]
    rw [hb, hz, span, hhead]
    omega
  · obtain ⟨x, hx, he⟩ := last
    refine ⟨x, ?_, he⟩
    rw [List.getElem?_drop, show m + (n - m - 1) = n - 1 by omega]
    exact getElem?_of_initial hpre hx
  · show (if s.ring.dmaStart = true then _ else if s.dma.rdEn t.fetch = true then s.dma.left - 1 else s.dma.left) + _ = _
    rw [if_neg (by simp [start])]
    by_cases hf : s.dma.rdEn t.fetch = true
    · have hlt := hrd hf
      rw [if_pos hf, if_pos hf]
      omega
    · rw [if_neg hf, if_neg hf]
      omega
  · show (if s.ring.dmaStart = true then _ else if s.dma.rdEn t.fetch = true then s.dma.next + 1 else s.dma.next) = _
    rw [if_neg (by simp [start]), hhead, next]
    by_cases hf : s.dma.rdEn t.fetch = true
    · rw [if_pos hf, if_pos hf]
      omega
    · rw [if_neg hf, if_neg hf]
      omega
  · show _ = _ + (if s.ring.rdEnR = true then 1 else 0) + (if s.dma.rdEn t.fetch = true then 1 else 0)
    omega
  · intro hv
    have hen : s.ring.rdEnR = true := hv
    obtain ⟨hx, ha⟩ := en hen
    rw [if_pos hen] at count
    constructor
    · rw [List.getElem?_drop, show m + (r + (if s.ring.rdValid = true then 1 else 0) - m) = f - 1 by omega]
      exact getElem?_of_initial hpre hx
    · show s.ring.rdAddrR1 = _
      rw [hhead]
      omega
  · intro hf
    have hfe : s.dma.rdEn t.fetch = true := hf
    have hlt := hrd hfe
    rw [if_pos hfe]
    constructor
    · rw [List.getElem?_drop, show m + (f + 1 - m - 1) = f by omega]
      refine getElem?_of_initial hpre ?_
      rw [h.fetched hlt, ← next]
      simp [step, RingBuffer.step, RdPort.step, ringIn, hfe]
    · show s.dma.next + 1 = _
      rw [hhead, next]
      omega

section Cycle

variable {u' v' : List PduSlot}
  (mid : Lays maxSlot threshold PduSlot.eop (s.step t).slotAt s.ring.head (s.step t).ring.tail (s.step t).ring.lastTail u' v')
  (hcat : u' ++ v' = u ++ v ++ (if s.gen.updateValid = true then s.pduSlots else [])) (hpre : u <+: u') (hg : GenInv (s.step t))

include mid hcat hpre hg

theorem Inv.stay (h : Inv s u v n f r) (hr : r ≤ u.length) (he : (s.ring.rdValid && s.ring.port.q.eop) = false) (n' f' : Nat)
    (hd : Dma (s.step t) u' n' f' (r + if s.ring.rdValid = true then 1 else 0))
    (hin : ∀ k, f' ≤ k → k < n' → k < u.length) :
    ∃ u v n f r, Inv (s.step t) u v n f r := by
  have hhead : (s.step t).ring.head = s.ring.head := head_of_not_eop he
  refine ⟨u', v', n', f', _, hg, ?_, hd, h.clear_step ?_, h.log_step hr hcat hpre⟩
  · rw [Laid, hhead]
    exact mid
  · intro k hf hn
    exact ⟨k, hin k hf hn, by rw [hhead]⟩

theorem Inv.move (h : Inv s u v n f r) (hv : s.ring.rdValid = true) (he : s.ring.port.q.eop = true) (hlt : r + 1 < n) (f' : Nat)
    (hd : (s.step t).ring.head = s.ring.head + (r + 1) → Dma (s.step t) (u'.drop (r + 1)) (n - (r + 1)) (f' - (r + 1)) 0) :
    ∃ u v n f r, Inv (s.step t) u v n f r := by
  obtain ⟨hx, -, -⟩ := h.dma.returned hv
  have hn := h.dma.le
  have hin : s.ring.head + r + 1 < maxSlot := by
    rcases h.laid.inner _ _ hx he with hin | ⟨-, hend⟩
    · exact hin
    · omega
  have hhead : (s.step t).ring.head = s.ring.head + (r + 1) := by
    rw [h.head_of_eop (by simp [hv, he]), if_neg (by omega)]
    rfl
  have hlog := h.log_step (t := t) (by omega) hcat hpre
  rw [if_pos hv, List.drop_append_of_le_length (by have := hpre.length_le; omega)] at hlog
  refine ⟨u'.drop (r + 1), v', _, _, 0, hg, ?_, hd hhead, h.clear_step ?_, hlog⟩
  · rw [Laid, hhead]
    exact mid.free (getElem?_of_initial hpre hx) hin
  · intro k hk hkn
    exact ⟨r + 1 + k, by omega, by rw [hhead]; omega⟩

theorem Inv.finish (h : Inv s u v n f r) (hv : s.ring.rdValid = true) (he : s.ring.port.q.eop = true) (hlast : r + 1 = n)
    (hd : ∀ w, Dma (s.step t) w 0 0 0) : ∃ u v n f r, Inv (s.step t) u v n f r := by
  obtain ⟨hx, -, -⟩ := h.dma.returned hv
  have hn := h.dma.le
  have hx' := getElem?_of_initial hpre hx
  have hlog := h.log_step (t := t) (by omega) hcat hpre
  rw [if_pos hv, List.drop_append_of_le_length (by have := hpre.length_le; omega)] at hlog
  have hhead := h.head_of_eop (t := t) (by simp [hv, he])
  by_cases hge : s.ring.head + r + 1 ≥ maxSlot
  · rw [if_pos hge] at hhead
    obtain ⟨hlaid, hnil⟩ := mid.free_wrap hx' he hge
    refine ⟨v', [], 0, 0, 0, hg, ?_, hd _, h.clear_step (by omega), ?_⟩
    · rw [Laid, hhead]
      exact hlaid
    · rw [hlog, hnil]
      simp
  · rw [if_neg hge] at hhead
    refine ⟨u'.drop (r + 1), v', 0, 0, 0, hg, ?_, hd _, h.clear_step (by omega), hlog⟩
    rw [Laid, hhead]
    exact mid.free hx' (by omega)

end Cycle

theorem rdEn_of_left (h : s.dma.left = 0) (fetch : Bool) : s.dma.rdEn fetch = false := by
  simp [DmaReader.rdEn, h]

theorem Dma.idle_step (left : s.dma.left = 0) (start : s.ring.dmaStart = false) (en : s.ring.rdEnR = false)
    (wait : (s.step t).ring.wait = false) (hstart : (s.step t).ring.dmaStart = false) (w : List PduSlot) : Dma (s.step t) w 0 0 0 := by
  refine .idle wait hstart ?_ ?_ ?_
  · simp [step, DmaReader.step, start, rdEn_of_left left, left]
  · simp [step, RingBuffer.step, ringIn, rdEn_of_left left]
  · simp [step, RingBuffer.step, en]

theorem Inv.step (h : Inv s u v n f r) (hok : s.Ok t) : ∃ u v n f r, Inv (s.step t) u v n f r := by
  have hg := h.gen_step hok
  obtain ⟨u', v', mid, hcat, hpre⟩ := h.laid.mid h.gen hg
  have hn := h.dma.le
  have hdma := h.dma
  cases hdma with
  | idle wait start left en valid =>
    by_cases hocc : s.ring.occupiedSlot > 0
    · -- a transfer of the whole first piece is started
      have hpos : 0 < u.length := by
        rw [occupiedSlot_eq h.laid] at hocc
        rcases h.laid.shape with ⟨-, rfl, -⟩ | ⟨-, hu, -⟩
        · simpa using hocc
        · exact List.length_pos_of_ne_nil hu
      refine h.stay mid hcat hpre hg (Nat.zero_le _) (by simp [valid]) u.length 0 ?_ (fun k _ hk => hk)
      obtain ⟨x, hx⟩ : ∃ x, u[u.length - 1]? = some x := ⟨_, List.getElem?_eq_getElem (by omega)⟩
      rw [if_neg (by simp [valid])]
      refine .start ?_ ?_ ?_ ?_ ?_ ?_ ?_ ?_ hpos ⟨_, getElem?_of_initial hpre hx, h.laid.ends _ hx⟩
      · simp [step, RingBuffer.step, wait, hocc]
      · simp [step, RingBuffer.step, wait, hocc]
      · simp [step, DmaReader.step, start, rdEn_of_left left, left]
      · simp [step, RingBuffer.step, ringIn, rdEn_of_left left]
      · simp [step, RingBuffer.step, en]
      · simp [step, DmaReader.step, valid]
      · simp [step, RingBuffer.step, wait, hocc, valid]
      · simp [step, RingBuffer.step, wait, hocc, sendSlot_eq h.laid]
    · refine h.stay mid hcat hpre hg (Nat.zero_le _) (by simp [valid]) 0 0 ?_ (by omega)
      rw [if_neg (by simp [valid])]
      exact Dma.idle_step left start en (by simp [step, RingBuffer.step, wait, hocc]) (by simp [step, RingBuffer.step, wait, hocc, start]) _
  | start wait start left en valid done baseAt size pos last =>
    refine h.stay mid hcat hpre hg (Nat.zero_le _) (by simp [valid]) n 0 ?_ (fun k _ hk => hk.trans_le hn)
    obtain ⟨x, hx, he⟩ := last
    rw [if_neg (by simp [valid])]
    have hhead : (s.step t).ring.head = s.ring.head := head_of_not_eop (by simp [valid])
    refine .busy ⟨?_, ?_, ?_, ?_, ⟨x, getElem?_of_initial hpre hx, he⟩, ?_, ?_, ?_, pos, ?_, ?_⟩
    · simp [step, RingBuffer.step, ringIn, wait, done]
    · simp [step, RingBuffer.step, wait]
    · simp [step, DmaReader.step, valid]
    · rw [hhead, ← baseAt, ← size]
      simp [step, RingBuffer.step, wait]
    · simp [step, DmaReader.step, start, size]
    · rw [hhead, ← baseAt]
      simp [step, DmaReader.step, start]
    · simp [step, RingBuffer.step, ringIn, rdEn_of_left left, en]
    · simp [step, RingBuffer.step, en]
    · simp [step, RingBuffer.step, ringIn, rdEn_of_left left]
  | busy hb =>
    have hpos := hb.pos
    cases he : s.ring.rdValid && s.ring.port.q.eop with
    | false =>
      have hgo : (r + if s.ring.rdValid = true then 1 else 0) < n := by
        by_cases hv : s.ring.rdValid = true
        · rw [if_pos hv]
          by_contra hge
          obtain ⟨x, hx, hxe⟩ := hb.last
          rw [show n - 1 = r by omega, (hb.valid hv).1, Option.some.injEq] at hx
          simp [hv, hx, hxe] at he
        · rwa [if_neg hv]
      refine h.stay mid hcat hpre hg (by omega) he n (f + if s.dma.rdEn t.fetch = true then 1 else 0) ?_ (fun k _ hk => hk.trans_le hn)
      exact .busy (h.busy_step hb hpre (Nat.zero_le _) hgo (head_of_not_eop he))
    | true =>
      obtain ⟨hv, hq⟩ := Bool.and_eq_true_iff.1 he
      by_cases hlast : r + 1 = n
      · have hcount := hb.count
        have hsum := hb.left
        rw [if_pos hv] at hcount
        have hleft : s.dma.left = 0 := by omega
        have hen : s.ring.rdEnR = false := by
          rw [Bool.eq_false_iff]
          intro hc
          rw [if_pos hc] at hcount
          omega
        refine h.finish mid hcat hpre hg hv hq hlast (fun w => .done ?_ ?_ ?_ ?_ ?_ ?_)
        · simp [RingSys.step, RingBuffer.step, ringIn, hb.wait, hb.done]
        · simp [RingSys.step, RingBuffer.step, hb.wait]
        · simp [RingSys.step, DmaReader.step, hb.start, rdEn_of_left hleft, hleft]
        · simp [RingSys.step, RingBuffer.step, ringIn, rdEn_of_left hleft]
        · simp [RingSys.step, RingBuffer.step, hen]
        · simp [RingSys.step, DmaReader.step, hv, (hb.valid hv).2, hb.span]
          omega
      · refine h.move mid hcat hpre hg hv hq (by omega) (f + if s.dma.rdEn t.fetch = true then 1 else 0) (fun hhead => ?_)
        have hd := h.busy_step hb hpre (m := r + 1) (by rw [if_pos hv]) (by rw [if_pos hv]; omega) hhead
        rw [if_pos hv, Nat.sub_self] at hd
        exact .busy hd
  | done wait start left en valid done =>
    refine h.stay mid hcat hpre hg (Nat.zero_le _) (by simp [valid]) 0 0 ?_ (by omega)
    rw [if_neg (by simp [valid])]
    exact Dma.idle_step left start en (by simp [step, RingBuffer.step, ringIn, wait, done]) (by simp [step, RingBuffer.step, wait]) _

/-! ## Runs -/

def init (mem : PduAddr → PduSlot) : RingSys :=
  ⟨PduGen.reset, RingBuffer.reset mem, ⟨0, 0, false⟩, [], [], default, [], []⟩

theorem inv_init (mem : PduAddr → PduSlot) : Inv (init mem) [] [] 0 0 0 where
  gen := .start rfl rfl rfl
  laid := Lays.init (by decide)
  dma := .idle rfl rfl rfl rfl rfl
  clear := fun h => absurd h (by simp [init, PduGen.reset])
  log := rfl

def Held (s : RingSys) : Prop := ∃ u v n f r, Inv s u v n f r

theorem Held.step (h : Held s) (hok : s.Ok t) : Held (s.step t) := by
  obtain ⟨u, v, n, f, r, h⟩ := h
  exact h.step hok

theorem held_run (mem : PduAddr → PduSlot) (ts : List RingTick) (hok : AllSteps RingSys.step Ok (init mem) ts) :
    Held (run RingSys.step (init mem) ts) :=
  run_inv RingSys.step (fun _ _ h hok => Held.step h hok) ts _ ⟨[], [], 0, 0, 0, inv_init mem⟩ hok

/-- The ring neither overwrites nor forgets a slot: in every run the DMA is given the committed slots in their order, and
between two transfers the slots that it was not given are those that the ring counts as occupied. -/
theorem ring_keeps_unread (mem : PduAddr → PduSlot) (ts : List RingTick) (hok : AllSteps RingSys.step Ok (init mem) ts) :
    let s := run RingSys.step (init mem) ts
    s.readOut <+: s.committed ∧ (s.ring.wait = false → s.readOut.length + s.ring.occupiedSlot = s.committed.length) := by
  obtain ⟨u, v, n, f, r, h⟩ := held_run mem ts hok
  refine ⟨⟨_, h.log.symm⟩, ?_⟩
  intro hw
  have hdma := h.dma
  cases hdma with
  | idle =>
    rw [occupiedSlot_eq h.laid, h.log]
    simp
  | start wait => exact absurd hw (by simp [wait])
  | busy h => exact absurd hw (by simp [h.wait])
  | done wait => exact absurd hw (by simp [wait])

instance (s : RingSys) (t : RingTick) : Decidable (s.Ok t) :=
  decidable_of_iff ((s.gen.state = .start → s.gen.canStart (s.genIn t) = true → 2 * threshold ≤ s.ring.freeSlot) ∧
    (s.step t).pkts.length + (s.step t).rules.length < threshold ∧ (s.takenPkt t).all fun f => f.sop == s.pkts.isEmpty)
    ⟨fun h => ⟨h.1, h.2.1, by simpa [Option.all_eq_true] using h.2.2⟩,
      fun h => ⟨h.room, h.small, by simpa [Option.all_eq_true] using h.first⟩⟩

def onePdu : List RingTick :=
  let tick := fun rule => ⟨some ⟨7, true, true, 0⟩, some rule, true, default, true, false, true, true⟩
  List.replicate 3 (tick ⟨5, true, false, 0⟩) ++ List.replicate 12 (tick ⟨0, false, true, 0⟩)

theorem ring_keeps_unread_onePdu :
    let s := run RingSys.step (init fun _ => default) onePdu
    s.readOut.length = 3 ∧ s.readOut <+: s.committed := by
  exact ⟨by decide +kernel, (ring_keeps_unread _ onePdu (by decide +kernel)).1⟩

/-! ## The ring is emptied -/

def quiet : RingTick := ⟨none, none, false, default, true, false, true, true⟩

def unread (s : RingSys) : Nat := s.committed.length - s.readOut.length

def delay (s : RingSys) : Nat :=
  if s.ring.wait = true then
    (if s.dma.done = true then 5 else if s.ring.dmaStart = true then 3
      else if s.ring.rdValid = true then 0 else if s.ring.rdEnR = true then 1 else 2)
  else 4

theorem delay_le (s : RingSys) : s.delay ≤ 5 := by
  unfold delay
  repeat' split
  all_goals decide

structure Resting (s : RingSys) : Prop where
  held : Held s
  start : s.gen.state = .start

theorem Resting.ok (h : Resting s) : s.Ok quiet where
  room := fun _ hc => by simp [PduGen.canStart, genIn, quiet] at hc
  small := by simp [RingSys.step, h.start, threshold]
  first := by simp [takenPkt, h.start]

theorem Resting.step (h : Resting s) : Resting (s.step quiet) where
  held := h.held.step h.ok
  start := by simp [RingSys.step, PduGen.step, h.start, PduGen.canStart, genIn, quiet]

theorem Resting.updateValid (h : Resting s) : s.gen.updateValid = false := by
  obtain ⟨u, v, n, f, r, hi⟩ := h.held
  cases hi.gen with
  | start _ upv => exact upv
  | write _ upv => exact upv
  | rule _ upv => exact upv
  | head _ upv => exact upv
  | commit hs => exact absurd (hs.symm.trans h.start) (by decide)
  | wait _ upv => exact upv

theorem Resting.committed (h : Resting s) : (s.step quiet).committed = s.committed := by
  simp [RingSys.step, h.updateValid]

theorem Resting.falls (h : Resting s) (hu : 0 < s.unread) :
    6 * (s.step quiet).unread + (s.step quiet).delay < 6 * s.unread + s.delay := by
  have hc := h.committed
  obtain ⟨u, v, n, f, r, hi⟩ := h.held
  have hlog := congrArg List.length hi.log
  rw [List.length_append, List.length_drop, List.length_append] at hlog
  have hread : s.ring.rdValid = false → (s.step quiet).unread = s.unread := by
    intro hv
    rw [unread, hc]
    simp [RingSys.step, hv, unread]
  have hdma := hi.dma
  cases hdma with
  | idle wait start left en valid =>
    have hocc : s.ring.occupiedSlot > 0 := by
      rw [occupiedSlot_eq hi.laid]
      rw [unread] at hu
      omega
    rw [hread valid]
    simp [delay, RingSys.step, RingBuffer.step, DmaReader.step, wait, hocc, valid]
  | start wait start left en valid done baseAt size pos last =>
    rw [hread valid]
    simp [delay, RingSys.step, RingBuffer.step, DmaReader.step, ringIn, wait, start, done, valid, en, rdEn_of_left left]
  | busy hb =>
    obtain ⟨wait, start, done, -, -, left, -, count, pos, -, -⟩ := hb
    by_cases hv : s.ring.rdValid = true
    · have hlt : (s.step quiet).unread + 1 = s.unread := by
        rw [unread, hc] at *
        simp [RingSys.step, hv, unread]
        omega
      have hd := delay_le (s.step quiet)
      omega
    · have hv' : s.ring.rdValid = false := Bool.eq_false_iff.2 hv
      rw [hread hv']
      by_cases hen : s.ring.rdEnR = true
      · simp [delay, RingSys.step, RingBuffer.step, DmaReader.step, ringIn, wait, start, done, hv', hen]
      · -- nothing is on its way, so there is a slot to ask for
        have hleft : 0 < s.dma.left := by
          rw [if_neg hv, if_neg hen] at count
          omega
        simp [delay, RingSys.step, RingBuffer.step, DmaReader.step, ringIn, wait, start, done, hv', hen, DmaReader.rdEn, quiet, hleft]
  | done wait start left en valid done =>
    rw [hread valid]
    simp [delay, RingSys.step, RingBuffer.step, DmaReader.step, ringIn, wait, start, done, valid]

theorem Resting.drained (h : Resting s) (m : Nat) (hm : 6 * s.unread + s.delay ≤ m) :
    let s' := run RingSys.step s (List.replicate m quiet)
    Resting s' ∧ s'.committed = s.committed ∧ s'.unread = 0 := by
  have hkeep : ∀ s' t, Resting s' ∧ s'.committed = s.committed → t = quiet → Resting (s'.step t) ∧ (s'.step t).committed = s.committed := by
    rintro s' t ⟨hr, hc⟩ rfl
    exact ⟨hr.step, hr.committed.trans hc⟩
  have hall : AllSteps RingSys.step (fun _ t => t = quiet) s (List.replicate m quiet) := by
    clear hm
    induction m generalizing s with
    | zero => trivial
    | succ m ih => exact ⟨rfl, ih h.step (by rwa [h.committed])⟩
  refine run_reaches RingSys.step (fun s' => Resting s' ∧ s'.committed = s.committed ∧ s'.unread = 0)
    (fun s' => 6 * s'.unread + s'.delay) hkeep ?_ ?_ m ⟨h, rfl⟩ (.inl hm) hall
  · rintro s' ⟨hr, hc⟩
    by_cases hu : 0 < s'.unread
    · exact .inl (hr.falls hu)
    · exact .inr ⟨hr, hc, by omega⟩
  · rintro s' ⟨hr', hc'⟩ ⟨-, hc, hu⟩
    refine ⟨hr', hc', ?_⟩
    rw [unread, hc] at hu
    rw [unread, hc']
    by_cases hv : s'.ring.rdValid = true
    · simp [RingSys.step, hv]
      omega
    · simpa [RingSys.step, hv] using hu

theorem Resting.readOut_eq (h : Resting s) (hu : s.unread = 0) : s.readOut = s.committed := by
  obtain ⟨u, v, n, f, r, hi⟩ := h.held
  have hlog := congrArg List.length hi.log
  rw [List.length_append] at hlog
  have hnil : (u ++ v).drop r = [] := List.eq_nil_of_length_eq_zero (by rw [unread] at hu; omega)
  rw [hi.log, hnil, List.append_nil]

/-- Once no more PDUs come, the DMA gets every committed slot: six cycles for a slot are enough. -/
theorem ring_drains (mem : PduAddr → PduSlot) (ts : List RingTick) (hok : AllSteps RingSys.step Ok (init mem) ts)
    (hrest : (run RingSys.step (init mem) ts).gen.state = .start) (m : Nat)
    (hm : 6 * ((run RingSys.step (init mem) ts).committed.length - (run RingSys.step (init mem) ts).readOut.length) + 5 ≤ m) :
    (run RingSys.step (init mem) (ts ++ List.replicate m quiet)).readOut = (run RingSys.step (init mem) ts).committed := by
  have hr : Resting (run RingSys.step (init mem) ts) := ⟨held_run mem ts hok, hrest⟩
  have hd := delay_le (run RingSys.step (init mem) ts)
  obtain ⟨hr', hc, hu⟩ := hr.drained m (by rw [unread]; omega)
  rw [run_append, hr'.readOut_eq hu, hc]

theorem ring_drains_onePdu :
    (run RingSys.step (init fun _ => default) (onePdu.take 6 ++ List.replicate 23 quiet)).readOut.length = 3 := by
  rw [ring_drains _ (onePdu.take 6) (by decide +kernel) (by decide +kernel) 23 (by decide +kernel)]
  decide +kernel

end RingSys

end Pigasus
