import Pigasus.PduGenSound

/-!
# What becomes of a packet behind the rule match

Beside the slots of the ring, `pdu_gen` hands each packet to `pdu_data_mover`, flit by
flit, and its metadata when the rules are known. The mover sends packets without rules
on, and writes the others to the buffer of packets that the host has to check.
-/

namespace Pigasus

open Hdl Frames

/-! ## The outputs of `pdu_gen` -/

/-- `pdu_metadata_t`: whether the action is `ACTION_CHECK` or `ACTION_NOCHECK`, and `pdu_id`. -/
structure PduMeta where
  check : Bool
  id : BitVec 8
  deriving DecidableEq

structure PduGenOut where
  valid : Bool
  flit : Flit512
  metaValid : Bool
  metaData : PduMeta

def genFlit (f : Flit512) : Flit512 := { f with empty := if f.eop then f.empty else 0 }

def PduGenOut.step (o : PduGenOut) (g : PduGen) (i : PduIn) (disablePcie : Bool) : PduGenOut :=
  match g.state with
  | .start => { o with valid := false, metaValid := false }
  | .write =>
    match i.pkt with
    | some f => { o with valid := true, flit := genFlit f }
    -- `pdu_gen_valid` is not taken back
    | none => o
  | .writeRuleId =>
    match i.rule with
    | some f =>
      if f.eop && !decide (0 < g.ruleCnt) then { o with valid := false, metaValid := true, metaData := ⟨false, 0⟩ }
      else { o with valid := false }
    | none => { o with valid := false }
  | .writeHead => { o with metaValid := true, metaData := ⟨!disablePcie, g.pduId⟩ }
  | .wait => if i.pdumetaReady then { o with metaValid := false } else o

/-! ## The forwarding of `pdu_data_mover` -/

structure DdrWrite where
  addr : Nat
  data : BitVec 512
  sop : Bool
  eop : Bool
  deriving DecidableEq

inductive FwState
  | idle | noCheck | check
  deriving DecidableEq

/-- `addr` is the register of `ddr_wr_req_data`. -/
structure Forward where
  state : FwState
  metaReady : Bool
  addr : Nat

inductive FwdOut
  | noCheck (f : Flit512)
  | ddr (w : DdrWrite)
  deriving DecidableEq

namespace Forward

variable (s : Forward) (m : Option PduMeta) (f : Option Flit512) (noCheckAlmostFull ddrAlmostFull : Bool)

def ready : Bool := s.state != .idle

def nextAddr (id : BitVec 8) (f : Flit512) : Nat := if f.sop then id.toNat <<< 5 else (s.addr + 1) % 2 ^ 27

def start : FwState :=
  match m with
  | some ⟨false, _⟩ => if !s.metaReady && !noCheckAlmostFull then .noCheck else .idle
  | some ⟨true, _⟩ => if !s.metaReady && !ddrAlmostFull then .check else .idle
  | none => .idle

def step : Forward :=
  match s.state, f with
  | .idle, _ => { s with metaReady := false, state := s.start m noCheckAlmostFull ddrAlmostFull }
  | .noCheck, some f => { s with metaReady := if f.eop then true else s.metaReady, state := if f.eop then .idle else .noCheck }
  | .check, some f =>
    { addr := s.nextAddr ((m.map PduMeta.id).getD 0) f
      metaReady := if f.eop then true else s.metaReady
      state := if f.eop then .idle else .check }
  | _, none => s

/-- What is registered in this cycle with `nocheck_valid` or `ddr_wr_req_valid`. -/
def emits : List FwdOut :=
  match s.state, f with
  | .noCheck, some f => [.noCheck f]
  | .check, some f => [.ddr ⟨s.nextAddr ((m.map PduMeta.id).getD 0) f, f.data, f.sop, f.eop⟩]
  | _, _ => []

end Forward

/-! ## The system -/

structure FwdTick where
  pkt : Option Flit512
  rule : Option Flit512
  metaValid : Bool
  metaData : Metadata
  base : PduAddr
  rbAlmostFull : Bool
  emptylistValid : Bool
  genAlmostFull : Bool
  pdumetaReady : Bool
  disablePcie : Bool
  dataSeen : Bool
  noCheckAlmostFull : Bool
  ddrAlmostFull : Bool

/-- A packet, the rule words that came for it, without the last one, which is empty, and the metadata. -/
structure FwdJob where
  flits : List Flit512
  rules : List Flit512
  metaData : PduMeta

/-- The two FIFOs of `pdu_data_mover`, the flits and the rule words of the packet in `pdu_gen`, the packets with metadata so
far, the flits that the mover took and what it sent. -/
structure FwdSys where
  gen : PduGen
  out : PduGenOut
  pduFifo : List Flit512
  metaFifo : List PduMeta
  fwd : Forward
  cur : List Flit512
  rules : List Flit512
  jobs : List FwdJob
  gone : List Flit512
  outs : List FwdOut

namespace FwdSys

variable (s : FwdSys) (t : FwdTick)

def genIn : PduIn where
  pkt := t.pkt
  rule := t.rule
  metaValid := t.metaValid
  metaData := t.metaData
  base := t.base
  almostFull := t.rbAlmostFull
  emptylistValid := t.emptylistValid
  genAlmostFull := t.genAlmostFull
  pdumetaReady := t.pdumetaReady

def intData : Option Flit512 := if t.dataSeen then s.pduFifo.head? else none

def moved : Option Flit512 := if s.fwd.ready then s.intData t else none

def pushed : Option PduMeta := if s.out.metaValid && t.pdumetaReady then some s.out.metaData else none

def accepted : Option Flit512 := if s.gen.state = .write then t.pkt.map genFlit else none

def ruleTaken : Option Flit512 := if s.gen.state = .writeRuleId then t.rule.filter (!·.eop) else none

def step : FwdSys where
  gen := s.gen.step (genIn t)
  out := s.out.step s.gen (genIn t) t.disablePcie
  pduFifo := fifoStep s.pduFifo (if s.out.valid then some s.out.flit else none) (s.moved t).isSome
  metaFifo := fifoStep s.metaFifo (s.pushed t) s.fwd.metaReady
  fwd := s.fwd.step s.metaFifo.head? (s.intData t) t.noCheckAlmostFull t.ddrAlmostFull
  cur := if (s.pushed t).isSome then [] else s.cur ++ (s.accepted t).toList
  rules := if (s.pushed t).isSome then [] else s.rules ++ (s.ruleTaken t).toList
  jobs := s.jobs ++ ((s.pushed t).map fun m => ⟨s.cur, s.rules, m⟩).toList
  gone := s.gone ++ (s.moved t).toList
  outs := s.outs ++ s.fwd.emits s.metaFifo.head? (s.intData t)

/-- The beats of a packet follow each other, the first one is marked, and there are at most 32 of them; `d` is the setting
`disable_pcie`. -/
structure Ok (d : Bool) (s : FwdSys) (t : FwdTick) : Prop where
  fixed : t.disablePcie = d
  contiguous : s.gen.state = .write → s.cur ≠ [] → t.pkt ≠ none
  first : ∀ f ∈ s.accepted t, f.sop = s.cur.isEmpty
  short : s.accepted t ≠ none → s.cur.length < 32

def init : FwdSys where
  gen := PduGen.reset
  out := ⟨false, ⟨0, false, false, 0⟩, false, ⟨false, 0⟩⟩
  pduFifo := []
  metaFifo := []
  fwd := ⟨.idle, false, 0⟩
  cur := []
  rules := []
  jobs := []
  gone := []
  outs := []

end FwdSys

namespace FwdJob

variable (j : FwdJob)

def write (k : Nat) (f : Flit512) : FwdOut := .ddr ⟨j.metaData.id.toNat * 32 + k, f.data, f.sop, f.eop⟩

/-- The host has to check the packet: `rule_cnt` has 12 bits. -/
def toCheck (d : Bool) (rules : List Flit512) : Bool := decide (rules.length % 2 ^ 12 ≠ 0) && !d

/-- What a packet should become: itself, or writes to the 32 places of its `pdu_id`. -/
def outs : List FwdOut := if j.metaData.check then j.flits.mapIdx j.write else j.flits.map FwdOut.noCheck

end FwdJob

/-! ## Packets on their way through `pdu_gen` -/

def Begun (l : List Flit512) : Prop := ∀ k f, l[k]? = some f → (f.sop = true ↔ k = 0) ∧ f.eop = false

structure Whole (l : List Flit512) : Prop where
  ne : l ≠ []
  le : l.length ≤ 32
  marks : ∀ k f, l[k]? = some f → (f.sop = true ↔ k = 0) ∧ (f.eop = true ↔ k + 1 = l.length)

theorem getElem?_snoc {l : List Flit512} {f g : Flit512} {k : Nat} (h : (l ++ [f])[k]? = some g) :
    (l[k]? = some g ∧ k < l.length) ∨ (k = l.length ∧ g = f) := by
  by_cases hk : k < l.length
  · rw [List.getElem?_append_left hk] at h
    exact .inl ⟨h, hk⟩
  · rw [List.getElem?_append_right (by omega), List.getElem?_singleton] at h
    split at h
    · cases h
      exact .inr ⟨by omega, rfl⟩
    · cases h

theorem sop_iff {l : List Flit512} {f : Flit512} (h : f.sop = l.isEmpty) : f.sop = true ↔ l.length = 0 := by
  rw [h, List.isEmpty_iff, List.length_eq_zero_iff]

theorem Begun.snoc {l : List Flit512} {f : Flit512} (h : Begun l) (hs : f.sop = l.isEmpty) (he : f.eop = false) : Begun (l ++ [f]) := by
  intro k g hg
  rcases getElem?_snoc hg with ⟨hg, -⟩ | ⟨rfl, rfl⟩
  · exact h k g hg
  · exact ⟨sop_iff hs, he⟩

theorem Begun.finish {l : List Flit512} {f : Flit512} (h : Begun l) (hs : f.sop = l.isEmpty) (he : f.eop = true) (hl : l.length < 32) :
    Whole (l ++ [f]) := by
  refine ⟨by simp, by rw [List.length_append]; exact hl, ?_⟩
  intro k g hg
  rw [List.length_append, List.length_singleton]
  rcases getElem?_snoc hg with ⟨hg, hk⟩ | ⟨rfl, rfl⟩
  · obtain ⟨h1, h2⟩ := h k g hg
    exact ⟨h1, by rw [h2]; simp; omega⟩
  · exact ⟨sop_iff hs, by simp [he]⟩

namespace FwdSys

variable {d : Bool} {s : FwdSys} {t : FwdTick}

def reg (s : FwdSys) : List Flit512 := if s.out.valid then [s.out.flit] else []

def Counted (s : FwdSys) : Prop := s.gen.ruleCnt = .ofNat 12 s.rules.length

inductive GenSide (d : Bool) (s : FwdSys) : Prop
  | start (hs : s.gen.state = .start) (valid : s.out.valid = false) (metaV : s.out.metaValid = false) (cur : s.cur = []) (rules : s.rules = [])
  | write (hs : s.gen.state = .write) (metaV : s.out.metaValid = false) (valid : s.cur = [] → s.out.valid = false) (cur : Begun s.cur)
      (rules : s.rules = []) (cnt : Counted s)
  | rule (hs : s.gen.state = .writeRuleId) (metaV : s.out.metaValid = false) (cur : Whole s.cur) (cnt : Counted s)
  | head (hs : s.gen.state = .writeHead) (valid : s.out.valid = false) (metaV : s.out.metaValid = false) (cur : Whole s.cur)
      (check : s.rules.length % 2 ^ 12 ≠ 0)
  | wait (hs : s.gen.state = .wait) (valid : s.out.valid = false) (metaV : s.out.metaValid = true) (cur : Whole s.cur)
      (check : s.out.metaData.check = FwdJob.toCheck d s.rules)

theorem Counted.zero_iff (h : Counted s) : s.gen.ruleCnt = 0#12 ↔ s.rules.length % 2 ^ 12 = 0 := by
  rw [h, ← BitVec.toNat_inj, BitVec.toNat_ofNat]
  rfl

theorem pushed_of_no_meta (h : s.out.metaValid = false) : s.pushed t = none := by
  simp [pushed, h]

theorem GenSide.pushed_wait (h : GenSide d s) {m : PduMeta} (hp : s.pushed t = some m) :
    s.gen.state = .wait ∧ Whole s.cur ∧ m.check = FwdJob.toCheck d s.rules := by
  cases h with
  | start _ _ metaV => exact absurd hp (by simp [pushed_of_no_meta metaV])
  | write _ metaV => exact absurd hp (by simp [pushed_of_no_meta metaV])
  | rule _ metaV => exact absurd hp (by simp [pushed_of_no_meta metaV])
  | head _ _ metaV => exact absurd hp (by simp [pushed_of_no_meta metaV])
  | wait hs _ _ cur check =>
    have hm : s.out.metaData = m := by
      rw [pushed] at hp
      split at hp
      · exact Option.some.inj hp
      · cases hp
    exact ⟨hs, cur, hm ▸ check⟩

theorem cur_step (hp : s.pushed t = none) : (s.step t).cur = s.cur ++ (s.accepted t).toList := by
  simp [step, hp]

theorem rules_step (hp : s.pushed t = none) : (s.step t).rules = s.rules ++ (s.ruleTaken t).toList := by
  simp [step, hp]

theorem rules_step_other (hp : s.pushed t = none) (hs : s.gen.state ≠ .writeRuleId) : (s.step t).rules = s.rules := by
  rw [rules_step hp, ruleTaken, if_neg hs, Option.toList_none, List.append_nil]

theorem GenSide.step_write (hok : s.Ok d t) (hs : s.gen.state = .write) (metaV : s.out.metaValid = false)
    (valid : s.cur = [] → s.out.valid = false) (cur : Begun s.cur) (rules : s.rules = []) (cnt : Counted s) :
    GenSide d (s.step t) ∧ (s.step t).reg = (s.accepted t).toList := by
  have hcur := cur_step (t := t) (pushed_of_no_meta metaV)
  have hrules : (s.step t).rules = s.rules := rules_step_other (pushed_of_no_meta metaV) (by simp [hs])
  have hcnt : Counted (s.step t) := by
    rw [Counted, hrules, ← cnt]
    cases hf : t.pkt <;> simp [step, PduGen.step, PduGen.writePkt, hs, genIn, hf]
  cases hf : t.pkt with
  | none =>
    have hnil : s.cur = [] := by
      by_contra hne
      exact hok.contiguous hs hne hf
    have hacc : s.accepted t = none := by simp [accepted, hs, hf]
    have hout : (s.step t).out = s.out := by simp [step, PduGenOut.step, hs, genIn, hf]
    rw [hacc, Option.toList_none, List.append_nil] at hcur
    refine ⟨.write ?_ (by rw [hout]; exact metaV) (fun _ => by rw [hout]; exact valid hnil) (by rwa [hcur]) (hrules.trans rules) hcnt, ?_⟩
    · simp [step, PduGen.step, hs, genIn, hf]
    · rw [reg, hout, valid hnil, hacc]
      rfl
  | some f =>
    have hacc : s.accepted t = some (genFlit f) := by simp [accepted, hs, hf]
    have hfirst : (genFlit f).sop = s.cur.isEmpty := hok.first _ (by simp [hacc])
    have hshort := hok.short (by simp [hacc])
    have hout : (s.step t).out = { s.out with valid := true, flit := genFlit f } := by simp [step, PduGenOut.step, hs, genIn, hf]
    have hst : (s.step t).gen.state = if f.eop then .writeRuleId else .write := by simp [step, PduGen.step, PduGen.writePkt, hs, genIn, hf]
    rw [hacc] at hcur
    refine ⟨?_, by rw [reg, hout, hacc]; rfl⟩
    by_cases he : f.eop = true
    · refine .rule (by rw [hst, if_pos he]) (by rw [hout]; exact metaV) ?_ hcnt
      rw [hcur]
      exact cur.finish hfirst he hshort
    · refine .write (by rw [hst, if_neg he]) (by rw [hout]; exact metaV) (by simp [hcur]) ?_ (hrules.trans rules) hcnt
      rw [hcur]
      exact cur.snoc hfirst (by simpa [genFlit] using he)

theorem GenSide.step_rule (hs : s.gen.state = .writeRuleId) (metaV : s.out.metaValid = false) (cur : Whole s.cur) (cnt : Counted s) :
    GenSide d (s.step t) ∧ (s.step t).reg = (s.accepted t).toList := by
  have hacc : s.accepted t = none := by simp [accepted, hs]
  have hcur : (s.step t).cur = s.cur := by simp [cur_step (t := t) (pushed_of_no_meta metaV), hacc]
  have hrules := rules_step (t := t) (pushed_of_no_meta metaV)
  rw [ruleTaken, if_pos hs] at hrules
  have hvalid : (s.step t).out.valid = false := by
    simp only [step, PduGenOut.step, hs]
    split
    · split <;> rfl
    · rfl
  refine ⟨?_, by simp [reg, hvalid, hacc]⟩
  rw [← hcur] at cur
  cases hf : t.rule with
  | none =>
    refine .rule (by simp [step, PduGen.step, hs, genIn, hf]) (by simp [step, PduGenOut.step, hs, genIn, hf, metaV]) cur ?_
    have hr : (s.step t).rules = s.rules := by simp [hrules, hf]
    rw [Counted, hr, ← cnt]
    simp [step, PduGen.step, hs, genIn, hf]
  | some f =>
    by_cases he : f.eop = true
    · have hr : (s.step t).rules = s.rules := by simp [hrules, hf, he]
      by_cases hc : s.gen.ruleCnt = 0#12
      · refine .wait ?_ hvalid ?_ cur ?_
        · simp [step, PduGen.step, PduGen.writeRule, hs, genIn, hf, he, hc]
        · simp [step, PduGenOut.step, hs, genIn, hf, he, hc]
        · have hz := cnt.zero_iff.1 hc
          rw [hr, FwdJob.toCheck, hz]
          simp [step, PduGenOut.step, hs, genIn, hf, he, hc]
      · refine .head ?_ hvalid ?_ cur (by rw [hr]; exact fun hz => hc (cnt.zero_iff.2 hz))
        · simp [step, PduGen.step, PduGen.writeRule, hs, genIn, hf, he, hc]
        · simp [step, PduGenOut.step, hs, genIn, hf, he, hc, metaV]
    · have hr : (s.step t).rules.length = s.rules.length + 1 := by simp [hrules, hf, he]
      refine .rule ?_ ?_ cur ?_
      · simp [step, PduGen.step, PduGen.writeRule, hs, genIn, hf, he]
      · simp [step, PduGenOut.step, hs, genIn, hf, he, metaV]
      · have hg : (s.step t).gen.ruleCnt = s.gen.ruleCnt + 1 := by simp [step, PduGen.step, PduGen.writeRule, hs, genIn, hf, he]
        rw [Counted, hr, hg, cnt, BitVec.ofNat_add]
        rfl

theorem GenSide.step (h : GenSide d s) (hok : s.Ok d t) : GenSide d (s.step t) ∧ (s.step t).reg = (s.accepted t).toList := by
  cases h with
  | start hs valid metaV cur rules =>
    have hacc : s.accepted t = none := by simp [accepted, hs]
    have hcur : (s.step t).cur = [] := by simp [cur_step (t := t) (pushed_of_no_meta metaV), hacc, cur]
    have hrules : (s.step t).rules = [] := by rw [rules_step_other (pushed_of_no_meta metaV) (by simp [hs]), rules]
    have hvalid : (s.step t).out.valid = false := by simp [FwdSys.step, PduGenOut.step, hs]
    have hmeta : (s.step t).out.metaValid = false := by simp [FwdSys.step, PduGenOut.step, hs]
    refine ⟨?_, by simp [reg, hvalid, hacc]⟩
    by_cases hc : s.gen.canStart (genIn t) = true
    · have hcnt : Counted (s.step t) := by
        rw [Counted, hrules]
        simp [FwdSys.step, PduGen.step, hs]
      exact .write (by simp [FwdSys.step, PduGen.step, hs, hc]) hmeta (fun _ => hvalid) (by simp [hcur, Begun]) hrules hcnt
    · exact .start (by simp [FwdSys.step, PduGen.step, hs, hc]) hvalid hmeta hcur hrules
  | write hs metaV valid cur rules cnt => exact GenSide.step_write hok hs metaV valid cur rules cnt
  | rule hs metaV cur cnt => exact GenSide.step_rule hs metaV cur cnt
  | head hs valid metaV cur check =>
    have hacc : s.accepted t = none := by simp [accepted, hs]
    have hcur : (s.step t).cur = s.cur := by simp [cur_step (t := t) (pushed_of_no_meta metaV), hacc]
    have hrules : (s.step t).rules = s.rules := rules_step_other (pushed_of_no_meta metaV) (by simp [hs])
    have hvalid : (s.step t).out.valid = false := by simp [FwdSys.step, PduGenOut.step, hs, valid]
    refine ⟨.wait ?_ hvalid ?_ (by rwa [hcur]) ?_, by simp [reg, hvalid, hacc]⟩
    · simp [FwdSys.step, PduGen.step, hs]
    · simp [FwdSys.step, PduGenOut.step, hs]
    · rw [hrules, FwdJob.toCheck, decide_eq_true check, Bool.true_and, ← hok.fixed]
      simp [FwdSys.step, PduGenOut.step, hs]
  | wait hs valid metaV cur check =>
    have hacc : s.accepted t = none := by simp [accepted, hs]
    have hvalid : (s.step t).out.valid = false := by
      simp only [FwdSys.step, PduGenOut.step, hs]
      split <;> exact valid
    refine ⟨?_, by simp [reg, hvalid, hacc]⟩
    by_cases hr : t.pdumetaReady = true
    · refine .start ?_ hvalid ?_ ?_ ?_
      · simp [FwdSys.step, PduGen.step, hs, genIn, hr]
      · simp [FwdSys.step, PduGenOut.step, hs, genIn, hr]
      · simp [FwdSys.step, pushed, metaV, hr]
      · simp [FwdSys.step, pushed, metaV, hr]
    · have hp : s.pushed t = none := by simp [pushed, hr]
      refine .wait ?_ hvalid ?_ ?_ ?_
      · simp [FwdSys.step, PduGen.step, hs, genIn, hr]
      · simp [FwdSys.step, PduGenOut.step, hs, genIn, hr, metaV]
      · simpa [FwdSys.step, pushed, hr, hacc] using cur
      · rw [rules_step_other hp (by simp [hs]), ← check]
        simp [FwdSys.step, PduGenOut.step, hs, genIn, hr]

/-! ## The mover -/

def flitsOf (l : List FwdJob) : List Flit512 := l.flatMap FwdJob.flits

def outsOf (l : List FwdJob) : List FwdOut := l.flatMap FwdJob.outs

def sent (j : FwdJob) (a : List Flit512) : List FwdOut := if j.metaData.check then a.mapIdx j.write else a.map FwdOut.noCheck

structure Busy (s : FwdSys) (done todo : List FwdJob) (j : FwdJob) (a b : List Flit512) : Prop where
  state : s.fwd.state = if j.metaData.check then .check else .noCheck
  ready : s.fwd.metaReady = false
  jobs : s.jobs = done ++ j :: todo
  metas : s.metaFifo = (j :: todo).map FwdJob.metaData
  cut : j.flits = a ++ b
  more : b ≠ []
  gone : s.gone = flitsOf done ++ a
  outs : s.outs = outsOf done ++ sent j a
  addr : j.metaData.check = true → a ≠ [] → s.fwd.addr + 1 = j.metaData.id.toNat * 32 + a.length

inductive FwdSide (s : FwdSys) (done todo : List FwdJob) : Prop
  | idle (hs : s.fwd.state = .idle) (ready : s.fwd.metaReady = false) (jobs : s.jobs = done ++ todo)
      (metas : s.metaFifo = todo.map FwdJob.metaData) (gone : s.gone = flitsOf done) (outs : s.outs = outsOf done)
  -- the metadata of the last packet is still in its FIFO
  | pop (m : PduMeta) (hs : s.fwd.state = .idle) (ready : s.fwd.metaReady = true) (jobs : s.jobs = done ++ todo)
      (metas : s.metaFifo = m :: todo.map FwdJob.metaData) (gone : s.gone = flitsOf done) (outs : s.outs = outsOf done)
  | busy {j a b} (h : Busy s done todo j a b)

structure Inv (d : Bool) (s : FwdSys) (done todo : List FwdJob) : Prop where
  gen : GenSide d s
  flow : s.gone ++ s.pduFifo ++ s.reg = flitsOf s.jobs ++ s.cur
  whole : ∀ j ∈ s.jobs, Whole j.flits ∧ j.metaData.check = FwdJob.toCheck d j.rules
  fwd : FwdSide s done todo

def arriving (s : FwdSys) (t : FwdTick) : List FwdJob := ((s.pushed t).map fun m => ⟨s.cur, s.rules, m⟩).toList

theorem jobs_step : (s.step t).jobs = s.jobs ++ s.arriving t := rfl

theorem metaFifo_step : (s.step t).metaFifo =
    (if s.fwd.metaReady then s.metaFifo.tail else s.metaFifo) ++ (s.arriving t).map FwdJob.metaData := by
  rw [arriving]
  cases hp : s.pushed t <;> simp [step, fifoStep, hp]

theorem flow_step {done todo : List FwdJob} (h : Inv d s done todo) (hok : s.Ok d t) :
    (s.step t).gone ++ (s.step t).pduFifo ++ (s.step t).reg = flitsOf (s.step t).jobs ++ (s.step t).cur := by
  have hpop := fifoStep_pop s.pduFifo (if s.out.valid then some s.out.flit else none) (s.moved t).isSome
  have hm : (if (s.moved t).isSome = true then s.pduFifo.head? else none) = s.moved t := by
    cases hmv : s.moved t with
    | none => rfl
    | some f =>
      rw [moved, intData] at hmv
      split at hmv
      · split at hmv
        · simpa using hmv
        · cases hmv
      · cases hmv
  rw [hm] at hpop
  have hreg : (if s.out.valid then some s.out.flit else none).toList = s.reg := by
    rw [reg]
    split <;> rfl
  rw [hreg] at hpop
  have hleft : (s.step t).gone ++ (s.step t).pduFifo = flitsOf s.jobs ++ s.cur := by
    rw [← h.flow, List.append_assoc, ← hpop]
    simp [step]
  rw [hleft, (h.gen.step hok).2, jobs_step]
  cases hp : s.pushed t with
  | none => simp [arriving, hp, cur_step hp]
  | some m =>
    have hw := (h.gen.pushed_wait hp).1
    simp [arriving, hp, step, accepted, hw, flitsOf]

theorem whole_step {done todo : List FwdJob} (h : Inv d s done todo) :
    ∀ j ∈ (s.step t).jobs, Whole j.flits ∧ j.metaData.check = FwdJob.toCheck d j.rules := by
  intro j hj
  rw [jobs_step, List.mem_append] at hj
  rcases hj with hj | hj
  · exact h.whole j hj
  · rw [arriving] at hj
    cases hp : s.pushed t with
    | none => simp [hp] at hj
    | some m =>
      obtain rfl : j = ⟨s.cur, s.rules, m⟩ := by simpa [hp] using hj
      exact (h.gen.pushed_wait hp).2

theorem Inv.next_flit {done todo : List FwdJob} {j : FwdJob} {a b : List Flit512} {f : Flit512} (h : Inv d s done todo)
    (hb : Busy s done todo j a b) (hf : s.intData t = some f) : ∃ b', b = f :: b' := by
  have hhead : s.pduFifo.head? = some f := by
    rw [intData] at hf
    split at hf
    · exact hf
    · cases hf
  obtain ⟨l, hl⟩ := List.head?_eq_some_iff.1 hhead
  have hflow := h.flow
  rw [hb.gone, hb.jobs, hl] at hflow
  simp only [flitsOf, List.flatMap_append, List.flatMap_cons, hb.cut, List.append_assoc, List.append_cancel_left_eq] at hflow
  obtain ⟨g, b', rfl⟩ := List.exists_cons_of_ne_nil hb.more
  obtain ⟨rfl, -⟩ := List.cons.inj hflow
  exact ⟨b', rfl⟩

section Busy

variable {j : FwdJob} {a b : List Flit512} {f : Flit512} (hw : Whole j.flits) (cut : j.flits = a ++ f :: b)

include hw cut

theorem nextAddr_eq (addr : a ≠ [] → s.fwd.addr + 1 = j.metaData.id.toNat * 32 + a.length) :
    s.fwd.nextAddr j.metaData.id f = j.metaData.id.toNat * 32 + a.length := by
  have hget : j.flits[a.length]? = some f := by rw [cut]; simp
  have hlen := congrArg List.length cut
  have hle := hw.le
  have hid := j.metaData.id.isLt
  rw [List.length_append, List.length_cons] at hlen
  rw [Forward.nextAddr]
  by_cases ha : a = []
  · have hsop : f.sop = true := (hw.marks _ _ hget).1.2 (by simp [ha])
    rw [if_pos hsop, ha, Nat.shiftLeft_eq]
    rfl
  · have hsop : ¬ f.sop = true := by
      intro hc
      exact ha (List.length_eq_zero_iff.1 ((hw.marks _ _ hget).1.1 hc))
    rw [if_neg hsop, addr ha, Nat.mod_eq_of_lt]
    omega

theorem eop_iff : f.eop = true ↔ b = [] := by
  have hget : j.flits[a.length]? = some f := by rw [cut]; simp
  rw [(hw.marks _ _ hget).2, cut, List.length_append, List.length_cons, ← List.length_eq_zero_iff]
  omega

theorem sent_snoc (hs : s.fwd.state = if j.metaData.check then .check else .noCheck)
    (addr : j.metaData.check = true → a ≠ [] → s.fwd.addr + 1 = j.metaData.id.toNat * 32 + a.length) :
    sent j a ++ s.fwd.emits (some j.metaData) (some f) = sent j (a ++ [f]) := by
  by_cases hc : j.metaData.check = true
  · rw [if_pos hc] at hs
    simp [sent, hc, Forward.emits, hs, nextAddr_eq hw cut (addr hc), FwdJob.write, List.mapIdx_append]
  · rw [if_neg hc] at hs
    simp [sent, hc, Forward.emits, hs]

end Busy

variable {done todo : List FwdJob}

theorem FwdSide.step_idle (hs : s.fwd.state = .idle) (ready : s.fwd.metaReady = false) (jobs : s.jobs = done ++ todo)
    (metas : s.metaFifo = todo.map FwdJob.metaData) (gone : s.gone = flitsOf done) (outs : s.outs = outsOf done)
    (hw : ∀ j ∈ s.jobs, Whole j.flits) : ∃ done' todo', FwdSide (s.step t) done' todo' := by
  have hfwd : (s.step t).fwd = { s.fwd with metaReady := false, state := s.fwd.start s.metaFifo.head? t.noCheckAlmostFull t.ddrAlmostFull } := by
    simp [step, Forward.step, hs]
  have hgone : (s.step t).gone = flitsOf done := by simp [step, moved, Forward.ready, hs, gone]
  have houts : (s.step t).outs = outsOf done := by simp [step, Forward.emits, hs, outs]
  have hjobs : (s.step t).jobs = done ++ (todo ++ s.arriving t) := by rw [jobs_step, jobs, List.append_assoc]
  have hmetas : (s.step t).metaFifo = (todo ++ s.arriving t).map FwdJob.metaData := by
    rw [metaFifo_step, ready, if_neg (by simp), metas, List.map_append]
  by_cases hst : (s.step t).fwd.state = .idle
  · exact ⟨done, _, .idle hst (by rw [hfwd]) hjobs hmetas hgone houts⟩
  · -- there is a packet whose metadata is seen, and it is started
    cases todo with
    | nil => exact absurd (by rw [hfwd, metas]; rfl) hst
    | cons j todo =>
      have hwj := hw j (by simp [jobs])
      refine ⟨done, todo ++ s.arriving t, .busy ⟨?_, by rw [hfwd], hjobs, hmetas, (List.nil_append j.flits).symm, hwj.ne,
        by simp [hgone], ?_, ?_⟩⟩
      · rw [hfwd, metas] at hst ⊢
        obtain ⟨fl, ru, c, id⟩ := j
        cases c with
        | false =>
          have hgo : (!t.noCheckAlmostFull) = true := by
            by_contra hno
            exact hst (by simp [Forward.start, hno])
          simp [Forward.start, ready] at hgo ⊢
          simp [hgo]
        | true =>
          have hgo : (!t.ddrAlmostFull) = true := by
            by_contra hno
            exact hst (by simp [Forward.start, hno])
          simp [Forward.start, ready] at hgo ⊢
          simp [hgo]
      · rw [houts, sent]
        simp
      · exact fun _ h => absurd rfl h

theorem FwdSide.step_pop {m : PduMeta} (hs : s.fwd.state = .idle) (ready : s.fwd.metaReady = true) (jobs : s.jobs = done ++ todo)
    (metas : s.metaFifo = m :: todo.map FwdJob.metaData) (gone : s.gone = flitsOf done) (outs : s.outs = outsOf done) :
    FwdSide (s.step t) done (todo ++ s.arriving t) := by
  refine .idle ?_ ?_ ?_ ?_ ?_ ?_
  · obtain ⟨c, id⟩ := m
    cases c <;> simp [step, Forward.step, hs, Forward.start, metas, ready]
  · simp [step, Forward.step, hs]
  · rw [jobs_step, jobs, List.append_assoc]
  · rw [metaFifo_step, ready, if_pos rfl, metas, List.tail_cons, List.map_append]
  · simp [step, moved, Forward.ready, hs, gone]
  · simp [step, Forward.emits, hs, outs]

theorem fwdState_ne_idle {j : FwdJob} (hs : s.fwd.state = if j.metaData.check then .check else .noCheck) : s.fwd.state ≠ .idle := by
  rw [hs]
  split <;> simp

theorem Busy.hold {j : FwdJob} {a b : List Flit512} (h : Busy s done todo j a b) (hf : s.intData t = none) :
    Busy (s.step t) done (todo ++ s.arriving t) j a b := by
  have hne := fwdState_ne_idle h.state
  have hfwd : (s.step t).fwd = s.fwd := by
    rw [show (s.step t).fwd = s.fwd.step s.metaFifo.head? (s.intData t) t.noCheckAlmostFull t.ddrAlmostFull from rfl, hf, Forward.step.eq_def]
    split
    · contradiction
    · contradiction
    · contradiction
    · rfl
  have hemit : s.fwd.emits s.metaFifo.head? (s.intData t) = [] := by
    rw [hf, Forward.emits.eq_def]
    split
    · contradiction
    · contradiction
    · rfl
  refine ⟨by rw [hfwd]; exact h.state, by rw [hfwd]; exact h.ready, ?_, ?_, h.cut, h.more, ?_, ?_, by rw [hfwd]; exact h.addr⟩
  · rw [jobs_step, h.jobs, List.append_assoc]
    rfl
  · rw [metaFifo_step, h.ready, if_neg (by simp), h.metas, ← List.map_append]
    rfl
  · simp [step, moved, hf, h.gone]
  · show s.outs ++ _ = _
    rw [hemit, List.append_nil, h.outs]

theorem Busy.take {j : FwdJob} {a b : List Flit512} {f : Flit512} (h : Busy s done todo j a (f :: b)) (hw : Whole j.flits)
    (hf : s.intData t = some f) : ∃ done' todo', FwdSide (s.step t) done' todo' := by
  obtain ⟨hs, ready, jobs, metas, cut, -, gone, outs, addr⟩ := h
  have hhead : s.metaFifo.head? = some j.metaData := by rw [metas]; rfl
  have hfwd : (s.step t).fwd = s.fwd.step (some j.metaData) (some f) t.noCheckAlmostFull t.ddrAlmostFull := by
    rw [← hhead, ← hf]
    rfl
  have hstate : (s.step t).fwd.state = if f.eop then .idle else s.fwd.state := by
    rw [hfwd]
    by_cases hc : j.metaData.check = true <;> simp [Forward.step, hs, hc]
  have hready : (s.step t).fwd.metaReady = f.eop := by
    rw [hfwd]
    by_cases hc : j.metaData.check = true <;> simp [Forward.step, hs, hc, ready]
  have hgone : (s.step t).gone = flitsOf done ++ (a ++ [f]) := by
    have hmv : s.moved t = some f := by simp [moved, Forward.ready, fwdState_ne_idle hs, hf]
    simp [step, hmv, gone]
  have houts : (s.step t).outs = outsOf done ++ sent j (a ++ [f]) := by
    rw [← sent_snoc hw cut hs addr, ← List.append_assoc, ← outs, ← hhead, ← hf]
    rfl
  have hmetas : (s.step t).metaFifo = (j :: (todo ++ s.arriving t)).map FwdJob.metaData := by
    rw [metaFifo_step, ready, if_neg (by simp), metas, ← List.map_append]
    rfl
  by_cases hb : b = []
  · have he := (eop_iff hw cut).2 hb
    have hall : j.flits = a ++ [f] := by rw [cut, hb]
    refine ⟨done ++ [j], todo ++ s.arriving t, .pop j.metaData (by rw [hstate, if_pos he]) (by rw [hready, he]) ?_ hmetas ?_ ?_⟩
    · rw [jobs_step, jobs]
      simp
    · rw [hgone, ← hall]
      simp [flitsOf]
    · rw [houts, ← hall]
      simp [outsOf, sent, FwdJob.outs]
  · have he : f.eop = false := Bool.eq_false_iff.2 fun he => hb ((eop_iff hw cut).1 he)
    refine ⟨done, todo ++ s.arriving t, .busy ⟨?_, by rw [hready, he], ?_, hmetas, ?_, hb, hgone, houts, ?_⟩⟩
    · rw [hstate, he]
      exact hs
    · rw [jobs_step, jobs, List.append_assoc]
      rfl
    · rw [cut, List.append_assoc]
      rfl
    · intro hc _
      rw [if_pos hc] at hs
      have haddr : (s.step t).fwd.addr = j.metaData.id.toNat * 32 + a.length := by
        rw [← nextAddr_eq hw cut (addr hc), hfwd]
        simp [Forward.step, hs]
      rw [haddr, List.length_append, List.length_singleton, Nat.add_assoc]

def Held (d : Bool) (s : FwdSys) : Prop := ∃ done todo, Inv d s done todo

theorem Held.step (h : Held d s) (hok : s.Ok d t) : Held d (s.step t) := by
  obtain ⟨done, todo, h⟩ := h
  have hside : ∃ done' todo', FwdSide (s.step t) done' todo' := by
    have hfwd := h.fwd
    cases hfwd with
    | idle hs ready jobs metas gone outs => exact FwdSide.step_idle hs ready jobs metas gone outs fun j hj => (h.whole j hj).1
    | pop m hs ready jobs metas gone outs => exact ⟨done, _, FwdSide.step_pop hs ready jobs metas gone outs⟩
    | @busy j a b hb =>
      cases hf : s.intData t with
      | none => exact ⟨done, _, .busy (hb.hold hf)⟩
      | some f =>
        obtain ⟨b', rfl⟩ := h.next_flit hb hf
        exact hb.take (h.whole j (by simp [hb.jobs])).1 hf
  obtain ⟨done', todo', hside⟩ := hside
  exact ⟨done', todo', (h.gen.step hok).1, flow_step h hok, whole_step h, hside⟩

theorem held_init (d : Bool) : Held d init :=
  ⟨[], [], .start rfl rfl rfl rfl rfl, rfl, by simp [init], .idle rfl rfl rfl rfl rfl rfl⟩

theorem Held.sent (h : Held d s) : s.outs <+: s.jobs.flatMap FwdJob.outs ∧
    (s.fwd.state = .idle → s.metaFifo = [] → s.outs = s.jobs.flatMap FwdJob.outs) := by
  obtain ⟨done, todo, h⟩ := h
  have hfwd := h.fwd
  cases hfwd with
  | idle hs ready jobs metas gone outs =>
    rw [outs, jobs, List.flatMap_append]
    refine ⟨List.prefix_append _ _, fun _ hnil => ?_⟩
    rw [metas, List.map_eq_nil_iff] at hnil
    simp [outsOf, hnil]
  | pop m hs ready jobs metas gone outs =>
    rw [outs, jobs, List.flatMap_append]
    refine ⟨List.prefix_append _ _, fun _ hnil => ?_⟩
    rw [metas] at hnil
    cases hnil
  | busy hb =>
    refine ⟨?_, fun hidle => absurd hidle (fwdState_ne_idle hb.state)⟩
    rw [hb.outs, hb.jobs, List.flatMap_append, List.flatMap_cons, FwdJob.outs, hb.cut]
    refine List.prefix_append_right_inj _ |>.2 ?_
    rw [FwdSys.sent]
    split
    · rw [List.mapIdx_append, List.append_assoc]
      exact List.prefix_append _ _
    · rw [List.map_append, List.append_assoc]
      exact List.prefix_append _ _

/-- Every packet leaves once and in its turn: with rules, and unless `disable_pcie` is set, it is written to the places of its
`pdu_id`, flit by flit, and else it is sent on as it came. Nothing else is sent. -/
theorem packets_forwarded (d : Bool) (ts : List FwdTick) (hok : AllSteps FwdSys.step (Ok d) init ts) :
    let s := run FwdSys.step init ts
    (∀ j ∈ s.jobs, j.metaData.check = true ↔ j.rules.length % 2 ^ 12 ≠ 0 ∧ d = false) ∧
      s.outs <+: s.jobs.flatMap FwdJob.outs ∧ (s.fwd.state = .idle → s.metaFifo = [] → s.outs = s.jobs.flatMap FwdJob.outs) := by
  have h : Held d (run FwdSys.step init ts) := run_inv FwdSys.step (fun _ _ h hok => Held.step h hok) ts _ (held_init d) hok
  refine ⟨fun j hj => ?_, h.sent⟩
  obtain ⟨done, todo, h⟩ := h
  rw [(h.whole j hj).2]
  simp [FwdJob.toCheck]

instance (d : Bool) (s : FwdSys) (t : FwdTick) : Decidable (s.Ok d t) :=
  decidable_of_iff (t.disablePcie = d ∧ (s.gen.state = .write → s.cur ≠ [] → t.pkt ≠ none) ∧
    ((s.accepted t).all fun f => f.sop == s.cur.isEmpty) ∧ (s.accepted t ≠ none → s.cur.length < 32))
    ⟨fun h => ⟨h.1, h.2.1, by simpa [Option.all_eq_true] using h.2.2.1, h.2.2.2⟩,
      fun h => ⟨h.fixed, h.contiguous, by simpa [Option.all_eq_true] using h.first, h.short⟩⟩

def fwdTick (rule : Flit512) : FwdTick :=
  ⟨some ⟨7, true, true, 0⟩, some rule, true, default, 0, false, true, false, true, false, true, false, false⟩

-- a packet of one flit with one rule, and another one without
def twoPackets : List FwdTick :=
  List.replicate 3 (fwdTick ⟨5, true, false, 0⟩) ++ List.replicate 11 (fwdTick ⟨0, false, true, 0⟩)

theorem packets_forwarded_two :
    let s := run FwdSys.step init twoPackets
    s.outs = [.ddr ⟨0, 7, true, true⟩, .noCheck ⟨7, true, true, 0⟩] ∧ s.outs <+: s.jobs.flatMap FwdJob.outs :=
  ⟨by decide +kernel, (packets_forwarded false twoPackets (by decide +kernel)).2.1⟩

end FwdSys

end Pigasus
