import Pigasus.FlowTable

/-!
# The control of the flow table

What the state machine of port B is doing is a phase: a task and, for a read or
a deque that takes three cycles, the beat it has reached. The flag registers are
functions of the phase, on every run.
-/

namespace Pigasus

open Hdl

theorem RrArbiter.grant_fill {mask : BitVec 4} {a b : Bool}
    (h : grant mask (BitVec.ofBoolListLE [a, b, false, false]) = 0b0001#4) : a = true := by
  revert mask a b
  decide

theorem RrArbiter.grant_slow {mask : BitVec 4} {a b : Bool}
    (h : grant mask (BitVec.ofBoolListLE [a, b, false, false]) = 0b0010#4) : b = true := by
  revert mask a b
  decide

/-! ## Registers that an edge keeps -/

section
variable (s : FlowTable) (i : FtIn) (k : Fin 4)

@[simp] theorem lookupStep_addrB : ((s.lookupStep i).ft k).addrB = (s.pb.ft k).addrB := by
  unfold FlowTable.lookupStep
  simp only
  split_ifs <;> simp

@[simp] theorem fillStep_addrB : (s.fillStep.ft k).addrB = (s.pb.ft k).addrB := by
  unfold FlowTable.fillStep
  simp only
  split_ifs <;> simp

@[simp] theorem fillStep_ftEmptyR : s.fillStep.ftEmptyR = s.pb.ftEmptyR := by
  unfold FlowTable.fillStep
  simp only
  split_ifs <;> rfl

@[simp] theorem fillStep_evict : s.fillStep.evict = s.pb.evict := by
  unfold FlowTable.fillStep
  simp only
  split_ifs <;> rfl

@[simp] theorem evicStep_addrB : (s.evicStep.ft k).addrB = (s.pb.ft k).addrB := by
  unfold FlowTable.evicStep
  simp only
  split_ifs <;> simp

@[simp] theorem evicStep_qBR : (s.evicStep.ft k).qBR = (s.pb.ft k).qBR := by
  unfold FlowTable.evicStep
  simp only
  split_ifs <;> simp

end

/-! ## Phases -/

inductive Beat
  | b1 | b2 | b3
  deriving DecidableEq

/-- `filled` and `updated` are the cycles in which the write of a fill or of a slow update is pending. -/
inductive Phase
  | arb | filled | updated
  | lookup (b : Beat) | fill (b : Beat) | evic (b : Beat)
  | upWait | up (b : Beat)
  | lkWait | lk (b : Beat)
  deriving DecidableEq

namespace Phase

def pState : Phase → PState
  | arb | filled | updated => .pArb
  | lookup _ => .pLookup
  | fill _ => .pFill
  | evic _ => .pEvic
  | upWait => .slowUpdateWait
  | up _ => .slowUpdate
  | lkWait => .slowLookupWait
  | lk _ => .slowLookup

def reads (ph : Phase) (b : Beat) : Bool := decide (ph = .lookup b ∨ ph = .up b ∨ ph = .lk b)

def slowReads (ph : Phase) : Bool := decide (ph = .up .b1 ∨ ph = .lk .b1)

def deques (ph : Phase) (b : Beat) : Bool := decide (ph = .fill b ∨ ph = .evic b)

def busy : Phase → Bool
  | up _ | updated => true
  | _ => false

def next (s : FlowTable) (i : FtIn) : Phase → Phase
  | arb | filled | updated =>
    if s.grant i == 0b0001#4 then .lookup .b1
    else if s.grant i == 0b0010#4 then
      if i.ch3Wren then
        if s.updateConflict i then .upWait else .up .b1
      else if s.lookupConflict i i.ch2Meta.tuple then .lkWait
      else .lk .b1
    else .arb
  | lookup .b1 => .lookup .b2
  | lookup .b2 => .lookup .b3
  | lookup .b3 =>
    if s.headBusy i then .arb else if isZero (List.finRange 4) s.ftEmpty then .evic .b1 else .fill .b1
  | fill .b1 => .fill .b2
  | fill .b2 => .fill .b3
  | evic .b1 => .evic .b2
  | evic .b2 => .evic .b3
  | fill .b3 | evic .b3 => .filled
  | upWait => if s.updateConflict i then .upWait else .up .b1
  | up .b1 => .up .b2
  | up .b2 => .up .b3
  | up .b3 => .updated
  | lkWait => if s.lookupConflict i s.pb.lookupTupleB then .lkWait else .lk .b1
  | lk .b1 => .lk .b2
  | lk .b2 => .lk .b3
  | lk .b3 => .arb

def portB (s : FlowTable) (i : FtIn) : Phase → PortB
  | arb | filled | updated => s.arbStep i
  | lookup _ => s.lookupStep i
  | fill _ => s.fillStep
  | evic _ => s.evicStep
  | upWait => s.slowUpdateWaitStep i
  | up _ => s.slowUpdateStep
  | lkWait => s.slowLookupWaitStep i
  | lk _ => s.slowLookupStep

end Phase

/-- The flags driven by the port B state machine are those of the phase `ph`. -/
structure PortBCtl (p : PortB) (ph : Phase) : Prop where
  pState : p.pState = ph.pState
  rdenB : ∀ k, (p.ft k).rdenB = ph.reads .b1
  qRdenB : p.qRdenB = ph.slowReads
  qDequeEn : p.qDequeEn = ph.deques .b1
  wrenB : ph ≠ .filled → ph ≠ .updated → ∀ k, (p.ft k).wrenB = false
  qWrenB : ph ≠ .updated → p.qWrenB = false
  evict : ph ≠ .filled → p.evict = false
  slowBusy : p.slowBusy = ph.busy

structure Ctl (s : FlowTable) (ph : Phase) : Prop extends PortBCtl s.pb ph where
  rdValidBR : s.rdValidBR = ph.reads .b2
  rdValidB : s.rdValidB = ph.reads .b3
  dequeEnR : s.pq.dequeEnR = ph.deques .b2
  dequeDone : s.pq.dequeDone = ph.deques .b3
  qDequeDoneR : s.qDequeDoneR = decide (ph = .filled)

theorem PortBCtl.reset : PortBCtl FlowTable.resetPortB .arb := by
  constructor <;> simp [FlowTable.resetPortB, FlowTable.resetSubPortB] <;> rfl

theorem Ctl.reset : Ctl .reset .arb := by
  refine ⟨PortBCtl.reset, ?_, ?_, ?_, ?_, ?_⟩ <;> rfl

/-! ## One edge -/

theorem Phase.next_beats (s : FlowTable) (i : FtIn) (ph : Phase) :
    (ph.next s i).reads .b2 = ph.reads .b1 ∧ (ph.next s i).reads .b3 = ph.reads .b2 ∧
      (ph.next s i).deques .b2 = ph.deques .b1 ∧ (ph.next s i).deques .b3 = ph.deques .b2 ∧
      decide (ph.next s i = .filled) = ph.deques .b3 := by
  rcases ph with _ | _ | _ | ⟨_ | _ | _⟩ | ⟨_ | _ | _⟩ | ⟨_ | _ | _⟩ | _ | ⟨_ | _ | _⟩ | _ | ⟨_ | _ | _⟩ <;>
    simp only [next] <;> (try split_ifs) <;> exact ⟨rfl, rfl, rfl, rfl, rfl⟩

structure PortBQuiet (p : PortB) : Prop where
  rdenB : ∀ k, (p.ft k).rdenB = false
  wrenB : ∀ k, (p.ft k).wrenB = false
  qRdenB : p.qRdenB = false
  qWrenB : p.qWrenB = false
  qDequeEn : p.qDequeEn = false
  evict : p.evict = false
  slowBusy : p.slowBusy = false

section
variable {p : PortB} {ph : Phase} (h : PortBQuiet p) (hd : ph.deques .b1 = false)
include h hd

theorem PortBQuiet.wait (hr : ph.reads .b1 = false) (hs : ph.slowReads = false) (hb : ph.busy = false) :
    PortBCtl { p with pState := ph.pState } ph :=
  ⟨rfl, fun k => (h.rdenB k).trans hr.symm, h.qRdenB.trans hs.symm, h.qDequeEn.trans hd.symm, fun _ _ => h.wrenB, fun _ => h.qWrenB,
    fun _ => h.evict, h.slowBusy.trans hb.symm⟩

theorem PortBQuiet.slowRead (hr : ph.reads .b1 = true) (hs : ph.slowReads = true) :
    PortBCtl (FlowTable.slowRead p ph.pState ph.busy) ph := by
  refine ⟨rfl, fun k => ?_, hs.symm, h.qDequeEn.trans hd.symm, fun _ _ k => ?_, fun _ => h.qWrenB, fun _ => h.evict, rfl⟩
  · rw [hr, FlowTable.slowRead, vec_get]
  · rw [FlowTable.slowRead, vec_get]
    exact h.wrenB k

end

section
variable {s : FlowTable} (i : FtIn)

theorem arbDefault_quiet : PortBQuiet s.arbDefault := by
  refine ⟨fun k => ?_, fun k => ?_, rfl, rfl, rfl, rfl, rfl⟩ <;> simp [FlowTable.arbDefault]

theorem take3_quiet : PortBQuiet (s.take3 i) := by
  refine ⟨fun k => ?_, fun k => ?_, rfl, rfl, rfl, rfl, rfl⟩ <;> simp [FlowTable.take3, FlowTable.arbDefault]

theorem take2_quiet : PortBQuiet (s.take2 i) := by
  refine ⟨fun k => ?_, fun k => ?_, rfl, rfl, rfl, rfl, rfl⟩ <;> simp [FlowTable.take2, FlowTable.arbDefault]

theorem Phase.next_arb : Phase.arb.next s i =
    if s.grant i == 0b0001#4 then .lookup .b1
    else if s.grant i == 0b0010#4 then
      if i.ch3Wren then if s.updateConflict i then .upWait else .up .b1
      else if s.lookupConflict i i.ch2Meta.tuple then .lkWait
      else .lk .b1
    else .arb := rfl

theorem PortBCtl.arbStep : PortBCtl (s.arbStep i) (Phase.arb.next s i) := by
  rw [Phase.next_arb]
  unfold FlowTable.arbStep
  split_ifs
  · -- the head of the queue is looked up
    exact ⟨rfl, fun k => by rw [vec_get]; rfl, rfl, rfl, fun _ _ k => by rw [vec_get]; exact arbDefault_quiet.wrenB k, fun _ => rfl,
      fun _ => rfl, rfl⟩
  · exact (take3_quiet i).wait (show Phase.upWait.deques .b1 = false from rfl) rfl rfl rfl
  · exact (take3_quiet i).slowRead (show (Phase.up .b1).deques .b1 = false from rfl) rfl rfl
  · exact (take2_quiet i).wait (show Phase.lkWait.deques .b1 = false from rfl) rfl rfl rfl
  · exact (take2_quiet i).slowRead (show (Phase.lk .b1).deques .b1 = false from rfl) rfl rfl
  · exact arbDefault_quiet.wait (show Phase.arb.deques .b1 = false from rfl) rfl rfl rfl

variable {b : Beat}

theorem PortBCtl.lookupStep (h : Ctl s (.lookup b)) : PortBCtl (s.lookupStep i) ((Phase.lookup b).next s i) := by
  obtain ⟨⟨hS, -, hqr, hqd, hw, hqw, he, hb⟩, -, hv, -, -, -⟩ := h
  replace hw := hw (by simp) (by simp)
  replace hqw := hqw (by simp)
  replace he := he (by simp)
  unfold FlowTable.lookupStep
  cases b <;> simp [Phase.reads] at hv <;> simp only [hv, Phase.next, Bool.false_eq_true, if_false, if_true] <;>
    (try split_ifs) <;> constructor <;> simp [hw, hqw, he, hS, hqr, hqd, hb] <;> rfl

theorem PortBCtl.fillStep (h : Ctl s (.fill b)) : PortBCtl s.fillStep ((Phase.fill b).next s i) := by
  obtain ⟨⟨hS, hr, hqr, -, hw, hqw, he, hb⟩, -, -, -, hd, -⟩ := h
  replace hw := hw (by simp) (by simp)
  replace hqw := hqw (by simp)
  replace he := he (by simp)
  unfold FlowTable.fillStep
  cases b <;> simp [Phase.deques] at hd <;> simp only [hd, Phase.next, Bool.false_eq_true, if_false, if_true] <;>
    constructor <;> simp [hr, hw, hqw, he, hS, hqr, hb] <;> rfl

theorem PortBCtl.evicStep (h : Ctl s (.evic b)) : PortBCtl s.evicStep ((Phase.evic b).next s i) := by
  obtain ⟨⟨hS, hr, hqr, -, hw, hqw, he, hb⟩, -, -, -, hd, -⟩ := h
  replace hw := hw (by simp) (by simp)
  replace hqw := hqw (by simp)
  unfold FlowTable.evicStep
  cases b <;> simp [Phase.deques] at hd <;> simp only [hd, Phase.next, Bool.false_eq_true, if_false, if_true] <;>
    constructor <;> simp [hr, hw, hqw, hS, hqr, hb] <;> rfl

theorem PortBCtl.slowRead {p : PortB} {ph : Phase} (h : PortBCtl p ph) (hd : ph.deques .b1 = false)
    (hf : ph ≠ .filled) (hu : ph ≠ .updated) :
    PortBCtl (FlowTable.slowRead p .slowUpdate true) (.up .b1) ∧
      (ph.busy = false → PortBCtl (FlowTable.slowRead p .slowLookup p.slowBusy) (.lk .b1)) := by
  have hw := h.wrenB hf hu
  refine ⟨?_, fun hb => ?_⟩ <;> constructor <;>
    simp [FlowTable.slowRead, hw, h.qWrenB hu, h.evict hf, h.qDequeEn, hd, h.slowBusy] <;> first | rfl | exact hb

theorem PortBCtl.slowUpdateStep (h : Ctl s (.up b)) : PortBCtl s.slowUpdateStep ((Phase.up b).next s i) := by
  obtain ⟨⟨hS, -, -, hqd, -, -, he, hb⟩, -, hv, -, -, -⟩ := h
  replace he := he (by simp)
  unfold FlowTable.slowUpdateStep FlowTable.slowWrite
  cases b <;> simp [Phase.reads] at hv <;> simp only [hv, Phase.next] <;> constructor <;>
    simp [he, hb, hqd] <;> rfl

theorem PortBCtl.slowLookupStep (h : Ctl s (.lk b)) : PortBCtl s.slowLookupStep ((Phase.lk b).next s i) := by
  obtain ⟨⟨hS, -, -, hqd, hw, hqw, he, hb⟩, -, hv, -, -, -⟩ := h
  replace hw := hw (by simp) (by simp)
  replace hqw := hqw (by simp)
  replace he := he (by simp)
  unfold FlowTable.slowLookupStep
  cases b <;> simp [Phase.reads] at hv <;> simp only [hv, Phase.next] <;> constructor <;>
    simp [he, hb, hqd, hw, hqw] <;> rfl

end

theorem Ctl.pb_step {s : FlowTable} {ph : Phase} (h : Ctl s ph) (i : FtIn) : (s.step i).pb = ph.portB s i := by
  have hS := h.pState
  cases ph <;> simp only [FlowTable.step, FlowTable.portBStep, hS, Phase.pState, Phase.portB]

theorem Ctl.portB {s : FlowTable} {ph : Phase} (h : Ctl s ph) (i : FtIn) : PortBCtl (ph.portB s i) (ph.next s i) := by
  cases ph with
  | arb | filled | updated => exact .arbStep i
  | lookup b => exact .lookupStep i h
  | fill b => exact .fillStep i h
  | evic b => exact .evicStep i h
  | upWait =>
    simp only [Phase.portB, FlowTable.slowUpdateWaitStep, Phase.next]
    split_ifs
    · exact h.toPortBCtl
    · exact (h.slowRead rfl (by simp) (by simp)).1
  | up b => exact .slowUpdateStep i h
  | lkWait =>
    simp only [Phase.portB, FlowTable.slowLookupWaitStep, Phase.next]
    split_ifs
    · exact h.toPortBCtl
    · exact (h.slowRead rfl (by simp) (by simp)).2 rfl
  | lk b => exact .slowLookupStep i h

theorem Ctl.step {s : FlowTable} {ph : Phase} (h : Ctl s ph) (i : FtIn) : Ctl (s.step i) (ph.next s i) := by
  obtain ⟨r2, r3, d2, d3, df⟩ := ph.next_beats s i
  refine ⟨h.pb_step i ▸ h.portB i, ?_, ?_, ?_, ?_, ?_⟩
  · rw [r2]; exact h.rdenB 0
  · rw [r3]; exact h.rdValidBR
  · rw [d2]; exact h.qDequeEn
  · rw [d3]; exact h.dequeEnR
  · rw [df]; exact h.dequeDone

end Pigasus
