import Pigasus.PcieRingSound

/-!
# The tail that the host is told

`fpga2cpu_pcie` with the data mover alone: the blocks, the pointers and the data come
from anywhere. The new tail goes to the host by a descriptor behind those of the data,
and `fpga2cpu_pcie` goes on when the last word is fetched, whether or not that
descriptor has been accepted.
-/

namespace Pigasus

open Hdl

/-- What `fpga2cpu_pcie` reads in a cycle, and what the mover does: it accepts a descriptor, it goes on with those accepted. -/
structure MoverTick where
  dmaStart : Bool
  dmaSize : Nat
  dmaBase : Nat
  head : Nat
  tail : Nat
  descReady : Bool
  fetch : Bool
  data : BitVec 512

/-- The mover fetches with two cycles of delay; `tail` is `global_block->tail`. -/
structure MoverSys where
  f2c : Fpga2Cpu
  descs : List Desc
  rd1 : Option MoverOp
  rd2 : Option MoverOp
  writes : List HostWrite
  tail : Nat

inductive MoverEvent
  | clock (t : MoverTick)
  | write

namespace MoverSys

/-- After reset; registers without a reset have any contents. -/
def reset (sizeR : Nat) (descData : Desc) : MoverSys := ⟨⟨.idle, sizeR, 0, false, false, descData⟩, [], none, none, [], 0⟩

variable (s : MoverSys)

def f2cIn (t : MoverTick) : F2cIn where
  dmaStart := t.dmaStart
  dmaSize := t.dmaSize
  dmaBase := t.dmaBase
  head := t.head
  tail := t.tail
  descReady := t.descReady
  readValid := match s.rd2 with
    | some (.read _ _) => true
    | _ => false
  readAddr := match s.rd2 with
    | some (.read a _) => a
    | _ => 0

def response (d : BitVec 512) : Option MoverOp → List HostWrite
  | none => []
  | some (.read _ dst) => [.slot dst d]
  | some (.tail v) => [.tail v]

def clock (t : MoverTick) : MoverSys :=
  let next := if t.fetch then nextOp s.descs else (none, s.descs)
  { s with
    f2c := s.f2c.step (s.f2cIn t)
    descs := next.2 ++ if s.f2c.descValid && t.descReady then [s.f2c.descData] else []
    rd1 := next.1
    rd2 := s.rd1
    writes := s.writes ++ response t.data s.rd2 }

def write : MoverSys :=
  match s.writes with
  | [] => s
  | .slot _ _ :: l => { s with writes := l }
  | .tail v :: l => { s with writes := l, tail := v }

def step : MoverEvent → MoverSys
  | .clock t => s.clock t
  | .write => s.write

/-- `fpga2cpu_pcie` rests, and all that was accepted is in the memory of the host. -/
def Settled : Prop :=
  s.f2c.state = .idle ∧ s.f2c.descValid = false ∧ s.descs = [] ∧ s.rd1 = none ∧ s.rd2 = none ∧ s.writes = []

instance (s : MoverSys) : Decidable s.Settled := inferInstanceAs (Decidable (_ ∧ _ ∧ _ ∧ _ ∧ _ ∧ _))

/-- A descriptor that is presented and not accepted in this cycle is presented in the next. -/
def Keeps (t : MoverTick) : Prop :=
  s.f2c.descValid = true → t.descReady = false →
    (s.clock t).f2c.descValid = true ∧ (s.clock t).f2c.descData = s.f2c.descData

/-! ## The tail that is on its way -/

def opTail : Nat → List MoverOp → Nat
  | v, [] => v
  | v, .read _ _ :: l => opTail v l
  | _, .tail v :: l => opTail v l

def writeTail : Nat → List HostWrite → Nat
  | v, [] => v
  | v, .slot _ _ :: l => writeTail v l
  | _, .tail v :: l => writeTail v l

theorem opTail_append : ∀ (v : Nat) (l m : List MoverOp), opTail v (l ++ m) = opTail (opTail v l) m
  | _, [], _ => rfl
  | v, .read _ _ :: l, m => opTail_append v l m
  | _, .tail v :: l, m => opTail_append v l m

theorem writeTail_append : ∀ (v : Nat) (l m : List HostWrite), writeTail v (l ++ m) = writeTail (writeTail v l) m
  | _, [], _ => rfl
  | v, .slot _ _ :: l, m => writeTail_append v l m
  | _, .tail v :: l, m => writeTail_append v l m

theorem opTail_readOps (v src dst n : Nat) : opTail v (readOps src dst n) = v := by
  induction n generalizing src dst with
  | zero => rfl
  | succ n ih => exact ih (src + 1) (dst + 1)

theorem writeTail_response (v : Nat) (d : BitVec 512) (o : Option MoverOp) : writeTail v (response d o) = opTail v o.toList := by
  cases o with
  | none => rfl
  | some o => cases o <;> rfl

def accepted : Nat := opTail (writeTail s.tail s.writes) (s.rd2.toList ++ s.rd1.toList ++ s.descs.flatMap Desc.ops)

def heldOps (f : Fpga2Cpu) : List MoverOp := if f.descValid then f.descData.ops else []

def announced : Nat := opTail s.accepted (heldOps s.f2c)

variable {s}

theorem accepted_clock (t : MoverTick) :
    (s.clock t).accepted = opTail s.accepted (if t.descReady then heldOps s.f2c else []) := by
  have hn : (if t.fetch then nextOp s.descs else (none, s.descs)).1.toList ++
      (if t.fetch then nextOp s.descs else (none, s.descs)).2.flatMap Desc.ops = s.descs.flatMap Desc.ops := by
    by_cases hf : t.fetch = true
    · rw [if_pos hf]
      exact nextOp_ops s.descs
    · rw [if_neg hf]
      rfl
  have hh : (if s.f2c.descValid && t.descReady then [s.f2c.descData] else []).flatMap Desc.ops =
      if t.descReady then heldOps s.f2c else [] := by
    cases hv : s.f2c.descValid <;> cases hr : t.descReady <;> simp [heldOps, hv]
  simp only [accepted, clock, List.flatMap_append, hh, writeTail_append, writeTail_response, ← hn]
  simp only [opTail_append]

/-! ## What `fpga2cpu_pcie` presents -/

def DescFree (f : Fpga2Cpu) : Prop := f.state = .desc → f.descValid = false

/-- In `IDLE` the valid bit is cleared, so a descriptor that is still presented there must be taken at once. -/
def TakenInIdle (f : Fpga2Cpu) (ready : Bool) : Prop := f.state = .idle → f.descValid = true → ready = true

theorem heldOps_of_invalid {f : Fpga2Cpu} (h : f.descValid = false) : heldOps f = [] := by simp [heldOps, h]

theorem step_of_desc {f : Fpga2Cpu} (i : F2cIn) (hf : f.state = .desc) :
    f.step i = f ∨ ((f.step i).state ≠ .desc ∧ (f.step i).outTail = f.outTail ∧ ∀ v, opTail v (heldOps (f.step i)) = v) := by
  rw [Fpga2Cpu.step, hf]
  simp only
  by_cases hfree : freeSlot i.head i.tail ≥ f.sizeR
  · rw [if_pos hfree]
    apply Or.inr
    by_cases hw : i.tail + f.sizeR > bufferSize
    · simp [hw, heldOps, Desc.ops, opTail_readOps]
    · simp [hw, heldOps, Desc.ops, opTail_readOps]
  · exact .inl (if_neg hfree)

theorem descFree_step {f : Fpga2Cpu} (i : F2cIn) (h : DescFree f) : DescFree (f.step i) := by
  intro hs
  cases hf : f.state with
  | idle => simp [Fpga2Cpu.step, hf]
  | desc =>
    rcases step_of_desc i hf with he | he
    · rw [he]
      exact h hf
    · exact absurd hs he.1
  | descWrap =>
    by_cases hr : i.descReady = true
    · simp [Fpga2Cpu.step, hf, hr] at hs
    · simp [Fpga2Cpu.step, hf, hr] at hs
  | done =>
    by_cases hr : i.descReady = true
    · simp [Fpga2Cpu.step, hf, hr] at hs
    · simp [Fpga2Cpu.step, hf, hr] at hs
  | wait =>
    simp only [Fpga2Cpu.step, hf] at hs
    split at hs <;> cases hs

theorem held_accepted {f : Fpga2Cpu} {i : F2cIn} (hr : i.descReady = true) (hd : DescFree f) :
    opTail f.outTail (heldOps (f.step i)) = (f.step i).outTail := by
  cases hf : f.state with
  | idle => simp [Fpga2Cpu.step, hf, heldOps, opTail]
  | desc =>
    rcases step_of_desc i hf with he | he
    · rw [he, heldOps_of_invalid (hd hf)]
      rfl
    · rw [he.2.1, he.2.2]
  | descWrap => simp [Fpga2Cpu.step, hf, hr, heldOps, Desc.ops, opTail_readOps]
  | done => simp [Fpga2Cpu.step, hf, hr, heldOps, Desc.ops, opTail]
  | wait => simp [Fpga2Cpu.step, hf, hr, heldOps, opTail]

theorem held_kept {f : Fpga2Cpu} {i : F2cIn} (hr : i.descReady = false) (hi : TakenInIdle f i.descReady) (hv : f.descValid = true)
    (hd : DescFree f) : (f.step i).descValid = true ∧ (f.step i).descData = f.descData ∧ (f.step i).outTail = f.outTail := by
  unfold Fpga2Cpu.step
  cases hf : f.state with
  | idle =>
    have := hi hf hv
    rw [hr] at this
    cases this
  | desc =>
    have := hd hf
    rw [hv] at this
    cases this
  | descWrap => simp [hr, hv]
  | done => simp [hr, hv]
  | wait => simp [hr, hv]

theorem held_new {f : Fpga2Cpu} {i : F2cIn} (hr : i.descReady = false) (hv : f.descValid = false) (v : Nat) :
    opTail v (heldOps (f.step i)) = v ∧ (f.step i).outTail = f.outTail := by
  cases hf : f.state with
  | idle => simp [Fpga2Cpu.step, hf, heldOps, opTail]
  | desc =>
    rcases step_of_desc i hf with he | he
    · rw [he, heldOps_of_invalid hv]
      exact ⟨rfl, rfl⟩
    · exact ⟨he.2.2 v, he.2.1⟩
  | descWrap => simp [Fpga2Cpu.step, hf, hr, heldOps_of_invalid hv, opTail]
  | done => simp [Fpga2Cpu.step, hf, hr, heldOps_of_invalid hv, opTail]
  | wait => simp [Fpga2Cpu.step, hf, hr, heldOps, hv, opTail]

/-! ## Whole runs -/

structure Announces (s : MoverSys) : Prop where
  free : DescFree s.f2c
  tail : s.announced = s.f2c.outTail

/-- The mover takes a descriptor that is still presented in `IDLE`. -/
def InTime (s : MoverSys) : MoverEvent → Prop
  | .clock t => TakenInIdle s.f2c t.descReady
  | .write => True

instance (s : MoverSys) : (e : MoverEvent) → Decidable (s.InTime e)
  | .clock _ => inferInstanceAs (Decidable (_ → _ → _))
  | .write => inferInstanceAs (Decidable True)

theorem Announces.clock (h : Announces s) {t : MoverTick} (hi : TakenInIdle s.f2c t.descReady) : Announces (s.clock t) := by
  refine ⟨descFree_step _ h.free, ?_⟩
  show opTail (s.clock t).accepted (heldOps (s.f2c.step (s.f2cIn t))) = (s.f2c.step (s.f2cIn t)).outTail
  have hta := h.tail
  unfold announced at hta
  rw [accepted_clock]
  cases hr : t.descReady with
  | true =>
    rw [if_pos rfl, hta]
    exact held_accepted hr h.free
  | false =>
    rw [if_neg Bool.false_ne_true]
    cases hv : s.f2c.descValid with
    | true =>
      obtain ⟨h1, h2, h3⟩ := @held_kept s.f2c (s.f2cIn t) hr hi hv h.free
      rw [h3, ← hta]
      simp [heldOps, h1, h2, hv, opTail]
    | false =>
      obtain ⟨h1, h2⟩ := @held_new s.f2c (s.f2cIn t) hr hv s.accepted
      rw [heldOps_of_invalid hv] at hta
      rw [h2, ← hta]
      exact h1

theorem Announces.write (h : Announces s) : Announces s.write := by
  unfold MoverSys.write
  cases hw : s.writes with
  | nil => exact h
  | cons w l =>
    have hta := h.tail
    unfold announced accepted at hta
    rw [hw] at hta
    cases w with
    | slot dst d => exact ⟨h.free, hta⟩
    | tail v => exact ⟨h.free, hta⟩

theorem Announces.step (h : Announces s) {e : MoverEvent} (hi : s.InTime e) : Announces (s.step e) := by
  cases e with
  | clock t => exact h.clock hi
  | write => exact h.write

theorem Announces.keeps (h : Announces s) {t : MoverTick} (hi : TakenInIdle s.f2c t.descReady) : s.Keeps t := by
  intro hv hr
  obtain ⟨h1, h2, -⟩ := @held_kept s.f2c (s.f2cIn t) hr hi hv h.free
  exact ⟨h1, h2⟩

/-- In every run in which no descriptor is left over in `IDLE`: descriptors stay until they are accepted, and where all is
settled the host knows `out_tail`. -/
theorem transfers_announced (sizeR : Nat) (descData : Desc) (es : List MoverEvent)
    (hi : AllSteps MoverSys.step InTime (reset sizeR descData) es) :
    let s := run MoverSys.step (reset sizeR descData) es
    (s.Settled → s.tail = s.f2c.outTail) ∧
      AllSteps MoverSys.step (fun s e => ∀ t, e = .clock t → s.Keeps t) (reset sizeR descData) es := by
  have h0 : Announces (reset sizeR descData) := ⟨nofun, rfl⟩
  refine ⟨?_, allSteps_of_inv _ (fun s e (h : Announces s) hi => h.step hi) (fun s e h hi t he => ?_) es _ h0 hi⟩
  · rintro ⟨-, hv, hd, h1, h2, hw⟩
    have h := run_inv _ (fun s e (h : Announces s) hi => h.step hi) es _ h0 hi
    rw [← h.tail]
    simp [announced, accepted, heldOps, hv, hd, h1, h2, hw, opTail, writeTail]
  · subst he
    exact h.keeps hi

/-! ## A block of one slot -/

def oneSlot (start ready fetch : Bool) : MoverEvent := .clock ⟨start, 1, 0, 0, 0, ready, fetch, 0⟩

/-- The data is accepted and fetched; `ready` says when the tail is taken. -/
def oneSlotRun (wait idle : Bool) : List MoverEvent :=
  [oneSlot true false false, oneSlot false false false, oneSlot false true false, oneSlot false wait true,
    oneSlot false false true, oneSlot false false true, oneSlot false idle true, oneSlot false false true, oneSlot false false true,
    oneSlot false false true, .write, .write]

theorem transfers_announced_idle :
    let s := run MoverSys.step (reset 0 (.done 0)) (oneSlotRun false true)
    s.f2c.outTail = 1 ∧ s.tail = s.f2c.outTail :=
  ⟨by decide +kernel, (transfers_announced 0 (.done 0) (oneSlotRun false true) (by decide +kernel)).1 (by decide +kernel)⟩

/-- The mover does not take the tail while it fetches: the descriptor is gone, and the host is not told. -/
theorem tail_dropped :
    let s := run MoverSys.step (reset 0 (.done 0)) ((oneSlotRun false false).take 6)
    let s' := run MoverSys.step (reset 0 (.done 0)) (oneSlotRun false false)
    (s.f2c.descValid = true ∧ s.f2c.descData = .done 1 ∧ (s.step (oneSlot false false true)).f2c.descValid = false) ∧
      s'.Settled ∧ s'.f2c.outTail = 1 ∧ s'.tail = 0 := by
  decide +kernel

end MoverSys

end Pigasus
