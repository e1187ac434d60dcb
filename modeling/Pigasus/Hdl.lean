import Mathlib.Algebra.Ring.Nat
import Mathlib.Data.List.FinRange
import Mathlib.Data.List.Perm.Basic
import Mathlib.Data.Vector.Basic

/-!
# Clocked components

Registers, memories and queues that a cycle-accurate model is built from, and
the rule that turns a step invariant into an invariant of whole runs.
-/

namespace Hdl

/-! ## Runs -/

section
variable {σ ι : Type}

/-- The state after one clock edge per input. -/
def run (step : σ → ι → σ) (s : σ) (is : List ι) : σ := is.foldl step s

/-- Every step of the run from `s` meets `ok`, read in the state before the edge. -/
def AllSteps (step : σ → ι → σ) (ok : σ → ι → Prop) : σ → List ι → Prop
  | _, [] => True
  | s, i :: is => ok s i ∧ AllSteps step ok (step s i) is

instance AllSteps.decidable (step : σ → ι → σ) (ok : σ → ι → Prop) [∀ s i, Decidable (ok s i)] :
    ∀ (s : σ) (is : List ι), Decidable (AllSteps step ok s is)
  | _, [] => isTrue trivial
  | s, i :: is =>
    have := AllSteps.decidable step ok (step s i) is
    inferInstanceAs (Decidable (_ ∧ _))

variable (step : σ → ι → σ)

@[simp] theorem run_nil (s : σ) : run step s [] = s := rfl

@[simp] theorem run_cons (s : σ) (i : ι) (is : List ι) : run step s (i :: is) = run step (step s i) is := rfl

theorem run_append (s : σ) (is js : List ι) : run step s (is ++ js) = run step (run step s is) js := by
  simp [run, List.foldl_append]

theorem run_inv {Inv : σ → Prop} {ok : σ → ι → Prop} (hs : ∀ s i, Inv s → ok s i → Inv (step s i)) :
    ∀ (is : List ι) (s : σ), Inv s → AllSteps step ok s is → Inv (run step s is)
  | [], _, h, _ => h
  | i :: is, s, h, ha => run_inv hs is (step s i) (hs s i h ha.1) ha.2

theorem allSteps_of_inv {Inv : σ → Prop} {ok ok' : σ → ι → Prop} (hs : ∀ s i, Inv s → ok s i → Inv (step s i))
    (hok : ∀ s i, Inv s → ok s i → ok' s i) :
    ∀ (is : List ι) (s : σ), Inv s → AllSteps step ok s is → AllSteps step ok' s is
  | [], _, _, _ => trivial
  | i :: is, s, h, ha => ⟨hok s i h ha.1, allSteps_of_inv hs hok is (step s i) (hs s i h ha.1) ha.2⟩

theorem allSteps_of_forall {ok : σ → ι → Prop} (h : ∀ s i, ok s i) : ∀ (is : List ι) (s : σ), AllSteps step ok s is
  | [], _ => trivial
  | i :: is, s => ⟨h s i, allSteps_of_forall h is (step s i)⟩

variable {step} in
theorem AllSteps.of_append {ok : σ → ι → Prop} {is js : List ι} {s : σ} (h : AllSteps step ok s (is ++ js)) :
    AllSteps step ok s is ∧ AllSteps step ok (run step s is) js := by
  induction is generalizing s with
  | nil => exact ⟨trivial, h⟩
  | cons i is ih =>
    obtain ⟨h1, h2⟩ := ih h.2
    exact ⟨⟨h.1, h1⟩, h2⟩

variable {step} in
theorem AllSteps.append {ok : σ → ι → Prop} {is js : List ι} {s : σ} (h : AllSteps step ok s is)
    (k : AllSteps step ok (run step s is) js) : AllSteps step ok s (is ++ js) := by
  induction is generalizing s with
  | nil => exact k
  | cons i is ih => exact ⟨h.1, ih h.2 k⟩

theorem run_reaches {Inv : σ → Prop} (Done : σ → Prop) {ok : σ → ι → Prop} {i : ι} (μ : σ → Nat)
    (hs : ∀ s i, Inv s → ok s i → Inv (step s i)) (hμ : ∀ s, Inv s → μ (step s i) < μ s ∨ Done s)
    (hd : ∀ s, Inv (step s i) → Done s → Done (step s i)) (m : Nat) {s : σ} (h : Inv s) (hm : μ s ≤ m ∨ Done s)
    (ho : AllSteps step ok s (List.replicate m i)) : Done (run step s (List.replicate m i)) := by
  induction m generalizing s with
  | zero =>
    rcases hm with hm | hm
    · exact (hμ s h).resolve_left (by omega)
    · exact hm
  | succ m ih =>
    rw [List.replicate_succ] at ho ⊢
    have hstep := hs s i h ho.1
    refine ih hstep ?_ ho.2
    rcases hm with hm | hm
    · exact (hμ s h).imp (fun _ => by omega) (hd s hstep)
    · exact .inr (hd s hstep hm)

end

/-! ## Vectors -/

section
variable {α : Type} {n : Nat}

/-- A bank of `n` registers, stored as data and read as a function. -/
abbrev Vec (α : Type) (n : Nat) := List.Vector α n

instance : CoeFun (Vec α n) fun _ => Fin n → α := ⟨List.Vector.get⟩

def vec (f : Fin n → α) : Vec α n := List.Vector.ofFn f

@[simp] theorem vec_get (f : Fin n → α) (i : Fin n) : vec f i = f i := List.Vector.get_ofFn f i

theorem vec_ext {v w : Vec α n} (h : ∀ i, v i = w i) : v = w := List.Vector.ext h

end

/-! ## One-hot vectors -/

section
variable {α : Type}

def oneHot? (all : List α) (v : α → Bool) : Option α :=
  match all.filter v with
  | [a] => some a
  | _ => none

def isZero (all : List α) (v : α → Bool) : Bool := all.all fun a => !v a

variable {all : List α} {v : α → Bool} {a : α}

theorem isZero_iff : isZero all v = true ↔ ∀ b ∈ all, v b = false := by
  simp [isZero]

theorem oneHot?_of_isZero (h : isZero all v = true) : oneHot? all v = none := by
  have : all.filter v = [] := List.filter_eq_nil_iff.2 fun b hb => by simp [isZero_iff.1 h b hb]
  simp [oneHot?, this]

theorem oneHot?_eq_some (h : oneHot? all v = some a) : a ∈ all ∧ v a = true ∧ ∀ b ∈ all, v b = true → b = a := by
  unfold oneHot? at h
  split at h
  · rename_i c hc
    cases h
    have hm : ∀ b, b ∈ all.filter v ↔ b = a := by simp [hc]
    simp only [List.mem_filter] at hm
    refine ⟨((hm a).2 rfl).1, ((hm a).2 rfl).2, fun b hb hv => (hm b).1 ⟨hb, hv⟩⟩
  · cases h

theorem oneHot?_of_unique (hn : all.Nodup) (ha : a ∈ all) (hv : ∀ b ∈ all, v b = true ↔ b = a) :
    oneHot? all v = some a := by
  have hf : all.filter v = [a] := by
    have hm : ∀ b, b ∈ all.filter v ↔ b ∈ [a] := by
      intro b
      simp only [List.mem_filter, List.mem_singleton]
      exact ⟨fun h => (hv b h.1).1 h.2, fun h => h ▸ ⟨ha, (hv a ha).2 rfl⟩⟩
    have hp := (List.perm_ext_iff_of_nodup (hn.filter v) (List.nodup_singleton a)).2 hm
    exact List.perm_singleton.1 hp
  simp [oneHot?, hf]

end

/-! ## Indices -/

-- the numerals of an index of lanes, ways or stages
instance neZero_one : NeZero 1 := ⟨by decide⟩
instance neZero_two : NeZero 2 := ⟨by decide⟩
instance neZero_three : NeZero 3 := ⟨by decide⟩
instance neZero_four : NeZero 4 := ⟨by decide⟩
instance neZero_five : NeZero 5 := ⟨by decide⟩
instance neZero_eight : NeZero 8 := ⟨by decide⟩
instance neZero_twelve : NeZero 12 := ⟨by decide⟩
instance neZero_thirteen : NeZero 13 := ⟨by decide⟩
instance neZero_sixteen : NeZero 16 := ⟨by decide⟩
instance neZero_thirtyTwo : NeZero 32 := ⟨by decide⟩

/-! ## Bits -/

theorem extract_extract {n : Nat} (x : BitVec n) {a w b v : Nat} (h : b + v ≤ w) :
    (x.extractLsb' a w).extractLsb' b v = x.extractLsb' (a + b) v := by
  apply BitVec.eq_of_getLsbD_eq
  intro i hi
  have h1 : b + i < w := by omega
  simp [hi, h1, Nat.add_assoc]

theorem shift_and_one {w v : Nat} (x : BitVec w) (b : BitVec v) : ((x >>> b) &&& 1 != 0) = x.getLsbD b.toNat := by
  have h : (x >>> b.toNat) &&& 1#w = (BitVec.ofBool ((x >>> b.toNat).getLsbD 0)).setWidth w :=
    BitVec.and_one_eq_setWidth_ofBool_getLsbD
  show ((x >>> b.toNat) &&& 1#w != 0) = _
  rw [h, BitVec.getLsbD_ushiftRight, Nat.add_zero]
  cases hx : x.getLsbD b.toNat with
  | false => simp
  | true =>
    have hw : 1 < 2 ^ w := Nat.one_lt_two_pow (by have := BitVec.lt_of_getLsbD hx; omega)
    refine bne_iff_ne.2 fun h0 => ?_
    have h1 := congrArg BitVec.toNat h0
    rw [BitVec.toNat_setWidth] at h1
    exact absurd ((Nat.mod_eq_of_lt hw).symm.trans h1) (by simp)

/-! ## Memories -/

section
variable {α β : Type} [DecidableEq α]

def upd (mem : α → β) (a : α) (d : β) : α → β := fun b => if b = a then d else mem b

def wr (wren : Bool) (a : α) (d : β) (mem : α → β) : α → β := if wren then upd mem a d else mem

theorem wr_apply (wren : Bool) (a : α) (d : β) (mem : α → β) (b : α) :
    wr wren a d mem b = if wren = true ∧ b = a then d else mem b := by
  cases wren <;> simp [wr, upd]

/-- A read port with two cycles of latency: the word addressed in cycle `t`
is in `r1` in cycle `t + 1` and in `q` in cycle `t + 2`. -/
structure RdPort (β : Type) where
  r1 : β
  q : β
  deriving Inhabited

def RdPort.step (p : RdPort β) (rden : Bool) (d : β) : RdPort β :=
  { r1 := if rden then d else p.r1, q := p.r1 }

end

/-! ## Queues -/

def fifoStep {α : Type} (l : List α) (push : Option α) (pop : Bool) : List α :=
  (if pop then l.tail else l) ++ push.toList

theorem fifoStep_pop {α : Type} (l : List α) (push : Option α) (pop : Bool) :
    (if pop then l.head? else none).toList ++ fifoStep l push pop = l ++ push.toList := by
  unfold fifoStep
  cases pop with
  | false => rfl
  | true =>
    cases l with
    | nil => rfl
    | cons x l => simp

end Hdl
