import Pigasus.Hdl
import Mathlib.Data.List.ReduceOption

/-!
# Pipelines

Shift registers, and the rule for a pipeline without feedback: what a word looks
like after `k` stages depends on the word alone, so the state is described by the
history of the words that went in.
-/

namespace Hdl

section
variable {α : Type} {n : Nat}

def shiftIn (x : α) (v : Vec α n) : Vec α n := vec fun k => if k.val = 0 then x else v ⟨k.val - 1, by omega⟩

theorem shiftIn_zero (x : α) (v : Vec α n) (h : 0 < n) : shiftIn x v ⟨0, h⟩ = x := by simp [shiftIn]

theorem shiftIn_succ (x : α) (v : Vec α n) (k : Nat) (h : k + 1 < n) :
    shiftIn x v ⟨k + 1, h⟩ = v ⟨k, by omega⟩ := by simp [shiftIn]

end

def RdPort.read {β : Type} (p : RdPort β) (d : β) : RdPort β := p.step true d

@[simp] theorem RdPort.read_r1 {β : Type} (p : RdPort β) (d : β) : (p.read d).r1 = d := rfl

@[simp] theorem RdPort.read_q {β : Type} (p : RdPort β) (d : β) : (p.read d).q = p.r1 := rfl

section
variable {σ ι β : Type} {C : Nat → σ → ι → Prop}

/-- Of the words that went in, the last one first, word `k` is in the state `s` as `C k` says. -/
def Delayed (C : Nat → σ → ι → Prop) (hist : List ι) (s : σ) : Prop := ∀ k x, hist[k]? = some x → C k s x

theorem Delayed.step {hist : List ι} {s t : σ} {x : ι} (h : Delayed C hist s) (h0 : C 0 t x)
    (hs : ∀ k y, C k s y → C (k + 1) t y) : Delayed C (x :: hist) t := by
  intro k y hk
  cases k with
  | zero => cases hk; exact h0
  | succ k => exact hs k y (h k y hk)

theorem flatMap_drop_cons (f : ι → List β) {hist : List ι} {n : Nat} {y : ι} (x : ι) (hy : hist[n]? = some y) :
    ((x :: hist).drop (n + 1)).reverse.flatMap f = (hist.drop (n + 1)).reverse.flatMap f ++ f y := by
  obtain ⟨hn, rfl⟩ := List.getElem?_eq_some_iff.1 hy
  rw [List.drop_succ_cons, List.drop_eq_getElem_cons hn, List.reverse_cons, List.flatMap_append]
  simp

end

/-! ## Three stages and a state -/

section
variable {σ ω α β τ : Type}

/-- What `f` shows in every cycle of a run. -/
def trace (step : σ → ω → σ) (f : σ → β) : σ → List ω → List β
  | _, [] => []
  | s, w :: ws => f s :: trace step f (step s w) ws

/-- The words of a run, each with the word behind it and the state in front of it. -/
def slots (slot : ω → ω → τ → α) (after : α → τ) (d : ω) : τ → List ω → List α
  | _, [] => []
  | t, w :: ws => slot w (ws.headD d) t :: slots slot after d (after (slot w (ws.headD d) t)) ws

/-- A pipeline that a word leaves through a state, in the third cycle: the word is in `s` as `C 0`, `C 1` and `C 2`
say. -/
structure ThreeStage (step : σ → ω → σ) (C : Nat → σ → α → Prop) (slot : ω → ω → τ → α) (st after : α → τ) (state : σ → τ) :
    Prop where
  st_slot : ∀ w n t, st (slot w n t) = t
  enter : ∀ s w n t, C 0 (step s w) (slot w n t)
  first : ∀ s w n t, C 0 s (slot w n t) → C 1 (step s n) (slot w n t)
  second : ∀ s w a, C 1 s a → C 2 (step s w) a
  leave : ∀ s w a, C 2 s a → state s = st a → state (step s w) = after a

variable {step : σ → ω → σ} {C : Nat → σ → α → Prop} {slot : ω → ω → τ → α} {st after : α → τ} {state : σ → τ} {d : ω}

theorem drop_slots (k : Nat) (t : τ) (ws : List ω) :
    ∃ t', (slots slot after d t ws).drop k = slots slot after d t' (ws.drop k) := by
  induction k generalizing t ws with
  | zero => exact ⟨t, rfl⟩
  | succ k ih =>
    cases ws with
    | nil => exact ⟨t, rfl⟩
    | cons w ws => exact ih _ ws

theorem reduceOption_slots_eq_nil {val : α → Option β} {ws : List ω} (h : ∀ w ∈ ws, ∀ n t, val (slot w n t) = none) (t : τ) :
    ((slots slot after d t ws).map val).reduceOption = [] := by
  induction ws generalizing t with
  | nil => rfl
  | cons w ws ih =>
    rw [slots, List.map_cons, h w List.mem_cons_self, List.reduceOption_cons_of_none]
    exact ih (fun v hv => h v (List.mem_cons_of_mem _ hv)) _

theorem ThreeStage.trace_eq (h : ThreeStage step C slot st after state) {f : σ → β} {val : α → β}
    (hf : ∀ s a, C 2 s a → state s = st a → f s = val a) {ws : List ω} {s : σ} {w : ω} {a b : α}
    (h0 : C 0 s (slot w (ws.headD d) (after a))) (h1 : C 1 s a) (h2 : C 2 s b) (ha : st a = after b)
    (hs : state s = st b) :
    trace step f s ws = ((b :: a :: slots slot after d (after a) (w :: ws)).map val).take ws.length := by
  induction ws generalizing s w a b with
  | nil => rfl
  | cons v ws ih =>
    rw [trace, List.map_cons, List.length_cons, List.take_succ_cons, hf s b h2 hs]
    refine congrArg (val b :: ·) (ih (h.enter s v _ _) (h.first s w v _ h0) (h.second s v a h1) (h.st_slot ..) ?_)
    exact (h.leave s v b h2 hs).trans ha.symm

/-- With three words that show nothing in the stages, and three more at the end of the run, all words are seen in
order. -/
theorem ThreeStage.reduceOption_trace (h : ThreeStage step C slot st after state) {f : σ → Option β} {val : α → Option β}
    (hf : ∀ s a, C 2 s a → state s = st a → f s = val a) {us vs : List ω} {s : σ} {w : ω} {a b : α}
    (h0 : C 0 s (slot w ((us ++ vs).headD d) (after a))) (h1 : C 1 s a) (h2 : C 2 s b) (ha : st a = after b)
    (hs : state s = st b) (hw : ∀ n t, val (slot w n t) = none) (hva : val a = none) (hvb : val b = none)
    (hv : ∀ v ∈ vs, ∀ n t, val (slot v n t) = none) (h3 : vs.length = 3) :
    (trace step f s (us ++ vs)).reduceOption =
      ((slots slot after d (after (slot w ((us ++ vs).headD d) (after a))) (us ++ vs)).map val).reduceOption := by
  have hlen : (us ++ vs).length = us.length + 3 := by rw [List.length_append, h3]
  rw [h.trace_eq hf h0 h1 h2 ha hs, slots, hlen]
  generalize after (slot w ((us ++ vs).headD d) (after a)) = t
  simp only [List.map_cons, List.take_succ_cons, hva, hvb, hw, List.reduceOption_cons_of_none, ← List.map_take]
  have hdrop : ∃ t', (slots slot after d t (us ++ vs)).drop us.length = slots slot after d t' ((us ++ vs).drop us.length) :=
    drop_slots us.length t (us ++ vs)
  obtain ⟨t', ht⟩ := hdrop
  rw [List.drop_left] at ht
  conv_rhs => rw [← List.take_append_drop us.length (slots slot after d t (us ++ vs)), ht]
  rw [List.map_append, List.reduceOption_append, reduceOption_slots_eq_nil hv, List.append_nil]

/-- Every word of a run and the word behind it meet `P`. -/
def EachNext (P : ω → ω → Prop) (d : ω) : List ω → Prop
  | [] => True
  | w :: ws => P w (ws.headD d) ∧ EachNext P d ws

variable {κ : Type}

/-- The results of the valid words of a run; `res` and `aft` read a word, the word behind it and the state. -/
def results (valid : κ → Bool) (res : κ → κ → τ → β) (aft : κ → κ → τ → τ) (d : κ) : τ → List κ → List β
  | _, [] => []
  | t, k :: ks =>
    if valid k then res k (ks.headD d) t :: results valid res aft d (aft k (ks.headD d) t) ks
    else results valid res aft d t ks

theorem forall₂_results {γ : Type} {val : α → Option γ} (valid : κ → Bool) (bare : ω → κ) {res : κ → κ → τ → β}
    {aft : κ → κ → τ → τ} {P : ω → ω → Prop} {R : γ → ω → β → Prop}
    (hidle : ∀ w n t, valid (bare w) = false → val (slot w n t) = none ∧ after (slot w n t) = t)
    (hbeat : ∀ w n t, valid (bare w) = true → P w n → ∃ o, val (slot w n t) = some o ∧ R o w (res (bare w) (bare n) t) ∧
      after (slot w n t) = aft (bare w) (bare n) t) (ws : List ω) (t : τ) (h : EachNext P d ws) :
    List.Forall₂ (fun o x => R o x.1 x.2) ((slots slot after d t ws).map val).reduceOption
      ((ws.filter fun w => valid (bare w)).zip (results valid res aft (bare d) t (ws.map bare))) ∧
      (results valid res aft (bare d) t (ws.map bare)).length = (ws.filter fun w => valid (bare w)).length := by
  induction ws generalizing t with
  | nil => exact ⟨.nil, rfl⟩
  | cons w ws ih =>
    have hd : (ws.map bare).headD (bare d) = bare (ws.headD d) := by cases ws <;> rfl
    rw [slots, List.map_cons, List.map_cons, results, hd]
    cases hv : valid (bare w) with
    | false =>
      obtain ⟨h0, ha⟩ := hidle w (ws.headD d) t hv
      rw [h0, ha, List.reduceOption_cons_of_none, List.filter_cons_of_neg (by simp [hv])]
      exact ih t h.2
    | true =>
      obtain ⟨o, ho, hr, ha⟩ := hbeat w (ws.headD d) t hv h.1
      rw [ho, ha, List.reduceOption_cons_of_some, List.filter_cons_of_pos (by simp [hv])]
      obtain ⟨hi, hl⟩ := ih (aft (bare w) (bare (ws.headD d)) t) h.2
      exact ⟨.cons hr hi, congrArg (· + 1) hl⟩

end

end Hdl
