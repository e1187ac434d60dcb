import Mathlib.Data.List.Basic

/-!
# Streams cut into groups

A stream of entries some of which are marked as the last of their group. The
group number `k` of a stream has the unmarked entries between the marks `k - 1`
and `k`; the group behind the last mark is the one still open.
-/

namespace Groups

section
variable {α : Type} (last : α → Bool)

/-- The number of closed groups. -/
def lasts (l : List α) : Nat := l.countP last

def group : List α → Nat → List α
  | [], _ => []
  | x :: l, 0 => if last x then [] else x :: group l 0
  | x :: l, k + 1 => group l (if last x then k else k + 1)

variable {last} {l l' : List α} {x : α} {k : Nat}

@[simp] theorem lasts_nil : lasts last [] = 0 := rfl

@[simp] theorem lasts_append : lasts last (l ++ l') = lasts last l + lasts last l' := List.countP_append

theorem lasts_singleton : lasts last [x] = if last x then 1 else 0 := by
  simp [lasts, List.countP_cons]

theorem lasts_cons : lasts last (x :: l) = (if last x then 1 else 0) + lasts last l := by
  simp [lasts, List.countP_cons, Nat.add_comm]

@[simp] theorem group_nil : group last [] k = [] := by cases k <;> rfl

theorem group_append (l l' : List α) (k : Nat) :
    group last (l ++ l') k =
      if k < lasts last l then group last l k else group last l k ++ group last l' (k - lasts last l) := by
  induction l generalizing k with
  | nil => simp
  | cons x l ih =>
    rw [List.cons_append, lasts_cons]
    cases k with
    | zero =>
      by_cases hx : last x = true
      · simp [group, hx]
      · simp only [group, hx, Bool.false_eq_true, if_false, Nat.zero_add, ih]
        split <;> simp
    | succ k =>
      by_cases hx : last x = true
      · simp only [group, hx, if_true, ih]
        simp only [Nat.add_comm 1, Nat.add_lt_add_iff_right, Nat.add_sub_add_right]
      · simp only [group, hx, Bool.false_eq_true, if_false, Nat.zero_add, ih]

theorem group_append_of_lt (h : k < lasts last l) : group last (l ++ l') k = group last l k := by
  rw [group_append, if_pos h]

theorem group_snoc_last (hx : last x = true) : group last (l ++ [x]) k = group last l k := by
  rw [group_append]
  split
  · rfl
  · have : group last [x] (k - lasts last l) = [] := by cases k - lasts last l <;> simp [group, hx]
    rw [this, List.append_nil]

theorem group_snoc (hx : last x = false) :
    group last (l ++ [x]) k = if k = lasts last l then group last l k ++ [x] else group last l k := by
  rw [group_append]
  split
  · rw [if_neg (by omega)]
  · split
    · have : group last [x] (k - lasts last l) = [x] := by
        rw [show k - lasts last l = 0 by omega]
        simp [group, hx]
      rw [this]
    · obtain ⟨j, hj⟩ : ∃ j, k - lasts last l = j + 1 := ⟨k - lasts last l - 1, by omega⟩
      rw [hj]
      simp [group]

theorem mem_snoc_self (hx : last x = false) : x ∈ group last (l ++ [x]) (lasts last (l ++ [x])) := by
  simp [group_snoc hx, lasts_singleton, hx]

theorem mem_snoc {y : α} (hx : last x = false) (hy : y ∈ group last l (lasts last l)) :
    y ∈ group last (l ++ [x]) (lasts last (l ++ [x])) := by
  simp [group_snoc hx, lasts_singleton, hx, hy]

end

/-! ## The union of two streams -/

section
variable {α : Type} (last : α → Bool)

structure Merged (c d e : List α) : Prop where
  left : lasts last c = lasts last e
  right : lasts last d = lasts last e
  mem : ∀ k x, x ∈ group last e k ↔ x ∈ group last c k ∨ x ∈ group last d k

variable {last} {c d e : List α} {x y z : α} (h : Merged last c d e)

theorem Merged.nil : Merged last ([] : List α) [] [] := ⟨rfl, rfl, by simp⟩

include h

theorem Merged.symm : Merged last d c e := ⟨h.right, h.left, fun k x => (h.mem k x).trans or_comm⟩

theorem Merged.drop (hx : last x = false) (hm : x ∈ group last e (lasts last e)) : Merged last (c ++ [x]) d e := by
  refine ⟨by simp [h.left, lasts_singleton, hx], h.right, fun k y => ?_⟩
  rw [group_snoc hx, h.left]
  split
  · next hk =>
    subst hk
    rw [List.mem_append, List.mem_singleton, h.mem]
    constructor
    · rintro (hc | hd)
      · exact .inl (.inl hc)
      · exact .inr hd
    · rintro ((hc | rfl) | hd)
      · exact .inl hc
      · exact (h.mem _ _).1 hm
      · exact .inr hd
  · exact h.mem k y

theorem Merged.emit (hx : last x = false) : Merged last (c ++ [x]) d (e ++ [x]) := by
  refine ⟨by simp [h.left], by simp [h.right, lasts_singleton, hx], fun k y => ?_⟩
  rw [group_snoc hx, group_snoc hx, h.left]
  split
  · simp only [List.mem_append, h.mem, List.mem_singleton, or_right_comm]
  · exact h.mem k y

theorem Merged.close (hx : last x = true) (hy : last y = true) (hz : last z = true) :
    Merged last (c ++ [x]) (d ++ [y]) (e ++ [z]) := by
  refine ⟨by simp [h.left, lasts_singleton, hx, hz], by simp [h.right, lasts_singleton, hy, hz], fun k w => ?_⟩
  rw [group_snoc_last hx, group_snoc_last hy, group_snoc_last hz]
  exact h.mem k w

end

end Groups
