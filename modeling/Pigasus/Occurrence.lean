import Mathlib.Data.List.Basic
import Mathlib.Tactic.Common

/-!
# Occurrences of a pattern

A pattern stands in a text at a shift when the text, seen through `f`, agrees with
it there. The two rules of Boyer and Moore say which shifts a mismatch excludes:
by the letter of the text that was met, and by the part that agreed.
-/

namespace Occurrence

variable {α β : Type} {f : β → α} {p : List α} {t : List β}

def OccursAt (f : β → α) (p : List α) (t : List β) (s : Nat) : Prop := ∀ i < p.length, (t[s + i]?).map f = p[i]?

theorem OccursAt.fits {s : Nat} (h : OccursAt f p t s) (hp : p ≠ []) : s + p.length ≤ t.length := by
  have hpos := List.length_pos_of_ne_nil hp
  have hlt : p.length - 1 < p.length := by omega
  have hlast := h (p.length - 1) hlt
  rw [List.getElem?_eq_getElem hlt, Option.map_eq_some_iff] at hlast
  obtain ⟨x, hx, -⟩ := hlast
  obtain ⟨hin, -⟩ := List.getElem?_eq_some_iff.1 hx
  omega

theorem occursAt_drop {s : Nat} : OccursAt f p (t.drop s) 0 ↔ OccursAt f p t s := by
  simp only [OccursAt, List.getElem?_drop, Nat.zero_add]

theorem occursAt_cons {a : α} {b : β} : OccursAt f (a :: p) (b :: t) 0 ↔ f b = a ∧ OccursAt f p t 0 := by
  simp only [OccursAt, List.length_cons, Nat.zero_add]
  constructor
  · intro h
    refine ⟨by simpa using h 0 (by omega), ?_⟩
    intro i hi
    simpa using h (i + 1) (by omega)
  · rintro ⟨h0, h⟩ i hi
    cases i with
    | zero => simpa using h0
    | succ i => simpa using h i (by omega)

theorem occursAt_zero_iff {g : β → α} (l t : List β) :
    OccursAt g (l.map g) t 0 ↔ l.length ≤ t.length ∧ ∀ ab ∈ l.zip t, g ab.1 = g ab.2 := by
  induction l generalizing t with
  | nil => simp [OccursAt]
  | cons a l ih =>
    cases t with
    | nil =>
      constructor
      · intro h
        exact absurd (h 0 (by simp)) (by simp)
      · rintro ⟨hle, -⟩
        exact absurd hle (by simp)
    | cons b t =>
      rw [List.map_cons, occursAt_cons, ih]
      simp only [List.length_cons, List.zip_cons_cons, List.forall_mem_cons, Nat.add_le_add_iff_right]
      rw [eq_comm, and_left_comm]

/-- The letter at `b` is not among the last `n - 1` of the pattern: no shift that puts one of these at `b` is an occurrence. -/
theorem not_occursAt_of_letter {b n s : Nat} (hx : ∀ i, p.length < i + n → (t[b]?).map f ≠ p[i]?) (hs : s ≤ b)
    (hb : b < s + p.length) (hn : s + p.length < b + n) : ¬ OccursAt f p t s := by
  intro h
  have hi := h (b - s) (by omega)
  rw [show s + (b - s) = b by omega] at hi
  exact hx (b - s) (by omega) hi

/-- The text agrees with the pattern at place `i` of shift `w`, and the pattern moved by `d` does not agree with itself there. -/
theorem not_occursAt_of_agree {w d i : Nat} (hi : i < p.length) (hd : d ≤ i) (hw : (t[w + i]?).map f = p[i]?)
    (hne : p[i - d]? ≠ p[i]?) : ¬ OccursAt f p t (w + d) := by
  intro h
  have hm := h (i - d) (by omega)
  rw [show w + d + (i - d) = w + i by omega, hw] at hm
  exact hne hm.symm

end Occurrence
