import Mathlib.Algebra.BigOperators.Group.List.Basic
import Mathlib.Tactic.Ring

/-!
# Sums in one's complement

Words of `w` bits are added with the carry out of the top brought back in at the
bottom. The sum is determined by the sum of the words as numbers, so their order
does not matter.
-/

namespace OnesComplement

variable (w : Nat)

def add (a b : Nat) : Nat := (a + b) % 2 ^ w + (a + b) / 2 ^ w

def sum (l : List Nat) : Nat := l.foldl (add w) 0

/-- The word for a number: 0 for 0 only. -/
def canon (n : Nat) : Nat := if n = 0 then 0 else (n - 1) % (2 ^ w - 1) + 1

variable {w}

theorem add_eq {a b : Nat} (h : a + b < 2 * 2 ^ w) : add w a b = if a + b < 2 ^ w then a + b else a + b - (2 ^ w - 1) := by
  unfold add
  by_cases hs : a + b < 2 ^ w
  · rw [if_pos hs, Nat.mod_eq_of_lt hs, Nat.div_eq_of_lt hs, Nat.add_zero]
  · have hd : (a + b) / 2 ^ w = 1 := by
      apply Nat.div_eq_of_lt_le
      · omega
      · omega
    rw [if_neg hs, hd]
    have := Nat.div_add_mod (a + b) (2 ^ w)
    rw [hd, Nat.mul_one] at this
    omega

theorem canon_of_lt {n : Nat} (h : n < 2 ^ w) : canon w n = n := by
  unfold canon
  by_cases hn : n = 0
  · rw [if_pos hn, hn]
  · rw [if_neg hn, Nat.mod_eq_of_lt (by omega)]
    omega

theorem add_canon (hw : 0 < w) {n x : Nat} (hx : x < 2 ^ w) : add w (canon w n) x = canon w (n + x) := by
  have h2 : 2 ≤ 2 ^ w := Nat.le_self_pow (by omega) 2
  by_cases hn : n = 0
  · subst hn
    rw [Nat.zero_add, canon_of_lt hx, canon, if_pos rfl, add_eq (by omega), Nat.zero_add, if_pos hx]
  · have hm : 0 < 2 ^ w - 1 := by omega
    have hlt := Nat.mod_lt (n - 1) hm
    have hdiv := Nat.div_add_mod (n - 1) (2 ^ w - 1)
    rw [canon, canon, if_neg hn, if_neg (by omega), add_eq (by omega)]
    have hnx : n + x - 1 = (n - 1) % (2 ^ w - 1) + x + (2 ^ w - 1) * ((n - 1) / (2 ^ w - 1)) := by omega
    rw [hnx, Nat.add_mul_mod_self_left]
    generalize (n - 1) % (2 ^ w - 1) = c at hlt
    by_cases hs : c + x < 2 ^ w - 1
    · rw [Nat.mod_eq_of_lt hs, if_pos (by omega)]
      omega
    · rw [Nat.mod_eq_sub_mod (by omega), Nat.mod_eq_of_lt (by omega), if_neg (by omega)]
      omega

theorem foldl_add (hw : 0 < w) : ∀ (l : List Nat) (n : Nat), (∀ x ∈ l, x < 2 ^ w) →
    l.foldl (add w) (canon w n) = canon w (n + l.sum)
  | [], n, _ => by simp
  | x :: l, n, h => by
    rw [List.foldl_cons, add_canon hw (h x List.mem_cons_self), foldl_add hw l _ fun y hy => h y (List.mem_cons_of_mem _ hy),
      List.sum_cons, Nat.add_assoc]

theorem sum_eq (hw : 0 < w) {l : List Nat} (h : ∀ x ∈ l, x < 2 ^ w) : sum w l = canon w l.sum := by
  have := foldl_add hw l 0 h
  rwa [canon, if_pos rfl, Nat.zero_add] at this

theorem sum_perm (hw : 0 < w) {l m : List Nat} (h : ∀ x ∈ l, x < 2 ^ w) (hp : m.Perm l) : sum w m = sum w l := by
  rw [sum_eq hw h, sum_eq hw fun x hx => h x (hp.subset hx), hp.sum_eq]

end OnesComplement
