import Mathlib.Data.List.Basic
import Mathlib.Tactic.Common

/-!
# A ring of records that are not cut

Records of at most `T` slots go into consecutive slots of a ring. A record that ends
at slot `M` or behind it is the last of its round, and the next one starts at slot
`0`. What is not read yet is therefore one piece, or the end of a round and the
beginning of the next. `head` moves over whole records only; `mark` tells the last
slot of a record.
-/

namespace WrapRing

variable {α : Type} {M T : Nat} {mark : α → Bool} {mem : Nat → α} {head tail last : Nat} {u v r : List α}

def Holds (mem : Nat → α) (a : Nat) (l : List α) : Prop := ∀ k x, l[k]? = some x → mem (a + k) = x

theorem Holds.nil {a : Nat} : Holds mem a [] := by
  intro k x h
  cases h

theorem Holds.append {a : Nat} (hu : Holds mem a u) (hv : Holds mem (a + u.length) v) : Holds mem a (u ++ v) := by
  intro k x h
  by_cases hk : k < u.length
  · exact hu k x (by rwa [List.getElem?_append_left hk] at h)
  · rw [List.getElem?_append_right (by omega)] at h
    have hx := hv (k - u.length) x h
    rwa [show a + u.length + (k - u.length) = a + k by omega] at hx

theorem Holds.drop {a : Nat} (h : Holds mem a u) (n : Nat) : Holds mem (a + n) (u.drop n) := by
  intro k x hx
  rw [List.getElem?_drop] at hx
  rw [Nat.add_assoc]
  exact h _ x hx

theorem Holds.congr {mem' : Nat → α} {a : Nat} (h : Holds mem a u) (he : ∀ k < u.length, mem' (a + k) = mem (a + k)) : Holds mem' a u := by
  intro k x hx
  obtain ⟨hk, -⟩ := List.getElem?_eq_some_iff.1 hx
  rw [he k hk]
  exact h k x hx

def Record (mark : α → Bool) (r : List α) : Prop := r ≠ [] ∧ ∀ k x, r[k]? = some x → (mark x = true ↔ k + 1 = r.length)

def Ends (mark : α → Bool) (l : List α) : Prop := ∀ x, l[l.length - 1]? = some x → mark x = true

theorem Ends.nil : Ends mark [] := by
  intro x h
  cases h

theorem Ends.append (h : Record mark r) : Ends mark (u ++ r) := by
  intro x hx
  have hpos := List.length_pos_of_ne_nil h.1
  rw [List.length_append, List.getElem?_append_right (by omega)] at hx
  exact (h.2 _ x hx).2 (by omega)

theorem Ends.drop {n : Nat} (h : Ends mark u) : Ends mark (u.drop n) := by
  intro x hx
  rw [List.getElem?_drop, List.length_drop] at hx
  by_cases hn : n < u.length
  · exact h x (by rwa [show n + (u.length - n - 1) = u.length - 1 by omega] at hx)
  · rw [List.getElem?_eq_none (by omega)] at hx
    cases hx

structure Lays (M T : Nat) (mark : α → Bool) (mem : Nat → α) (head tail last : Nat) (u v : List α) : Prop where
  headLt : head < M
  tailLt : tail < M
  held : Holds mem head u
  next : Holds mem 0 v
  ends : Ends mark u
  nextEnds : Ends mark v
  -- a record that ends in front of the last one of its round ends in front of `M`
  inner : ∀ k x, u[k]? = some x → mark x = true → head + k + 1 < M ∨ (tail < head ∧ k + 1 = u.length)
  shape : (head ≤ tail ∧ v = [] ∧ head + u.length = tail) ∨
    (tail < head ∧ u ≠ [] ∧ head + u.length = last ∧ M ≤ last ∧ last < M + T ∧ v.length = tail)

/-- A record of `T` slots can be written at `tail`, over nothing and without meeting `head`. -/
def Room (M T head tail : Nat) : Prop := (tail < head ∧ tail + T < head) ∨ (head ≤ tail ∧ (tail + T < M ∨ head ≠ 0))

theorem Lays.init (hM : 0 < M) : Lays M T mark mem 0 0 last [] [] where
  headLt := hM
  tailLt := hM
  held := Holds.nil
  next := Holds.nil
  ends := Ends.nil
  nextEnds := Ends.nil
  inner := by simp
  shape := .inl ⟨Nat.le_refl 0, rfl, rfl⟩

namespace Lays

theorem end_lt (h : Lays M T mark mem head tail last u v) : head + u.length < M + T := by
  have ht := h.tailLt
  rcases h.shape with ⟨_, _, _⟩ | ⟨_, _, _, _, _, _⟩ <;> omega

theorem write {mem' : Nat → α} (h : Lays M T mark mem head tail last u v) (hr : Room M T head tail)
    (he : ∀ a < M + T, ¬ (tail ≤ a ∧ a < tail + T) → mem' a = mem a) : Lays M T mark mem' head tail last u v := by
  have hend := h.end_lt
  have ht := h.tailLt
  refine { h with held := h.held.congr ?_, next := h.next.congr ?_ }
  · intro k hk
    refine he _ (by omega) ?_
    rcases h.shape with ⟨_, _, _⟩ | ⟨_, _, _, _, _, _⟩ <;> rcases hr with ⟨_, _⟩ | ⟨_, _⟩ <;> omega
  · intro k hk
    rcases h.shape with ⟨_, rfl, _⟩ | ⟨_, _, _, _, _, _⟩
    · exact absurd hk (by simp)
    · exact he _ (by omega) (by omega)

theorem apart {j k : Nat} (h : Lays M T mark mem head tail last u v) (hr : Room M T head tail) (hk : k < u.length) (hj : j < T) :
    head + k ≠ tail + j := by
  rcases h.shape with ⟨_, _, _⟩ | ⟨_, _, _, _, _, _⟩ <;> rcases hr with ⟨_, _⟩ | ⟨_, _⟩ <;> omega

theorem commit (h : Lays M T mark mem head tail last u v) (hr : Room M T head tail) (hrec : Record mark r) (hT : r.length ≤ T)
    (hm : Holds mem tail r) (hfit : tail + r.length < M) :
    ∃ u' v', Lays M T mark mem head (tail + r.length) last u' v' ∧ u' ++ v' = u ++ v ++ r ∧ u <+: u' := by
  have hpos := List.length_pos_of_ne_nil hrec.1
  rcases h.shape with ⟨hle, rfl, hlen⟩ | ⟨hlt, hu, hlast, hM, hTl, hv⟩
  · refine ⟨u ++ r, [], ⟨h.headLt, hfit, h.held.append (hlen ▸ hm), Holds.nil, Ends.append hrec, h.nextEnds, ?_, ?_⟩, by simp,
      List.prefix_append u r⟩
    · intro k x hx _
      obtain ⟨hk, -⟩ := List.getElem?_eq_some_iff.1 hx
      rw [List.length_append] at hk
      exact .inl (by omega)
    · exact .inl ⟨by omega, rfl, by rw [List.length_append]; omega⟩
  · have hroom : tail + T < head := by rcases hr with ⟨_, h⟩ | ⟨h, _⟩ <;> omega
    refine ⟨u, v ++ r, ⟨h.headLt, hfit, h.held, h.next.append ?_, h.ends, Ends.append hrec, ?_, ?_⟩, by simp, List.prefix_refl u⟩
    · rw [Nat.zero_add, hv]
      exact hm
    · intro k x hx hmx
      rcases h.inner k x hx hmx with h1 | ⟨_, h2⟩
      · exact .inl h1
      · exact .inr ⟨by omega, h2⟩
    · exact .inr ⟨by omega, hu, hlast, hM, hTl, by rw [List.length_append]; omega⟩

theorem commit_wrap (h : Lays M T mark mem head tail last u v) (hr : Room M T head tail) (hrec : Record mark r) (hT : r.length ≤ T)
    (hm : Holds mem tail r) (hfit : M ≤ tail + r.length) :
    ∃ u' v', Lays M T mark mem head 0 (tail + r.length) u' v' ∧ u' ++ v' = u ++ v ++ r ∧ u <+: u' := by
  have hpos := List.length_pos_of_ne_nil hrec.1
  have hM := h.headLt
  have ht := h.tailLt
  rcases h.shape with ⟨hle, rfl, hlen⟩ | ⟨hlt, -⟩
  · have hh : head ≠ 0 := by rcases hr with ⟨h, _⟩ | ⟨_, h⟩ <;> omega
    refine ⟨u ++ r, [], ⟨hM, by omega, h.held.append (hlen ▸ hm), Holds.nil, Ends.append hrec, h.nextEnds, ?_, ?_⟩, by simp,
      List.prefix_append u r⟩
    · intro k x hx hmx
      rw [List.length_append]
      by_cases hk : k < u.length
      · exact .inl (by omega)
      · rw [List.getElem?_append_right (by omega)] at hx
        have hend := (hrec.2 _ x hx).1 hmx
        exact .inr ⟨by omega, by omega⟩
    · refine .inr ⟨by omega, by simp [hrec.1], ?_, hfit, by omega, rfl⟩
      rw [List.length_append]
      omega
  · have hroom : tail + T < head := by rcases hr with ⟨_, h⟩ | ⟨h, _⟩ <;> omega
    omega

theorem free {k : Nat} {x : α} (h : Lays M T mark mem head tail last u v) (hx : u[k]? = some x)
    (hin : head + k + 1 < M) : Lays M T mark mem (head + k + 1) tail last (u.drop (k + 1)) v := by
  obtain ⟨hk, -⟩ := List.getElem?_eq_some_iff.1 hx
  refine ⟨hin, h.tailLt, h.held.drop (k + 1), h.next, h.ends.drop, h.nextEnds, ?_, ?_⟩
  · intro j y hy hmy
    rw [List.getElem?_drop] at hy
    rw [List.length_drop]
    rcases h.inner _ y hy hmy with h1 | ⟨h1, h2⟩
    · exact .inl (by omega)
    · exact .inr ⟨by omega, by omega⟩
  · rw [List.length_drop]
    rcases h.shape with ⟨_, hv, _⟩ | ⟨_, hu, _, _, _, _⟩
    · exact .inl ⟨by omega, hv, by omega⟩
    · refine .inr ⟨by omega, ?_, by omega, by omega, by omega, by omega⟩
      rw [Ne, List.drop_eq_nil_iff]
      omega

theorem free_wrap {k : Nat} {x : α} (h : Lays M T mark mem head tail last u v) (hx : u[k]? = some x) (hmx : mark x = true)
    (hout : M ≤ head + k + 1) : Lays M T mark mem 0 tail last v [] ∧ u.drop (k + 1) = [] := by
  have hM := h.headLt
  rcases h.inner k x hx hmx with hlt | ⟨hw, hk⟩
  · omega
  · rcases h.shape with ⟨_, _, _⟩ | ⟨_, _, _, _, _, hv⟩
    · omega
    · have ht := h.tailLt
      refine ⟨⟨by omega, ht, h.next, Holds.nil, h.nextEnds, Ends.nil, ?_, .inl ⟨by omega, rfl, by omega⟩⟩, ?_⟩
      · intro j y hy _
        obtain ⟨hj, -⟩ := List.getElem?_eq_some_iff.1 hy
        exact .inl (by omega)
      · exact List.drop_eq_nil_iff.2 (by omega)

theorem room_free {k : Nat} {x : α} (h : Lays M T mark mem head tail last u v) (hr : Room M T head tail) (hx : u[k]? = some x) :
    Room M T (head + k + 1) tail := by
  obtain ⟨hk, -⟩ := List.getElem?_eq_some_iff.1 hx
  rcases h.shape with ⟨_, _, _⟩ | ⟨_, _, _, _, _, _⟩
  · exact .inr ⟨by omega, .inr (by omega)⟩
  · have hroom : tail + T < head := by rcases hr with ⟨_, h⟩ | ⟨h, _⟩ <;> omega
    exact .inl ⟨by omega, by omega⟩

theorem room_wrap (h : Lays M T mark mem head tail last u v) (hr : Room M T head tail) (hw : tail < head) : Room M T 0 tail := by
  have hM := h.headLt
  have hroom : tail + T < head := by rcases hr with ⟨_, h⟩ | ⟨h, _⟩ <;> omega
  exact .inr ⟨by omega, .inl (by omega)⟩

theorem length_eq (h : Lays M T mark mem head tail last u v) :
    u.length + v.length = if tail < head then last - head + tail else tail - head := by
  rcases h.shape with ⟨hle, rfl, hlen⟩ | ⟨hlt, _, _, _, _, hv⟩
  · rw [if_neg (by omega), List.length_nil]
    omega
  · rw [if_pos hlt]
    omega

theorem piece_eq (h : Lays M T mark mem head tail last u v) : u.length = if tail < head then last - head else tail - head := by
  rcases h.shape with ⟨hle, rfl, hlen⟩ | ⟨hlt, _, _, _, _, hv⟩
  · rw [if_neg (by omega)]
    omega
  · rw [if_pos hlt]
    omega

theorem room_of_free (h : Lays M T mark mem head tail last u v) (hf : u.length + v.length + 2 * T < M + T) : Room M T head tail := by
  rcases h.shape with ⟨hle, rfl, hlen⟩ | ⟨hlt, _, _, _, _, hv⟩
  · rw [List.length_nil] at hf
    by_cases hz : head = 0
    · exact .inr ⟨hle, .inl (by omega)⟩
    · exact .inr ⟨hle, .inr hz⟩
  · exact .inl ⟨hlt, by omega⟩

end Lays

end WrapRing
