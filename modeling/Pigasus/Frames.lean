import Mathlib.Data.List.Basic

/-!
# Framed streams

A frame is a list of words of which the last, and no other, is marked. A
stream of frames is read word by word, and the mark tells where a frame ends.
-/

namespace Frames

section
variable {α : Type}

structure Marked (mark : α → Bool) where
  body : List α
  last : α
  body_mark : ∀ x ∈ body, mark x = false
  last_mark : mark last = true

variable {mark : α → Bool}

def Marked.flits (f : Marked mark) : List α := f.body ++ [f.last]

variable {f : Marked mark} {a r : List α} {x : α}

theorem Marked.flits_ne_nil (f : Marked mark) : f.flits ≠ [] := by simp [flits]

theorem Marked.mark_iff (h : f.flits = a ++ x :: r) : mark x = true ↔ r = [] := by
  unfold flits at h
  rcases List.append_eq_append_iff.1 h with ⟨b, rfl, hb⟩ | ⟨b, hb, hx⟩
  · cases b with
    | nil =>
      obtain ⟨rfl, rfl⟩ := List.cons.inj hb
      exact ⟨fun _ => rfl, fun _ => f.last_mark⟩
    | cons y b => simp at hb
  · cases b with
    | nil =>
      obtain ⟨rfl, rfl⟩ := List.cons.inj hx
      exact ⟨fun _ => rfl, fun _ => f.last_mark⟩
    | cons y b =>
      obtain ⟨rfl, rfl⟩ := List.cons.inj hx
      have hm := f.body_mark x (by simp [hb])
      simp [hm]

theorem Marked.eq_of_flits {f g : Marked mark} (h : f.flits = g.flits) : f = g := by
  obtain ⟨hb, hl⟩ := List.append_inj' h rfl
  cases f
  cases g
  simp_all

theorem Marked.eq_of_append {f g : Marked mark} {r r' : List α} (h : f.flits ++ r = g.flits ++ r') : f = g ∧ r = r' := by
  have key : ∀ {f g : Marked mark} {b : List α}, g.flits = f.flits ++ b → b = [] := by
    intro f g b hb
    have hb' : g.flits = f.body ++ f.last :: b := by simpa [flits] using hb
    exact (Marked.mark_iff hb').1 f.last_mark
  have heq : f = g := by
    rcases List.append_eq_append_iff.1 h with ⟨b, hb, -⟩ | ⟨b, hb, -⟩
    · have hn := key hb
      exact Marked.eq_of_flits (by simpa [hn] using hb.symm)
    · have hn := key hb
      exact Marked.eq_of_flits (by simpa [hn] using hb)
  subst heq
  exact ⟨rfl, List.append_cancel_left h⟩

theorem Marked.last_mem (f : Marked mark) : f.last ∈ f.flits := by simp [flits]

end

end Frames
