import Pigasus.Hdl

/-!
# Chains in a memory

A list of nodes that is laid out in a memory: each cell has the address of the next
node, and the cell of the last node is marked. `cell` makes the contents of a cell from
what the node keeps, the next address and the mark.
-/

namespace Chain

open Hdl

variable {α β γ : Type} (cell : β → α → Bool → γ)

def Link (mem : α → γ) (n : α × β) : List (α × β) → Prop
  | [] => ∃ x, mem n.1 = cell n.2 x true
  | m :: _ => mem n.1 = cell n.2 m.1 false

def Linked (mem : α → γ) : List (α × β) → Prop
  | [] => True
  | n :: l => Link cell mem n l ∧ Linked mem l

variable {cell} {mem : α → γ} {n m : α × β} {pre l : List (α × β)} {a : α} {d : γ}

theorem Linked.of_append (h : Linked cell mem (pre ++ l)) : Linked cell mem l := by
  induction pre with
  | nil => exact h
  | cons n pre ih => exact ih h.2

theorem Link.mem_eq (h : Link cell mem n l) : ∃ x, mem n.1 = cell n.2 x l.isEmpty ∧ ∀ m ∈ l.head?, x = m.1 := by
  cases l with
  | nil =>
    obtain ⟨x, hx⟩ := h
    exact ⟨x, hx, nofun⟩
  | cons m l => exact ⟨m.1, h, by simp⟩

theorem Link.congr {l' : List (α × β)} (h : Link cell mem n (l ++ m :: pre)) : Link cell mem n (l ++ m :: l') := by
  cases l <;> exact h

theorem Linked.replace {mem' : α → γ} {l' : List (α × β)} (h : Linked cell mem (pre ++ n :: l)) (hl : Linked cell mem' (n :: l'))
    (hm : ∀ k ∈ pre, mem' k.1 = mem k.1) : Linked cell mem' (pre ++ n :: l') := by
  induction pre with
  | nil => exact hl
  | cons k pre ih =>
    refine ⟨?_, ih h.2 fun k hk => hm k (List.mem_cons_of_mem _ hk)⟩
    have hk : Link cell mem k (pre ++ n :: l') := h.1.congr
    have he := hm k List.mem_cons_self
    cases pre with
    | nil => exact he.trans hk
    | cons j pre => exact he.trans hk

variable [DecidableEq α]

theorem upd_ne {b : α} (h : b ≠ a) : upd mem a d b = mem b := by simp [upd, h]

theorem upd_same : upd mem a d a = d := by simp [upd]

theorem Link.upd (h : Link cell mem n l) (ha : n.1 ≠ a) : Link cell (upd mem a d) n l := by
  cases l with
  | nil =>
    obtain ⟨x, hx⟩ := h
    exact ⟨x, by rw [upd_ne ha, hx]⟩
  | cons m l =>
    show Hdl.upd mem a d n.1 = _
    rw [upd_ne ha]
    exact h

theorem Linked.upd (h : Linked cell mem l) (ha : a ∉ l.map Prod.fst) : Linked cell (upd mem a d) l := by
  induction l with
  | nil => trivial
  | cons n l ih =>
    simp only [List.map_cons, List.mem_cons, not_or] at ha
    exact ⟨h.1.upd (Ne.symm ha.1), ih h.2 ha.2⟩

theorem Linked.cons (h : Linked cell mem (m :: l)) (b : β) (ha : a ∉ (m :: l).map Prod.fst) :
    Linked cell (Hdl.upd mem a (cell b m.1 false)) ((a, b) :: m :: l) :=
  ⟨upd_same, h.upd ha⟩

theorem Linked.insert (h : Linked cell mem (pre ++ n :: m :: l)) (hn : ((pre ++ n :: m :: l).map Prod.fst).Nodup) (b : β)
    (ha : a ∉ (pre ++ n :: m :: l).map Prod.fst) :
    Linked cell (Hdl.upd (Hdl.upd mem n.1 (cell n.2 a false)) a (cell b m.1 false)) (pre ++ n :: (a, b) :: m :: l) := by
  simp only [List.map_append, List.map_cons, List.mem_append, List.mem_cons, not_or] at ha
  obtain ⟨hp, hna, hma, hla⟩ := ha
  rw [List.map_append, List.nodup_append] at hn
  obtain ⟨-, hn2, hn3⟩ := hn
  rw [List.map_cons, List.nodup_cons] at hn2
  refine h.replace ⟨?_, ?_⟩ fun k hk => ?_
  · show Hdl.upd _ a _ n.1 = _
    rw [upd_ne (Ne.symm hna), upd_same]
  · have h2 : Linked cell mem (m :: l) := h.of_append.2
    refine (h2.upd hn2.1).cons b ?_
    rw [List.map_cons, List.mem_cons, not_or]
    exact ⟨hma, hla⟩
  · have hk1 : k.1 ∈ pre.map Prod.fst := List.mem_map_of_mem hk
    have hka : k.1 ≠ a := fun he => hp (by rwa [← he])
    rw [upd_ne hka, upd_ne (hn3 _ hk1 _ (by simp))]

theorem Linked.concat (h : Linked cell mem (pre ++ [n])) (hn : ((pre ++ [n]).map Prod.fst).Nodup) (b : β) (x : α)
    (ha : a ∉ (pre ++ [n]).map Prod.fst) :
    Linked cell (Hdl.upd (Hdl.upd mem n.1 (cell n.2 a false)) a (cell b x true)) (pre ++ [n, (a, b)]) := by
  simp only [List.map_append, List.map_cons, List.map_nil, List.mem_append, List.mem_cons, not_or] at ha
  rw [List.map_append, List.nodup_append] at hn
  obtain ⟨-, -, hn3⟩ := hn
  refine h.replace ⟨?_, ⟨x, upd_same⟩, trivial⟩ fun k hk => ?_
  · show Hdl.upd _ a _ n.1 = _
    rw [upd_ne (Ne.symm ha.2.1), upd_same]
  · have hk1 : k.1 ∈ pre.map Prod.fst := List.mem_map_of_mem hk
    have hka : k.1 ≠ a := fun he => ha.1 (by rwa [← he])
    rw [upd_ne hka, upd_ne (hn3 _ hk1 _ (by simp))]

end Chain
