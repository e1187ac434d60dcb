import Mathlib.Data.List.Nodup
import Pigasus.Hdl

/-!
# A hashed store with an overflow queue

Entries live in one of several ways, each at the address its key hashes to, in
a queue in front of the ways, or in transit from the queue to a way. A store
represents a located map: a function from keys to the place and the data of the
entry. That it is a function is what makes the location of a key unique.
-/

namespace HashStore

open Hdl

inductive Place (ι : Type)
  | way (k : ι)
  | queue
  | transit
  deriving DecidableEq

abbrev Located (κ ι α : Type) := κ → Option (Place ι × α)

@[ext]
structure Store (ι A α : Type) where
  tab : ι → A → Option α
  queue : List α
  transit : Option α

namespace Located

variable {κ ι α : Type} [DecidableEq κ] (P : Located κ ι α)

def data (t : κ) : Option α := (P t).map Prod.snd

def add (t : κ) (e : α) : Located κ ι α := upd P t (some (.queue, e))

def set (t : κ) (e : α) : Located κ ι α := upd P t ((P t).map fun x => (x.1, e))

def erase (t : κ) : Located κ ι α := upd P t none

def move (t : κ) (p : Place ι) : Located κ ι α := upd P t ((P t).map fun x => (p, x.2))

theorem data_add (t : κ) (e : α) : (P.add t e).data = upd P.data t (some e) := by
  funext u
  by_cases h : u = t <;> simp [data, add, upd, h]

theorem data_set (t : κ) (e : α) : (P.set t e).data = upd P.data t ((P.data t).map fun _ => e) := by
  funext u
  by_cases h : u = t
  · cases hp : P t <;> simp [data, set, upd, h, hp]
  · simp [data, set, upd, h]

theorem data_erase (t : κ) : (P.erase t).data = upd P.data t none := by
  funext u
  by_cases h : u = t <;> simp [data, erase, upd, h]

@[simp] theorem data_move (t : κ) (p : Place ι) : (P.move t p).data = P.data := by
  funext u
  by_cases h : u = t
  · cases hp : P t <;> simp [data, move, upd, h, hp]
  · simp [data, move, upd, h]

@[simp] theorem add_of_ne {t u : κ} (e : α) (h : u ≠ t) : P.add t e u = P u := by simp [add, upd, h]
@[simp] theorem set_of_ne {t u : κ} (e : α) (h : u ≠ t) : P.set t e u = P u := by simp [set, upd, h]
@[simp] theorem erase_of_ne {t u : κ} (h : u ≠ t) : P.erase t u = P u := by simp [erase, upd, h]
@[simp] theorem move_of_ne {t u : κ} (p : Place ι) (h : u ≠ t) : P.move t p u = P u := by simp [move, upd, h]
@[simp] theorem add_self (t : κ) (e : α) : P.add t e t = some (.queue, e) := by simp [add, upd]
@[simp] theorem set_self (t : κ) (e : α) : P.set t e t = (P t).map fun x => (x.1, e) := by simp [set, upd]
@[simp] theorem erase_self (t : κ) : P.erase t t = none := by simp [erase, upd]
@[simp] theorem move_self (t : κ) (p : Place ι) : P.move t p t = (P t).map fun x => (p, x.2) := by simp [move, upd]

end Located

def Store.put {ι A α : Type} [DecidableEq ι] [DecidableEq A] (S : Store ι A α) (k : ι) (a : A) (o : Option α) :
    Store ι A α :=
  { S with tab := fun j b => if j = k ∧ b = a then o else S.tab j b }

/-- The store `S` holds exactly the entries of `P`, each where `P` says. -/
structure Rep {κ ι A α : Type} (key : α → κ) (hash : κ → ι → A) (S : Store ι A α) (P : Located κ ι α) : Prop where
  keyed : ∀ {t p e}, P t = some (p, e) → key e = t
  way : ∀ {k a e}, S.tab k a = some e ↔ P (key e) = some (.way k, e) ∧ hash (key e) k = a
  queue : ∀ {e}, e ∈ S.queue ↔ P (key e) = some (.queue, e)
  nodup : (S.queue.map key).Nodup
  transit : ∀ {e}, S.transit = some e ↔ P (key e) = some (.transit, e)

section
variable {κ ι A α : Type} {key : α → κ} {hash : κ → ι → A} {S : Store ι A α} {P : Located κ ι α} (h : Rep key hash S P)
include h

theorem Rep.tab_hash {t : κ} {k : ι} {e : α} (hp : P t = some (.way k, e)) : S.tab k (hash t k) = some e := by
  have ht := h.keyed hp
  subst ht
  exact h.way.2 ⟨hp, rfl⟩

theorem Rep.mem_queue {t : κ} {e : α} (hp : P t = some (.queue, e)) : e ∈ S.queue := by
  have ht := h.keyed hp
  subst ht
  exact h.queue.2 hp

theorem Rep.transit_eq {t : κ} {e : α} (hp : P t = some (.transit, e)) : S.transit = some e := by
  have ht := h.keyed hp
  subst ht
  exact h.transit.2 hp

theorem Rep.not_transit (hn : S.transit = none) {t : κ} {e : α} : P t ≠ some (.transit, e) := by
  intro hp
  have := h.transit_eq hp
  simp [hn] at this

variable [DecidableEq κ]

theorem Rep.upd {S' : Store ι A α} {t : κ} {o : Option (Place ι × α)} (ho : ∀ {p e}, o = some (p, e) → key e = t)
    (hway : ∀ k a e, S'.tab k a = some e ↔ if key e = t then o = some (.way k, e) ∧ hash t k = a else S.tab k a = some e)
    (hqueue : ∀ e, e ∈ S'.queue ↔ if key e = t then o = some (.queue, e) else e ∈ S.queue)
    (hnodup : (S'.queue.map key).Nodup)
    (htransit : ∀ e, S'.transit = some e ↔ if key e = t then o = some (.transit, e) else S.transit = some e) :
    Rep key hash S' (Hdl.upd P t o) := by
  refine ⟨?_, ?_, ?_, hnodup, ?_⟩
  · intro u p e hu
    by_cases ht : u = t
    · rw [Hdl.upd, if_pos ht] at hu
      exact (ho hu).trans ht.symm
    · rw [Hdl.upd, if_neg ht] at hu
      exact h.keyed hu
  · intro k a e
    rw [hway]
    by_cases ht : key e = t
    · simp [Hdl.upd, ht]
    · simpa [Hdl.upd, ht] using h.way
  · intro e
    rw [hqueue]
    by_cases ht : key e = t
    · simp [Hdl.upd, ht]
    · simpa [Hdl.upd, ht] using h.queue
  · intro e
    rw [htransit]
    by_cases ht : key e = t
    · simp [Hdl.upd, ht]
    · simpa [Hdl.upd, ht] using h.transit

/-! ## The queue -/

theorem Rep.set_queue {t : κ} {e₀ e : α} (hp : P t = some (.queue, e₀)) (he : key e = t) :
    Rep key hash { S with queue := S.queue.map fun x => if key x = t then e else x } (P.set t e) := by
  have hkey : ∀ x, key (if key x = t then e else x) = key x := by
    intro x
    split
    · next hx => rw [he, hx]
    · rfl
  refine h.upd ?_ ?_ ?_ ?_ ?_
  · simp [hp, he]
  · intro j a x
    have := h.way (k := j) (a := a) (e := x)
    grind
  · intro x
    rw [List.mem_map]
    by_cases hx : key x = t
    · simp only [hx, if_true, hp, Option.map_some, Option.some.injEq, Prod.mk.injEq, true_and]
      refine ⟨fun ⟨y, _, hy⟩ => ?_, fun hy => ⟨e₀, h.mem_queue hp, by rw [if_pos (h.keyed hp), hy]⟩⟩
      have := hkey y
      rw [hy, hx] at this
      rw [if_pos this.symm] at hy
      exact hy
    · simp only [hx, if_false]
      refine ⟨fun ⟨y, hm, hy⟩ => ?_, fun hm => ⟨x, hm, if_neg hx⟩⟩
      have := hkey y
      rw [hy] at this
      rw [if_neg (this ▸ hx)] at hy
      exact hy ▸ hm
  · have : (S.queue.map fun x => if key x = t then e else x).map key = S.queue.map key := by
      rw [List.map_map]
      exact List.map_congr_left fun x _ => hkey x
    simpa only [this] using h.nodup
  · intro x
    have := h.transit (e := x)
    grind

theorem Rep.erase_queue {t : κ} {e₀ : α} (hp : P t = some (.queue, e₀)) :
    Rep key hash { S with queue := S.queue.filter fun x => !decide (t = key x) } (P.erase t) := by
  refine h.upd (by simp) ?_ ?_ ?_ ?_
  · intro j a x
    have := h.way (k := j) (a := a) (e := x)
    grind
  · intro x
    have := h.queue (e := x)
    grind
  · exact h.nodup.sublist (List.filter_sublist.map key)
  · intro x
    have := h.transit (e := x)
    grind

theorem Rep.add {t : κ} {e : α} (hp : P t = none) (he : key e = t) :
    Rep key hash { S with queue := S.queue ++ [e] } (P.add t e) := by
  have hn : ∀ x ∈ S.queue, key x ≠ t := by
    intro x hx ht
    have := h.queue.1 hx
    simp [ht, hp] at this
  refine h.upd ?_ ?_ ?_ ?_ ?_
  · simp [he]
  · intro j a x
    have := h.way (k := j) (a := a) (e := x)
    grind
  · intro x
    rw [List.mem_append, List.mem_singleton]
    grind
  · rw [List.map_append]
    refine h.nodup.append (List.nodup_singleton _) ?_
    intro u hu hv
    obtain ⟨x, hx, rfl⟩ := List.mem_map.1 hu
    exact hn x hx ((List.mem_singleton.1 hv).trans he)
  · intro x
    have := h.transit (e := x)
    grind

theorem Rep.deque {e : α} {q : List α} (hq : S.queue = e :: q) (ht : S.transit = none) :
    Rep key hash { S with queue := q, transit := some e } (P.move (key e) .transit) := by
  have hp : P (key e) = some (.queue, e) := h.queue.1 (by simp [hq])
  have hn := h.nodup
  rw [hq, List.map_cons, List.nodup_cons] at hn
  refine h.upd ?_ ?_ ?_ hn.2 ?_
  · simp [hp]
  · intro j a x
    have := h.way (k := j) (a := a) (e := x)
    grind
  · intro x
    have hx : key x = key e → x ∉ q := fun hk hm => hn.1 (List.mem_map.2 ⟨x, hm, hk⟩)
    rw [hq, List.mem_cons]
    grind
  · intro x
    have := h.transit (e := x)
    grind

/-! ## The ways -/

variable [DecidableEq ι] [DecidableEq A]

theorem Rep.set_way {k : ι} {t : κ} {e₀ e : α} (hp : P t = some (.way k, e₀)) (he : key e = t) :
    Rep key hash (S.put k (hash t k) (some e)) (P.set t e) := by
  have hs := h.tab_hash hp
  have hk := h.keyed hp
  refine h.upd ?_ ?_ ?_ h.nodup ?_
  · simp [hp, he]
  · intro j a x
    have := h.way (k := j) (a := a) (e := x)
    simp only [Store.put, hp, Option.map_some]
    grind
  · intro x
    have := h.queue (e := x)
    simp only [Store.put]
    grind
  · intro x
    have := h.transit (e := x)
    simp only [Store.put]
    grind

theorem Rep.erase_way {k : ι} {t : κ} {e₀ : α} (hp : P t = some (.way k, e₀)) :
    Rep key hash (S.put k (hash t k) none) (P.erase t) := by
  have hs := h.tab_hash hp
  have hk := h.keyed hp
  refine h.upd (by simp) ?_ ?_ h.nodup ?_
  · intro j a x
    have := h.way (k := j) (a := a) (e := x)
    simp only [Store.put]
    grind
  · intro x
    have := h.queue (e := x)
    simp only [Store.put]
    grind
  · intro x
    have := h.transit (e := x)
    simp only [Store.put]
    grind

theorem Rep.place {k : ι} {e : α} (ht : S.transit = some e) (hs : S.tab k (hash (key e) k) = none) :
    Rep key hash { S.put k (hash (key e) k) (some e) with transit := none } (P.move (key e) (.way k)) := by
  have hp : P (key e) = some (.transit, e) := h.transit.1 ht
  refine h.upd ?_ ?_ ?_ h.nodup ?_
  · simp [hp]
  · intro j a x
    have := h.way (k := j) (a := a) (e := x)
    simp only [Store.put, hp, Option.map_some]
    grind
  · intro x
    have := h.queue (e := x)
    simp only [Store.put]
    grind
  · intro x
    have := h.transit (e := x)
    simp only [hp, Option.map_some]
    grind

theorem Rep.swap {k : ι} {e v : α} (ht : S.transit = some e) (hs : S.tab k (hash (key e) k) = some v) :
    Rep key hash
      { S.put k (hash (key e) k) (some e) with queue := S.queue ++ [v], transit := none }
      ((P.move (key v) .queue).move (key e) (.way k)) := by
  have hv := h.way.1 hs
  have hpe : P (key e) = some (.transit, e) := h.transit.1 ht
  have hne : key v ≠ key e := fun hk => by rw [hk, hpe] at hv; simp at hv
  -- take the other entry out, put it in the queue, then let the first one arrive
  have h1 := h.erase_way hv.1
  have h2 := h1.add (by simp) (rfl : key v = key v)
  have h3 := h2.place (k := k) (e := e) ht (by simp [Store.put, hv.2])
  have hP : ((P.erase (key v)).add (key v) v).move (key e) (.way k) =
      (P.move (key v) .queue).move (key e) (.way k) := by
    congr 1
    funext u
    by_cases hu : u = key v
    · subst hu; simp [hv.1]
    · simp [hu]
  rw [← hP]
  refine cast ?_ h3
  congr 1
  simp only [Store.put, hv.2, Store.mk.injEq, and_self, and_true]
  funext j a
  grind

end

end HashStore
