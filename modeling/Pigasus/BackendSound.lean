import Pigasus.Backend
import Mathlib.Data.Finset.Lattice.Fold
import Mathlib.Data.Fintype.Basic
import Mathlib.Order.Lattice.Nat

/-!
# One packet of rules per group

The last entries of the lanes go through the same stages as the indices in front of
them, so the words of the rule FIFO are those of the rows taken from the lanes, four
cycles late. All lanes are in the same group.
-/

namespace Pigasus

open Hdl

variable {n : Nat} (table : Fin n → Rid → Rid)

/-! ## The words of the rule FIFO -/

def LaneRow.data (r : LaneRow n) : Vec Rid n := vec fun k => (r k).elim 0 (table k)

def rowWords : Bool → List (LaneRow n) → List (SyncBeat n)
  | _, [] => []
  | sop, r :: rows => ⟨sop, false, r.data table⟩ :: rowWords false rows

/-- A packet: its rows and an empty word at the end; the first word has `sop`. -/
def packetWords (rows : List (LaneRow n)) : List (SyncBeat n) :=
  rowWords table true rows ++ [⟨rows.isEmpty, true, vec fun _ => 0⟩]

def Collected.beats (c : Collected n) : List (SyncBeat n) :=
  c.packets.flatMap (packetWords table) ++ rowWords table true c.cur

/-- The word for what is taken in one cycle, behind `c`. -/
def SyncEvent.beat (c : Collected n) (e : SyncEvent n) : List (SyncBeat n) :=
  if e.last then [⟨c.cur.isEmpty, true, vec fun _ => 0⟩]
  else if e.row.busy then [⟨c.cur.isEmpty, false, e.row.data table⟩]
  else []

theorem rowWords_concat (sop : Bool) (rows : List (LaneRow n)) (r : LaneRow n) :
    rowWords table sop (rows ++ [r]) = rowWords table sop rows ++ [⟨sop && rows.isEmpty, false, r.data table⟩] := by
  induction rows generalizing sop with
  | nil => simp [rowWords]
  | cons x rows ih => simp [rowWords, ih]

theorem Collected.beats_push (c : Collected n) (e : SyncEvent n) :
    (c.push e).beats table = c.beats table ++ e.beat table c := by
  unfold push SyncEvent.beat
  split
  · simp [beats, packetWords, rowWords]
  split
  · simp [beats, rowWords_concat]
  · simp

/-! ## The stages -/

namespace Backend

def Stage : Nat → Backend n → SyncEvent n → Prop
  | 0, s, e => s.allLastR1 = e.last ∧ ∀ k, s.htRdR1 k = (e.row k).isSome ∧ ∀ x ∈ e.row k, (s.rom k).r1 = table k x
  | 1, s, e => s.allLastR2 = e.last ∧ ∀ k, s.htRdR2 k = (e.row k).isSome ∧ ∀ x ∈ e.row k, (s.rom k).q = table k x
  | 2, s, e => s.allLastR3 = e.last ∧ ∀ k, s.htRdValid k = (e.row k).isSome ∧ ∀ x ∈ e.row k, s.htData k = table k x
  | 3, s, e => s.intValid = (e.last || e.row.busy) ∧ s.intEop = e.last ∧
      s.intData = if e.last then vec fun _ => 0 else e.row.data table
  | _, _, _ => True

variable {table} {s : Backend n} {e : SyncEvent n}

theorem stage_zero (i : BackendIn n) : Stage table 0 (s.step table i) (event i) := by
  refine ⟨rfl, fun k => ?_⟩
  by_cases h : htRd i k = true <;> simp [step, event, h]

theorem stage_succ (i : BackendIn n) (k : Nat) (h : Stage table k s e) : Stage table (k + 1) (s.step table i) e := by
  match k with
  | 0 | 1 =>
    obtain ⟨hl, hr⟩ := h
    refine ⟨hl, fun k => ⟨(hr k).1, fun x hx => ?_⟩⟩
    simpa [step] using (hr k).2 x hx
  | 2 =>
    obtain ⟨hl, hr⟩ := h
    refine ⟨?_, hl, ?_⟩
    · have hrd : (s.htRdValid : Fin n → Bool) = fun k => (e.row k).isSome := funext fun k => (hr k).1
      simp only [step, hl, LaneRow.busy, hrd]
    · cases he : e.last with
      | true => simp [step, hl, he]
      | false =>
        refine vec_ext fun k => ?_
        simp only [step, hl, he, LaneRow.data, vec_get, (hr k).1, Bool.false_eq_true, if_false]
        cases hx : e.row k with
        | none => rfl
        | some x => exact (hr k).2 x hx
  | k + 3 => trivial

end Backend

/-! ## The counter -/

def collect : List (SyncEvent n) → Collected n
  | [] => ⟨[], []⟩
  | e :: hist => (collect hist).push e

def SyncEvent.none : SyncEvent n := ⟨vec fun _ => .none, false⟩

theorem push_none (c : Collected n) : c.push .none = c := by
  simp [Collected.push, SyncEvent.none, LaneRow.busy]

namespace SyncSys

variable (G : Fin n → Nat → List Rid)

structure Piped (hist : List (SyncEvent n)) (s : SyncSys n) : Prop where
  stages : Delayed (Backend.Stage table) hist s.core
  long : 4 ≤ hist.length
  seen : s.seen = collect hist
  short : ∀ k, (collect (hist.drop k)).cur.length < 256
  cnt : s.core.intCnt = BitVec.ofNat 8 (collect (hist.drop 4)).cur.length
  out : s.out = (collect (hist.drop 4)).beats table

variable {table G} {s : SyncSys n} {i : SyncTick n} {hist : List (SyncEvent n)}

theorem Piped.sop_eq (h : Piped table hist s) (hv : s.core.intValid = true) :
    s.core.intSop = (collect (hist.drop 4)).cur.isEmpty := by
  have hs := h.short 4
  have h0 : s.core.intCnt = 0 ↔ (collect (hist.drop 4)).cur = [] := by
    rw [h.cnt, ← BitVec.toNat_inj, ← List.length_eq_zero_iff]
    simp only [BitVec.ofNat_eq_ofNat, BitVec.toNat_ofNat]
    omega
  unfold Backend.intSop
  by_cases hc : (collect (hist.drop 4)).cur = []
  · simp [h0.2 hc, hc, hv]
  · rw [if_neg (mt h0.1 hc)]
    simpa using hc

theorem Piped.step (h : Piped table hist s) (hshort : (s.step table G i).seen.cur.length < 256) :
    Piped table (Backend.event (s.input i) :: hist) (s.step table G i) := by
  have h3 : 3 < hist.length := h.long
  -- the word that is written is that of the cycle four back
  have hst : Backend.Stage table 3 s.core hist[3] := h.stages 3 _ (List.getElem?_eq_getElem h3)
  obtain ⟨hv, he, hd⟩ := hst
  have hdrop : (Backend.event (s.input i) :: hist).drop 4 = hist[3] :: hist.drop 4 := by
    rw [List.drop_succ_cons, List.drop_eq_getElem_cons h3]
  have hseen : (s.step table G i).seen = collect (Backend.event (s.input i) :: hist) := by
    simp [SyncSys.step, collect, h.seen]
  refine ⟨h.stages.step (Backend.stage_zero _) fun k y hk => Backend.stage_succ _ k hk, by simp; omega, hseen, ?_, ?_, ?_⟩
  · intro k
    cases k with
    | zero => rw [List.drop_zero, ← hseen]; exact hshort
    | succ k => exact h.short k
  · rw [hdrop, collect]
    simp only [SyncSys.step, Backend.step, hv, he, h.cnt, Collected.push]
    cases hist[3].last <;> cases hist[3].row.busy <;> simp [BitVec.ofNat_add]
  · rw [hdrop, collect, Collected.beats_push, ← h.out]
    simp only [SyncSys.step, SyncEvent.beat]
    by_cases hw : s.core.intValid = true
    · rw [if_pos hw, h.sop_eq hw, he, hd]
      rw [hw] at hv
      cases hl : hist[3].last <;> simp_all
    · rw [if_neg hw]
      have : (hist[3].last || hist[3].row.busy) = false := by rw [← hv]; simpa using hw
      simp_all

/-! ## The lanes -/

def column (rows : List (LaneRow n)) (k : Fin n) : List Rid := (rows.map fun r => r k).reduceOption

theorem column_concat (rows : List (LaneRow n)) (r : LaneRow n) (k : Fin n) :
    column (rows ++ [r]) k = column rows k ++ (r k).toList := by
  cases h : r k <;> simp [column, List.reduceOption_append, h]

/-- Every lane is in the group behind the closed packets, and these have the groups in front of it. -/
structure InStep (G : Fin n → Nat → List Rid) (s : SyncSys n) : Prop where
  group : ∀ k, s.group k = s.seen.packets.length
  rest : ∀ k, column s.seen.cur k ++ s.rest k = G k s.seen.packets.length
  packets : ∀ j rows, s.seen.packets[j]? = some rows → ∀ k, column rows k = G k j
  busy : ∀ rows ∈ s.seen.cur :: s.seen.packets, ∀ r ∈ rows, r.busy = true

theorem input_last {k : Fin n} (ho : i.offer k = true) : ((s.input i).data k).last = (s.rest k).isEmpty := by
  simp only [input, vec_get, ho, if_true, head]
  cases s.rest k <;> rfl

theorem allLast_iff : Backend.allLast (s.input i) = true ↔
    (∀ k, i.offer k = true ∧ s.rest k = []) ∧ i.almostFull = false := by
  have hk : ∀ k, ((s.input i).data k).last = true ∧ i.offer k = true ↔ i.offer k = true ∧ s.rest k = [] := by
    intro k
    refine ⟨fun ⟨h1, h2⟩ => ⟨h2, ?_⟩, fun ⟨h1, h2⟩ => ⟨?_, h1⟩⟩
    · rwa [input_last h2, List.isEmpty_iff] at h1
    · rw [input_last h1, h2]
      rfl
  simp only [Backend.allLast, Bool.and_eq_true, List.all_eq_true, List.mem_finRange, forall_const, Bool.not_eq_true']
  exact and_congr (forall_congr' hk) Iff.rfl

theorem advance_of_allLast (h : Backend.allLast (s.input i) = true) (k : Fin n) :
    s.advance i k = true ∧ s.rest k = [] := by
  obtain ⟨ho, hr⟩ := (allLast_iff.1 h).1 k
  exact ⟨by simp [advance, ho, Backend.lastLayerReady, h], hr⟩

theorem lane_step (h : Backend.allLast (s.input i) = false) (k : Fin n) :
    (s.step table G i).group k = s.group k ∧
      ((Backend.event (s.input i)).row k).toList ++ (s.step table G i).rest k = s.rest k := by
  have ha : s.advance i k = Backend.htRd (s.input i) k := by
    rw [advance, Backend.lastLayerReady, h, Bool.false_or, Backend.htRd, Bool.and_assoc]
    rfl
  by_cases hr : Backend.htRd (s.input i) k = true
  · have ho : i.offer k = true ∧ ((s.input i).data k).last = false := by
      simp only [Backend.htRd, Bool.and_eq_true, Bool.not_eq_true'] at hr
      exact hr.1
    have hl := ho.2
    rw [input_last ho.1] at hl
    cases hrest : s.rest k with
    | nil => simp [hrest] at hl
    | cons x l =>
      have hd : ((s.input i).data k).data = x := by simp [input, ho.1, head, hrest]
      simp [SyncSys.step, ha, hr, hrest, Backend.event, hd]
  · simp [SyncSys.step, ha, hr, Backend.event]

theorem InStep.step (h : InStep G s) : InStep G (s.step table G i) := by
  have hseen : (s.step table G i).seen = s.seen.push (Backend.event (s.input i)) := rfl
  cases hl : Backend.allLast (s.input i) with
  | true =>
    have hp : s.seen.push (Backend.event (s.input i)) = ⟨s.seen.packets ++ [s.seen.cur], []⟩ := by
      simp [Collected.push, Backend.event, hl]
    have hk := advance_of_allLast hl
    rw [hp] at hseen
    refine ⟨fun k => ?_, fun k => ?_, fun j rows hj k => ?_, ?_⟩
    · simp [SyncSys.step, (hk k).1, (hk k).2, hp, h.group k]
    · simp [SyncSys.step, hp, (hk k).1, (hk k).2, h.group k, column]
    · rw [hseen, List.getElem?_append] at hj
      split at hj
      · exact h.packets j rows hj k
      · next hlt =>
        have hj0 : j - s.seen.packets.length = 0 := by
          have := (List.getElem?_eq_some_iff.1 hj).1
          simpa using this
        obtain rfl : s.seen.cur = rows := by simpa [hj0] using hj
        rw [show j = s.seen.packets.length by omega, ← h.rest k, (hk k).2, List.append_nil]
    · rw [hseen]
      intro rows hr
      rcases List.mem_cons.1 hr with rfl | hr
      · exact nofun
      · rcases List.mem_append.1 hr with hr | hr
        · exact h.busy rows (List.mem_cons_of_mem _ hr)
        · rw [List.mem_singleton.1 hr]
          exact h.busy _ List.mem_cons_self
  | false =>
    have hk := @lane_step n table G s i hl
    rw [Collected.push, if_neg (by simp [Backend.event, hl])] at hseen
    have hpk : (s.step table G i).seen.packets = s.seen.packets := by
      rw [hseen]
      split <;> rfl
    have hcol : ∀ k, column (s.step table G i).seen.cur k =
        column s.seen.cur k ++ ((Backend.event (s.input i)).row k).toList := by
      intro k
      rw [hseen]
      by_cases hb : (Backend.event (s.input i)).row.busy = true
      · rw [if_pos hb, column_concat]
      · rw [if_neg hb]
        simp only [LaneRow.busy, List.any_eq_true, List.mem_finRange, true_and, not_exists, Bool.not_eq_true,
          Option.isSome_eq_false_iff, Option.isNone_iff_eq_none] at hb
        simp [hb k]
    refine ⟨fun k => ?_, fun k => ?_, ?_, ?_⟩
    · rw [(hk k).1, hpk, h.group k]
    · rw [hpk, hcol, List.append_assoc, (hk k).2, h.rest k]
    · rw [hpk]
      exact h.packets
    · rw [hpk]
      intro rows hr r hm
      rcases List.mem_cons.1 hr with rfl | hr
      · rw [hseen] at hm
        split at hm
        · next hb =>
          rcases List.mem_append.1 hm with hm | hm
          · exact h.busy _ List.mem_cons_self r hm
          · rw [List.mem_singleton.1 hm]
            exact hb
        · exact h.busy _ List.mem_cons_self r hm
      · exact h.busy rows (List.mem_cons_of_mem _ hr) r hm

/-! ## Progress -/

/-- All lanes offer their next entry, and the rule FIFO has room. -/
def SyncTick.serves (i : SyncTick n) : Bool := ((List.finRange n).all fun k => i.offer k) && !i.almostFull

/-- The cycles that group `j` takes when all lanes offer: one for each index of the longest lane, one for the last entries. -/
def cycles (G : Fin n → Nat → List Rid) (j : Nat) : Nat := (Finset.univ.sup fun k => (G k j).length) + 1

def longest (s : SyncSys n) : Nat := Finset.univ.sup fun k => (s.rest k).length

/-- In `c` cycles with offers from all lanes this much of the groups is gone at least. -/
def Gone (G : Fin n → Nat → List Rid) (s : SyncSys n) (c : Nat) : Prop :=
  c + s.longest + 1 ≤ ((List.range (s.seen.packets.length + 1)).map (cycles G)).sum

theorem serves_iff : SyncTick.serves i = true ↔ (∀ k, i.offer k = true) ∧ i.almostFull = false := by
  simp [SyncTick.serves]

theorem sum_cycles_succ (G : Fin n → Nat → List Rid) (m : Nat) :
    ((List.range (m + 1)).map (cycles G)).sum = ((List.range m).map (cycles G)).sum + cycles G m := by
  rw [List.range_succ, List.map_append, List.sum_append]
  simp

theorem Gone.close {c : Nat} (h : Gone G s c) (hI : InStep G s) (hl : Backend.allLast (s.input i) = true) :
    Gone G (s.step table G i) (c + 1) := by
  have hk := advance_of_allLast hl
  have hp : (s.step table G i).seen.packets.length = s.seen.packets.length + 1 := by
    simp [SyncSys.step, Collected.push, Backend.event, hl]
  have hrest : (s.step table G i).longest + 1 = cycles G (s.seen.packets.length + 1) := by
    unfold longest cycles
    congr 2
    funext k
    simp [SyncSys.step, (hk k).1, (hk k).2, hI.group k]
  unfold Gone at h ⊢
  rw [hp, sum_cycles_succ]
  omega

theorem Gone.open {c : Nat} (h : Gone G s c) (hl : Backend.allLast (s.input i) = false) :
    Gone G (s.step table G i) (c + (SyncTick.serves i).toNat) := by
  have hk := @lane_step n table G s i hl
  have hp : (s.step table G i).seen.packets = s.seen.packets := by
    have hseen : (s.step table G i).seen = s.seen.push (Backend.event (s.input i)) := rfl
    rw [hseen, Collected.push, if_neg (by simp [Backend.event, hl])]
    split <;> rfl
  have hle : (s.step table G i).longest ≤ s.longest := by
    refine Finset.sup_le fun k _ => le_trans ?_ (Finset.le_sup (Finset.mem_univ k))
    rw [← (hk k).2, List.length_append]
    omega
  have hless : SyncTick.serves i = true → (s.step table G i).longest + 1 ≤ s.longest := by
    intro hs
    obtain ⟨ho, hf⟩ := serves_iff.1 hs
    -- some lane is not at its end, and each such lane gives an index
    obtain ⟨k0, hk0⟩ : ∃ k, s.rest k ≠ [] := by
      by_contra hall
      rw [allLast_iff.2 ⟨fun k => ⟨ho k, not_not.1 fun hne => hall ⟨k, hne⟩⟩, hf⟩] at hl
      cases hl
    have hpos : 0 < s.longest :=
      lt_of_lt_of_le (List.length_pos_of_ne_nil hk0) (Finset.le_sup (f := fun k => (s.rest k).length) (Finset.mem_univ k0))
    have hdrop : (s.step table G i).longest ≤ s.longest - 1 := by
      refine Finset.sup_le fun k _ => ?_
      have hkle : (s.rest k).length ≤ s.longest := Finset.le_sup (f := fun k => (s.rest k).length) (Finset.mem_univ k)
      have hcat := congrArg List.length (hk k).2
      rw [List.length_append] at hcat
      by_cases hnil : s.rest k = []
      · rw [hnil, List.length_nil] at hcat
        omega
      · have hrd : Backend.htRd (s.input i) k = true := by
          have hlast : ((s.input i).data k).last = false := by
            rw [input_last (ho k)]
            simpa using hnil
          simp only [Backend.htRd, hlast, Bool.and_eq_true, Bool.not_eq_true']
          exact ⟨⟨ho k, trivial⟩, hf⟩
        have hone : ((Backend.event (s.input i)).row k).toList.length = 1 := by simp [Backend.event, hrd]
        omega
    omega
  unfold Gone at h ⊢
  rw [hp]
  cases hs : SyncTick.serves i with
  | false =>
    rw [Bool.toNat_false]
    omega
  | true =>
    have := hless hs
    rw [Bool.toNat_true]
    omega

theorem Gone.step (table : Fin n → Rid → Rid) {c : Nat} (h : Gone G s c) (hI : InStep G s) (i : SyncTick n) :
    Gone G (s.step table G i) (c + (SyncTick.serves i).toNat) := by
  cases hl : Backend.allLast (s.input i) with
  | false => exact h.open hl
  | true =>
    have hs : SyncTick.serves i = true := by
      obtain ⟨ho, hf⟩ := allLast_iff.1 hl
      exact serves_iff.2 ⟨fun k => (ho k).1, hf⟩
    rw [hs]
    exact h.close hI hl

theorem Gone.run (is : List (SyncTick n)) {c : Nat} {s : SyncSys n} (h : Gone G s c) (hI : InStep G s) :
    Gone G (run (SyncSys.step table G) s is) (c + is.countP SyncTick.serves) := by
  induction is generalizing s c with
  | nil => exact h
  | cons i is ih =>
    have hn := ih (h.step table hI i) hI.step
    rw [run_cons, List.countP_cons]
    have hc : c + (is.countP SyncTick.serves + if SyncTick.serves i = true then 1 else 0) =
        c + (SyncTick.serves i).toNat + is.countP SyncTick.serves := by
      cases SyncTick.serves i
      · simp
      · simp only [Bool.toNat_true, if_true]
        omega
    rw [hc]
    exact hn

theorem Gone.closed {c m : Nat} (h : Gone G s c) (hc : ((List.range m).map (cycles G)).sum ≤ c) : m ≤ s.seen.packets.length := by
  by_contra hlt
  have hmono : ∀ a b, a ≤ b → ((List.range a).map (cycles G)).sum ≤ ((List.range b).map (cycles G)).sum := by
    intro a b hab
    induction b, hab using Nat.le_induction with
    | base => exact le_rfl
    | succ b _ ih =>
      rw [sum_cycles_succ]
      omega
  have := hmono (s.seen.packets.length + 1) m (by omega)
  unfold Gone at h
  omega

/-! ## Whole runs -/

theorem reset_piped : Piped table (List.replicate 4 .none) (reset G) := by
  have hc : ∀ k, collect ((List.replicate 4 (SyncEvent.none (n := n))).drop k) = ⟨[], []⟩ := by
    intro k
    rw [List.drop_replicate]
    induction 4 - k with
    | zero => rfl
    | succ m ih => rw [List.replicate_succ, collect, ih, push_none]
  refine ⟨?_, by simp, ?_, fun k => by rw [hc]; simp, by rw [hc]; rfl, by rw [hc]; rfl⟩
  · intro k x hk
    obtain ⟨h4, rfl⟩ := List.getElem?_eq_some_iff.1 hk
    rw [List.getElem_replicate]
    simp only [List.length_replicate] at h4
    match k with
    | 0 | 1 | 2 => simp [Backend.Stage, reset, Backend.reset, SyncEvent.none]
    | 3 => simp [Backend.Stage, reset, Backend.reset, SyncEvent.none, LaneRow.busy, LaneRow.data]
  · have := hc 0
    rw [List.drop_zero] at this
    rw [this]
    rfl

theorem reset_inStep : InStep G (reset G) := by
  refine ⟨fun k => by simp [reset], fun k => by simp [reset, column], nofun, ?_⟩
  simp [reset]

theorem piped_run {is : List (SyncTick n)} (h : Piped table hist s)
    (hs : AllSteps (SyncSys.step table G) (fun s i => (s.step table G i).seen.cur.length < 256) s is) :
    ∃ new, new.length = is.length ∧ Piped table (new ++ hist) (run (SyncSys.step table G) s is) := by
  induction is generalizing s hist with
  | nil => exact ⟨[], rfl, h⟩
  | cons i is ih =>
    obtain ⟨new, hn, hp⟩ := ih (h.step hs.1) hs.2
    exact ⟨new ++ [Backend.event (s.input i)], by simp [hn], by simpa using hp⟩

theorem reset_gone : Gone G (reset G) 0 := by
  simp [Gone, reset, longest, cycles]

/-- Four cycles later the rule FIFO has got one packet for each group that all lanes have passed, and
the rows of the packet in work. A group is passed when all its lanes were offered often enough while
there was room. -/
theorem lanes_in_step (table : Fin n → Rid → Rid) (G : Fin n → Nat → List Rid) (is js : List (SyncTick n))
    (h4 : js.length = 4)
    (hs : AllSteps (SyncSys.step table G) (fun s i => (s.step table G i).seen.cur.length < 256) (reset G) (is ++ js)) :
    AllSteps (SyncSys.step table G)
        (fun s i => ∀ k, s.advance i k = true → s.rest k = [] → ∀ l, i.offer l = true ∧ s.rest l = [])
        (reset G) (is ++ js) ∧
      InStep G (run (SyncSys.step table G) (reset G) is) ∧
      (run (SyncSys.step table G) (reset G) (is ++ js)).out =
        (run (SyncSys.step table G) (reset G) is).seen.beats table ∧
      ∀ m, ((List.range m).map (cycles G)).sum ≤ is.countP SyncTick.serves →
        m ≤ (run (SyncSys.step table G) (reset G) is).seen.packets.length := by
  obtain ⟨h1, h2⟩ := hs.of_append
  refine ⟨?_, run_inv _ (fun s i h _ => h.step) is _ reset_inStep (allSteps_of_forall _ (fun _ _ => trivial) is _), ?_, ?_⟩
  · refine allSteps_of_forall _ (fun s i k ha hr l => ?_) _ _
    by_cases hl : Backend.allLast (s.input i) = true
    · exact (allLast_iff.1 hl).1 l
    · simp only [advance, Backend.lastLayerReady, hl, Bool.false_or, Bool.and_eq_true, Bool.not_eq_true'] at ha
      rw [input_last ha.1, hr] at ha
      simp at ha
  · obtain ⟨new, -, hp⟩ := piped_run reset_piped h1
    obtain ⟨new', hn, hp'⟩ := piped_run hp h2
    rw [run_append, hp'.out, List.drop_left' (by rw [hn, h4]), hp.seen]
  · intro m hm
    refine (reset_gone.run is reset_inStep).closed ?_
    rwa [Nat.zero_add]

/-! ## Two lanes -/

/-- The first lane has two indices in its first group, the second lane has one. -/
def twoLanes (k : Fin 2) (j : Nat) : List Rid := if j = 0 then if k = 0 then [5, 7] else [6] else []

def laneTick (a b full : Bool) : SyncTick 2 where
  offer := vec fun k => if k = 0 then a else b
  idle := vec fun _ => ⟨true, 0, 0⟩
  almostFull := full

def twoLanesTicks : List (SyncTick 2) :=
  [laneTick true false false, laneTick true true false, laneTick true true true, laneTick true false false,
    laneTick true true false]

theorem lanes_in_step_two :
    let is := twoLanesTicks
    let js := List.replicate 4 (laneTick false false false)
    (run (SyncSys.step (fun _ x => x + 1) twoLanes) (reset twoLanes) is).seen.packets.length = 1 ∧
      (run (SyncSys.step (fun _ x => x + 1) twoLanes) (reset twoLanes) (is ++ js)).out =
        (run (SyncSys.step (fun _ x => x + 1) twoLanes) (reset twoLanes) is).seen.beats fun _ x => x + 1 :=
  ⟨by decide +kernel, (lanes_in_step _ _ twoLanesTicks (List.replicate 4 (laneTick false false false)) rfl
    (by decide +kernel)).2.2.1⟩

end SyncSys

end Pigasus
