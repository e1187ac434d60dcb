import Pigasus.PktBuffer

/-!
# The packet buffer gives every frame back

Every `pktID` has one owner: the free list, the frame being written, metadata
on their way, or the mover. A slot keeps the flits of its frame as long as it
has the same owner.
-/

namespace Pigasus

open Hdl

/-! ## Slots -/

def cell (id : PktId) (k : Nat) : BufAddr := BitVec.ofNat 15 (32 * id.toNat + k)

theorem slotAddr_eq (id : PktId) : slotAddr id = cell id 0 := by
  refine BitVec.eq_of_toNat_eq ?_
  have := id.isLt
  simp only [slotAddr, cell, BitVec.toNat_shiftLeft, BitVec.toNat_setWidth, BitVec.toNat_ofNat, Nat.shiftLeft_eq]
  omega

theorem cell_succ (id : PktId) (k : Nat) : cell id k + 1 = cell id (k + 1) := by
  simp only [cell, ← Nat.add_assoc, BitVec.ofNat_add]
  rfl

theorem cell_inj {id id' : PktId} {k k' : Nat} (hk : k < 32) (hk' : k' < 32) (h : cell id k = cell id' k') :
    id = id' ∧ k = k' := by
  have h := congrArg BitVec.toNat h
  have := id.isLt
  have := id'.isLt
  simp only [cell, BitVec.toNat_ofNat] at h
  exact ⟨BitVec.eq_of_toNat_eq (by omega), by omega⟩

def Holds (m : BufAddr → PktFlit) (id : PktId) (l : List PktFlit) : Prop :=
  ∀ k (h : k < l.length), m (cell id k) = l[k]

theorem Holds.wr_of_ne {m : BufAddr → PktFlit} {id id' : PktId} {l : List PktFlit} {k : Nat} (h : Holds m id l)
    (hl : l.length ≤ 32) (hk : k < 32) (hne : id ≠ id') (b : Bool) (d : PktFlit) : Holds (wr b (cell id' k) d m) id l := by
  intro j hj
  rw [wr_apply, if_neg, h j hj]
  rintro ⟨_, hc⟩
  exact hne (cell_inj (by omega) hk hc).1

theorem Holds.snoc {m : BufAddr → PktFlit} {id : PktId} {l : List PktFlit} (h : Holds m id l) (hl : l.length < 32)
    (d : PktFlit) : Holds (wr true (cell id l.length) d m) id (l ++ [d]) := by
  intro k hk
  rw [List.length_append, List.length_singleton] at hk
  rw [wr_apply]
  by_cases hkl : k = l.length
  · subst hkl
    simp
  · have hc : cell id k ≠ cell id l.length := fun hc => hkl (cell_inj (by omega) hl hc).2
    rw [if_neg (fun h => hc h.2), h k (by omega), List.getElem_append_left]

/-! ## The mover -/

namespace DataMover

variable {m : DataMover} {i : MoverIn}

def Runs (m : DataMover) : Prop := m.state = .idle ∨ m.state = .first ∨ m.state = .middle

def done (m : DataMover) : Bool := m.firstReady || m.middleReady

def moving (m : DataMover) : List PktId := if m.state = .first ∨ m.state = .middle then [m.pktId] else []

def returning (m : DataMover) : List PktId := if m.emptylistValid then [m.emptylistData] else []

theorem takes_eq : m.takes i = (i.metaValid && !almostFull i && (m.state == .idle || m.done)) := by
  simp only [takes, metaReady, done]
  cases i.metaValid <;> cases almostFull i <;> simp [Bool.or_assoc]

theorem nextState_eq (h : (m.state == .idle || m.done) = true) :
    nextState i = if m.takes i then .first else .idle := by
  rw [takes_eq, h, nextState, Bool.and_true]

theorem step_state (h : m.Runs) :
    (m.step i).state = if m.state == .idle || m.done then if m.takes i then .first else .idle else .middle := by
  rcases h with hs | hs | hs
  · have hn : (m.state == .idle || m.done) = true := by simp [hs]
    rw [hn, if_pos rfl, ← nextState_eq hn]
    simp [step, readLogic, hs]
  · cases hd : m.done with
    | true =>
      have hn : (m.state == .idle || m.done) = true := by simp [hd]
      have hf : m.pktFlags = .drop ∨ m.flits = 1#5 := by simpa [done, firstReady, middleReady, hs] using hd
      rw [Bool.or_true, if_pos rfl, ← nextState_eq hn]
      by_cases hdrop : m.pktFlags = .drop
      · simp [step, readLogic, hs, hdrop]
      · simp [step, readLogic, hs, hdrop, hf.resolve_left hdrop]
    | false =>
      have hf : ¬ m.pktFlags = .drop ∧ ¬ m.flits = 1#5 := by simpa [done, firstReady, middleReady, hs] using hd
      simp [step, readLogic, hs, hf]
  · cases hd : m.done with
    | true =>
      have hn : (m.state == .idle || m.done) = true := by simp [hd]
      have hf : m.lastCnt = true := by simpa [done, firstReady, middleReady, hs] using hd
      rw [Bool.or_true, if_pos rfl, ← nextState_eq hn]
      simp [step, readLogic, hs, hf]
    | false =>
      have hf : m.lastCnt = false := by simpa [done, firstReady, middleReady, hs] using hd
      simp [step, readLogic, hs, hf]

theorem step_returning (h : m.Runs) : (m.step i).returning = if m.done then [m.pktId] else [] := by
  unfold returning
  rcases h with hs | hs | hs
  · simp [step, readLogic, hs, done, firstReady, middleReady]
  · by_cases hdrop : m.pktFlags = .drop
    · simp [step, readLogic, hs, done, firstReady, hdrop]
    · by_cases hf : m.flits = 1#5
      · simp [step, readLogic, hs, done, firstReady, hdrop, hf]
      · simp [step, readLogic, hs, done, firstReady, middleReady, hdrop, hf]
  · cases hl : m.lastCnt <;> simp [step, readLogic, hs, done, firstReady, middleReady, hl]

theorem idle_or_done_of_takes (h : m.takes i = true) : (m.state == .idle || m.done) = true := by
  rw [takes_eq, Bool.and_eq_true] at h
  exact h.2

theorem step_moving (h : m.Runs) :
    (m.step i).moving = if m.takes i then [i.metaData.pktID] else if m.done then [] else m.moving := by
  have hid : (m.step i).pktId = if m.takes i then i.metaData.pktID else m.pktId := rfl
  unfold moving
  rw [step_state h, hid]
  cases ht : m.takes i with
  | true => simp [idle_or_done_of_takes ht]
  | false =>
    cases hd : m.done with
    | true => simp
    | false =>
      rcases h with hs | hs | hs <;> simp [hs]

theorem moving_of_done (hd : m.done = true) : m.moving = [m.pktId] := by
  simp only [done, firstReady, middleReady, Bool.or_eq_true, Bool.and_eq_true, beq_iff_eq] at hd
  rcases hd with hd | hd <;> simp [moving, hd.1]

theorem count_step (h : m.Runs) (x : PktId) :
    (m.step i).moving.count x + (m.step i).returning.count x =
      m.moving.count x + if m.takes i then [i.metaData.pktID].count x else 0 := by
  rw [step_moving h, step_returning h]
  cases ht : m.takes i with
  | true =>
    cases hd : m.done with
    | true =>
      simp only [moving_of_done hd, if_true]
      omega
    | false =>
      have hi := idle_or_done_of_takes ht
      rw [hd, Bool.or_false, beq_iff_eq] at hi
      simp [moving, hi]
  | false =>
    cases hd : m.done with
    | true =>
      simp [moving_of_done hd]
    | false => simp

structure Kept (eff : BufAddr → PktFlit) (e : Metadata × List PktFlit) : Prop where
  ne_nil : e.2 ≠ []
  short : e.2.length ≤ 32
  flits : e.1.flits = BitVec.ofNat 5 e.2.length
  holds : Holds eff e.1.pktID e.2

def expected (e : Metadata × List PktFlit) : List (Bool × PktFlit) :=
  if e.1.pktFlags = .drop then [] else e.2.map fun f => (e.1.pktFlags.checked, f)

/-- Where the mover is in a packet, and the flits of it that it has still to read. -/
inductive Moves (m : DataMover) (eff : BufAddr → PktFlit) : List (Bool × PktFlit) → Prop
  | idle (hs : m.state = .idle) : Moves m eff []
  | first (e : Metadata × List PktFlit) (hs : m.state = .first) (hid : m.pktId = e.1.pktID) (hf : m.flits = e.1.flits)
    (hfl : m.pktFlags = e.1.pktFlags) (hc : m.flitsCnt = 0) (hk : Kept eff e) (h0 : e.1.flits = 0 → e.1.pktFlags = .drop) :
    Moves m eff (expected e)
  | middle (e : Metadata × List PktFlit) (k : Nat) (hs : m.state = .middle) (hid : m.pktId = e.1.pktID)
    (hf : m.flits = e.1.flits) (hfl : m.pktFlags = e.1.pktFlags) (hc : m.flitsCnt.toNat = k) (h1 : 1 ≤ k)
    (hlt : k < e.2.length) (h31 : e.2.length ≤ 31) (ha : m.address = cell m.pktId (k - 1)) (hr : m.read = true)
    (hk : Kept eff e) : Moves m eff ((e.2.drop k).map fun f => (e.1.pktFlags.checked, f))

def reading (m : DataMover) (eff : BufAddr → PktFlit) : List (Bool × PktFlit) :=
  if m.read then [(m.flags1.checked, eff m.address)] else []

theorem Kept.length_eq {eff : BufAddr → PktFlit} {e : Metadata × List PktFlit} (h : Kept eff e)
    (h0 : e.1.flits ≠ 0) : e.1.flits.toNat = e.2.length ∧ e.2.length ≤ 31 := by
  have h1 := h.short
  have hf := h.flits
  have hne : e.2.length ≠ 32 := by
    intro hl
    rw [hl] at hf
    exact h0 hf
  rw [hf, BitVec.toNat_ofNat]
  omega

variable {eff : BufAddr → PktFlit} {owed : List (Bool × PktFlit)}

theorem Moves.next (hst : (m.step i).state = if m.takes i then .first else .idle) (hc : (m.step i).flitsCnt = 0)
    {new : Option (Metadata × List PktFlit)}
    (hnew : m.takes i = true → ∃ e, new = some e ∧ i.metaData = e.1 ∧ Kept eff e ∧ (e.1.flits = 0 → e.1.pktFlags = .drop)) :
    Moves (m.step i) eff (if m.takes i then new.toList.flatMap expected else []) := by
  cases ht : m.takes i with
  | true =>
    obtain ⟨e, rfl, he, hk, h0⟩ := hnew ht
    rw [ht, if_pos rfl] at hst
    have : (m.step i).pktId = e.1.pktID ∧ (m.step i).flits = e.1.flits ∧ (m.step i).pktFlags = e.1.pktFlags := by
      simp [DataMover.step, ht, he]
    simpa using Moves.first e hst this.1 this.2.1 this.2.2 hc hk h0
  | false =>
    rw [ht] at hst
    simpa using Moves.idle hst

/-- What the mover owes, with new metadata at the end of a packet, is read now or owed behind the cycle. -/
def GoesOn (m : DataMover) (i : MoverIn) (eff : BufAddr → PktFlit) (owed : List (Bool × PktFlit))
    (new : Option (Metadata × List PktFlit)) : Prop :=
  ∃ owed', Moves (m.step i) eff owed' ∧
    owed ++ (if m.takes i then new.toList.flatMap expected else []) = (m.step i).reading eff ++ owed' ∧
    (m.done = true → owed = (m.step i).reading eff)

section
variable {new : Option (Metadata × List PktFlit)} {e : Metadata × List PktFlit}
  (hnew : m.takes i = true → ∃ e, new = some e ∧ i.metaData = e.1 ∧ Kept eff e ∧ (e.1.flits = 0 → e.1.pktFlags = .drop))
  (hid : m.pktId = e.1.pktID) (hf : m.flits = e.1.flits) (hfl : m.pktFlags = e.1.pktFlags) (hk : Kept eff e)
include hnew hid hf hfl hk

theorem Moves.step_first (hs : m.state = .first) (hc : m.flitsCnt = 0) (h0 : e.1.flits = 0 → e.1.pktFlags = .drop) :
    m.GoesOn i eff (expected e) new := by
  have hst := step_state (m := m) (i := i) (.inr (.inl hs))
  by_cases hdrop : m.pktFlags = .drop
  · have hd : m.done = true := by simp [done, firstReady, hs, hdrop]
    rw [hd, Bool.or_true, if_pos rfl] at hst
    have hexp : expected e = (m.step i).reading eff := by
      rw [expected, if_pos (hfl ▸ hdrop)]
      simp [reading, DataMover.step, readLogic, hs, hdrop]
    exact ⟨_, .next hst (by simp [DataMover.step, readLogic, hs, hdrop, hc]) hnew, by rw [hexp], fun _ => hexp⟩
  · have hne : e.1.pktFlags ≠ .drop := hfl ▸ hdrop
    have hlen := hk.length_eq fun h => hne (h0 h)
    have hpos := List.length_pos_iff.2 hk.ne_nil
    have hread : (m.step i).reading eff = [(e.1.pktFlags.checked, e.2[0])] := by
      have hr : (m.step i).read = true ∧ (m.step i).address = slotAddr m.pktId ∧ (m.step i).flags1 = m.pktFlags := by
        by_cases h1 : m.flits = 1#5 <;> simp [DataMover.step, readLogic, hs, hdrop, h1]
      rw [reading, if_pos hr.1, hr.2.1, hr.2.2, slotAddr_eq, hid, hfl, hk.holds 0 hpos]
    have hexp : expected e = (e.1.pktFlags.checked, e.2[0]) :: (e.2.drop 1).map fun f => (e.1.pktFlags.checked, f) := by
      rw [expected, if_neg hne, ← List.map_cons, ← List.drop_eq_getElem_cons hpos, List.drop_zero]
    by_cases h1 : m.flits = 1#5
    · have hd : m.done = true := by simp [done, firstReady, hs, h1]
      rw [hd, Bool.or_true, if_pos rfl] at hst
      have hl1 : e.2.length = 1 := by rw [← hlen.1, ← hf, h1]; rfl
      have hall : expected e = (m.step i).reading eff := by
        rw [hread, hexp, List.drop_eq_nil_of_le (by omega)]
        rfl
      exact ⟨_, .next hst (by simp [DataMover.step, readLogic, hs, hdrop, h1, hc]) hnew, by rw [hall], fun _ => hall⟩
    · have hd : m.done = false := by simp [done, firstReady, middleReady, hs, h1, hdrop]
      have ht : m.takes i = false := by simp [takes_eq, hs, hd]
      have hl1 : e.2.length ≠ 1 := fun hl => h1 (BitVec.eq_of_toNat_eq (by rw [hf, hlen.1, hl]; rfl))
      rw [hd, hs] at hst
      have hreg : (m.step i).pktId = m.pktId ∧ (m.step i).flits = m.flits ∧ (m.step i).pktFlags = m.pktFlags ∧
          (m.step i).flitsCnt = 1 ∧ (m.step i).address = slotAddr m.pktId ∧ (m.step i).read = true := by
        simp [DataMover.step, readLogic, hs, hdrop, h1, ht, hc]
      obtain ⟨r1, r2, r3, r4, r5, r6⟩ := hreg
      refine ⟨_, .middle e 1 hst (r1.trans hid) (r2.trans hf) (r3.trans hfl) (by rw [r4]; rfl) (Nat.le_refl 1) (by omega)
        hlen.2 ?_ r6 hk, ?_, by simp [hd]⟩
      · rw [r5, r1, slotAddr_eq]
      · rw [hread, hexp, ht]
        simp

theorem Moves.step_middle {k : Nat} (hs : m.state = .middle) (hc : m.flitsCnt.toNat = k) (hk1 : 1 ≤ k) (hlt : k < e.2.length)
    (h31 : e.2.length ≤ 31) (ha : m.address = cell m.pktId (k - 1)) (hr : m.read = true) :
    m.GoesOn i eff ((e.2.drop k).map fun f => (e.1.pktFlags.checked, f)) new := by
  have hst := step_state (m := m) (i := i) (.inr (.inr hs))
  have hlen : e.1.flits.toNat = e.2.length := by
    rw [hk.flits, BitVec.toNat_ofNat]
    omega
  have hread : (m.step i).reading eff = [(e.1.pktFlags.checked, e.2[k])] := by
    have hreg : (m.step i).read = true ∧ (m.step i).address = m.address + 1 ∧ (m.step i).flags1 = m.pktFlags := by
      cases hl : m.lastCnt <;> simp [DataMover.step, readLogic, hs, hl, hr]
    rw [reading, if_pos hreg.1, hreg.2.1, hreg.2.2, ha, cell_succ, hid, hfl, Nat.sub_add_cancel hk1, hk.holds k hlt]
  have hdrop : (e.2.drop k).map (fun f => (e.1.pktFlags.checked, f)) =
      (e.1.pktFlags.checked, e.2[k]) :: (e.2.drop (k + 1)).map fun f => (e.1.pktFlags.checked, f) := by
    rw [List.drop_eq_getElem_cons hlt, List.map_cons]
  cases hl : m.lastCnt with
  | true =>
    have hd : m.done = true := by simp [done, middleReady, hs, hl]
    rw [hd, Bool.or_true, if_pos rfl] at hst
    have hk2 : k + 1 = e.2.length := by
      have hl' := hl
      simp only [lastCnt, beq_iff_eq, hc, hf, hlen] at hl'
      exact hl'
    have hall : (e.2.drop k).map (fun f => (e.1.pktFlags.checked, f)) = (m.step i).reading eff := by
      rw [hread, hdrop, List.drop_eq_nil_of_le (by omega)]
      rfl
    exact ⟨_, .next hst (by simp [DataMover.step, readLogic, hs, hl]) hnew, by rw [hall], fun _ => hall⟩
  | false =>
    have hd : m.done = false := by simp [done, firstReady, middleReady, hs, hl]
    have ht : m.takes i = false := by simp [takes_eq, hs, hd]
    have hk2 : k + 1 ≠ e.2.length := by
      simp only [lastCnt, beq_eq_false_iff_ne, hc, hf, hlen] at hl
      exact hl
    rw [hd, hs] at hst
    have hreg : (m.step i).pktId = m.pktId ∧ (m.step i).flits = m.flits ∧ (m.step i).pktFlags = m.pktFlags ∧
        (m.step i).flitsCnt = m.flitsCnt + 1 ∧ (m.step i).address = m.address + 1 ∧ (m.step i).read = true := by
      simp [DataMover.step, readLogic, hs, hl, ht]
    obtain ⟨r1, r2, r3, r4, r5, r6⟩ := hreg
    refine ⟨_, .middle e (k + 1) hst (r1.trans hid) (r2.trans hf) (r3.trans hfl) ?_ (by omega) (by omega) h31 ?_ r6 hk, ?_,
      by simp [hd]⟩
    · rw [r4, BitVec.toNat_add, hc]
      simp
      omega
    · rw [r5, r1, ha, cell_succ]
      congr 1
      omega
    · rw [hread, hdrop, ht]
      simp

end

theorem Moves.step (h : Moves m eff owed) {new : Option (Metadata × List PktFlit)}
    (hnew : m.takes i = true → ∃ e, new = some e ∧ i.metaData = e.1 ∧ Kept eff e ∧ (e.1.flits = 0 → e.1.pktFlags = .drop)) :
    m.GoesOn i eff owed new := by
  cases h with
  | idle hs =>
    have hst := step_state (m := m) (i := i) (.inl hs)
    simp only [hs, beq_self_eq_true, Bool.true_or, if_true] at hst
    have hread : (m.step i).reading eff = [] := by simp [reading, DataMover.step, readLogic, hs]
    exact ⟨_, .next hst (by simp [DataMover.step, readLogic, hs]) hnew, by rw [hread], fun _ => hread.symm⟩
  | first e hs hid hf hfl hc hk h0 => exact step_first hnew hid hf hfl hk hs hc h0
  | middle e k hs hid hf hfl hc hk1 hlt h31 ha hr hk => exact step_middle hnew hid hf hfl hk hs hc hk1 hlt h31 ha hr

theorem Moves.congr (h : Moves m eff owed) {eff' : BufAddr → PktFlit}
    (hk : ∀ e, m.pktId ∈ m.moving → m.pktId = e.1.pktID → Kept eff e → Kept eff' e) : Moves m eff' owed := by
  cases h with
  | idle hs => exact .idle hs
  | first e hs hid hf hfl hc hke h0 => exact .first e hs hid hf hfl hc (hk e (by simp [moving, hs]) hid hke) h0
  | middle e k hs hid hf hfl hc h1 hlt h31 ha hr hke =>
    exact .middle e k hs hid hf hfl hc h1 hlt h31 ha hr (hk e (by simp [moving, hs]) hid hke)

theorem Moves.runs (h : Moves m eff owed) : m.Runs := by
  cases h with
  | idle hs => exact .inl hs
  | first e hs => exact .inr (.inl hs)
  | middle e k hs => exact .inr (.inr hs)

def left (m : DataMover) : Nat :=
  match m.state with
  | .first => if m.done then 1 else m.flits.toNat
  | .middle => m.flits.toNat - m.flitsCnt.toNat
  | _ => 0

theorem left_le (m : DataMover) : m.left ≤ 31 := by
  unfold left
  have := m.flits.isLt
  split
  · split <;> omega
  · omega
  · omega

theorem Moves.of_left (h : Moves m eff owed) (hl : m.left = 0) : owed = [] ∧ m.moving = [] := by
  cases h with
  | idle hs => simp [moving, hs]
  | first e hs hid hf hfl hc hk h0 =>
    unfold left at hl
    rw [hs] at hl
    simp only at hl
    split at hl
    · omega
    · next hd =>
      have hdrop : e.1.pktFlags ≠ .drop := by
        intro hdrop
        simp [done, firstReady, hs, hfl, hdrop] at hd
      have := (hk.length_eq fun h => hdrop (h0 h)).1
      have := List.length_pos_iff.2 hk.ne_nil
      rw [hf] at hl
      omega
  | middle e k hs hid hf hfl hc h1 hlt h31 ha hr hk =>
    have hlen : m.flits.toNat = e.2.length := by
      rw [hf, hk.flits, BitVec.toNat_ofNat]
      omega
    simp only [left, hs, hc, hlen] at hl
    omega

theorem Moves.left_step (h : Moves m eff owed) (hd : m.done = false) (h0 : 0 < m.left) :
    (m.step i).left < m.left ∧ m.takes i = false := by
  have hrun := h.runs
  have hne : m.state ≠ .idle := by
    intro hs
    simp [left, hs] at h0
  have ht : m.takes i = false := by simp [takes_eq, hne, hd]
  have hst := step_state (i := i) hrun
  have hidle : (m.state == .idle) = false := by simp [hne]
  rw [hidle, hd] at hst
  refine ⟨?_, ht⟩
  have hfl : (m.step i).flits = m.flits := by simp [DataMover.step, ht]
  cases h with
  | idle hs => exact absurd hs hne
  | first e hs hid hf hfl' hc hk h0' =>
    have hfd : ¬ m.pktFlags = .drop ∧ ¬ m.flits = 1#5 := by simpa [done, firstReady, middleReady, hs] using hd
    have hcnt : (m.step i).flitsCnt = 1 := by simp [DataMover.step, readLogic, hs, hfd, hc]
    simp only [left, hs, hd] at h0
    simp only [left, hst, hs, hd, hfl, hcnt]
    simp at h0 ⊢
    omega
  | middle e k hs hid hf hfl' hc h1 hlt h31 ha hr hk =>
    have hl : m.lastCnt = false := by simpa [done, firstReady, middleReady, hs] using hd
    have hcnt : (m.step i).flitsCnt = m.flitsCnt + 1 := by simp [DataMover.step, readLogic, hs, hl]
    have hlen : m.flits.toNat = e.2.length := by
      rw [hf, hk.flits, BitVec.toNat_ofNat]
      omega
    have hcn : (m.flitsCnt + 1).toNat = k + 1 := by
      rw [BitVec.toNat_add, hc]
      simp
      omega
    simp only [left, hst, hs, hfl, hcnt, hcn, hc, hlen]
    simp
    omega

end DataMover

namespace BufSys

/-! ## Frames at the input -/

/-- The flits of the frames at the input: those of whole frames, and of the one being written. -/
inductive Feeds (fs : List EthFrame) (s : BufSys) : Prop
  | between (gs : List EthFrame) (hc : s.cur = []) (he : s.eth = gs.flatMap EthFrame.flits)
    (hm : s.made ++ gs.map EthFrame.flits = fs.map EthFrame.flits)
  | inside (l : List (Line × BitVec 6)) (gs : List EthFrame) (hc : s.cur ≠ []) (hl : l ≠ [])
    (hlen : s.cur.length + l.length ≤ 32) (he : s.eth = ethFlits false l ++ gs.flatMap EthFrame.flits)
    (hm : s.made ++ (s.cur ++ ethFlits false l) :: gs.map EthFrame.flits = fs.map EthFrame.flits)
    (ha : s.comp.addressR = cell s.comp.currentEmpty (s.cur.length - 1))

/-- A flit on the wire finds a free slot, and metadata with the count 0 are dropped. -/
def Open (s : BufSys) (i : BufTick) : Prop :=
  ((s.compIn i).ethValid = true → s.free ≠ []) ∧
    (s.mover.takes (s.moverIn i) = true → (s.moverIn i).metaData.flits = 0 → (s.moverIn i).metaData.pktFlags = .drop)

instance (s : BufSys) (i : BufTick) : Decidable (s.Open i) := by
  unfold Open
  infer_instance

variable {fs : List EthFrame} {s : BufSys} {i : BufTick}

theorem eth_of_valid (h : (s.compIn i).ethValid = true) : s.eth = (s.compIn i).eth :: s.eth.tail := by
  simp only [compIn, Bool.and_eq_true, Bool.not_eq_true', List.isEmpty_eq_false_iff] at h ⊢
  rw [if_pos h.1]
  cases he : s.eth with
  | nil => exact absurd he h.2
  | cons f l => rfl

def target (s : BufSys) (i : BufTick) : PktId := if (s.compIn i).eth.sop then s.free.headD 0 else s.comp.currentEmpty

structure Arrives (fs : List EthFrame) (s : BufSys) (i : BufTick) : Prop where
  sop : (s.compIn i).eth.sop = true ↔ s.cur = []
  short : s.cur.length < 32
  next : Feeds fs (s.step i)

theorem accepts_eq (hl : s.comp.lock = false) (ho : s.Open i) :
    s.comp.accepts (s.compIn i) = (s.compIn i).ethValid := by
  cases hv : (s.compIn i).ethValid with
  | false => simp [InputComp.accepts, hv]
  | true =>
    have hf : (s.compIn i).emptylistValid = true := by simp [compIn, ho.1 hv]
    simp [InputComp.accepts, hl, hv, hf]

theorem cur_step (hacc : s.comp.accepts (s.compIn i) = true) :
    (s.step i).cur = if (s.compIn i).eth.eop then [] else s.cur ++ [(s.compIn i).eth] := by simp [BufSys.step, hacc]

theorem addressR_step (hacc : s.comp.accepts (s.compIn i) = true) :
    (s.step i).comp.addressR = if (s.compIn i).eth.sop then slotAddr (s.free.headD 0) else s.comp.addressR + 1 := by
  simp only [BufSys.step, InputComp.step, hacc, if_true]
  rfl

theorem currentEmpty_step (hacc : s.comp.accepts (s.compIn i) = true) : (s.step i).comp.currentEmpty = s.target i := by
  simp only [BufSys.step, InputComp.step, hacc, Bool.true_and]
  rfl

theorem Feeds.arrives (h : Feeds fs s) (hl : s.comp.lock = false) (ho : s.Open i) (hv : (s.compIn i).ethValid = true) :
    Arrives fs s i := by
  have hacc := (accepts_eq hl ho).trans hv
  have heth := eth_of_valid hv
  have hst : (s.step i).eth = s.eth.tail := by simp [BufSys.step, hv]
  have hcur := cur_step hacc
  have hmade : (s.step i).made = if (s.compIn i).eth.eop then s.made ++ [s.cur ++ [(s.compIn i).eth]] else s.made := by
    simp [BufSys.step, hacc]
  have haddr := addressR_step hacc
  cases h with
  | between gs hc he hm =>
    cases gs with
    | nil =>
      rw [he] at heth
      simp at heth
    | cons g gs =>
      obtain ⟨p, l, hgl⟩ := List.exists_cons_of_ne_nil g.ne_nil
      have hshort := g.short
      rw [hgl] at hshort
      cases l with
      | nil =>
        have hg : g.flits = [⟨true, true, p.2, p.1⟩] := by rw [EthFrame.flits, hgl]; rfl
        rw [List.flatMap_cons, hg] at he
        have hf : (s.compIn i).eth = ⟨true, true, p.2, p.1⟩ := by
          rw [he] at heth
          exact (List.cons.inj heth).1.symm
        refine ⟨by simp [hf, hc], by simp [hc], .between gs ?_ ?_ ?_⟩
        · rw [hcur, hf]
          rfl
        · rw [hst, he]
          rfl
        · rw [hmade, hf, if_pos rfl, ← hm, List.map_cons, hg, hc]
          simp
      | cons q l =>
        have hg : g.flits = ⟨true, false, p.2, p.1⟩ :: ethFlits false (q :: l) := by rw [EthFrame.flits, hgl]; rfl
        rw [List.flatMap_cons, hg] at he
        have hf : (s.compIn i).eth = ⟨true, false, p.2, p.1⟩ := by
          rw [he] at heth
          exact (List.cons.inj heth).1.symm
        refine ⟨by simp [hf, hc], by simp [hc], .inside (q :: l) gs ?_ (by simp) ?_ ?_ ?_ ?_⟩
        · rw [hcur, hf]
          simp
        · rw [hcur, hf, hc]
          simp only [List.length_cons] at hshort
          simp
          omega
        · rw [hst, he]
          rfl
        · rw [hmade, hcur, hf, hc, ← hm, List.map_cons, hg]
          rfl
        · rw [haddr, currentEmpty_step hacc, target, hcur, hf, hc]
          simp [slotAddr_eq]
  | inside l gs hc hl hlen he hm ha =>
    have hpos := List.length_pos_iff.2 hc
    obtain ⟨p, l, rfl⟩ := List.exists_cons_of_ne_nil hl
    cases l with
    | nil =>
      have hf : (s.compIn i).eth = ⟨false, true, p.2, p.1⟩ := by
        rw [he] at heth
        exact (List.cons.inj heth).1.symm
      refine ⟨by simp [hf, hc], by simp at hlen; omega, .between gs ?_ ?_ ?_⟩
      · rw [hcur, hf]
        rfl
      · rw [hst, he]
        rfl
      · rw [hmade, hf, if_pos rfl, ← hm]
        simp [ethFlits]
    | cons q l =>
      have hf : (s.compIn i).eth = ⟨false, false, p.2, p.1⟩ := by
        rw [he] at heth
        exact (List.cons.inj heth).1.symm
      refine ⟨by simp [hf, hc], by simp at hlen; omega, .inside (q :: l) gs ?_ (by simp) ?_ ?_ ?_ ?_⟩
      · rw [hcur, hf]
        simp
      · rw [hcur, hf]
        simp only [List.length_cons] at hlen
        simp
        omega
      · rw [hst, he]
        rfl
      · rw [hmade, hcur, hf, ← hm]
        simp [ethFlits]
      · rw [haddr, currentEmpty_step hacc, target, hcur, hf, ha]
        simp only [Bool.false_eq_true, if_false, cell_succ, List.length_append, List.length_singleton]
        rw [show s.cur.length - 1 + 1 = s.cur.length + 1 - 1 by omega]

/-! ## Owners -/

def writing (s : BufSys) : List PktId := if s.cur = [] then [] else [s.comp.currentEmpty]

def owned (s : BufSys) : List PktId :=
  s.free ++ s.writing ++ s.avail.map (·.1.pktID) ++ s.mover.moving ++ s.mover.returning

/-- The metadata that `input_comp` puts out. -/
def fresh (s : BufSys) : List PktId := if s.comp.metaValid then [s.comp.metaData.pktID] else []

theorem count_avail (s : BufSys) (x : PktId) :
    (s.avail.map (·.1.pktID)).count x = (s.pool.map (·.1.pktID)).count x + s.fresh.count x := by
  unfold avail fresh
  rw [List.map_append, List.count_append]
  split <;> simp

theorem writing_step (hacc : s.comp.accepts (s.compIn i) = true) :
    (s.step i).writing = if (s.compIn i).eth.eop then [] else [s.target i] := by
  rw [writing, cur_step hacc, currentEmpty_step hacc]
  cases (s.compIn i).eth.eop <;> simp

theorem fresh_step (hacc : s.comp.accepts (s.compIn i) = true) :
    (s.step i).fresh = if (s.compIn i).eth.eop then [s.target i] else [] := by
  simp only [fresh, BufSys.step, InputComp.step, hacc, Bool.true_and]
  cases (s.compIn i).eth.eop <;> rfl

theorem count_arrives (h : Arrives fs s i) (hl : s.comp.lock = false) (ho : s.Open i)
    (hv : (s.compIn i).ethValid = true) (x : PktId) :
    (if (s.compIn i).eth.sop then s.free.tail else s.free).count x + (s.step i).writing.count x + (s.step i).fresh.count x =
      s.free.count x + s.writing.count x := by
  have hacc := (accepts_eq hl ho).trans hv
  have hw := writing_step hacc
  have hm := fresh_step hacc
  have hcount : (s.step i).writing.count x + (s.step i).fresh.count x = [s.target i].count x := by
    rw [hw, hm]
    cases (s.compIn i).eth.eop <;> simp
  rw [Nat.add_assoc, hcount, target, writing]
  cases hs : (s.compIn i).eth.sop with
  | true =>
    obtain ⟨a, l, hf⟩ := List.exists_cons_of_ne_nil (ho.1 hv)
    rw [if_pos (h.sop.1 hs), hf]
    simp only [if_true, List.tail_cons, List.headD_cons, List.count_cons, List.count_nil]
    omega
  | false =>
    have hc : s.cur ≠ [] := fun hc => by simp [h.sop.2 hc] at hs
    simp [hc]

theorem takes_some (ht : s.mover.takes (s.moverIn i) = true) :
    ∃ k e fl, s.avail[k]? = some e ∧ s.picked i = some ({ e.1 with pktFlags := fl }, e.2) ∧
      (s.step i).pool = s.avail.eraseIdx k := by
  have hv : (s.picked i).isSome = true := by
    simp only [DataMover.takes, Bool.and_eq_true] at ht
    exact ht.1
  obtain ⟨e', he'⟩ := Option.isSome_iff_exists.1 hv
  obtain ⟨⟨k, fl⟩, hp, h⟩ := Option.bind_eq_some_iff.1 he'
  obtain ⟨e, he, hmap⟩ := Option.map_eq_some_iff.1 h
  refine ⟨k, e, fl, he, ?_, ?_⟩
  · rw [he', ← hmap]
  · simp [BufSys.step, ht, hp]

theorem count_pool (x : PktId) :
    ((s.step i).pool.map (·.1.pktID)).count x +
        (if s.mover.takes (s.moverIn i) then [(s.moverIn i).metaData.pktID].count x else 0) =
      (s.avail.map (·.1.pktID)).count x := by
  cases ht : s.mover.takes (s.moverIn i) with
  | false => simp [BufSys.step, ht]
  | true =>
    obtain ⟨k, e, fl, he, hp, hpool⟩ := takes_some ht
    obtain ⟨hk, he⟩ := List.getElem?_eq_some_iff.1 he
    have hid : (s.moverIn i).metaData.pktID = e.1.pktID := by simp [moverIn, hp]
    have hperm := (List.getElem_cons_eraseIdx_perm hk).map (·.1.pktID)
    rw [← hperm.count_eq x, hpool, hid, List.map_cons, he, List.count_cons, List.count_cons, List.count_nil]
    simp

theorem free_step : (s.step i).free = (if (s.compIn i).ethValid && (s.compIn i).eth.sop then s.free.tail else s.free) ++ s.mover.returning := rfl

theorem count_owned (hf : Feeds fs s) (hl : s.comp.lock = false) (hr : s.mover.Runs) (ho : s.Open i) (x : PktId) :
    (s.step i).owned.count x = s.owned.count x := by
  have hm := DataMover.count_step hr (i := s.moverIn i) x
  have hp := count_pool (s := s) (i := i) x
  have ha := count_avail (s.step i) x
  have hmover : (s.step i).mover = s.mover.step (s.moverIn i) := rfl
  have hin : (if (s.compIn i).ethValid && (s.compIn i).eth.sop then s.free.tail else s.free).count x +
      (s.step i).writing.count x + (s.step i).fresh.count x = s.free.count x + s.writing.count x := by
    cases hv : (s.compIn i).ethValid with
    | true =>
      rw [Bool.true_and]
      exact count_arrives (hf.arrives hl ho hv) hl ho hv x
    | false =>
      have hacc := (accepts_eq hl ho).trans hv
      have hw : (s.step i).writing = s.writing ∧ (s.step i).fresh = [] := by
        simp [writing, fresh, BufSys.step, InputComp.step, hacc]
      rw [hw.1, hw.2]
      simp
  simp only [owned, List.count_append, free_step, hmover] at *
  omega

/-! ## Contents -/

def eff (s : BufSys) : BufAddr → PktFlit :=
  wr s.comp.writeR s.comp.addressR s.comp.writedataR (wr s.comp.write s.comp.address s.comp.writedata s.mem)

theorem eff_step (s : BufSys) (i : BufTick) :
    (s.step i).eff = wr (s.comp.accepts (s.compIn i)) (s.step i).comp.addressR (s.compIn i).eth s.eff := by
  unfold eff
  simp only [BufSys.step, InputComp.step]
  cases s.comp.accepts (s.compIn i) <;> rfl

def early (s : BufSys) : List PktId :=
  s.writing ++ s.avail.map (·.1.pktID) ++ if s.mover.state = .first then [s.mover.pktId] else []

def late (s : BufSys) : List PktId := (if s.mover.state = .middle then [s.mover.pktId] else []) ++ s.mover.returning

theorem not_late_of_early (hn : ∀ x, s.owned.count x ≤ 1) {x : PktId} (he : x ∈ s.early) : x ∉ s.late := by
  intro hl
  have h1 := List.count_pos_iff.2 he
  have h2 := List.count_pos_iff.2 hl
  have h3 := hn x
  have hm : s.mover.moving.count x = (if s.mover.state = .first then [s.mover.pktId] else []).count x +
      (if s.mover.state = .middle then [s.mover.pktId] else []).count x := by
    unfold DataMover.moving
    cases s.mover.state <;> simp
  simp only [early, late, owned, List.count_append] at h1 h2 h3
  omega

theorem not_free_of_late (hn : ∀ x, s.owned.count x ≤ 1) {x : PktId} (hl : x ∈ s.late) : x ∉ s.free ∧ x ∉ s.writing := by
  have h2 := List.count_pos_iff.2 hl
  have h3 := hn x
  have hm : (if s.mover.state = .middle then [s.mover.pktId] else []).count x ≤ s.mover.moving.count x := by
    unfold DataMover.moving
    cases s.mover.state <;> simp
  simp only [late, owned, List.count_append] at h2 h3
  constructor <;> intro h <;> have h1 := List.count_pos_iff.2 h <;> omega

def issued (s : BufSys) : List (Bool × PktFlit) :=
  s.out ++ s.outputs ++ (if s.valid2 then [(s.mover.flagsR.checked, s.rd.q)] else []) ++
    (if s.valid1 then [(s.mover.flags2.checked, s.rd.r1)] else []) ++ s.mover.reading s.eff

structure Inv (fs : List EthFrame) (s : BufSys) : Prop where
  lock : s.comp.lock = false
  feeds : Feeds fs s
  count : s.comp.flits = BitVec.ofNat 5 (s.cur.length + 1)
  nodup : ∀ x, s.owned.count x ≤ 1
  writeR : s.comp.writeR = true → ∃ id k, k < 32 ∧ s.comp.addressR = cell id k ∧ id ∈ s.writing ++ s.fresh
  write : s.comp.write = true → ∃ id k, k < 32 ∧ s.comp.address = cell id k ∧ id ∈ s.early
  read : s.mover.read = true → ∃ id k, k < 32 ∧ s.mover.address = cell id k ∧ id ∈ s.late
  written : Holds s.eff s.comp.currentEmpty s.cur
  kept : ∀ e ∈ s.avail, DataMover.Kept s.eff e
  moves : ∃ owed, s.mover.Moves s.eff owed ∧ s.issued ++ owed = s.taken.flatMap DataMover.expected
  returned : s.returned ++ s.mover.returning ++ s.mover.moving = s.taken.map (·.1.pktID)
  once : ((s.avail ++ s.taken).map (·.2)).Perm s.made

theorem Inv.runs (h : Inv fs s) : s.mover.Runs := by
  obtain ⟨owed, hm, _⟩ := h.moves
  exact hm.runs

theorem Inv.reset (free : List PktId) (hn : free.Nodup) (mem : BufAddr → PktFlit) (fs : List EthFrame) :
    Inv fs (reset free mem fs) where
  lock := rfl
  feeds := .between fs rfl rfl rfl
  count := rfl
  nodup x := by
    have := List.nodup_iff_count_le_one.1 hn x
    simpa [owned, BufSys.reset, writing, avail, InputComp.reset, DataMover.ready, DataMover.reset, DataMover.moving,
      DataMover.returning] using this
  writeR := by simp [BufSys.reset, InputComp.reset]
  write := by simp [BufSys.reset, InputComp.reset]
  read := by simp [BufSys.reset, DataMover.ready, DataMover.reset]
  written := by
    intro k hk
    simp [BufSys.reset] at hk
  kept := by simp [avail, BufSys.reset, InputComp.reset]
  moves := ⟨[], .idle rfl, rfl⟩
  returned := rfl
  once := .refl []

theorem addr_step (h : Inv fs s) (ho : s.Open i) (hv : (s.compIn i).ethValid = true) :
    (s.step i).comp.addressR = cell (s.target i) s.cur.length := by
  have hacc := (accepts_eq h.lock ho).trans hv
  have hsop := (h.feeds.arrives h.lock ho hv).sop
  rw [addressR_step hacc, target]
  cases hs : (s.compIn i).eth.sop with
  | true => simp [hsop.1 hs, slotAddr_eq]
  | false =>
    have hc : s.cur ≠ [] := fun hc => by simp [hsop.2 hc] at hs
    have hpos := List.length_pos_iff.2 hc
    cases h.feeds with
    | between gs hc' => exact absurd hc' hc
    | inside l gs _ _ _ _ _ ha =>
      simp only [Bool.false_eq_true, if_false]
      rw [ha, cell_succ, Nat.sub_add_cancel hpos]

theorem target_mem (h : Inv fs s) (ho : s.Open i) (hv : (s.compIn i).ethValid = true) :
    s.target i ∈ s.free ++ s.writing := by
  have hsop := (h.feeds.arrives h.lock ho hv).sop
  rw [target]
  cases hs : (s.compIn i).eth.sop with
  | true =>
    obtain ⟨a, l, hf⟩ := List.exists_cons_of_ne_nil (ho.1 hv)
    simp [hf]
  | false =>
    have hc : s.cur ≠ [] := fun hc => by simp [hsop.2 hc] at hs
    simp [writing, hc]

theorem target_apart (h : Inv fs s) (ho : s.Open i) (hv : (s.compIn i).ethValid = true) :
    s.target i ∉ s.avail.map (·.1.pktID) ++ s.mover.moving ++ s.mover.returning := by
  intro hm
  have h1 := List.count_pos_iff.2 (target_mem h ho hv)
  have h2 := List.count_pos_iff.2 hm
  have h3 := h.nodup (s.target i)
  simp only [owned, List.count_append] at h1 h2 h3
  omega

theorem kept_step (h : Inv fs s) (ho : s.Open i) {e : Metadata × List PktFlit}
    (he : e.1.pktID ∈ s.avail.map (·.1.pktID) ++ s.mover.moving ++ s.mover.returning) (hk : DataMover.Kept s.eff e) :
    DataMover.Kept (s.step i).eff e := by
  refine ⟨hk.ne_nil, hk.short, hk.flits, ?_⟩
  rw [eff_step, accepts_eq h.lock ho]
  cases hv : (s.compIn i).ethValid with
  | false => exact hk.holds
  | true =>
    have hne : e.1.pktID ≠ s.target i := fun heq => target_apart h ho hv (heq ▸ he)
    rw [addr_step h ho hv]
    exact hk.holds.wr_of_ne hk.short (h.feeds.arrives h.lock ho hv).short hne true _

theorem holds_target (h : Inv fs s) (ho : s.Open i) (hv : (s.compIn i).ethValid = true) :
    Holds (s.step i).eff (s.target i) (s.cur ++ [(s.compIn i).eth]) := by
  have har := h.feeds.arrives h.lock ho hv
  have hcur : Holds s.eff (s.target i) s.cur := by
    rw [target]
    cases hs : (s.compIn i).eth.sop with
    | true =>
      intro k hk
      simp [har.sop.1 hs] at hk
    | false => exact h.written
  rw [eff_step, accepts_eq h.lock ho, hv, addr_step h ho hv]
  exact hcur.snoc har.short _

theorem target_early (h : Inv fs s) (ho : s.Open i) (hv : (s.compIn i).ethValid = true) :
    s.target i ∈ (s.step i).writing ++ (s.step i).fresh := by
  have hacc := (accepts_eq h.lock ho).trans hv
  rw [writing_step hacc, fresh_step hacc]
  cases (s.compIn i).eth.eop <;> simp

theorem mem_early_of_fresh {x : PktId} (h : x ∈ s.writing ++ s.fresh) : x ∈ s.early := by
  have hf := count_avail s x
  have h1 := List.count_pos_iff.2 h
  refine List.count_pos_iff.1 ?_
  simp only [early, List.count_append] at h1 ⊢
  omega

theorem early_of_avail (hr : s.mover.Runs) {x : PktId} (h : x ∈ s.avail.map (·.1.pktID)) : x ∈ (s.step i).early := by
  have hp := count_pool (s := s) (i := i) x
  have ha := count_avail (s.step i) x
  have h1 := List.count_pos_iff.2 h
  refine List.count_pos_iff.1 ?_
  cases ht : s.mover.takes (s.moverIn i) with
  | false =>
    rw [ht] at hp
    simp only [early, List.count_append] at hp ⊢
    simp only [Bool.false_eq_true, if_false] at hp
    omega
  | true =>
    have hst := DataMover.step_state hr (i := s.moverIn i)
    rw [DataMover.idle_or_done_of_takes ht, ht] at hst
    have hm : (s.step i).mover.state = .first ∧ (s.step i).mover.pktId = (s.moverIn i).metaData.pktID :=
      ⟨hst, by simp [BufSys.step, DataMover.step, ht]⟩
    rw [ht] at hp
    simp only [early, List.count_append, hm.1, hm.2, if_true] at hp ⊢
    omega

theorem Inv.lock_step (h : Inv fs s) (ho : s.Open i) : (s.step i).comp.lock = false := by
  have : (s.compIn i).ethValid = true → (s.compIn i).emptylistValid = true := fun hv => by simp [compIn, ho.1 hv]
  simp only [BufSys.step, InputComp.step, h.lock, Bool.false_or]
  cases hv : (s.compIn i).ethValid with
  | false => rfl
  | true => simp [this hv]

theorem Inv.still (h : Inv fs s) (ho : s.Open i) (hv : (s.compIn i).ethValid = false) :
    ((s.step i).cur = s.cur ∧ (s.step i).eth = s.eth ∧ (s.step i).made = s.made) ∧
      (s.step i).comp.addressR = s.comp.addressR ∧ (s.step i).comp.currentEmpty = s.comp.currentEmpty ∧
      (s.step i).comp.flits = s.comp.flits ∧ (s.step i).comp.writeR = false ∧ (s.step i).fresh = [] := by
  have hacc := (accepts_eq h.lock ho).trans hv
  simp [BufSys.step, InputComp.step, fresh, hacc, hv]

theorem Inv.feeds_step (h : Inv fs s) (ho : s.Open i) : Feeds fs (s.step i) := by
  cases hv : (s.compIn i).ethValid with
  | true => exact (h.feeds.arrives h.lock ho hv).next
  | false =>
    obtain ⟨⟨hc, he, hm⟩, ha, hce, _⟩ := h.still ho hv
    cases h.feeds with
    | between gs h1 h2 h3 => exact .between gs (hc.trans h1) (he.trans h2) (hm ▸ h3)
    | inside l gs h1 h2 h3 h4 h5 h6 =>
      refine .inside l gs (hc ▸ h1) h2 (hc ▸ h3) (he.trans h4) ?_ ?_
      · rw [hm, hc]
        exact h5
      · rw [ha, hce, hc]
        exact h6

theorem Inv.count_step (h : Inv fs s) (ho : s.Open i) :
    (s.step i).comp.flits = BitVec.ofNat 5 ((s.step i).cur.length + 1) := by
  cases hv : (s.compIn i).ethValid with
  | false =>
    obtain ⟨⟨hc, _⟩, _, _, hf, _⟩ := h.still ho hv
    rw [hf, hc, h.count]
  | true =>
    have hacc := (accepts_eq h.lock ho).trans hv
    have hf : (s.step i).comp.flits = if (s.compIn i).eth.eop then 1 else s.comp.flits + 1 := by
      simp only [BufSys.step, InputComp.step, hacc, if_true]
    rw [hf, cur_step hacc, h.count]
    cases (s.compIn i).eth.eop with
    | true => rfl
    | false =>
      simp only [Bool.false_eq_true, if_false, List.length_append, List.length_singleton]
      exact (BitVec.ofNat_add (s.cur.length + 1) 1).symm

theorem Inv.writeR_step (h : Inv fs s) (ho : s.Open i) (hw : (s.step i).comp.writeR = true) :
    ∃ id k, k < 32 ∧ (s.step i).comp.addressR = cell id k ∧ id ∈ (s.step i).writing ++ (s.step i).fresh := by
  cases hv : (s.compIn i).ethValid with
  | false =>
    obtain ⟨_, _, _, _, hwr, _⟩ := h.still ho hv
    rw [hwr] at hw
    cases hw
  | true => exact ⟨_, _, (h.feeds.arrives h.lock ho hv).short, addr_step h ho hv, target_early h ho hv⟩

theorem Inv.write_step (h : Inv fs s) (ho : s.Open i) (hw : (s.step i).comp.write = true) :
    ∃ id k, k < 32 ∧ (s.step i).comp.address = cell id k ∧ id ∈ (s.step i).early := by
  obtain ⟨id, k, hk, ha, hid⟩ := h.writeR hw
  refine ⟨id, k, hk, ha, ?_⟩
  rcases List.mem_append.1 hid with hid | hid
  · have hc : s.cur ≠ [] := by
      intro hc
      simp [writing, hc] at hid
    have hce : id = s.comp.currentEmpty := by simpa [writing, hc] using hid
    cases hv : (s.compIn i).ethValid with
    | false =>
      obtain ⟨⟨hcur, _⟩, _, hce', _⟩ := h.still ho hv
      refine mem_early_of_fresh (List.mem_append_left _ ?_)
      simp [writing, hcur, hc, hce', hce]
    | true =>
      have hs : (s.compIn i).eth.sop = false :=
        Bool.eq_false_iff.2 fun hs => hc ((h.feeds.arrives h.lock ho hv).sop.1 hs)
      have := target_early h ho hv
      rw [target, hs, if_neg (by simp), ← hce] at this
      exact mem_early_of_fresh this
  · refine early_of_avail h.runs ?_
    have := count_avail s id
    have h1 := List.count_pos_iff.2 hid
    exact List.count_pos_iff.1 (by omega)

theorem Inv.written_step (h : Inv fs s) (ho : s.Open i) :
    Holds (s.step i).eff (s.step i).comp.currentEmpty (s.step i).cur := by
  cases hv : (s.compIn i).ethValid with
  | false =>
    obtain ⟨⟨hc, _⟩, _, hce, _⟩ := h.still ho hv
    rw [eff_step, accepts_eq h.lock ho, hv, hc, hce]
    exact h.written
  | true =>
    have hacc := (accepts_eq h.lock ho).trans hv
    rw [currentEmpty_step hacc, cur_step hacc]
    split
    · intro k hk
      simp at hk
    · exact holds_target h ho hv

theorem Inv.kept_step' (h : Inv fs s) (ho : s.Open i) : ∀ e ∈ (s.step i).avail, DataMover.Kept (s.step i).eff e := by
  intro e he
  rcases List.mem_append.1 he with he | he
  · have hmem : e ∈ s.avail := by
      simp only [BufSys.step] at he
      split at he
      · exact List.mem_of_mem_eraseIdx he
      · exact he
    refine kept_step h ho ?_ (h.kept e hmem)
    simp only [List.append_assoc]
    exact List.mem_append_left _ (List.mem_map.2 ⟨e, hmem, rfl⟩)
  · cases hm : (s.step i).comp.metaValid with
    | false => simp [hm] at he
    | true =>
      rw [hm, if_pos rfl, List.mem_singleton] at he
      have hm' : (s.comp.accepts (s.compIn i) && (s.compIn i).eth.eop) = true := hm
      have hacc : s.comp.accepts (s.compIn i) = true := by
        rw [Bool.and_eq_true] at hm'
        exact hm'.1
      have hv := (accepts_eq h.lock ho).symm.trans hacc
      have har := h.feeds.arrives h.lock ho hv
      have hmeta : (s.step i).comp.metaData.pktID = s.target i ∧ (s.step i).comp.metaData.flits = s.comp.flits := by
        simp only [BufSys.step, InputComp.step, hm', if_true]
        exact ⟨rfl, trivial⟩
      subst he
      have hshort := har.short
      refine ⟨by simp [BufSys.step], by simp [BufSys.step]; omega, ?_, ?_⟩
      · rw [hmeta.2, h.count]
        simp [BufSys.step]
      · rw [hmeta.1]
        exact holds_target h ho hv

theorem Inv.read_step (h : Inv fs s) (hr : (s.step i).mover.read = true) :
    ∃ id k, k < 32 ∧ (s.step i).mover.address = cell id k ∧ id ∈ (s.step i).late := by
  obtain ⟨owed, hm, _⟩ := h.moves
  have hmover : (s.step i).mover = s.mover.step (s.moverIn i) := rfl
  have hst := DataMover.step_state hm.runs (i := s.moverIn i)
  have hret := DataMover.step_returning hm.runs (i := s.moverIn i)
  -- the slot is kept while the mover is in the packet, and given back with its last read
  have hlate : (s.mover.state == .idle) = false → s.mover.pktId ∈ (s.step i).late := by
    intro hs
    rw [late, hmover, hret, hst, hs]
    cases hd : s.mover.done with
    | true => simp
    | false =>
      have ht : s.mover.takes (s.moverIn i) = false := by simp [DataMover.takes_eq, hs, hd]
      simp [DataMover.step, ht]
  cases hm with
  | idle hs => simp [hmover, DataMover.step, DataMover.readLogic, hs] at hr
  | first e hs =>
    by_cases hdrop : s.mover.pktFlags = .drop
    · simp [hmover, DataMover.step, DataMover.readLogic, hs, hdrop] at hr
    · refine ⟨s.mover.pktId, 0, by omega, ?_, hlate (by simp [hs])⟩
      rw [← slotAddr_eq, hmover]
      by_cases h1 : s.mover.flits = 1#5 <;> simp [DataMover.step, DataMover.readLogic, hs, hdrop, h1]
  | middle e k hs hid hf hfl hc h1 hlt h31 ha =>
    refine ⟨s.mover.pktId, k, by omega, ?_, hlate (by simp [hs])⟩
    have : (s.step i).mover.address = s.mover.address + 1 := by
      rw [hmover]
      cases hl : s.mover.lastCnt <;> simp [DataMover.step, DataMover.readLogic, hs, hl]
    rw [this, ha, cell_succ, Nat.sub_add_cancel h1]

theorem Inv.read_mem (h : Inv fs s) (hr : s.mover.read = true) : s.mem s.mover.address = s.eff s.mover.address := by
  obtain ⟨id, k, hk, ha, hid⟩ := h.read hr
  have hne : ∀ {id' k'}, k' < 32 → id' ∈ s.early → s.mover.address ≠ cell id' k' := by
    intro id' k' hk' hid' heq
    rw [ha] at heq
    exact not_late_of_early h.nodup hid' ((cell_inj hk hk' heq).1 ▸ hid)
  have h1 : ¬ (s.comp.writeR = true ∧ s.mover.address = s.comp.addressR) := by
    rintro ⟨hw, heq⟩
    obtain ⟨id', k', hk', ha', hid'⟩ := h.writeR hw
    exact hne hk' (mem_early_of_fresh hid') (heq.trans ha')
  have h2 : ¬ (s.comp.write = true ∧ s.mover.address = s.comp.address) := by
    rintro ⟨hw, heq⟩
    obtain ⟨id', k', hk', ha', hid'⟩ := h.write hw
    exact hne hk' hid' (heq.trans ha')
  rw [eff, wr_apply, if_neg h1, wr_apply, if_neg h2]

theorem outputs_step (s : BufSys) (i : BufTick) :
    (s.step i).outputs = if s.valid2 then [(s.mover.flagsR.checked, s.rd.q)] else [] := by
  cases h2 : s.valid2 <;> cases hc : s.mover.flagsR.checked <;>
    simp [outputs, BufSys.step, DataMover.step, moverIn, h2, hc]

theorem Inv.r1_step (h : Inv fs s) (i : BufTick) :
    (if (s.step i).valid1 then [((s.step i).mover.flags2.checked, (s.step i).rd.r1)] else []) = s.mover.reading s.eff := by
  cases hr : s.mover.read with
  | false => simp [BufSys.step, DataMover.reading, hr]
  | true => simp [BufSys.step, DataMover.step, RdPort.step, DataMover.reading, hr, h.read_mem hr]

theorem q_step (s : BufSys) (i : BufTick) :
    (if (s.step i).valid2 then [((s.step i).mover.flagsR.checked, (s.step i).rd.q)] else []) =
      if s.valid1 then [(s.mover.flags2.checked, s.rd.r1)] else [] := rfl

theorem out_step (s : BufSys) (i : BufTick) : (s.step i).out = s.out ++ s.outputs := rfl

theorem Inv.issued_step (h : Inv fs s) :
    (s.step i).issued = s.issued ++ (s.step i).mover.reading (s.step i).eff := by
  rw [issued, issued, h.r1_step, q_step, outputs_step, out_step]

theorem Inv.picked_kept (h : Inv fs s) (ho : s.Open i) (ht : s.mover.takes (s.moverIn i) = true) :
    ∃ e, s.picked i = some e ∧ (s.moverIn i).metaData = e.1 ∧ DataMover.Kept (s.step i).eff e ∧
      (e.1.flits = 0 → e.1.pktFlags = .drop) := by
  obtain ⟨k, e, fl, he, hp, _⟩ := takes_some ht
  have hmem : e ∈ s.avail := List.mem_of_getElem? he
  have hk := kept_step h ho (e := e) (by
    simp only [List.append_assoc]
    exact List.mem_append_left _ (List.mem_map.2 ⟨e, hmem, rfl⟩)) (h.kept e hmem)
  have hmd : (s.moverIn i).metaData = { e.1 with pktFlags := fl } := by simp [moverIn, hp]
  refine ⟨_, hp, hmd, ⟨hk.ne_nil, hk.short, hk.flits, hk.holds⟩, fun h0 => ?_⟩
  have := ho.2 ht
  rw [hmd] at this
  exact this h0

theorem Inv.moves_congr (h : Inv fs s) (ho : s.Open i) {owed : List (Bool × PktFlit)} (hm : s.mover.Moves s.eff owed) :
    s.mover.Moves (s.step i).eff owed := by
  refine hm.congr fun e hmem hid hk => kept_step h ho ?_ hk
  rw [← hid]
  exact List.mem_append_left _ (List.mem_append_right _ hmem)

theorem Inv.moves_step (h : Inv fs s) (ho : s.Open i) :
    ∃ owed, (s.step i).mover.Moves (s.step i).eff owed ∧
      (s.step i).issued ++ owed = (s.step i).taken.flatMap DataMover.expected := by
  obtain ⟨owed, hm, hs⟩ := h.moves
  have hm' := h.moves_congr ho hm
  obtain ⟨owed', hnext, hstream, _⟩ := hm'.step (i := s.moverIn i) (h.picked_kept ho)
  refine ⟨owed', hnext, ?_⟩
  have ht : (s.step i).taken.flatMap DataMover.expected = s.taken.flatMap DataMover.expected ++
      if s.mover.takes (s.moverIn i) then (s.picked i).toList.flatMap DataMover.expected else [] := by
    simp only [BufSys.step]
    split <;> simp
  rw [h.issued_step, ht, ← hs, List.append_assoc, List.append_assoc]
  exact congrArg _ hstream.symm

theorem returned_step (s : BufSys) (i : BufTick) : (s.step i).returned = s.returned ++ s.mover.returning := by
  simp only [BufSys.step, DataMover.returning]
  split <;> simp

theorem Inv.returned_step (h : Inv fs s) :
    (s.step i).returned ++ (s.step i).mover.returning ++ (s.step i).mover.moving = (s.step i).taken.map (·.1.pktID) := by
  have hmover : (s.step i).mover = s.mover.step (s.moverIn i) := rfl
  rw [hmover, BufSys.returned_step, DataMover.step_returning h.runs, DataMover.step_moving h.runs]
  have hold := h.returned
  cases ht : s.mover.takes (s.moverIn i) with
  | true =>
    obtain ⟨k, e, fl, _, hp, _⟩ := takes_some ht
    have htk : (s.step i).taken = s.taken ++ [({ e.1 with pktFlags := fl }, e.2)] := by simp [BufSys.step, ht, hp]
    have hid : (s.moverIn i).metaData.pktID = e.1.pktID := by simp [moverIn, hp]
    rw [htk, List.map_append, ← hold, hid]
    cases hd : s.mover.done with
    | true => simp [DataMover.moving_of_done hd]
    | false =>
      have hi := DataMover.idle_or_done_of_takes ht
      rw [hd, Bool.or_false, beq_iff_eq] at hi
      simp [DataMover.moving, hi]
  | false =>
    have htk : (s.step i).taken = s.taken := by simp [BufSys.step, ht]
    rw [htk, ← hold]
    cases hd : s.mover.done with
    | true => simp [DataMover.moving_of_done hd]
    | false => simp

theorem Inv.once_step (h : Inv fs s) : (((s.step i).avail ++ (s.step i).taken).map (·.2)).Perm (s.step i).made := by
  have hnew : (s.step i).made = s.made ++ if (s.step i).comp.metaValid then [(s.step i).frame] else [] := by
    simp only [BufSys.step, InputComp.step]
    split <;> simp
  have hav : ((s.step i).avail.map (·.2)) =
      (s.step i).pool.map (·.2) ++ if (s.step i).comp.metaValid then [(s.step i).frame] else [] := by
    rw [avail, List.map_append]
    split <;> rfl
  have hold : ((s.step i).pool.map (·.2) ++ (s.step i).taken.map (·.2)).Perm s.made := by
    refine List.Perm.trans ?_ (List.map_append ▸ h.once)
    cases ht : s.mover.takes (s.moverIn i) with
    | false => simp [BufSys.step, ht]
    | true =>
      obtain ⟨k, e, fl, he, hp, hpool⟩ := takes_some ht
      obtain ⟨hk, he⟩ := List.getElem?_eq_some_iff.1 he
      have htk : (s.step i).taken.map (·.2) = s.taken.map (·.2) ++ [e.2] := by simp [BufSys.step, ht, hp]
      have hperm := (List.getElem_cons_eraseIdx_perm hk).map (·.2)
      rw [List.map_cons, he] at hperm
      rw [hpool, htk, ← List.append_assoc]
      exact (List.perm_append_singleton _ _).trans (hperm.append_right _)
  rw [hnew, List.map_append, hav, List.append_assoc]
  refine List.Perm.trans ?_ (hold.append_right _)
  rw [List.append_assoc]
  exact List.Perm.append_left _ List.perm_append_comm

theorem Inv.step (fs : List EthFrame) (s : BufSys) (i : BufTick) (h : Inv fs s) (ho : s.Open i) : Inv fs (s.step i) where
  lock := h.lock_step ho
  feeds := h.feeds_step ho
  count := h.count_step ho
  nodup x := by
    rw [count_owned h.feeds h.lock h.runs ho]
    exact h.nodup x
  writeR := h.writeR_step ho
  write := h.write_step ho
  read := h.read_step
  written := h.written_step ho
  kept := h.kept_step' ho
  moves := h.moves_step ho
  returned := h.returned_step
  once := h.once_step

/-! ## Delivery -/

/-- The flits of the metadata `l` have been issued, and their slots are on the way to the free list. -/
def Issued (l : List (Metadata × List PktFlit)) (s : BufSys) : Prop :=
  l.flatMap DataMover.expected <+: s.issued ∧ l.map (·.1.pktID) <+: s.returned ++ s.mover.returning

theorem Issued.step {l : List (Metadata × List PktFlit)} (h : Inv fs s) (hl : Issued l s) : Issued l (s.step i) := by
  refine ⟨?_, ?_⟩
  · rw [h.issued_step]
    exact hl.1.trans (List.prefix_append _ _)
  · rw [returned_step]
    exact hl.2.trans (List.prefix_append _ _)

theorem Issued.run {l : List (Metadata × List PktFlit)} (js : List BufTick) {s : BufSys} (h : Inv fs s) (hl : Issued l s)
    (ho : AllSteps BufSys.step Open s js) : Issued l (Hdl.run BufSys.step s js) := by
  induction js generalizing s with
  | nil => exact hl
  | cons j js ih => exact ih (h.step fs s j ho.1) (hl.step h) ho.2

theorem Inv.issues (js : List BufTick) {s : BufSys} (h : Inv fs s) (hn : s.mover.left ≤ js.length)
    (ho : AllSteps BufSys.step Open s js) : Issued s.taken (Hdl.run BufSys.step s js) := by
  induction js generalizing s with
  | nil =>
    obtain ⟨owed, hm, hs⟩ := h.moves
    obtain ⟨rfl, hmv⟩ := hm.of_left (by simpa using hn)
    have hr := h.returned
    rw [hmv, List.append_nil] at hr
    rw [List.append_nil] at hs
    exact ⟨hs ▸ List.prefix_refl _, hr ▸ List.prefix_refl _⟩
  | cons j js ih =>
    obtain ⟨owed, hm, hs⟩ := h.moves
    have hstep := h.step fs s j ho.1
    rcases Nat.eq_zero_or_pos s.mover.left with hl | hl
    · obtain ⟨rfl, hmv⟩ := hm.of_left hl
      have hr := h.returned
      rw [hmv, List.append_nil] at hr
      rw [List.append_nil] at hs
      exact Issued.run (j :: js) h ⟨hs ▸ List.prefix_refl _, hr ▸ List.prefix_refl _⟩ ho
    · cases hd : s.mover.done with
      | true =>
        obtain ⟨owed', _, _, hread⟩ := (h.moves_congr ho.1 hm).step (i := s.moverIn j) (h.picked_kept ho.1)
        have hread := hread hd
        have hret : s.returned ++ s.mover.returning ++ (s.step j).mover.returning = s.taken.map (·.1.pktID) := by
          rw [← h.returned]
          have hrt : (s.step j).mover.returning = [s.mover.pktId] :=
            (DataMover.step_returning h.runs (i := s.moverIn j)).trans (if_pos hd)
          rw [DataMover.moving_of_done hd, hrt]
        refine Issued.run js hstep ⟨?_, ?_⟩ ho.2
        · rw [h.issued_step, ← hs, hread]
          exact List.prefix_refl _
        · simp only [BufSys.returned_step, hret]
          exact List.prefix_refl _
      | false =>
        obtain ⟨hlt, ht⟩ := hm.left_step (i := s.moverIn j) hd hl
        have htk : (s.step j).taken = s.taken := by simp [BufSys.step, ht]
        have hn' : (s.step j).mover.left ≤ js.length := by
          have : (s.step j).mover.left < s.mover.left := hlt
          simp only [List.length_cons] at hn
          omega
        rw [← htk]
        exact ih hstep hn' ho.2

theorem Inv.out_four (h : Inv fs s) (a b c d : BufTick) :
    ((((s.step a).step b).step c).step d).out = s.issued := by
  rw [out_step, out_step, out_step, out_step, outputs_step, outputs_step, outputs_step, q_step, q_step, h.r1_step, issued]

theorem prefix_run (js : List BufTick) (s : BufSys) :
    s.out <+: (Hdl.run BufSys.step s js).out ∧ s.returned <+: (Hdl.run BufSys.step s js).returned := by
  induction js generalizing s with
  | nil => exact ⟨List.prefix_refl _, List.prefix_refl _⟩
  | cons j js ih =>
    obtain ⟨h1, h2⟩ := ih (s.step j)
    rw [out_step] at h1
    rw [returned_step] at h2
    exact ⟨(List.prefix_append _ _).trans h1, (List.prefix_append _ _).trans h2⟩

theorem Inv.delivers (h : Inv fs s) (js : List BufTick) (hn : 35 ≤ js.length) (ho : AllSteps BufSys.step Open s js) :
    s.taken.flatMap DataMover.expected <+: (Hdl.run BufSys.step s js).out ∧
      s.taken.map (·.1.pktID) <+: (Hdl.run BufSys.step s js).returned := by
  have hsplit := List.take_append_drop 31 js
  have hlen : 4 ≤ (js.drop 31).length := by rw [List.length_drop]; omega
  obtain ⟨a, b, c, d, ks, hks⟩ : ∃ a b c d ks, js.drop 31 = a :: b :: c :: d :: ks := by
    match js.drop 31, hlen with
    | a :: b :: c :: d :: ks, _ => exact ⟨a, b, c, d, ks, rfl⟩
  rw [← hsplit, hks] at ho ⊢
  obtain ⟨h1, h2⟩ := ho.of_append
  have hinv := run_inv _ (Inv.step fs) _ _ h h1
  have hiss := h.issues _ (by have := DataMover.left_le s.mover; rw [List.length_take]; omega) h1
  rw [run_append]
  generalize Hdl.run BufSys.step s (js.take 31) = t at *
  have hmono := prefix_run ks ((((t.step a).step b).step c).step d)
  simp only [run_cons]
  constructor
  · rw [hinv.out_four] at hmono
    exact hiss.1.trans hmono.1
  · refine (hiss.2.trans ?_).trans hmono.2
    rw [BufSys.returned_step, BufSys.returned_step, BufSys.returned_step, BufSys.returned_step]
    simp only [List.append_assoc]
    exact (List.prefix_append_right_inj _).2 (List.prefix_append _ _)

/-- Frames go in and come out again. -/
structure RoundTrips (fs : List EthFrame) (s : BufSys) : Prop where
  /-- No flit is lost at the input. -/
  input : s.made.flatten ++ s.cur ++ s.eth = fs.flatMap EthFrame.flits
  frames : s.made <+: fs.map EthFrame.flits
  once : ((s.avail ++ s.taken).map (·.2)).Perm s.made
  outputs : s.out <+: s.taken.flatMap DataMover.expected
  returned : s.returned <+: s.taken.map (·.1.pktID)
  /-- A slot that is read is not free, nor in use for another frame. -/
  reads : s.mover.read = true → ∃ id k, k < 32 ∧ s.mover.address = cell id k ∧ id ∉ s.free ∧ id ∉ s.writing
  delivered : ∀ js, 35 ≤ js.length → AllSteps BufSys.step Open s js →
    s.taken.flatMap DataMover.expected <+: (Hdl.run BufSys.step s js).out ∧
      s.taken.map (·.1.pktID) <+: (Hdl.run BufSys.step s js).returned

theorem Inv.roundTrips (h : Inv fs s) : RoundTrips fs s where
  input := by
    cases h.feeds with
    | between gs hc he hm =>
      have := congrArg List.flatten hm
      rw [hc, he]
      simpa [List.flatMap_def] using this
    | inside l gs hc hl hlen he hm ha =>
      have := congrArg List.flatten hm
      rw [he]
      simpa [List.flatMap_def] using this
  frames := by
    cases h.feeds with
    | between gs hc he hm => exact hm ▸ List.prefix_append _ _
    | inside l gs hc hl hlen he hm ha => exact hm ▸ List.prefix_append _ _
  once := h.once
  outputs := by
    obtain ⟨owed, _, hs⟩ := h.moves
    rw [← hs, issued]
    simp only [List.append_assoc]
    exact List.prefix_append _ _
  returned := by
    rw [← h.returned, List.append_assoc]
    exact List.prefix_append _ _
  reads hr := by
    obtain ⟨id, k, hk, ha, hid⟩ := h.read hr
    exact ⟨id, k, hk, ha, not_free_of_late h.nodup hid⟩
  delivered := h.delivers

end BufSys

/-- Every frame comes back from the buffer in every run whose steps are open. -/
theorem pktBuffer_roundTrips (free : List PktId) (hn : free.Nodup) (mem : BufAddr → PktFlit) (fs : List EthFrame)
    (is : List BufTick) (ho : AllSteps BufSys.step BufSys.Open (.reset free mem fs) is) :
    BufSys.RoundTrips fs (run BufSys.step (.reset free mem fs) is) :=
  (run_inv _ (BufSys.Inv.step fs) is _ (.reset free hn mem fs) ho).roundTrips

/-! ## A frame that fills its slot, and the last free slot -/

def lineFrame (n : Fin 32) : EthFrame :=
  ⟨(List.range (n.val + 1)).map fun k => (vec fun _ => BitVec.ofNat 8 k, 0), by simp, by rw [List.length_map, List.length_range]; omega⟩

/-- A flit on the wire; the metadata number `k` with the flags `fl`, if any, are presented. -/
def BufTick.of (pick : Option (Nat × PktFlags)) : BufTick := ⟨true, PktDataShift.zeroFlit, pick, false, false⟩

/-- Three frames come in; the second and the third go to the outputs, the first is dropped. -/
def threeFrames : List BufTick :=
  List.replicate 7 (.of none) ++ [.of (some (1, .check)), .of (some (1, .forward)), .of (some (1, .forward))] ++
    List.replicate 2 (.of (some (0, .drop))) ++ List.replicate 10 (.of none)

theorem pktBuffer_roundTrips_threeFrames :
    BufSys.RoundTrips [lineFrame 1, lineFrame 1, lineFrame 0]
        (run BufSys.step (.reset [4, 9, 6, 7] (fun _ => PktDataShift.zeroFlit) [lineFrame 1, lineFrame 1, lineFrame 0]) threeFrames) ∧
      (run BufSys.step (.reset [4, 9, 6, 7] (fun _ => PktDataShift.zeroFlit) [lineFrame 1, lineFrame 1, lineFrame 0])
        threeFrames).returned = [9, 6, 4] :=
  ⟨pktBuffer_roundTrips _ (by decide) _ _ _ (by decide +kernel), by decide +kernel⟩

def fullSlot : BufSys :=
  run BufSys.step (.reset [4, 5] (fun _ => PktDataShift.zeroFlit) [lineFrame 31])
    (List.replicate 33 (.of none) ++ List.replicate 40 (.of (some (0, .forward))))

def lastSlot : BufSys :=
  run BufSys.step (.reset [4] (fun _ => PktDataShift.zeroFlit) [lineFrame 1]) (List.replicate 2 (.of none))

/-- The mover does not find the end of a frame of 32 flits, and a frame that takes the last slot is not finished. -/
theorem pktBuffer_fullSlot :
    (fullSlot.out.length = 35 ∧ fullSlot.returned = [] ∧ ¬ BufSys.RoundTrips [lineFrame 31] fullSlot) ∧
      lastSlot.eth = [] ∧ lastSlot.made = [] ∧ ¬ BufSys.RoundTrips [lineFrame 1] lastSlot := by
  have h1 : fullSlot.out.length = 35 ∧ (fullSlot.taken.flatMap DataMover.expected).length = 32 := by decide +kernel
  have h2 : (lastSlot.made.flatten ++ lastSlot.cur ++ lastSlot.eth).length = 1 ∧
      ([lineFrame 1].flatMap EthFrame.flits).length = 2 := by decide +kernel
  refine ⟨⟨h1.1, by decide +kernel, fun h => ?_⟩, by decide +kernel, by decide +kernel, fun h => ?_⟩
  · have := h.outputs.length_le
    omega
  · have := congrArg List.length h.input
    omega

end Pigasus
