import Mathlib.Data.List.Nodup
import Pigasus.ParaQ

/-!
# The insertion queue as a list

`para_Q` keeps its entries as a prefix of eight registers and carries out each
request one cycle after it was presented. Beside the registers we carry the
list `E` that they hold and the request `r` waiting in the input registers; an
edge turns `E` into `r.apply E`.
-/

namespace Pigasus

open Hdl

/-! ## Requests on lists -/

namespace ParaQIn

variable (r : ParaQIn)

def isInsert : Bool := r.opEn && r.opId == .fastInsert

def isDelete : Bool := r.opEn && r.opId == .fastDelete

def write (e : Fce) : Fce :=
  if r.wrenA && decide (r.addrA = e.tuple) then r.dataA
  else if r.wrenB && decide (r.addrB = e.tuple) then r.dataB
  else e

def readA (e : Fce) : Fce := if r.wrenB && decide (r.addrB = e.tuple) then r.dataB else e

def remain (E : List Fce) : List Fce :=
  if r.dequeEn then E.tail
  else if r.isDelete then E.filter fun e => !decide (r.opData.tuple = e.tuple)
  else E

def inserted : List Fce := if r.isInsert then [r.opData] else []

def apply (E : List Fce) : List Fce := (r.remain E).map r.write ++ r.inserted

end ParaQIn

/-- The queue holds at most eight valid entries, one per tuple. -/
structure QueueOk (E : List Fce) : Prop where
  len : E.length ≤ 8
  valid : ∀ e ∈ E, e.valid = true
  nodup : (E.map Fce.tuple).Nodup

structure Legal (E : List Fce) (r : ParaQIn) : Prop where
  writeA : r.wrenA = true → r.dataA.valid = true ∧ r.dataA.tuple = r.addrA ∧ r.rdenA = false
  writeB : r.wrenB = true → r.dataB.valid = true ∧ r.dataB.tuple = r.addrB
  disjoint : r.wrenA = true → (r.rdenB || r.wrenB) = true → r.addrA = r.addrB → ∀ e ∈ E, r.addrA ≠ e.tuple
  valid : r.isInsert = true → r.opData.valid = true
  fresh : r.isInsert = true → ∀ e ∈ E, r.opData.tuple ≠ e.tuple
  room : r.isInsert = true → E.length < 8 ∨ r.dequeEn = true
  deque : r.dequeEn = true → E ≠ []
  dequeDelete : r.dequeEn = true → r.isDelete = true → ∀ e ∈ E, r.opData.tuple ≠ e.tuple

/-- What the list of entries needs: a write keeps the tuple of the entry that it hits, an
insert is new and finds room, a deque finds an entry and meets no delete. -/
structure PqProtocol (E : List Fce) (r : ParaQIn) : Prop where
  writeA : r.wrenA = true → ∀ e ∈ E, r.addrA = e.tuple → r.dataA.valid = true ∧ r.dataA.tuple = e.tuple
  writeB : r.wrenB = true → ∀ e ∈ E, r.addrB = e.tuple → r.dataB.valid = true ∧ r.dataB.tuple = e.tuple
  writes : r.wrenA = true → r.wrenB = true → r.addrA = r.addrB → ∀ e ∈ E, r.addrA ≠ e.tuple
  valid : r.isInsert = true → r.opData.valid = true
  fresh : r.isInsert = true → ∀ e ∈ E, r.opData.tuple ≠ e.tuple
  room : r.isInsert = true → E.length < 8 ∨ r.dequeEn = true
  deque : r.dequeEn = true → E ≠ []
  dequeDelete : r.dequeEn = true → r.isDelete = true → ∀ e ∈ E, r.opData.tuple ≠ e.tuple

theorem Legal.protocol {E : List Fce} {r : ParaQIn} (h : Legal E r) : PqProtocol E r where
  writeA hw _ _ ha := ⟨(h.writeA hw).1, (h.writeA hw).2.1.trans ha⟩
  writeB hw _ _ hb := ⟨(h.writeB hw).1, (h.writeB hw).2.trans hb⟩
  writes hA hB := h.disjoint hA (by rw [hB, Bool.or_true])
  valid := h.valid
  fresh := h.fresh
  room := h.room
  deque := h.deque
  dequeDelete := h.dequeDelete

namespace ParaQIn

variable {r : ParaQIn} {E : List Fce}

theorem write_tuple (h : Legal E r) (e : Fce) : (r.write e).tuple = e.tuple := by
  unfold write
  split
  · next hA =>
    simp only [Bool.and_eq_true, decide_eq_true_eq] at hA
    rw [(h.writeA hA.1).2.1, hA.2]
  split
  · next hB =>
    simp only [Bool.and_eq_true, decide_eq_true_eq] at hB
    rw [(h.writeB hB.1).2, hB.2]
  · rfl

theorem write_of_mem (h : PqProtocol E r) {e : Fce} (he : e ∈ E) (hv : e.valid = true) :
    (r.write e).valid = true ∧ (r.write e).tuple = e.tuple := by
  unfold write
  split
  · next hA =>
    simp only [Bool.and_eq_true, decide_eq_true_eq] at hA
    exact h.writeA hA.1 e he hA.2
  split
  · next hB =>
    simp only [Bool.and_eq_true, decide_eq_true_eq] at hB
    exact h.writeB hB.1 e he hB.2
  · exact ⟨hv, rfl⟩

theorem readA_eq (h : Legal E r) (hr : r.rdenA = true) (e : Fce) : r.readA e = r.write e := by
  have hw : r.wrenA = false := by
    rw [← Bool.not_eq_true]
    intro hw
    simpa [hr] using (h.writeA hw).2.2
  simp [readA, write, hw]

theorem remain_sublist (E : List Fce) : (r.remain E).Sublist E := by
  unfold remain
  split
  · exact E.tail_sublist
  split
  · exact List.filter_sublist
  · exact List.Sublist.refl E

theorem mem_remain {e : Fce} (h : e ∈ r.remain E) : e ∈ E := (remain_sublist E).subset h

theorem remain_lt (h : PqProtocol E r) (hq : QueueOk E) (hi : r.isInsert = true) : (r.remain E).length < 8 := by
  have hl := (remain_sublist (r := r) E).length_le
  rcases h.room hi with hr | hr
  · omega
  · have := List.length_pos_iff.2 (h.deque hr)
    have := hq.len
    simp only [remain, hr, if_true, List.length_tail]
    omega

theorem map_write_tuple (h : PqProtocol E r) (hq : QueueOk E) :
    ((r.remain E).map r.write).map Fce.tuple = (r.remain E).map Fce.tuple := by
  simp only [List.map_map]
  exact List.map_congr_left fun e he => (write_of_mem h (mem_remain he) (hq.valid e (mem_remain he))).2

theorem apply_cons {e : Fce} (hd : r.dequeEn = false) (hn : r.isDelete = true → r.opData.tuple ≠ e.tuple) :
    ∃ q, r.apply (e :: E) = r.write e :: q := by
  unfold apply remain
  by_cases hdel : r.isDelete = true
  · simp [hd, hdel, hn hdel]
  · simp [hd, hdel]

theorem apply_ok (h : PqProtocol E r) (hq : QueueOk E) : QueueOk (r.apply E) := by
  refine ⟨?_, ?_, ?_⟩
  · have hl := (remain_sublist (r := r) E).length_le
    have := hq.len
    unfold apply inserted
    split
    · next hi => have := remain_lt h hq hi; simp; omega
    · simp; omega
  · intro e he
    simp only [apply, inserted, List.mem_append, List.mem_map] at he
    rcases he with ⟨a, ha, rfl⟩ | he
    · exact (write_of_mem h (mem_remain ha) (hq.valid a (mem_remain ha))).1
    · split at he
      · next hi => rw [List.mem_singleton.1 he]; exact h.valid hi
      · cases he
  · have hn : ((r.remain E).map Fce.tuple).Nodup := hq.nodup.sublist ((remain_sublist E).map _)
    unfold apply inserted
    rw [List.map_append, map_write_tuple h hq]
    split
    · next hi =>
      refine List.Nodup.append hn (List.nodup_singleton _) ?_
      intro t ht ht'
      obtain ⟨e, he, rfl⟩ := List.mem_map.1 ht
      exact h.fresh hi e (mem_remain he) (List.mem_singleton.1 ht').symm
    · simpa using hn

end ParaQIn

/-! ## The registers hold the list -/

def tupleAt (E : List Fce) (t : Tuple) (i : Nat) : Bool := E[i]?.any fun e => decide (t = e.tuple)

theorem tupleAt_iff {E : List Fce} {t : Tuple} {i : Nat} :
    tupleAt E t i = true ↔ ∃ e, E[i]? = some e ∧ t = e.tuple := by
  simp [tupleAt, Option.any_eq_true]

structure PqRel (s : ParaQ) (E : List Fce) (r : ParaQIn) : Prop where
  entries : ∀ i, s.entries i = E[i.val]?.getD .zero
  hitA : ∀ i, s.isHitAR i = ((r.rdenA || r.wrenA) && tupleAt E r.addrA i)
  hitB : ∀ i, s.isHitBR i = ((r.rdenB || r.wrenB) && tupleAt E r.addrB i)
  hitDelete : ∀ i, s.isHitDeleteR i = (r.isDelete && tupleAt E r.opData.tuple i)
  dataA : s.dataAR = r.dataA
  rdenA : s.rdenAR = r.rdenA
  wrenA : s.wrenAR = r.wrenA
  dataB : s.dataBR = r.dataB
  rdenB : s.rdenBR = r.rdenB
  wrenB : s.wrenBR = r.wrenB
  opEn : s.opEnR = r.opEn
  opId : s.opIdR = r.opId
  opData : s.opDataR = r.opData
  deque : s.dequeEnR = r.dequeEn

theorem getElem?_filter_tuple (t : Tuple) :
    ∀ (E : List Fce) (i : Nat), (E.map Fce.tuple).Nodup →
      (E.filter fun e => !decide (t = e.tuple))[i]? = if (E.take (i + 1)).any (fun e => decide (t = e.tuple))
        then E[i + 1]? else E[i]?
  | [], i, _ => by simp
  | e :: E, i, hn => by
    rw [List.map_cons, List.nodup_cons] at hn
    by_cases ht : t = e.tuple
    · -- no other entry has the tuple, so the filter keeps the whole tail
      have hE : E.filter (fun e => !decide (t = e.tuple)) = E := by
        refine List.filter_eq_self.2 fun a ha => ?_
        simp only [Bool.not_eq_true', decide_eq_false_iff_not]
        exact fun h => hn.1 (List.mem_map.2 ⟨a, ha, by rw [← h, ht]⟩)
      simp [← ht, hE]
    · have ih := getElem?_filter_tuple t E
      cases i with
      | zero => simp [ht]
      | succ i => simpa [ht] using ih i hn.2

section
variable {s : ParaQ} {E : List Fce} {r : ParaQIn} (h : PqRel s E r) (hl : PqProtocol E r) (hq : QueueOk E)

include h in
theorem PqRel.isInsert : s.isInsert = r.isInsert := by
  simp [ParaQ.isInsert, ParaQIn.isInsert, h.opEn, h.opId]

include h hq in
theorem PqRel.isValid (i : Fin 8) : s.isValid i = decide (i.val < E.length) := by
  unfold ParaQ.isValid
  rw [h.entries i]
  by_cases hi : i.val < E.length
  · simp [hi, hq.valid E[i.val] (List.getElem_mem hi)]
  · simp [hi, Fce.zero]

include h hq in
theorem PqRel.validCount : s.validCount? = some E.length := by
  have hlen := hq.len
  unfold ParaQ.validCount?
  rw [List.find?_range_eq_some]
  refine ⟨?_, by simp; omega, fun j hj => ?_⟩
  · simp [h.isValid hq]
  · simp only [h.isValid hq, Bool.not_eq_true', List.all_eq_false, List.mem_finRange, true_and, beq_iff_eq,
      decide_eq_decide]
    exact ⟨⟨j, by omega⟩, by simp [hj]⟩

include h hq in
theorem PqRel.firstEmpty (i : Fin 8) : s.firstEmpty i = decide (E.length = i.val) := by
  rw [ParaQ.firstEmpty, h.validCount hq, Bool.eq_iff_iff]
  simp

include h hq in
theorem PqRel.shiftVec (i : Fin 8) :
    s.shiftVec i = (r.dequeEn || (r.isDelete && (E.take (i.val + 1)).any fun e => decide (r.opData.tuple = e.tuple))) := by
  have hlen := hq.len
  rw [Bool.eq_iff_iff]
  simp only [ParaQ.shiftVec, h.deque, Bool.or_eq_true, List.any_eq_true, List.mem_finRange, true_and, Bool.and_eq_true,
    decide_eq_true_eq, h.hitDelete, tupleAt_iff]
  refine or_congr_right ⟨?_, ?_⟩
  · rintro ⟨j, hj, hd, e, he, ht⟩
    have hji : j.val < i.val + 1 := by omega
    exact ⟨hd, e, List.mem_of_getElem? (by rw [List.getElem?_take_of_lt hji, he]), ht⟩
  · rintro ⟨hd, e, he, ht⟩
    obtain ⟨j, hj⟩ := List.mem_iff_getElem?.1 he
    have hji : j < i.val + 1 := by
      have := (List.getElem?_eq_some_iff.1 hj).1
      simp only [List.length_take] at this
      omega
    rw [List.getElem?_take_of_lt hji] at hj
    have := (List.getElem?_eq_some_iff.1 hj).1
    exact ⟨⟨j, by omega⟩, Fin.le_def.2 (by simp; omega), hd, e, hj, ht⟩

include h hq in
theorem PqRel.getElem?_remain (i : Fin 8) :
    (r.remain E)[i.val]? = if s.shiftVec i then E[i.val + 1]? else E[i.val]? := by
  rw [h.shiftVec hq]
  unfold ParaQIn.remain
  by_cases hd : r.dequeEn = true
  · simp [hd]
  · by_cases he : r.isDelete = true
    · simp only [hd, he, if_true, Bool.false_or, Bool.true_and, getElem?_filter_tuple _ E i hq.nodup, Bool.false_eq_true, if_false]
    · simp [hd, he]

include h hq in
theorem PqRel.remain_eq (i : Fin 8) (hi : E.length ≤ i.val + 1) (hs : s.shiftVec i = false) : r.remain E = E := by
  rw [h.shiftVec hq, List.take_of_length_le hi] at hs
  simp only [Bool.or_eq_false_iff, Bool.and_eq_false_iff, List.any_eq_false, decide_eq_true_eq] at hs
  unfold ParaQIn.remain
  rcases hs with ⟨hd, hs | hs⟩
  · simp [hd, hs]
  · simpa [hd] using fun _ => hs

include h hl hq in
theorem PqRel.remain_length (i : Fin 8) (hs : s.shiftVec i = true) : (r.remain E).length + 1 = E.length := by
  rw [h.shiftVec hq] at hs
  unfold ParaQIn.remain
  by_cases hd : r.dequeEn = true
  · have := List.length_pos_iff.2 (hl.deque hd)
    simp only [hd, if_true, List.length_tail]
    omega
  · simp only [hd, Bool.false_or, Bool.and_eq_true, List.any_eq_true, decide_eq_true_eq] at hs
    obtain ⟨hdel, e, he, ht⟩ := hs
    have hc : (E.map Fce.tuple).count r.opData.tuple = 1 :=
      List.count_eq_one_of_mem hq.nodup (List.mem_map.2 ⟨e, List.mem_of_mem_take he, ht.symm⟩)
    have hsum := List.length_eq_countP_add_countP (fun e => decide (r.opData.tuple = e.tuple)) (l := E)
    rw [List.count, List.countP_map] at hc
    have hc' : List.countP (fun e => decide (r.opData.tuple = e.tuple)) E = 1 := by
      rw [← hc]
      refine List.countP_congr fun e _ => ?_
      simp only [Function.comp_apply, beq_iff_eq, decide_eq_true_eq]
      exact eq_comm
    simp only [hd, hdel, if_true, Bool.false_eq_true, if_false, ← List.countP_eq_length_filter]
    simp only [decide_not, Bool.decide_eq_true] at hsum
    omega

include h hl hq in
theorem PqRel.stage (i : Fin 8) : s.stage i = (r.remain E ++ r.inserted)[i.val]?.getD .zero := by
  have hlen := hq.len
  have hrem := h.getElem?_remain hq i
  unfold ParaQ.stage
  rw [h.isInsert, h.opData, List.getElem?_append]
  by_cases hs : s.shiftVec i = true
  · have hl' := h.remain_length hl hq i hs
    simp only [hs, Bool.not_true, Bool.false_eq_true, if_false, if_true] at hrem ⊢
    by_cases h7 : i.val < 7
    · simp only [h7, dif_pos, h.firstEmpty hq, h.entries]
      by_cases hi : i.val < (r.remain E).length
      · have : ¬ E.length = i.val + 1 := by omega
        rw [if_pos hi, hrem]
        simp [this]
      · have hE : E[i.val + 1]? = none := by simp; omega
        by_cases he : E.length = i.val + 1
        · have : i.val - (r.remain E).length = 0 := by omega
          by_cases hins : r.isInsert = true <;> simp [hi, he, ParaQIn.inserted, hins, this]
        · have : i.val - (r.remain E).length ≠ 0 := by omega
          by_cases hins : r.isInsert = true <;> simp [hi, he, ParaQIn.inserted, hins, this, hE]
    · have hi : ¬ i.val < (r.remain E).length := by omega
      have hz : isZero (List.finRange 8) s.firstEmpty = decide (E.length = 8) := by
        rw [Bool.eq_iff_iff, isZero_iff]
        simp only [List.mem_finRange, forall_const, h.firstEmpty hq, decide_eq_false_iff_not, decide_eq_true_eq]
        exact ⟨fun hf => by by_contra hne; exact hf ⟨E.length, by omega⟩ rfl, fun he j => by omega⟩
      simp only [h7, dif_neg, not_false_iff, hz, hi, if_false]
      by_cases he : E.length = 8
      · have : i.val - (r.remain E).length = 0 := by omega
        by_cases hins : r.isInsert = true <;> simp [he, ParaQIn.inserted, hins, this]
      · have : i.val - (r.remain E).length ≠ 0 := by omega
        by_cases hins : r.isInsert = true <;> simp [he, ParaQIn.inserted, hins, this]
  · rw [Bool.not_eq_true] at hs
    simp only [hs, Bool.not_false, if_true, Bool.false_eq_true, if_false, h.firstEmpty hq, h.entries] at hrem ⊢
    by_cases hi : i.val < E.length
    · have hlt : i.val < (r.remain E).length := by
        have : (r.remain E)[i.val]? ≠ none := by rw [hrem]; simp [hi]
        simpa using this
      have : ¬ E.length = i.val := by omega
      rw [if_pos hlt, hrem]
      simp [this]
    · rw [h.remain_eq hq i (by omega) hs]
      have hE : E[i.val]? = none := by simp; omega
      by_cases he : E.length = i.val
      · by_cases hins : r.isInsert = true <;> simp [he, ParaQIn.inserted, hins]
      · have : i.val - E.length ≠ 0 := by omega
        by_cases hins : r.isInsert = true <;> simp [hi, he, ParaQIn.inserted, hins, this]

include h in
theorem PqRel.portWrite_some (j : Fin 8) {e : Fce} (he : E[j.val]? = some e) :
    (s.portWrite j).getD e = r.write e := by
  unfold ParaQ.portWrite ParaQIn.write
  rw [h.hitA, h.hitB, h.wrenA, h.wrenB, h.dataA, h.dataB]
  simp only [tupleAt, he, Option.any_some]
  by_cases hA : r.wrenA = true <;> by_cases hB : r.wrenB = true <;> simp [hA, hB] <;> split <;> try split
  all_goals simp_all

include h in
theorem PqRel.portWrite_none (j : Fin 8) (he : E[j.val]? = none) : s.portWrite j = none := by
  unfold ParaQ.portWrite
  rw [h.hitA, h.hitB]
  simp [tupleAt, he]

theorem getElem?_apply (i : Nat) :
    (r.apply E)[i]? = ((r.remain E)[i]?.map r.write).or (r.remain E ++ r.inserted)[i]? := by
  unfold ParaQIn.apply
  rw [List.getElem?_append, List.getElem?_append]
  by_cases hi : i < (r.remain E).length <;> simp [hi]

include h hl hq in
theorem PqRel.nextEntry (i : Fin 8) : s.nextEntry i = (r.apply E)[i.val]?.getD .zero := by
  have hrem := h.getElem?_remain hq i
  have hlen := hq.len
  unfold ParaQ.nextEntry
  rw [h.stage hl hq, getElem?_apply, hrem, List.getElem?_append]
  by_cases hs : s.shiftVec i = true
  · simp only [hs, Bool.not_true, Bool.false_eq_true, if_false, if_true] at hrem ⊢
    by_cases h7 : i.val < 7
    · simp only [h7, dif_pos]
      cases he : E[i.val + 1]? with
      | none => simp [h.portWrite_none ⟨i.val + 1, by omega⟩ he]
      | some e =>
        have hi : i.val < (r.remain E).length := (List.getElem?_eq_some_iff.1 (hrem.trans he)).1
        rw [if_pos hi, hrem, he]
        exact h.portWrite_some ⟨i.val + 1, by omega⟩ he
    · have he : E[i.val + 1]? = none := by simp; omega
      simp [h7, he]
  · rw [Bool.not_eq_true] at hs
    simp only [hs, Bool.not_false, if_true, Bool.false_eq_true, if_false] at hrem ⊢
    cases he : E[i.val]? with
    | none => simp [h.portWrite_none i he]
    | some e =>
      have hi : i.val < (r.remain E).length := (List.getElem?_eq_some_iff.1 (hrem.trans he)).1
      rw [if_pos hi, hrem, he]
      exact h.portWrite_some i he

include h hl hq in
theorem PqRel.stage_zero {e : Fce} {q : List Fce} (ha : r.apply E = e :: q) :
    (s.stage 0).valid = true ∧ (s.stage 0).tuple = e.tuple := by
  rw [h.stage hl hq]
  unfold ParaQIn.apply at ha
  cases hr : r.remain E with
  | cons a l =>
    rw [hr] at ha
    simp only [List.map_cons, List.cons_append, List.cons.injEq] at ha
    have hv := hq.valid a (ParaQIn.mem_remain (hr ▸ List.mem_cons_self))
    simp [hv, ← ha.1, (ParaQIn.write_of_mem hl (ParaQIn.mem_remain (hr ▸ List.mem_cons_self)) hv).2]
  | nil =>
    rw [hr] at ha
    unfold ParaQIn.inserted at ha ⊢
    split at ha
    · next hi =>
      simp only [List.map_nil, List.nil_append, List.cons.injEq] at ha
      simp [hi, hl.valid hi, ← ha.1]
    · simp at ha

include h hl hq in
theorem PqRel.apply_of_stage_zero (hv : (s.stage 0).valid = true) :
    ∃ e q, r.apply E = e :: q ∧ e.tuple = (s.stage 0).tuple := by
  cases ha : r.apply E with
  | cons e q => exact ⟨e, q, rfl, (h.stage_zero hl hq ha).2.symm⟩
  | nil =>
    rw [h.stage hl hq] at hv
    simp only [ParaQIn.apply, List.append_eq_nil_iff, List.map_eq_nil_iff] at ha
    simp [ha.1, ha.2, Fce.zero] at hv

include h hl hq in
theorem PqRel.hit (en : Bool) (t : Tuple) (i : Fin 8) : s.hit en t i = (en && tupleAt (r.apply E) t i) := by
  unfold ParaQ.hit tupleAt
  rw [h.stage hl hq, getElem?_apply]
  cases hr : (r.remain E)[i.val]? with
  | some e =>
    have hi : i.val < (r.remain E).length := (List.getElem?_eq_some_iff.1 hr).1
    have hv := hq.valid e (ParaQIn.mem_remain (List.mem_of_getElem? hr))
    have ht := (ParaQIn.write_of_mem hl (ParaQIn.mem_remain (List.mem_of_getElem? hr)) hv).2
    rw [List.getElem?_append, if_pos hi, hr]
    simp [hv, ht]
  | none =>
    cases hx : (r.remain E ++ r.inserted)[i.val]? with
    | none => simp [Fce.zero]
    | some e =>
      have hv : e.valid = true := by
        rcases List.mem_append.1 (List.mem_of_getElem? hx) with he | he
        · exact hq.valid e (ParaQIn.mem_remain he)
        · unfold ParaQIn.inserted at he
          split at he
          · next hins => rw [List.mem_singleton.1 he]; exact hl.valid hins
          · cases he
      simp [hv]

include h hl hq in
theorem PqRel.step (i : ParaQIn) : PqRel (s.step i) (r.apply E) i where
  entries k := by simp [ParaQ.step, h.nextEntry hl hq]
  hitA k := by simp [ParaQ.step, h.hit hl hq]
  hitB k := by simp [ParaQ.step, h.hit hl hq]
  hitDelete k := by simp [ParaQ.step, h.hit hl hq, ParaQIn.isDelete]
  dataA := rfl
  rdenA := rfl
  wrenA := rfl
  dataB := rfl
  rdenB := rfl
  wrenB := rfl
  opEn := rfl
  opId := rfl
  opData := rfl
  deque := rfl

/-! ## Hit vectors -/

def IsHits (E : List Fce) (en : Bool) (t : Tuple) (v : Fin 8 → Bool) : Prop := ∀ i, v i = (en && tupleAt E t i)

include hq in
theorem IsHits.isZero {en : Bool} {t : Tuple} {v : Fin 8 → Bool} (hv : IsHits E en t v) :
    Hdl.isZero (List.finRange 8) v = !(en && E.any fun e => decide (t = e.tuple)) := by
  have hlen := hq.len
  rw [Bool.eq_iff_iff, isZero_iff]
  simp only [List.mem_finRange, forall_const, hv _, Bool.not_eq_true', Bool.and_eq_false_iff, List.any_eq_false,
    decide_eq_true_eq]
  cases en with
  | false => simp
  | true =>
    simp only [Bool.true_eq_false, false_or]
    refine ⟨fun hz e he ht => ?_, fun hn i => ?_⟩
    · obtain ⟨j, hj⟩ := List.mem_iff_getElem?.1 he
      have := (List.getElem?_eq_some_iff.1 hj).1
      have hz := hz ⟨j, by omega⟩
      rw [← Bool.not_eq_true] at hz
      exact hz (tupleAt_iff.2 ⟨e, hj, ht⟩)
    · rw [← Bool.not_eq_true, tupleAt_iff]
      rintro ⟨e, he, ht⟩
      exact hn e (List.mem_of_getElem? he) ht

theorem tupleAt_unique (hq : QueueOk E) {t : Tuple} {i j : Nat} (hi : tupleAt E t i = true) (hj : tupleAt E t j = true) :
    i = j := by
  obtain ⟨a, ha, hta⟩ := tupleAt_iff.1 hi
  obtain ⟨b, hb, htb⟩ := tupleAt_iff.1 hj
  refine (List.getElem?_inj (l := E.map Fce.tuple) ?_ hq.nodup).1 ?_
  · simpa using (List.getElem?_eq_some_iff.1 ha).1
  · simp [ha, hb, ← hta, ← htb]

include hq in
theorem IsHits.oneHot {t : Tuple} {v : Fin 8 → Bool} (hv : IsHits E true t v) {e : Fce} (he : e ∈ E) (ht : t = e.tuple) :
    ∃ j : Fin 8, E[j.val]? = some e ∧ v j = true ∧ oneHot? (List.finRange 8) v = some j := by
  have hlen := hq.len
  obtain ⟨j, hj⟩ := List.mem_iff_getElem?.1 he
  have hjl := (List.getElem?_eq_some_iff.1 hj).1
  have ha : tupleAt E t j = true := tupleAt_iff.2 ⟨e, hj, ht⟩
  refine ⟨⟨j, by omega⟩, hj, by rw [hv]; simpa using ha, oneHot?_of_unique (List.nodup_finRange 8) (by simp) ?_⟩
  intro i _
  simp only [hv i, Bool.true_and]
  refine ⟨fun hi => Fin.ext (tupleAt_unique hq hi ha), ?_⟩
  rintro rfl
  exact ha

include hq in
theorem IsHits.duplicate {en : Bool} {t : Tuple} {v : Fin 8 → Bool} (hv : IsHits E en t v) :
    ParaQ.duplicate v = false := by
  unfold ParaQ.duplicate
  rw [hv.isZero hq, Bool.not_not]
  by_cases hd : (en && E.any fun e => decide (t = e.tuple)) = true
  · simp only [Bool.and_eq_true, List.any_eq_true, decide_eq_true_eq] at hd
    obtain ⟨rfl, e, he, ht⟩ := hd
    obtain ⟨j, _, _, hj⟩ := hv.oneHot hq he ht
    simp [hj]
  · simp [hd]

theorem sameHits_iff {u v : Fin 8 → Bool} : ParaQ.sameHits u v = true ↔ u = v := by
  simp only [ParaQ.sameHits, List.all_eq_true, List.mem_finRange, forall_const, beq_iff_eq]
  exact funext_iff.symm

/-! ## Reads -/

include h hq in
theorem PqRel.readQ {t : Tuple} {v : Fin 8 → Bool} (hv : IsHits E true t v) {e : Fce} (he : e ∈ E) (ht : t = e.tuple)
    (q : Fce) : s.readQ v q = e := by
  obtain ⟨j, hj, hvj, ho⟩ := hv.oneHot hq he ht
  have hz : Hdl.isZero (List.finRange 8) v = false := by
    rw [hv.isZero hq]
    simpa using ⟨e, he, ht⟩
  unfold ParaQ.readQ
  rw [hz, ho]
  simp [h.entries, hj]

include h hq in
theorem PqRel.rdHitA (i : ParaQIn) :
    (s.step i).rdHitA = (r.rdenA && E.any fun e => decide (r.addrA = e.tuple)) := by
  have hv : IsHits E (r.rdenA || r.wrenA) r.addrA s.isHitAR := h.hitA
  simp only [ParaQ.step, hv.isZero hq, h.rdenA, Bool.not_not]
  cases r.rdenA <;> simp

include h hq in
theorem PqRel.rdHitB (i : ParaQIn) :
    (s.step i).rdHitB = (r.rdenB && E.any fun e => decide (r.addrB = e.tuple)) := by
  have hv : IsHits E (r.rdenB || r.wrenB) r.addrB s.isHitBR := h.hitB
  simp only [ParaQ.step, hv.isZero hq, h.rdenB, Bool.not_not]
  cases r.rdenB <;> simp

include h hq in
theorem PqRel.qA (i : ParaQIn) (hr : r.rdenA = true) {e : Fce} (he : e ∈ E) (ht : r.addrA = e.tuple) :
    (s.step i).qA = r.readA e := by
  have hA : IsHits E true r.addrA s.isHitAR := fun j => by rw [h.hitA, hr, Bool.true_or]
  obtain ⟨j, hj, hvj, _⟩ := hA.oneHot hq he ht
  -- port B writes what port A reads when the hit vectors agree
  have hc : (s.wrenBR && ParaQ.sameHits s.isHitAR s.isHitBR) = (r.wrenB && decide (r.addrB = e.tuple)) := by
    rw [Bool.eq_iff_iff]
    simp only [Bool.and_eq_true, decide_eq_true_eq, sameHits_iff, h.wrenB]
    refine and_congr_right fun hB => ⟨fun heq => ?_, fun htB => ?_⟩
    · have hvB := h.hitB j
      rw [← heq, hvj, hB] at hvB
      simpa [tupleAt, hj] using hvB
    · funext k
      rw [h.hitA, h.hitB, hr, hB, ht, htB]
      simp
  simp only [ParaQ.step, ParaQIn.readA, h.readQ hq hA he ht, h.dataB, h.rdenA, hr, Bool.true_and, hc]

include h hq in
theorem PqRel.qB (i : ParaQIn) (hr : r.rdenB = true) {e : Fce} (he : e ∈ E) (ht : r.addrB = e.tuple) :
    (s.step i).qB = e :=
  h.readQ hq (fun j => by rw [h.hitB, hr, Bool.true_or]) he ht s.qB

include h in
theorem PqRel.dequeData_of_deque (i : ParaQIn) {e : Fce} {E' : List Fce} (hE : E = e :: E') (hd : r.dequeEn = true) :
    (s.step i).dequeData = r.write e := by
  have h0 : E[(0 : Fin 8).val]? = some e := by simp [hE]
  simp only [ParaQ.step, ParaQ.isDeque, h.deque, hd, if_true, h.entries, h0, Option.getD_some]
  exact h.portWrite_some 0 h0

include h in
theorem PqRel.dequeData (i : ParaQIn) (hd : r.dequeEn = false) : (s.step i).dequeData = E.headD .zero := by
  simp only [ParaQ.step, ParaQ.isDeque, h.deque, hd, Bool.false_eq_true, if_false, h.entries]
  cases E <;> rfl

include h hq in
theorem PqRel.full : s.full = decide (E.length = 8) := by
  have hlen := hq.len
  rw [Bool.eq_iff_iff]
  simp only [ParaQ.full, List.all_eq_true, List.mem_finRange, forall_const, h.isValid hq, decide_eq_true_eq]
  exact ⟨fun hf => by have := hf 7; simp at this; omega, fun he i => by omega⟩

include h hq in
theorem PqRel.empty : s.empty = E.isEmpty := by
  rw [Bool.eq_iff_iff]
  simp only [ParaQ.empty, isZero_iff, List.mem_finRange, forall_const, h.isValid hq, decide_eq_false_iff_not,
    List.isEmpty_iff]
  refine ⟨fun hz => ?_, fun he i => by simp [he]⟩
  have := hz 0
  simpa using this

/-! ## Errors -/

variable (hl' : Legal E r)

include h hl hq in
theorem PqRel.no_insertFull : (s.isInsert && s.full && !s.shiftVec 7) = false := by
  rw [h.isInsert, h.full hq, h.shiftVec hq, ← Bool.not_eq_true]
  simp only [Bool.and_eq_true, decide_eq_true_eq, Bool.not_eq_true', Bool.or_eq_false_iff]
  rintro ⟨⟨hi, hf⟩, hd, _⟩
  rcases hl.room hi with hr | hr
  · omega
  · simp [hd] at hr

include h hl' hq in
theorem PqRel.no_collide :
    (!isZero (List.finRange 8) s.isHitAR && ParaQ.sameHits s.isHitAR s.isHitBR && s.wrenAR) = false := by
  have hA : IsHits E (r.rdenA || r.wrenA) r.addrA s.isHitAR := h.hitA
  rw [hA.isZero hq, h.wrenA, ← Bool.not_eq_true]
  simp only [Bool.not_not, Bool.and_eq_true, List.any_eq_true, decide_eq_true_eq, sameHits_iff]
  rintro ⟨⟨⟨_, e, he, ht⟩, heq⟩, hw⟩
  have hA' : IsHits E true r.addrA s.isHitAR := fun j => by rw [h.hitA, hw, Bool.or_true]
  obtain ⟨j, hj, hvj, _⟩ := hA'.oneHot hq he ht
  have hvB := h.hitB j
  rw [← heq, hvj] at hvB
  simp only [tupleAt, hj, Option.any_some, Bool.true_eq, Bool.and_eq_true, decide_eq_true_eq] at hvB
  exact hl'.disjoint hw hvB.1 (ht.trans hvB.2.symm) e he ht

include h hl hq in
theorem PqRel.no_dequeDelete : (s.isDeque && s.isDelete) = false := by
  have hD : IsHits E r.isDelete r.opData.tuple s.isHitDeleteR := h.hitDelete
  rw [ParaQ.isDeque, ParaQ.isDelete, hD.isZero hq, h.deque, ← Bool.not_eq_true]
  simp only [Bool.not_not, Bool.and_eq_true, List.any_eq_true, decide_eq_true_eq]
  rintro ⟨hd, hdel, e, he, ht⟩
  exact hl.dequeDelete hd hdel e he ht

include h hl' hq in
theorem PqRel.not_fatal (i : ParaQIn) (hf : s.isErrorFatal = false) : (s.step i).isErrorFatal = false := by
  have hA : IsHits E (r.rdenA || r.wrenA) r.addrA s.isHitAR := h.hitA
  have hB : IsHits E (r.rdenB || r.wrenB) r.addrB s.isHitBR := h.hitB
  have hc : s.queueCorrupted = false := by simp [ParaQ.queueCorrupted, h.validCount hq]
  have hm : ∀ c : BitVec 8, c &&& ParaQ.errorFatalMask = 0 → (s.error ||| c) &&& ParaQ.errorFatalMask = 0 := by
    intro c h0
    have := hf
    simp only [ParaQ.isErrorFatal, bne_eq_false_iff_eq] at this
    rw [BitVec.and_comm, BitVec.and_or_distrib_left, BitVec.and_comm _ s.error, BitVec.and_comm _ c, this, h0]
    rfl
  simp only [ParaQ.isErrorFatal, ParaQ.step, ParaQ.nextError, hA.duplicate hq, hB.duplicate hq, hc,
    h.no_insertFull hl'.protocol hq, h.no_collide hq hl', h.no_dequeDelete hl'.protocol hq, Bool.or_self, Bool.false_eq_true, if_false,
    bne_eq_false_iff_eq]
  split
  · exact hm _ (by decide)
  split
  · exact hm _ (by decide)
  split
  · exact hm _ (by decide)
  · simpa [ParaQ.isErrorFatal] using hf

end

/-- No request. -/
def ParaQIn.idle : ParaQIn where
  addrA := zeroTuple
  dataA := .zero
  rdenA := false
  wrenA := false
  addrB := zeroTuple
  dataB := .zero
  rdenB := false
  wrenB := false
  opEn := false
  opId := .fastInsert
  opData := .zero
  dequeEn := false

theorem QueueOk.nil : QueueOk [] := ⟨by simp, by simp, by simp⟩

theorem Legal.idle (E : List Fce) : Legal E .idle := by
  constructor <;> simp [ParaQIn.idle, ParaQIn.isInsert, ParaQIn.isDelete]

theorem PqRel.reset : PqRel .reset [] .idle := by
  constructor <;> simp [ParaQ.reset, ParaQIn.idle, ParaQIn.isDelete]

/-! ## A searchable queue -/

/-- The queue after the requests `is`, each carried out in one step. -/
def queueAfter (is : List ParaQIn) : List Fce := run (fun E r => r.apply E) [] is

/-- The registers two cycles after the request `r` was presented to the queue `E`. -/
structure Served (E : List Fce) (r : ParaQIn) (s : ParaQ) : Prop where
  entries : ∀ j, s.entries j = (r.apply E)[j.val]?.getD .zero
  rdValidA : s.rdValidA = r.rdenA
  rdHitA : s.rdHitA = (r.rdenA && E.any fun e => decide (r.addrA = e.tuple))
  qA : r.rdenA = true → ∀ e ∈ E, r.addrA = e.tuple → s.qA = r.readA e
  rdValidB : s.rdValidB = r.rdenB
  rdHitB : s.rdHitB = (r.rdenB && E.any fun e => decide (r.addrB = e.tuple))
  qB : r.rdenB = true → ∀ e ∈ E, r.addrB = e.tuple → s.qB = e
  dequeDone : s.dequeDone = r.dequeEn
  dequeData : r.dequeEn = true → ∀ e ∈ E.head?, s.dequeData = r.write e

theorem PqRel.served {s : ParaQ} {E : List Fce} {r : ParaQIn} (h : PqRel s E r) (hl : PqProtocol E r) (hq : QueueOk E)
    (x : ParaQIn) : Served E r (s.step x) where
  entries := (h.step hl hq x).entries
  rdValidA := h.rdenA
  rdHitA := h.rdHitA hq x
  qA hr _ he ht := h.qA hq x hr he ht
  rdValidB := h.rdenB
  rdHitB := h.rdHitB hq x
  qB hr _ he ht := h.qB hq x hr he ht
  dequeDone := h.deque
  dequeData hd e he := by
    cases E with
    | nil => cases he
    | cons a E =>
      obtain rfl : a = e := by simpa using he
      exact h.dequeData_of_deque x rfl hd

theorem pqRel_run {E : List Fce} {s : ParaQ} {q : ParaQIn} (h : PqRel s E q) (hl : PqProtocol E q) (hq : QueueOk E)
    (is : List ParaQIn) (r : ParaQIn) (hp : AllSteps (fun E r => r.apply E) PqProtocol (q.apply E) (is ++ [r])) :
    PqRel (run ParaQ.step s (is ++ [r])) (run (fun E r => r.apply E) (q.apply E) is) r ∧
      QueueOk (run (fun E r => r.apply E) (q.apply E) is) ∧
      PqProtocol (run (fun E r => r.apply E) (q.apply E) is) r := by
  induction is generalizing s E q with
  | nil => exact ⟨h.step hl hq r, ParaQIn.apply_ok hl hq, hp.1⟩
  | cons i is ih => exact ih (h.step hl hq i) hp.1 (ParaQIn.apply_ok hl hq) hp.2

/-- `para_Q` is a queue of at most eight valid entries, and serves each request on the
queue that the requests before it have left. -/
theorem paraQ_queue (is : List ParaQIn) (r x : ParaQIn)
    (hp : AllSteps (fun E r => r.apply E) PqProtocol [] (is ++ [r])) :
    QueueOk (queueAfter is) ∧
      (∀ j, (run ParaQ.step .reset (is ++ [r])).entries j = (queueAfter is)[j.val]?.getD .zero) ∧
      Served (queueAfter is) r ((run ParaQ.step .reset (is ++ [r])).step x) := by
  obtain ⟨h, hq, hl⟩ := pqRel_run .reset (Legal.idle []).protocol .nil is r hp
  exact ⟨hq, h.entries, h.served hl hq x⟩

def pqInsert (e : Fce) : ParaQIn := { ParaQIn.idle with opEn := true, opData := e }

def pqReadWrite (e : Fce) : ParaQIn :=
  { ParaQIn.idle with rdenA := true, addrA := e.tuple, wrenB := true, addrB := e.tuple, dataB := e }

def pqDeque : ParaQIn := { ParaQIn.idle with dequeEn := true }

theorem paraQ_queue_one :
    let e : Fce := { Fce.zero with valid := true }
    let is := [pqInsert e, pqReadWrite e]
    queueAfter is = [e] ∧ Served (queueAfter is) pqDeque ((run ParaQ.step .reset (is ++ [pqDeque])).step .idle) := by
  refine ⟨by decide, (paraQ_queue _ _ _ ?_).2.2⟩
  refine ⟨?_, ?_, ?_, trivial⟩ <;> constructor <;> decide

end Pigasus
