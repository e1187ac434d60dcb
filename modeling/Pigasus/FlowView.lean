import Pigasus.HashStore
import Pigasus.ParaQSound
import Pigasus.FastPathCtl

/-!
# The flow table as a hashed store

The registers of the flow table and of its queue, read as one store: a write
that port B has pending counts as done, and so does a request that waits in the
input registers of the queue. On this view a fast operation and a move of port
B act at one edge each.
-/

namespace Pigasus

open Hdl HashStore

abbrev FlowStore := Store (Fin 4) FtAddr Fce

abbrev FlowMap := Located Tuple (Fin 4) Fce

def Loc.place : Loc → Place (Fin 4)
  | .ft k => .way k
  | .q => .queue

def occ (e : Fce) : Option Fce := if e.valid then some e else none

theorem occ_eq_some {d e : Fce} : occ d = some e ↔ d.valid = true ∧ d = e := by
  simp [occ]

theorem occ_of_valid {d : Fce} (h : d.valid = true) : occ d = some d := occ_eq_some.2 ⟨h, rfl⟩

theorem occ_eq_none {d : Fce} : occ d = none ↔ d.valid = false := by
  simp [occ]

namespace FlowTable

variable (s : FlowTable)

/-- The words of sub-table `k`, with the pending write of port B. -/
def words (k : Fin 4) : FtAddr → Fce := wr (s.pb.ft k).wrenB (s.pb.ft k).addrB (s.pb.ft k).dataB (s.ram k).mem

def pendB (e : Fce) : Fce := if s.pb.qWrenB && decide (s.pb.qAddrB = e.tuple) then s.pb.qDataB else e

def evicted : List Fce := if s.pb.evict then [s.pb.evictData] else []

/-- The flow table as a store, when its queue holds `E` with the request `r` waiting. -/
def view (E : List Fce) (r : ParaQIn) : FlowStore where
  tab k a := occ (s.words k a)
  queue := (r.apply E).map s.pendB ++ s.evicted
  transit :=
    if r.dequeEn then E.head?.map r.write
    else if s.pq.dequeDone then some s.pq.dequeData
    else none

end FlowTable

/-! ## A fast operation on the view -/

def fastStore (s : FlowTable) (i : FtIn) (S : FlowStore) : FlowStore where
  tab k a := if FlowTable.wrenA i (.ft k) = true ∧ a = i.ch1Data.addr k then occ i.ch1Data else S.tab k a
  queue :=
    if FlowTable.wrenA i .q then S.queue.map fun e => if e.tuple = i.ch1Data.tuple then i.ch1Data else e
    else if FlowTable.delete i then S.queue.filter fun e => !decide (i.ch1Data.tuple = e.tuple)
    else if FlowTable.insert i && !s.pq.full then S.queue ++ [i.ch1Data]
    else S.queue
  transit := S.transit

section
variable {s : FlowTable} {i : FtIn} {E : List Fce} {r : ParaQIn}

theorem addrA_of_wrenA {l : Loc} (h : FlowTable.wrenA i l = true) : i.ch1Wren = true := by
  cases l <;> simp [FlowTable.wrenA, FlowTable.update] at h
  · exact h.1.1
  · exact h.1.1

theorem words_step (k : Fin 4)
    (hd : FlowTable.wrenA i (.ft k) = true → (s.pb.ft k).wrenB = true → (s.pb.ft k).addrB ≠ i.ch1Data.addr k) (a : FtAddr) :
    occ ((s.ramStep i k).mem a) = (fastStore s i (s.view E r)).tab k a := by
  simp only [FlowTable.ramStep, fastStore, FlowTable.view, FlowTable.words, wr_apply]
  by_cases hA : FlowTable.wrenA i (.ft k) = true
  · simp only [FlowTable.addrA, addrA_of_wrenA hA, hA, if_true, true_and]
    by_cases hB : (s.pb.ft k).wrenB = true ∧ a = (s.pb.ft k).addrB
    · have := hd hA hB.1
      rw [if_pos hB, if_neg (hB.2 ▸ this), if_pos hB]
    · simp only [hB, if_false]
      split <;> rfl
  · simp [hA]

variable (s i)

theorem apply_pqIn_evict (he : s.pb.evict = true) (hw : i.ch1Wren = false) (hB : s.pb.qWrenB = false)
    (hd : s.pb.qDequeEn = false) (E' : List Fce) :
    (s.pqIn i).apply E' = E' ++ [s.pb.evictData] := by
  have h1 : (s.pqIn i).write = id := by
    funext e
    simp [ParaQIn.write, FlowTable.pqIn, FlowTable.wrenA, hw, hB]
  have h2 : (s.pqIn i).isInsert = true := by simp [ParaQIn.isInsert, FlowTable.pqIn, FlowTable.qOpEn, FlowTable.qOpId, he]
  have h3 : (s.pqIn i).isDelete = false := by simp [ParaQIn.isDelete, FlowTable.pqIn, FlowTable.qOpId, he]
  simp only [ParaQIn.apply, ParaQIn.remain, ParaQIn.inserted, h1, h2, h3, List.map_id, if_true, Bool.false_eq_true, if_false]
  simp [FlowTable.pqIn, hd, FlowTable.qOpData, he]

variable {s i}

theorem pendB_id (hB : s.pb.qWrenB = false) : s.pendB = id := by
  funext e
  simp [FlowTable.pendB, hB]

theorem pendB_tuple (hB : s.pb.qWrenB = true → s.pb.qDataB.tuple = s.pb.qAddrB) (e : Fce) :
    (s.pendB e).tuple = e.tuple := by
  unfold FlowTable.pendB
  split
  · next h =>
    simp only [Bool.and_eq_true, decide_eq_true_eq] at h
    rw [hB h.1, h.2]
  · rfl

theorem write_pqIn (e : Fce) :
    (s.pqIn i).write e = if FlowTable.wrenA i .q = true ∧ i.ch1Data.tuple = e.tuple then i.ch1Data else s.pendB e := by
  simp only [ParaQIn.write, FlowTable.pqIn, FlowTable.pendB]
  by_cases hA : FlowTable.wrenA i .q = true <;> by_cases hB : s.pb.qAddrB = e.tuple
  · simp [hA, hB, FlowTable.qAddrA, addrA_of_wrenA hA]
  · simp [hA, hB, FlowTable.qAddrA, addrA_of_wrenA hA]
  · simp [hA, hB]
  · simp [hA, hB]

theorem map_pendB_write (hB : s.pb.qWrenB = true → s.pb.qDataB.tuple = s.pb.qAddrB) (hw : FlowTable.wrenA i .q = true)
    (E' : List Fce) :
    (E'.map s.pendB).map (fun e => if e.tuple = i.ch1Data.tuple then i.ch1Data else e) = E'.map (s.pqIn i).write := by
  rw [List.map_map]
  refine List.map_congr_left fun e _ => ?_
  simp only [Function.comp_apply, pendB_tuple hB, write_pqIn, hw, true_and]
  exact if_congr eq_comm rfl rfl

section
variable (he : s.pb.evict = false)
include he

theorem isInsert_pqIn : (s.pqIn i).isInsert = (FlowTable.insert i && !s.pq.full) := by
  simp only [ParaQIn.isInsert, FlowTable.pqIn, FlowTable.qOpEn, FlowTable.qOpId, he, Bool.or_false]
  by_cases hi : FlowTable.insert i = true
  · have : FlowTable.delete i = false := by simp_all [FlowTable.insert, FlowTable.delete]
    simp [hi, this]
  · simp [hi]

theorem isDelete_pqIn : (s.pqIn i).isDelete = FlowTable.delete i := by
  simp only [ParaQIn.isDelete, FlowTable.pqIn, FlowTable.qOpEn, FlowTable.qOpId, he, Bool.or_false]
  by_cases hi : FlowTable.insert i = true
  · have : FlowTable.delete i = false := by simp_all [FlowTable.insert, FlowTable.delete]
    simp [hi, this]
  · simp [hi]

theorem opData_pqIn : (s.pqIn i).opData = i.ch1Data := by simp [FlowTable.pqIn, FlowTable.qOpData, he]

theorem fastStore_queue (hB : s.pb.qWrenB = true → s.pb.qDataB.tuple = s.pb.qAddrB) {S : FlowStore} {E' : List Fce}
    (hS : S.queue = E'.map s.pendB) (hd : FlowTable.delete i = false) :
    (fastStore s i S).queue = E'.map (s.pqIn i).write ++ (s.pqIn i).inserted := by
  unfold ParaQIn.inserted fastStore
  rw [isInsert_pqIn he, opData_pqIn he, hS]
  by_cases hw : FlowTable.wrenA i .q = true
  · have h1 : FlowTable.insert i = false := by simp_all [FlowTable.insert, FlowTable.wrenA]
    simp [hw, h1, ← map_pendB_write hB hw]
  · rw [Bool.not_eq_true] at hw
    have hpend : (s.pqIn i).write = s.pendB := by
      funext e
      simp [write_pqIn, hw]
    rw [hpend]
    simp only [hw, hd, Bool.false_eq_true, if_false]
    split <;> simp

theorem apply_pqIn (hB : s.pb.qWrenB = true → s.pb.qDataB.tuple = s.pb.qAddrB) {S : FlowStore} {E' : List Fce}
    (hS : S.queue = E'.map s.pendB) (hd : s.pb.qDequeEn = true → E' ≠ [] ∧ FlowTable.delete i = false) :
    (s.pqIn i).apply E' = if s.pb.qDequeEn then (fastStore s i S).queue.tail else (fastStore s i S).queue := by
  have hdq : (s.pqIn i).dequeEn = s.pb.qDequeEn := rfl
  unfold ParaQIn.apply ParaQIn.remain
  rw [isDelete_pqIn he, hdq, opData_pqIn he]
  by_cases hdel : FlowTable.delete i = true
  · have h1 : FlowTable.insert i = false := by simp_all [FlowTable.insert, FlowTable.delete]
    have h2 : s.pb.qDequeEn = false := by
      rw [← Bool.not_eq_true]
      intro h
      simp [(hd h).2] at hdel
    have hw : FlowTable.wrenA i .q = false := by simp_all [FlowTable.wrenA, FlowTable.delete]
    have hpend : (s.pqIn i).write = s.pendB := by
      funext e
      simp [write_pqIn, hw]
    simp [fastStore, hS, ParaQIn.inserted, isInsert_pqIn he, hpend, hw, hdel, h1, h2, List.filter_map, Function.comp_def,
      pendB_tuple hB]
  · rw [Bool.not_eq_true] at hdel
    rw [fastStore_queue he hB hS hdel]
    simp only [hdel, Bool.false_eq_true, if_false]
    split
    · next h =>
      rw [List.tail_append_of_ne_nil (by simpa using (hd h).1), List.map_tail]
    · rfl

end

/-! ## The fast operation keeps the representation -/

/-- An operation fits the map: it inserts an absent flow, or writes where the flow is. -/
def OpOk (h : Tuple → Fin 4 → FtAddr) (P : FlowMap) (op : Opcode) (b : BitMap) (d : Fce) : Prop :=
  (∀ k, d.addr k = h d.tuple k) ∧
    match op with
    | .nop => False
    | .insert => d.valid = true ∧ P d.tuple = none ∧ ∀ l, b l = decide (l = .q)
    | .update => d.valid = true ∧ ∃ l e, P d.tuple = some (l.place, e) ∧ ∀ l', b l' = decide (l' = l)
    | .delete => d.valid = false ∧ ∃ l e, P d.tuple = some (l.place, e) ∧ ∀ l', b l' = decide (l' = l)

/-- The effect of channel 1 on the map; an insertion waits while the queue is full. -/
def fastMap (s : FlowTable) (i : FtIn) (P : FlowMap) : FlowMap :=
  if i.ch1Wren && !s.ch1InsertStall i then
    match i.ch1Opcode with
    | .nop => P
    | .insert => P.add i.ch1Data.tuple i.ch1Data
    | .update => P.set i.ch1Data.tuple i.ch1Data
    | .delete => P.erase i.ch1Data.tuple
  else P

theorem fastStore_of_not_wren (hw : i.ch1Wren = false) (S : FlowStore) : fastStore s i S = S := by
  simp [fastStore, FlowTable.wrenA, FlowTable.update, FlowTable.delete, FlowTable.insert, hw]

theorem fastStore_of_stall (hs : s.ch1InsertStall i = true) (S : FlowStore) : fastStore s i S = S := by
  simp only [FlowTable.ch1InsertStall, Bool.and_eq_true] at hs
  have h1 := hs.1
  simp only [FlowTable.insert, Bool.and_eq_true, beq_iff_eq] at h1
  simp [fastStore, FlowTable.wrenA, FlowTable.update, FlowTable.delete, h1.2, hs.2]

theorem rep_fast {h : Tuple → Fin 4 → FtAddr} {S : FlowStore} {P : FlowMap} (hr : Rep Fce.tuple h S P)
    (ho : i.ch1Wren = true → OpOk h P i.ch1Opcode i.ch1BitMap i.ch1Data) : Rep Fce.tuple h (fastStore s i S) (fastMap s i P) := by
  by_cases hw : i.ch1Wren = true
  swap
  · rw [Bool.not_eq_true] at hw
    simpa [fastMap, hw, fastStore_of_not_wren hw] using hr
  by_cases hs : s.ch1InsertStall i = true
  · simpa [fastMap, hs, fastStore_of_stall hs] using hr
  rw [Bool.not_eq_true] at hs
  obtain ⟨ha, ho⟩ := ho hw
  simp only [fastMap, hw, hs, Bool.not_false, Bool.and_self, if_true]
  cases hop : i.ch1Opcode with
  | nop => simp [hop] at ho
  | insert =>
    simp only [hop] at ho
    obtain ⟨_, hn, hb⟩ := ho
    have hf : s.pq.full = false := by
      simpa [FlowTable.ch1InsertStall, FlowTable.insert, hw, hop, hb] using hs
    have heq : fastStore s i S = { S with queue := S.queue ++ [i.ch1Data] } := by
      simp [fastStore, FlowTable.wrenA, FlowTable.update, FlowTable.delete, FlowTable.insert, hop, hw, hb, hf]
    rw [heq]
    exact hr.add hn rfl
  | update =>
    simp only [hop] at ho
    obtain ⟨hv, l, e, hp, hb⟩ := ho
    cases l with
    | ft k =>
      have heq : fastStore s i S = S.put k (h i.ch1Data.tuple k) (some i.ch1Data) := by
        simp only [fastStore, Store.put, FlowTable.wrenA, FlowTable.update, FlowTable.delete, FlowTable.insert, hop, hw,
          hb, occ_of_valid hv, Store.mk.injEq]
        refine ⟨?_, by simp, trivial⟩
        funext j a
        by_cases hj : j = k
        · subst hj; simp [ha]
        · simp [hj]
      rw [heq]
      exact hr.set_way hp rfl
    | q =>
      have heq : fastStore s i S =
          { S with queue := S.queue.map fun x => if x.tuple = i.ch1Data.tuple then i.ch1Data else x } := by
        simp [fastStore, FlowTable.wrenA, FlowTable.update, hop, hw, hb]
      rw [heq]
      exact hr.set_queue hp rfl
  | delete =>
    simp only [hop] at ho
    obtain ⟨hv, l, e, hp, hb⟩ := ho
    cases l with
    | ft k =>
      have heq : fastStore s i S = S.put k (h i.ch1Data.tuple k) none := by
        simp only [fastStore, Store.put, FlowTable.wrenA, FlowTable.update, FlowTable.delete, FlowTable.insert, hop, hw,
          hb, occ_eq_none.2 hv, Store.mk.injEq]
        refine ⟨?_, by simp, trivial⟩
        funext j a
        by_cases hj : j = k
        · subst hj; simp [ha]
        · simp [hj]
      rw [heq]
      exact hr.erase_way hp
    | q =>
      have heq : fastStore s i S = { S with queue := S.queue.filter fun x => !decide (i.ch1Data.tuple = x.tuple) } := by
        simp [fastStore, FlowTable.wrenA, FlowTable.update, FlowTable.delete, hop, hw, hb]
      rw [heq]
      exact hr.erase_queue hp

end

end Pigasus
