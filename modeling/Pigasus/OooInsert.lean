import Pigasus.OooRelease
import Pigasus.OooWalk

/-!
# An early packet of a flow

`flow_reassembly` asks for a free pointer if the flow has no nodes, hands the packet to
`linked_list` and waits until it is stored or refused.
-/

namespace Pigasus

open Hdl

namespace FlowSys

open LinkedList

variable {e : BitVec 32} {s : FlowSys} {t : SlowTick} {N : List (LlPtr × OooPkt)} {prev : List SlowPkt} {p : SlowPkt}
  {q : LlPtr}

variable (e) in
structure Stores (prev : List SlowPkt) (p : SlowPkt) (N : List (LlPtr × OooPkt)) (c : Nat) (s : FlowSys) : Prop where
  work : Work e prev p s
  state : s.fr.state = .compare
  ahead : s.fr.metaDataR.seq > s.fr.fceDataR.seq
  early : p.info.seq > (OooFlow.after e prev).seq
  cycle : s.fr.cycle = c
  load : s.fr.llLoadHead = false
  store : s.fr.llStoreHead = false
  points : Points s.entry (.after e prev) N
  out : s.out = OooFlow.emitted ⟨e, []⟩ prev

theorem Stores.step {c c' : Nat} {fr : FlowReassembly} (h : Stores e prev p N c s) (hfr : (s.step t).fr = fr)
    (hm : fr.metaDataR = s.fr.metaDataR) (hf : fr.fceDataR = s.fr.fceDataR) (hS : fr.state = s.fr.state)
    (hw : fr.ch3Wren = false) (hr : fr.reorderValid = false) (hc : fr.cycle = c') (hl : fr.llLoadHead = s.fr.llLoadHead)
    (hs : fr.llStoreHead = s.fr.llStoreHead) : Stores e prev p N c' (s.step t) := by
  have hput : putOut fr = [] := by simp [putOut, hr]
  exact ⟨⟨(step_taken (by simp [h.state])).trans h.work.taken, by rw [hfr, hm]; exact h.work.info, by rw [hfr, hw],
    h.work.ordered, h.work.clear⟩, by rw [hfr, hS]; exact h.state, by rw [hfr, hm, hf]; exact h.ahead, h.early,
    by rw [hfr, hc], by rw [hfr, hl]; exact h.load, by rw [hfr, hs]; exact h.store,
    by rw [step_entry h.work.wren]; exact h.points, by rw [step_quiet hfr hput, h.out]⟩

theorem Stores.taken_step {c : Nat} (h : Stores e prev p N c s) : (s.step t).taken = prev ++ [p] :=
  (step_taken (by simp [h.state])).trans h.work.taken

theorem Stores.memNext_step {c : Nat} (h : Stores e prev p N c s) (hS : s.ll.state = .idle) :
    (s.step t).ll.memNext = s.ll.memNext := by
  rw [step_memNext hS, viewMem_calm h.store]

theorem Stores.freeNext_step {c : Nat} (h : Stores e prev p N c s) (hr : s.ll.Rests) (hh : Held s.ll.memNext s.ll.freeNext N)
    (he : s.fr.llLoadEmptyPointer = false) : (s.step t).ll.freeNext = s.ll.freeNext := by
  rw [step_freeNext hr.state (hr.room hh) he, viewFree_calm h.store]

theorem Stores.seq_ne {c : Nat} (h : Stores e prev p N c s) : p.info.seq ≠ (OooFlow.after e prev).seq := by
  intro he
  have := h.early
  rw [he] at this
  simp at this

structure AsksPtr (s : FlowSys) : Prop where
  start : s.fr.llStart = false
  empty : s.fr.llLoadEmptyPointer = true
  rests : s.ll.Rests
  outReady : s.ll.emptylistOutReady = false
  inValid : s.ll.emptylistInValid = false
  ptrValid : s.ll.emptyPointerValid = false
  held : Held s.ll.memNext s.ll.freeNext []
  ch3Data : s.fr.ch3Data = s.entry

structure GotPtr (q : LlPtr) (s : FlowSys) : Prop where
  start : s.fr.llStart = false
  empty : s.fr.llLoadEmptyPointer = false
  rests : s.ll.Rests
  ptrValid : s.ll.emptyPointerValid = true
  pointer : s.ll.emptyPointer = q
  held : Held s.ll.memNext s.ll.freeNext []
  fresh : q ∉ s.ll.freeNext ∧ (s.ll.memNext q).valid = false
  ch3Data : s.fr.ch3Data = s.entry

structure StartsAt (N : List (LlPtr × OooPkt)) (q : LlPtr) (s : FlowSys) : Prop where
  pointer : s.fr.llPointer = q
  temp : s.fr.ch3WrTemp = N.isEmpty
  data : s.fr.ch3Data = if N.isEmpty then { s.entry with pointer := q, llValid := true } else s.entry
  head : ∀ n ∈ N.head?, n.1 = q

structure Hands (N : List (LlPtr × OooPkt)) (q : LlPtr) (s : FlowSys) : Prop where
  startsAt : StartsAt N q s
  calm : s.fr.Calm
  rests : s.ll.Rests
  held : Held s.ll.memNext s.ll.freeNext N
  fresh : N = [] → q ∉ s.ll.freeNext ∧ (s.ll.memNext q).valid = false

theorem Fresh.store (h : Fresh e prev p N s) (hS : s.fr.state = .compare) (hf : s.fr.fceDataR = s.entry)
    (hd : s.fr.ch3Data = s.entry) (hq : p.info.seq > (OooFlow.after e prev).seq) :
    Stores e prev p N 1 (s.step t) ∧ AsksPtr (s.step t) ∧ N = [] ∨ ∃ q, Stores e prev p N 2 (s.step t) ∧ Hands N q (s.step t) := by
  have hst : Stores e prev p N 0 s := ⟨h.work, hS, by rw [h.work.info, hf, h.points.seq]; exact hq, hq, h.cycle, h.calm.load,
    h.calm.store, h.points, h.out⟩
  have hfr : (s.step t).fr = s.fr.storeStart := by
    refine (FlowReassembly.step_ahead hS hst.ahead).trans ?_
    simp [FlowReassembly.outOfOrder, h.cycle]
  obtain ⟨hrest, hheld⟩ := calm_step (t := t) h.calm h.rests h.held
  have hentry := step_entry (t := t) h.work.wren
  cases N with
  | nil =>
    left
    have hll : s.fr.fceDataR.llValid = false := by
      rw [hf]
      exact h.points.llValid
    rw [FlowReassembly.storeStart, hll] at hfr
    exact ⟨hst.step hfr rfl rfl rfl rfl rfl rfl rfl rfl, ⟨by rw [hfr]; exact h.calm.start, by rw [hfr]; rfl, hrest,
      (LinkedList.idle_outReady h.rests.state).trans h.calm.empty, (LinkedList.idle_inValid h.rests.state).trans h.calm.store,
      (LinkedList.idle_ptrValid h.rests.state).trans h.calm.empty, hheld, by rw [hfr, hentry]; exact hd⟩, rfl⟩
  | cons n l =>
    right
    have hll : s.fr.fceDataR.llValid = true := by
      rw [hf]
      exact h.points.llValid
    rw [FlowReassembly.storeStart, hll] at hfr
    refine ⟨n.1, hst.step hfr rfl rfl rfl rfl rfl rfl rfl rfl, ⟨?_, ?_, ?_, ?_⟩, ?_, hrest, hheld, nofun⟩
    · rw [hfr]
      show s.fr.fceDataR.pointer = n.1
      rw [hf]
      exact h.points.pointer n rfl
    · rw [hfr]
      exact h.temp
    · rw [hfr, hentry]
      exact hd
    · simp
    · rw [hfr]
      exact ⟨h.calm.start, h.calm.load, h.calm.store, h.calm.empty⟩

theorem AsksPtr.step (h : Stores e prev p [] 1 s) (ha : AsksPtr s) (hf : s.ll.emptylist ≠ []) :
    ∃ q, Stores e prev p [] 1 (s.step t) ∧ GotPtr q (s.step t) := by
  obtain ⟨q, F, hF⟩ := List.exists_cons_of_ne_nil hf
  have hroom : s.ll.Room := ha.rests.room ha.held
  have hfr : (s.step t).fr = { s.fr.storeDefault with llLoadEmptyPointer := false } := by
    refine (FlowReassembly.step_ahead h.state h.ahead).trans ?_
    simp [FlowReassembly.outOfOrder, h.cycle, FlowReassembly.storePointer, ha.ptrValid]
  have hmem := h.memNext_step (t := t) ha.rests.state
  have hnow : s.ll.freeNext = q :: F := (LinkedList.freeNext_of_not ha.outReady ha.inValid).trans hF
  have hin : (s.step t).ll.emptylistInValid = false := (LinkedList.idle_inValid ha.rests.state).trans h.store
  -- `q` leaves the free list with the next edge
  have hfree : (s.step t).ll.freeNext = F := by
    have ho : (s.step t).ll.emptylistOutReady = true := (LinkedList.idle_outReady ha.rests.state).trans ha.empty
    rw [LinkedList.freeNext, ho, hin]
    show ((if true = true then (s.ll.step s.fr.llIn).emptylist.tail else _) ++ _ : List LlPtr) = F
    rw [LinkedList.step_emptylist _ _ hroom, hnow]
    simp
  have hentry := step_entry (t := t) h.work.wren
  have hn := ha.held.nodup
  rw [hnow] at hn
  have hq : (s.ll.memNext q).valid = false := ha.held.zero q (by simp [hnow])
  refine ⟨q, h.step hfr rfl rfl rfl rfl rfl h.cycle rfl rfl, by rw [hfr]; exact ha.start, by rw [hfr],
    ha.rests.step ha.start h.load (.inr h.store), (LinkedList.idle_ptrValid ha.rests.state).trans ha.empty, ?_, ?_,
    ⟨?_, by rw [hmem]; exact hq⟩, by rw [hfr, hentry]; exact ha.ch3Data⟩
  · have he : s.fr.llIn.loadEmptyPointer = true := ha.empty
    simp [FlowSys.step, LinkedList.step, LinkedList.control_idle ha.rests.state, LinkedList.idleStep, he,
      LinkedList.emptylistOutData, hF]
  · rw [hmem, hfree]
    refine ⟨trivial, ?_, fun f hf => ha.held.zero f (by simp [hnow, hf])⟩
    simpa using (List.nodup_cons.1 (by simpa using hn : (q :: F).Nodup)).2
  · rw [hfree]
    exact (List.nodup_cons.1 (by simpa using hn : (q :: F).Nodup)).1

theorem GotPtr.step (h : Stores e prev p [] 1 s) (ha : GotPtr q s) :
    Stores e prev p [] 2 (s.step t) ∧ Hands [] q (s.step t) := by
  have hfr : (s.step t).fr = s.fr.storePointer s.ll := by
    refine (FlowReassembly.step_ahead h.state h.ahead).trans ?_
    simp [FlowReassembly.outOfOrder, h.cycle]
  rw [FlowReassembly.storePointer, if_pos ha.ptrValid] at hfr
  have hmem := h.memNext_step (t := t) ha.rests.state
  have hfree := h.freeNext_step (t := t) ha.rests ha.held ha.empty
  have hentry := step_entry (t := t) h.work.wren
  refine ⟨h.step hfr rfl rfl rfl rfl rfl rfl rfl rfl, ⟨?_, ?_, ?_, nofun⟩, ?_,
    ha.rests.step ha.start h.load (.inl ha.empty), by rw [hmem, hfree]; exact ha.held,
    fun _ => by rw [hmem, hfree]; exact ha.fresh⟩
  · rw [hfr]
    exact ha.pointer
  · rw [hfr]
    rfl
  · rw [hfr, hentry, ← ha.ch3Data, ← ha.pointer]
    rfl
  · rw [hfr]
    exact ⟨ha.start, h.load, h.store, rfl⟩

/-- The request of `flow_reassembly` is that of the packet. -/
structure Hands.Sent (N : List (LlPtr × OooPkt)) (q : LlPtr) (p : SlowPkt) (s : FlowSys) : Prop where
  startsAt : StartsAt N q s
  empty : s.fr.llLoadEmptyPointer = false
  req : LinkedList.For s.fr.llIn p

structure Hands.Starts (N : List (LlPtr × OooPkt)) (q : LlPtr) (s : FlowSys) : Prop where
  start : s.fr.llStart = true
  done : s.ll.done = false
  updatePValid : s.ll.updatePValid = false
  rests : s.ll.Rests
  held : Held s.ll.memNext s.ll.freeNext N
  fresh : N = [] → q ∉ s.ll.freeNext ∧ (s.ll.memNext q).valid = false

theorem Hands.step (h : Stores e prev p N 2 s) (ha : Hands N q s) :
    Stores e prev p N 3 (s.step t) ∧ Hands.Sent N q p (s.step t) ∧ Hands.Starts N q (s.step t) := by
  have hfr : (s.step t).fr = s.fr.storeInsert := by
    refine (FlowReassembly.step_ahead h.state h.ahead).trans ?_
    simp [FlowReassembly.outOfOrder, h.cycle]
  have hmem := h.memNext_step (t := t) ha.rests.state
  have hfree := h.freeNext_step (t := t) ha.rests ha.held ha.calm.empty
  have hentry := step_entry (t := t) h.work.wren
  have hctl := LinkedList.control_idle (i := s.fr.llIn) ha.rests.state
  refine ⟨h.step hfr rfl rfl rfl rfl rfl rfl rfl rfl, ⟨⟨?_, ?_, ?_, ha.startsAt.head⟩, ?_, ?_⟩, by rw [hfr]; rfl,
    by simp [FlowSys.step, LinkedList.step, hctl, LinkedList.idleStep],
    by simp [FlowSys.step, LinkedList.step, hctl, LinkedList.idleStep],
    ha.rests.step ha.calm.start h.load (.inl ha.calm.empty), by rw [hmem, hfree]; exact ha.held,
    fun hN => by rw [hmem, hfree]; exact ha.fresh hN⟩
  · rw [hfr]
    exact ha.startsAt.pointer
  · rw [hfr]
    exact ha.startsAt.temp
  · rw [hfr, hentry]
    exact ha.startsAt.data
  · rw [hfr]
    exact ha.calm.empty
  · have hi := h.work.info
    rw [hfr]
    refine ⟨?_, ?_, fun next last => ?_⟩
    · show s.fr.metaDataR.seq = _
      rw [hi]
    · show s.fr.metaDataR.len = _
      rw [hi]
    · simp [LinkedList.newNode, FlowReassembly.llIn, FlowReassembly.storeInsert, hi, OooPkt.node, SlowPkt.stored]

theorem Hands.Sent.wait (h : Stores e prev p N 3 s) (ha : Hands.Sent N q p s) (hd : s.ll.done = false)
    (hu : s.ll.updatePValid = false) :
    Stores e prev p N 3 (s.step t) ∧ Hands.Sent N q p (s.step t) ∧ (s.step t).fr.llStart = false := by
  have hfr : (s.step t).fr = s.fr.storeWait s.ll := by
    refine (FlowReassembly.step_ahead h.state h.ahead).trans ?_
    simp [FlowReassembly.outOfOrder, h.cycle, hd]
  have hdata : (s.fr.storeWait s.ll).ch3Data = s.fr.ch3Data := by
    simp [FlowReassembly.storeWait, hu, FlowReassembly.storeDefault, FlowReassembly.compareDefault]
  have hentry := step_entry (t := t) h.work.wren
  refine ⟨h.step hfr rfl rfl rfl rfl rfl h.cycle rfl rfl, ⟨⟨?_, ?_, ?_, ha.startsAt.head⟩, ?_, ?_⟩, by rw [hfr]; rfl⟩
  · rw [hfr]
    exact ha.startsAt.pointer
  · rw [hfr]
    exact ha.startsAt.temp
  · rw [hfr, hentry, hdata]
    exact ha.startsAt.data
  · rw [hfr]
    exact ha.empty
  · rw [hfr]
    exact ⟨ha.req.seq, ha.req.len, ha.req.node⟩

theorem Hands.Starts.step (h : Stores e prev p N 3 s) (ha : Hands.Sent N q p s) (hs : Hands.Starts N q s) :
    LinkedList.Walk p q [] N (s.step t).ll ∧ (s.step t).ll.AtRead := by
  have hst : s.fr.llIn.start = true := hs.start
  have hl : s.fr.llIn.loadHead = false := h.load
  have hsto : s.fr.llIn.storeHead = false := h.store
  have hem : s.fr.llIn.loadEmptyPointer = false := ha.empty
  have hptr : s.fr.llIn.pointer = q := ha.startsAt.pointer
  have hctl := LinkedList.control_idle (i := s.fr.llIn) hs.rests.state
  have hmem := h.memNext_step (t := t) hs.rests.state
  have hfree : (s.step t).ll.emptylist = s.ll.freeNext := LinkedList.step_emptylist _ _ (hs.rests.room hs.held)
  have haddr : (s.step t).ll.addr = q := by simp [FlowSys.step, LinkedList.step, hctl, LinkedList.idleStep, hst, hptr]
  refine ⟨⟨⟨?_, ?_, ?_, ?_, ?_, ?_, ?_, ?_, by simp, ?_, ?_, by simp⟩, ?_, ?_⟩, ?_, ?_, ?_⟩
  · simp [FlowSys.step, LinkedList.step, hctl, LinkedList.idleStep]
  · simp [FlowSys.step, LinkedList.step, hctl, LinkedList.idleStep]
  · simp [FlowSys.step, LinkedList.step, hctl, LinkedList.idleStep]
  · simp [FlowSys.step, LinkedList.step, hctl, LinkedList.idleStep, hem]
  · simp [FlowSys.step, LinkedList.step, hctl, LinkedList.idleStep, hsto]
  · simp [FlowSys.step, LinkedList.step, hctl, LinkedList.idleStep, hs.rests.noRead.rdValid]
  · simp [FlowSys.step, LinkedList.step, hctl, LinkedList.idleStep, hst, ha.req.seq]
  · simp [FlowSys.step, LinkedList.step, hctl, LinkedList.idleStep, hst, ha.req.seq, ha.req.len]
  · intro n hn
    rw [haddr, ha.startsAt.head n hn]
  · simp [FlowSys.step, LinkedList.step, hctl, LinkedList.idleStep]
  · rintro rfl
    rw [hmem, hfree]
    exact ⟨rfl, haddr, hs.fresh rfl⟩
  · rw [hmem, hfree]
    exact hs.held
  · simp [FlowSys.step, LinkedList.step, hctl, LinkedList.idleStep, hst]
  · simp [FlowSys.step, LinkedList.step, hctl, LinkedList.idleStep]
  · exact hs.rests.noRead.step (by simp [hctl, LinkedList.idleStep, hl])

/-! ## The end of an insertion -/

theorem Stores.inserted_eq {N' : List (LlPtr × OooPkt)} (h : Stores e prev p N 3 s) (hi : LinkedList.Inserted p q N N' s.ll) :
    OooFlow.after e (prev ++ [p]) = ⟨(OooFlow.after e prev).seq, N'.map Prod.snd⟩ ∧
      OooFlow.emitted ⟨e, []⟩ (prev ++ [p]) = OooFlow.emitted ⟨e, []⟩ prev := by
  have hne := h.seq_ne
  have hap := hi.apart
  have hl := hi.list
  rw [h.points.list] at hap hl
  constructor
  · rw [OooFlow.after_concat, OooFlow.next, if_neg hne, if_pos h.early, if_neg (by simp [hap]), hl]
  · rw [OooFlow.emitted_concat]
    show _ ++ (OooFlow.after e prev).emits p = _
    rw [OooFlow.emits, if_neg hne, if_pos h.early, if_neg (by simp [hap]), List.append_nil]

theorem storeDone_eq (h : Stores e prev p N 3 s) (hd : s.ll.done = true) :
    (s.step t).fr = s.fr.storeDone s.ll := by
  refine (FlowReassembly.step_ahead h.state h.ahead).trans ?_
  simp [FlowReassembly.outOfOrder, h.cycle, hd]

theorem Inserted.not_empty {N' : List (LlPtr × OooPkt)} {ll : LinkedList} (hi : LinkedList.Inserted p q N N' ll) :
    N'.isEmpty = false := by
  cases N' with
  | nil =>
    have hl := hi.list
    cases hN : N.map Prod.snd with
    | nil => simp [hN, insertAt] at hl
    | cons y l =>
      rw [hN, insertAt] at hl
      split at hl <;> simp at hl
  | cons => rfl

theorem Stores.points_written {N' : List (LlPtr × OooPkt)} (h : Stores e prev p N 3 s) (ha : StartsAt N q s)
    (hi : LinkedList.Inserted p q N N' s.ll) (hw : (s.fr.ch3WrTemp || s.ll.updatePValid) = true) :
    Points (s.fr.storeDone s.ll).ch3Data ⟨(OooFlow.after e prev).seq, N'.map Prod.snd⟩ N' := by
  have hne := Inserted.not_empty hi
  have hdata : (s.fr.storeDone s.ll).ch3Data =
      { s.fr.ch3Data with pointer := if s.ll.updatePValid then s.ll.updateP else s.fr.ch3Data.pointer } := rfl
  rw [hdata, ha.data]
  cases hu : s.ll.updatePValid with
  | true =>
    -- the new node is in front of the others
    obtain ⟨hN, hp⟩ := hi.moved hu
    have hN : N.isEmpty = false := by simpa using hN
    refine ⟨?_, rfl, ?_, fun n hn => ?_⟩
    · simp [hN, h.points.seq]
    · simp [hN, h.points.llValid, hne]
    · simpa using hp n hn
  | false =>
    -- the new node is the only one
    have hN : N.isEmpty = true := by
      rw [hu, Bool.or_false, ha.temp] at hw
      exact hw
    refine ⟨?_, rfl, ?_, fun n hn => ?_⟩
    · simp [hN, h.points.seq]
    · simp [hN, hne]
    · simp [hN, hi.kept hu n hn]

theorem Stores.points_kept {N' : List (LlPtr × OooPkt)} (h : Stores e prev p N 3 s) (ha : StartsAt N q s)
    (hi : LinkedList.Inserted p q N N' s.ll) (htemp : s.fr.ch3WrTemp = false) (hu : s.ll.updatePValid = false) :
    Points s.entry ⟨(OooFlow.after e prev).seq, N'.map Prod.snd⟩ N' := by
  refine ⟨h.points.seq, rfl, ?_, fun n hn => ?_⟩
  · rw [h.points.llValid, ← ha.temp, htemp, Inserted.not_empty hi]
  · rw [hi.kept hu n hn]
    cases N with
    | nil =>
      rw [ha.temp] at htemp
      cases htemp
    | cons m l => rw [h.points.pointer m rfl, ha.head m rfl]

theorem inserted_step {N' : List (LlPtr × OooPkt)} (h : Stores e prev p N 3 s) (ha : Hands.Sent N q p s)
    (hs : s.fr.llStart = false) (hi : LinkedList.Inserted p q N N' s.ll) :
    Writes e N' (s.step t) ∨ AtRest e N' (s.step t) := by
  have hfr := storeDone_eq (t := t) h hi.done
  obtain ⟨haft, hemit⟩ := h.inserted_eq hi
  have htk := h.taken_step (t := t)
  have hord : (OooFlow.after e (prev ++ [p])).Ordered := by
    rw [OooFlow.after_concat]
    exact h.work.ordered.next h.work.clear
  obtain ⟨hrest, hheld⟩ := calm_step (t := t) ⟨hs, h.load, h.store, ha.empty⟩ hi.rests hi.held
  have hsto : (s.step t).fr.llStoreHead = false := by
    rw [hfr]
    exact h.store
  have hput : putOut (s.fr.storeDone s.ll) = [] := by simp [putOut, FlowReassembly.storeDone, hi.discard]
  have hout : (s.step t).out = OooFlow.emitted ⟨e, []⟩ (prev ++ [p]) := by rw [hemit, step_quiet hfr hput, h.out]
  by_cases hw : (s.fr.ch3WrTemp || s.ll.updatePValid) = true
  · left
    refine ⟨?_, by rw [hfr]; rfl, by rw [hfr]; exact h.load, by rw [hfr]; exact ha.empty, hrest, ?_, ?_, ?_,
      by rw [htk]; exact hord, by rw [htk]; exact hout⟩
    · simp only [hfr, FlowReassembly.storeDone, hw, if_true]
    · rwa [viewMem_calm hsto, viewFree_calm hsto]
    · rw [htk, haft, hfr]
      exact h.points_written ha.startsAt hi hw
    · rw [hfr]
      exact hw
  · right
    have hw : (s.fr.ch3WrTemp || s.ll.updatePValid) = false := by simpa using hw
    obtain ⟨htemp, hu⟩ := Bool.or_eq_false_iff.1 hw
    refine ⟨?_, ?_, hrest, ?_, hheld, ?_, by rw [htk]; exact hord, by rw [htk]; exact hout⟩
    · simp only [hfr, FlowReassembly.storeDone, hw, Bool.false_eq_true, if_false]
    · exact ⟨by rw [hfr]; rfl, by rw [hfr]; exact h.load, hsto, by rw [hfr]; exact ha.empty⟩
    · rw [hfr]
      intro hc
      have hc : (s.fr.ch3WrTemp || s.ll.updatePValid) = true := hc
      rw [hw] at hc
      cases hc
    · rw [htk, haft, step_entry h.work.wren]
      exact h.points_kept ha.startsAt hi htemp hu

theorem refused_step (h : Stores e prev p N 3 s) (ha : Hands.Sent N q p s) (hs : s.fr.llStart = false)
    (hr : LinkedList.Refused p N s.ll) : AtRest e N (s.step t) := by
  have hfr := storeDone_eq (t := t) h hr.done
  have htk := h.taken_step (t := t)
  have hentry := step_entry (t := t) h.work.wren
  have hne := h.seq_ne
  have hmeet := hr.meets
  rw [h.points.list] at hmeet
  have haft : OooFlow.after e (prev ++ [p]) = OooFlow.after e prev := by
    rw [OooFlow.after_concat, OooFlow.next, if_neg hne, if_pos h.early, if_pos hmeet]
  have htemp : s.fr.ch3WrTemp = false := by
    rw [ha.startsAt.temp]
    cases N with
    | nil => cases hr.meets
    | cons => rfl
  have hput : putOut (s.fr.storeDone s.ll) = [(p.info.pktID, true)] := by
    simp [putOut, FlowReassembly.storeDone, hr.discard, h.work.info]
  obtain ⟨hrest, hheld⟩ := calm_step (t := t) ⟨hs, h.load, h.store, ha.empty⟩ hr.rests hr.held
  refine ⟨?_, ⟨by rw [hfr]; rfl, by rw [hfr]; exact h.load, by rw [hfr]; exact h.store, by rw [hfr]; exact ha.empty⟩, hrest, ?_, hheld,
    by rw [htk, haft, hentry]; exact h.points, by rw [htk, haft]; exact h.work.ordered, ?_⟩
  · simp [hfr, FlowReassembly.storeDone, htemp, hr.updatePValid]
  · intro hc
    simp [hfr, FlowReassembly.storeDone, htemp, hr.updatePValid] at hc
  · rw [htk, OooFlow.emitted_concat, step_out hfr hput, h.out]
    show _ = _ ++ (OooFlow.after e prev).emits p
    rw [OooFlow.emits, if_neg hne, if_pos h.early, if_pos hmeet]

end FlowSys

end Pigasus
