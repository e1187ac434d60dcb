import Pigasus.OooList

/-!
# The expected packet of a flow

One predicate for each phase of the work on a packet. The writes that `linked_list` has
under way, and the node that `flow_reassembly` gives back, are counted as done. An
expected packet releases the nodes that follow it, one after the other.
-/

namespace Pigasus

open Hdl

/-! ## Phases -/

namespace FlowSys

variable (e : BitVec 32)

def viewMem (s : FlowSys) : LlPtr → Entry := wr s.fr.llStoreHead s.fr.llHeadWrAddr s.fr.llHeadIn s.ll.memNext

def viewFree (s : FlowSys) : List LlPtr := s.ll.freeNext ++ if s.fr.llStoreHead then [s.fr.llHeadWrAddr] else []

structure AtRest (N : List (LlPtr × OooPkt)) (s : FlowSys) : Prop where
  state : s.fr.state = .idle
  calm : s.fr.Calm
  rests : s.ll.Rests
  wren : s.fr.ch3Wren = true → s.fr.ch3Data = s.entry
  held : Held s.ll.memNext s.ll.freeNext N
  points : Points s.entry (.after e s.taken) N
  ordered : (OooFlow.after e s.taken).Ordered
  out : s.out = OooFlow.emitted ⟨e, []⟩ s.taken

structure Work (prev : List SlowPkt) (p : SlowPkt) (s : FlowSys) : Prop where
  taken : s.taken = prev ++ [p]
  info : s.fr.metaDataR = p.info
  wren : s.fr.ch3Wren = false
  ordered : (OooFlow.after e prev).Ordered
  clear : (OooFlow.after e prev).Clear p

structure Fresh (prev : List SlowPkt) (p : SlowPkt) (N : List (LlPtr × OooPkt)) (s : FlowSys) : Prop where
  work : Work e prev p s
  calm : s.fr.Calm
  rests : s.ll.Rests
  reorder : s.fr.reorderValid = false
  cycle : s.fr.cycle = 0
  endP : s.fr.endP = p.info.endSeq
  temp : s.fr.ch3WrTemp = false
  held : Held s.ll.memNext s.ll.freeNext N
  points : Points s.entry (.after e prev) N
  out : s.out = OooFlow.emitted ⟨e, []⟩ prev

structure Writes (N : List (LlPtr × OooPkt)) (s : FlowSys) : Prop where
  state : s.fr.state = .waitWrReady
  start : s.fr.llStart = false
  load : s.fr.llLoadHead = false
  empty : s.fr.llLoadEmptyPointer = false
  rests : s.ll.Rests
  held : Held s.viewMem s.viewFree N
  points : Points s.fr.ch3Data (.after e s.taken) N
  wren : s.fr.ch3Wren = true
  ordered : (OooFlow.after e s.taken).Ordered
  out : s.out = OooFlow.emitted ⟨e, []⟩ s.taken

variable {e} {s : FlowSys} {t : SlowTick} {N : List (LlPtr × OooPkt)} {prev : List SlowPkt} {p : SlowPkt}

theorem takes_eq_false (h : s.fr.state ≠ .idle) : s.takes t = false := by simp [takes, h]

theorem step_taken (h : s.fr.state ≠ .idle) : (s.step t).taken = s.taken := by simp [step, takes_eq_false h]

theorem viewMem_calm (h : s.fr.llStoreHead = false) : s.viewMem = s.ll.memNext := by simp [viewMem, h, wr]

theorem viewFree_calm (h : s.fr.llStoreHead = false) : s.viewFree = s.ll.freeNext := by simp [viewFree, h]

theorem step_memNext (h : s.ll.state = .idle) : (s.step t).ll.memNext = s.viewMem := LinkedList.idle_memNext h

theorem step_freeNext (h : s.ll.state = .idle) (hr : s.ll.Room) (he : s.fr.llLoadEmptyPointer = false) :
    (s.step t).ll.freeNext = s.viewFree := LinkedList.idle_freeNext h hr he

theorem held_step (h : s.ll.Rests) (hh : Held s.viewMem s.viewFree N) (hr : s.ll.Room) (he : s.fr.llLoadEmptyPointer = false) :
    Held (s.step t).ll.memNext (s.step t).ll.freeNext N := by
  rwa [step_memNext h.state, step_freeNext h.state hr he]

theorem calm_step (hc : s.fr.Calm) (h : s.ll.Rests) (hh : Held s.ll.memNext s.ll.freeNext N) :
    (s.step t).ll.Rests ∧ Held (s.step t).ll.memNext (s.step t).ll.freeNext N := by
  refine ⟨h.step hc.start hc.load (.inl hc.empty), held_step h ?_ (h.room hh) hc.empty⟩
  rwa [viewMem_calm hc.store, viewFree_calm hc.store]

theorem step_out {f : FlowReassembly} {l : List Emit} (hfr : (s.step t).fr = f) (hl : putOut f = l) :
    (s.step t).out = s.out ++ l := by
  rw [← hl, ← hfr]
  rfl

theorem step_quiet {f : FlowReassembly} (hfr : (s.step t).fr = f) (hf : putOut f = []) : (s.step t).out = s.out := by
  rw [step_out hfr hf, List.append_nil]

theorem step_entry (h : s.fr.ch3Wren = false) : (s.step t).entry = s.entry := by simp [FlowSys.step, h]

theorem AtRest.step (h : AtRest e N s) (hc : s.takes t = true → (OooFlow.after e s.taken).Clear t.pkt) :
    AtRest e N (s.step t) ∨ ∃ prev p, Fresh e prev p N (s.step t) ∧ (s.step t).fr.state = .getFce := by
  obtain ⟨hrest, hheld⟩ := calm_step (t := t) h.calm h.rests h.held
  -- a write that is still offered has reached the entry already
  have hentry : (s.step t).entry = s.entry := by
    show (if s.fr.ch3Wren && t.ch3Ready then s.fr.ch3Data else s.entry) = s.entry
    split
    · next hw => exact h.wren (Bool.and_eq_true_iff.1 hw).1
    · rfl
  by_cases ht : s.takes t = true
  · have hg : (t.metaValid && t.fceValid && !t.full) = true := (Bool.and_eq_true_iff.1 ht).2
    have hfr : (s.step t).fr = s.fr.take (s.frIn t) := by
      show s.fr.step s.ll (s.frIn t) = _
      unfold FlowReassembly.step
      simp only [h.state]
      exact if_pos hg
    refine .inr ⟨s.taken, t.pkt, ?_, by rw [hfr]; rfl⟩
    refine ⟨⟨by simp [FlowSys.step, ht], by rw [hfr]; rfl, by rw [hfr]; rfl, h.ordered, hc ht⟩, ?_, hrest, by rw [hfr]; rfl, by rw [hfr]; rfl, by rw [hfr]; rfl,
      by rw [hfr]; rfl, hheld, by rw [hentry]; exact h.points, ?_⟩
    · rw [hfr]
      exact ⟨rfl, rfl, rfl, h.calm.empty⟩
    · rw [step_quiet hfr rfl, h.out]
  · have ht : s.takes t = false := by simpa using ht
    have hg : (t.metaValid && t.fceValid && !t.full) = false := by simpa [takes, h.state] using ht
    have hfr : (s.step t).fr = s.fr.idleDefault (s.frIn t) := by
      show s.fr.step s.ll (s.frIn t) = _
      unfold FlowReassembly.step
      simp only [h.state]
      exact if_neg (by simp only [frIn, hg]; simp)
    have htk : (s.step t).taken = s.taken := by simp [FlowSys.step, ht]
    refine .inl ⟨by rw [hfr]; exact h.state, ?_, hrest, ?_, hheld, ?_, ?_, ?_⟩
    · rw [hfr]
      exact ⟨rfl, rfl, rfl, h.calm.empty⟩
    · rw [hfr]
      exact nofun
    · rw [hentry, htk]
      exact h.points
    · rw [htk]
      exact h.ordered
    · rw [step_quiet hfr rfl, htk, h.out]

theorem Fresh.fetch (h : Fresh e prev p N s) (hS : s.fr.state = .getFce) :
    Fresh e prev p N (s.step t) ∧ (t.ch2RdValid = false ∧ (s.step t).fr.state = .getFce ∨
      (s.step t).fr.state = .compare ∧ (s.step t).fr.fceDataR = s.entry ∧ (s.step t).fr.ch3Data = s.entry) := by
  have hfr : (s.step t).fr = s.fr.getFceStep (s.frIn t) := by
    show s.fr.step s.ll (s.frIn t) = _
    simp [FlowReassembly.step, hS]
  have hput : putOut (s.fr.getFceStep (s.frIn t)) = [] := by simp [putOut, FlowReassembly.getFceStep, h.reorder]
  obtain ⟨hrest, hheld⟩ := calm_step (t := t) h.calm h.rests h.held
  refine ⟨⟨⟨(step_taken (by simp [hS])).trans h.work.taken, by rw [hfr]; exact h.work.info, by rw [hfr]; exact h.work.wren,
    h.work.ordered, h.work.clear⟩, by rw [hfr]; exact ⟨h.calm.start, h.calm.load, h.calm.store, h.calm.empty⟩,
    hrest, by rw [hfr]; exact h.reorder, by rw [hfr]; exact h.cycle,
    by rw [hfr]; exact h.endP, by rw [hfr]; exact h.temp, hheld, by rw [step_entry h.work.wren]; exact h.points,
    by rw [step_quiet hfr hput, h.out]⟩, ?_⟩
  rw [hfr]
  by_cases hv : t.ch2RdValid = true
  · right
    simp [FlowReassembly.getFceStep, frIn, hv]
  · left
    simp [FlowReassembly.getFceStep, frIn, hv]

theorem Writes.step (h : Writes e N s) : t.ch3Ready = false ∧ Writes e N (s.step t) ∨ AtRest e N (s.step t) := by
  have hfr : (s.step t).fr = s.fr.waitWrReadyStep (s.frIn t) := by
    show s.fr.step s.ll (s.frIn t) = _
    simp [FlowReassembly.step, h.state]
  have hput : putOut (s.fr.waitWrReadyStep (s.frIn t)) = [] := by simp [putOut, FlowReassembly.waitWrReadyStep]
  have htk : (s.step t).taken = s.taken := step_taken (by simp [h.state])
  have hroom : s.ll.Room := s.ll.room_of_nodup h.rests.one
    (List.nodup_append.1 (List.nodup_append.1 h.held.nodup).1).1
  have hheld := held_step (t := t) h.rests h.held hroom h.empty
  have hrest : (s.step t).ll.Rests := h.rests.step h.start h.load (.inl h.empty)
  by_cases hw : t.ch3Ready = true
  · right
    refine ⟨?_, ?_, hrest, ?_, hheld, ?_, ?_, ?_⟩
    · simp [hfr, FlowReassembly.waitWrReadyStep, frIn, hw]
    · rw [hfr]
      exact ⟨rfl, rfl, rfl, h.empty⟩
    · simp [hfr, FlowReassembly.waitWrReadyStep, frIn, hw]
    · rw [htk]
      simpa [FlowSys.step, h.wren, hw] using h.points
    · rw [htk]
      exact h.ordered
    · rw [step_quiet hfr hput, htk, h.out]
  · -- the flow table is not ready, and the entry is offered again
    left
    have hw : t.ch3Ready = false := by simpa using hw
    refine ⟨hw, ?_, by rw [hfr]; rfl, by rw [hfr]; rfl, by rw [hfr]; exact h.empty, hrest, ?_, ?_, ?_, ?_, ?_⟩
    · simp [hfr, FlowReassembly.waitWrReadyStep, frIn, hw]
    · rwa [viewMem_calm (by rw [hfr]; rfl), viewFree_calm (by rw [hfr]; rfl)]
    · rw [htk, hfr]
      exact h.points
    · simpa [hfr, FlowReassembly.waitWrReadyStep, frIn, hw] using h.wren
    · rw [htk]
      exact h.ordered
    · rw [step_quiet hfr hput, htk, h.out]

/-! ## The expected packet -/

variable (e) in
/-- The nodes `D` have been released behind `p`, and `n :: l` are left. -/
structure Drain (prev : List SlowPkt) (p : SlowPkt) (D : List OooPkt) (n : LlPtr × OooPkt) (l : List (LlPtr × OooPkt))
    (s : FlowSys) : Prop where
  work : Work e prev p s
  state : s.fr.state = .compare
  inorder : s.fr.metaDataR.seq = s.fr.fceDataR.seq
  start : s.fr.llStart = false
  empty : s.fr.llLoadEmptyPointer = false
  llState : s.ll.state = .idle
  outReady : s.ll.emptylistOutReady = false
  endP : s.fr.endP = endOf p.info.endSeq D
  pointer : s.fr.llPointer = n.1
  llValid : s.fr.ch3Data.llValid = true
  expected : p.info.seq = (OooFlow.after e prev).seq
  split : splitAt p.info.endSeq (OooFlow.after e prev).list =
    (D ++ (splitAt s.fr.endP (n.2 :: l.map Prod.snd)).1, (splitAt s.fr.endP (n.2 :: l.map Prod.snd)).2)
  held : Held s.viewMem s.viewFree (n :: l)
  out : s.out = OooFlow.emitted ⟨e, []⟩ prev ++ (p.info.pktID, false) :: D.map fun y => (y.pktID, false)

variable {D : List OooPkt} {n : LlPtr × OooPkt} {l : List (LlPtr × OooPkt)}

structure Drain.Asks (n : LlPtr × OooPkt) (s : FlowSys) : Prop where
  cycle : s.fr.cycle = 1
  load : s.fr.llLoadHead = true
  noRead : s.ll.NoRead
  head : s.ll.headOutValid = false

structure Drain.Reads (n : LlPtr × OooPkt) (k : Nat) (s : FlowSys) : Prop where
  cycle : s.fr.cycle = 1
  load : s.fr.llLoadHead = false
  reading : s.ll.Reading (s.viewMem n.1) k
  head : s.ll.headOutValid = false

structure Drain.Got (n : LlPtr × OooPkt) (c : Nat) (s : FlowSys) : Prop where
  cycle : s.fr.cycle = c
  load : s.fr.llLoadHead = false
  store : s.fr.llStoreHead = false
  noRead : s.ll.NoRead
  head : s.ll.headOutValid = decide (c = 1)
  headOut : s.ll.headOut = s.viewMem n.1
  nextSeq : c = 2 → s.fr.nextSeq = n.2.seq

theorem Drain.room (h : Drain e prev p D n l s) : s.ll.Room :=
  s.ll.room_of_nodup (.inl h.outReady) (List.nodup_append.1 (List.nodup_append.1 h.held.nodup).1).1

theorem Drain.wait (h : Drain e prev p D n l s) (hc : s.fr.cycle = 1) :
    Drain e prev p D n l (s.step t) ∧ (s.step t).viewMem = s.viewMem ∧ (s.step t).fr = s.fr.drainWait s.ll := by
  have hfr : (s.step t).fr = s.fr.drainWait s.ll := by
    show s.fr.step s.ll (s.frIn t) = _
    rw [FlowReassembly.step_inorder h.state h.inorder]
    simp [FlowReassembly.inorder, hc]
  -- the node that is given back is cleared in this cycle, so the view stays as it is
  have hmem : (s.step t).viewMem = s.viewMem := by
    rw [viewMem_calm (by rw [hfr]; rfl), step_memNext h.llState]
  have hfree : (s.step t).viewFree = s.viewFree := by
    rw [viewFree_calm (by rw [hfr]; rfl), step_freeNext h.llState h.room h.empty]
  refine ⟨⟨⟨(step_taken (by simp [h.state])).trans h.work.taken, by rw [hfr]; exact h.work.info, by rw [hfr]; rfl,
    h.work.ordered, h.work.clear⟩, by rw [hfr]; exact h.state, by rw [hfr]; exact h.inorder, by rw [hfr]; exact h.start,
    by rw [hfr]; exact h.empty, ?_, LinkedList.idle_outReady h.llState |>.trans h.empty, by rw [hfr]; exact h.endP,
    by rw [hfr]; exact h.pointer, by rw [hfr]; exact h.llValid, h.expected, by rw [hfr]; exact h.split,
    by rw [hmem, hfree]; exact h.held, by rw [step_quiet hfr rfl, h.out]⟩, hmem, hfr⟩
  have hi : s.fr.llIn.start = false := h.start
  simp [FlowSys.step, LinkedList.step, LinkedList.control_idle h.llState, LinkedList.idleStep, hi]

theorem Drain.memNext_head (h : Drain e prev p D n l s) : s.ll.memNext n.1 = s.viewMem n.1 := by
  unfold viewMem
  rw [wr_apply, if_neg]
  rintro ⟨hs, he⟩
  have hn := h.held.nodup
  have hm : n.1 ∈ s.viewFree := by simp [viewFree, hs, he]
  exact (List.nodup_append.1 hn).2.2 _ hm _ (by simp) rfl

theorem Drain.Asks.step (h : Drain e prev p D n l s) (ha : Drain.Asks n s) :
    Drain e prev p D n l (s.step t) ∧ Drain.Reads n 0 (s.step t) := by
  obtain ⟨hd, hmem, hfr⟩ := h.wait (t := t) ha.cycle
  refine ⟨hd, ?_, by rw [hfr]; rfl, ?_, ?_⟩
  · simp [hfr, FlowReassembly.drainWait, FlowReassembly.compareDefault, ha.head, ha.cycle]
  · have hl : s.fr.llIn.loadHead = true := ha.load
    refine ⟨?_, ha.noRead.rd, ha.noRead.rdR1, ?_⟩
    · simp [FlowSys.step, LinkedList.step, LinkedList.control_idle h.llState, LinkedList.idleStep, hl]
    · have hp : s.fr.llIn.pointer = n.1 := h.pointer
      rw [hmem, ← h.memNext_head]
      show s.ll.memNext _ = _
      simp [FlowSys.step, LinkedList.step, LinkedList.control_idle h.llState, LinkedList.idleStep, hl, hp]
  · simp [FlowSys.step, LinkedList.step, LinkedList.control_idle h.llState, LinkedList.idleStep, ha.noRead.rdValid]

theorem Drain.Reads.step {k : Nat} (h : Drain e prev p D n l s) (hr : Drain.Reads n k s) (hk : k < 3) :
    Drain e prev p D n l (s.step t) ∧ (k < 2 ∧ Drain.Reads n (k + 1) (s.step t) ∨ Drain.Got n 1 (s.step t)) := by
  obtain ⟨hd, hmem, hfr⟩ := h.wait (t := t) hr.cycle
  have hl : s.fr.llIn.loadHead = false := hr.load
  have hrd : (s.ll.control s.fr.llIn).llRd = false := by simp [LinkedList.control_idle h.llState, LinkedList.idleStep, hl]
  have hcyc : (s.step t).fr.cycle = 1 := by
    simp [hfr, FlowReassembly.drainWait, FlowReassembly.compareDefault, hr.head, hr.cycle]
  have hhead : (s.step t).ll.headOutValid = s.ll.llRdValid := by
    simp [FlowSys.step, LinkedList.step, LinkedList.control_idle h.llState, LinkedList.idleStep]
  refine ⟨hd, ?_⟩
  have hred := hr.reading
  -- the memory answers two cycles after the request
  obtain rfl | rfl | rfl : k = 0 ∨ k = 1 ∨ k = 2 := by omega
  · exact .inl ⟨by omega, hcyc, by rw [hfr]; rfl, by rw [hmem]; exact hred.step_zero hrd,
      hhead.trans hred.2.2.1⟩
  · exact .inl ⟨by omega, hcyc, by rw [hfr]; rfl, by rw [hmem]; exact hred.step_one hrd,
      hhead.trans hred.2.2.1⟩
  · refine .inr ⟨hcyc, by rw [hfr]; rfl, by rw [hfr]; rfl, hred.step_two hrd, hhead.trans hred.2.2.1, ?_, by simp⟩
    rw [hmem, ← hred.2.2.2]
    simp [FlowSys.step, LinkedList.step, LinkedList.control_idle h.llState, LinkedList.idleStep, hred.2.2.1]

theorem Drain.Got.step_one (h : Drain e prev p D n l s) (hg : Drain.Got n 1 s) :
    Drain e prev p D n l (s.step t) ∧ Drain.Got n 2 (s.step t) := by
  obtain ⟨hd, hmem, hfr⟩ := h.wait (t := t) hg.cycle
  have hv : s.ll.headOutValid = true := hg.head
  have hl : s.fr.llIn.loadHead = false := hg.load
  refine ⟨hd, ?_, by rw [hfr]; rfl, by rw [hfr]; rfl, ?_, ?_, ?_, fun _ => ?_⟩
  · simp [hfr, FlowReassembly.drainWait, hv]
  · exact hg.noRead.step (by simp [LinkedList.control_idle h.llState, LinkedList.idleStep, hl])
  · simp [FlowSys.step, LinkedList.step, LinkedList.control_idle h.llState, LinkedList.idleStep, hg.noRead.rdValid]
  · rw [hmem, ← hg.headOut]
    simp [FlowSys.step, LinkedList.step, LinkedList.control_idle h.llState, LinkedList.idleStep, hg.noRead.rdValid]
  · obtain ⟨x, hx, -⟩ := h.held.linked.1.mem_eq
    simp [hfr, FlowReassembly.drainWait, hv, hg.headOut, hx, OooPkt.node]

theorem Held.drop {mem : LlPtr → Entry} {free : List LlPtr} (h : Held mem free (n :: l)) :
    Held (upd mem n.1 .zero) (free ++ [n.1]) l := by
  have hn := h.nodup
  rw [List.map_cons, List.nodup_append, List.nodup_cons] at hn
  refine ⟨h.linked.2.upd hn.2.1.1, by simpa using h.nodup, fun f hf => ?_⟩
  rcases List.mem_append.1 hf with hf | hf
  · rw [Chain.upd_ne (hn.2.2 f hf n.1 (by simp))]
    exact h.zero f hf
  · rw [List.mem_singleton.1 hf, Chain.upd_same]
    rfl

def pauses (s : FlowSys) (t : SlowTick) : Bool :=
  s.fr.state == .compare && s.fr.metaDataR.seq == s.fr.fceDataR.seq && s.fr.cycle == 2 && s.fr.nextSeq == s.fr.endP &&
    !s.ll.headOut.last && t.full

theorem Work.expected_done (h : Work e prev p s) (hq : p.info.seq = (OooFlow.after e prev).seq) {D R : List OooPkt}
    (hs : splitAt p.info.endSeq (OooFlow.after e prev).list = (D, R)) :
    OooFlow.after e (prev ++ [p]) = ⟨endOf p.info.endSeq D, R⟩ ∧ (OooFlow.after e (prev ++ [p])).Ordered ∧
      OooFlow.emitted ⟨e, []⟩ (prev ++ [p]) =
        OooFlow.emitted ⟨e, []⟩ prev ++ (p.info.pktID, false) :: D.map fun y => (y.pktID, false) := by
  refine ⟨?_, ?_, ?_⟩
  · simp [OooFlow.after_concat, OooFlow.next, hq, hs]
  · rw [OooFlow.after_concat]
    exact h.ordered.next h.clear
  · rw [OooFlow.emitted_concat]
    show _ ++ (OooFlow.after e prev).emits p = _
    simp [OooFlow.emits, hq, hs]

theorem endOf_concat (x : BitVec 32) (D : List OooPkt) (y : OooPkt) : endOf x (D ++ [y]) = y.endSeq := by
  simp [endOf]

theorem Drain.taken_step (h : Drain e prev p D n l s) : (s.step t).taken = prev ++ [p] :=
  (step_taken (by simp [h.state])).trans h.work.taken

section
variable (h : Drain e prev p D n l s) (hg : Drain.Got n 2 s)
include h hg

theorem Drain.Got.rests : (s.step t).ll.Rests :=
  LinkedList.Rests.step ⟨h.llState, hg.noRead, hg.head, .inl h.outReady⟩ h.start hg.load (.inl h.empty)

theorem Drain.Got.headOut_eq : ∃ x, s.ll.headOut = n.2.node x l.isEmpty ∧ ∀ m ∈ l.head?, x = m.1 := by
  obtain ⟨x, hcell, hx⟩ := h.held.linked.1.mem_eq
  exact ⟨x, hg.headOut.trans hcell, hx⟩

end

theorem Drain.freed (h : Drain e prev p D n l s) (hs : (s.step t).fr.llStoreHead = true)
    (ha : (s.step t).fr.llHeadWrAddr = s.fr.llPointer) (hz : (s.step t).fr.llHeadIn = .zero) :
    Held (s.step t).viewMem (s.step t).viewFree l := by
  have hv : (s.step t).viewMem = upd s.viewMem n.1 .zero := by
    rw [viewMem, step_memNext h.llState, hs, ha, hz, h.pointer]
    rfl
  have hf : (s.step t).viewFree = s.viewFree ++ [n.1] := by
    rw [viewFree, step_freeNext h.llState h.room h.empty, hs, ha, h.pointer]
    rfl
  rw [hv, hf]
  exact Held.drop h.held

theorem Drain.release_last (h : Drain e prev p D n [] s) (hg : Drain.Got n 2 s) (heq : n.2.seq = s.fr.endP) :
    Writes e [] (s.step t) := by
  obtain ⟨x, hhead, -⟩ := hg.headOut_eq h
  have hsplit := h.split
  rw [splitAt, if_pos heq] at hsplit
  obtain ⟨haft, hord, hemit⟩ := h.work.expected_done h.expected hsplit
  have htk := h.taken_step (t := t)
  have hfr : (s.step t).fr = s.fr.drainLast s.ll.headOut := by
    refine (FlowReassembly.step_inorder h.state h.inorder).trans ?_
    simp [FlowReassembly.inorder, hg.cycle, hg.nextSeq rfl, heq, hhead, OooPkt.node]
  -- the node is put out whether or not the packet closes the flow
  have hput : putOut (s.fr.drainLast s.ll.headOut) = [(n.2.pktID, false)] := by
    rw [hhead]
    by_cases hfin : s.fr.metaDataR.finRst = true <;>
      simp [putOut, FlowReassembly.drainLast, FlowReassembly.drainHead, FlowReassembly.drained, OooPkt.node, hfin]
  refine ⟨by rw [hfr]; rfl, by rw [hfr]; exact h.start, by rw [hfr]; exact hg.load, by rw [hfr]; exact h.empty, hg.rests h,
    h.freed (by rw [hfr]; rfl) (by rw [hfr]; rfl) (by rw [hfr]; rfl), ?_, by rw [hfr]; rfl, by rw [htk]; exact hord, ?_⟩
  · rw [htk, haft, hfr, hhead]
    refine ⟨?_, rfl, rfl, nofun⟩
    rw [show (splitAt n.2.endSeq (List.map Prod.snd ([] : List (LlPtr × OooPkt)))).1 = [] from rfl, endOf_concat]
    rfl
  · rw [htk, hemit, step_out hfr hput, h.out]
    simp [splitAt]

theorem Drain.release_next {m : LlPtr × OooPkt} (h : Drain e prev p D n (m :: l) s) (hg : Drain.Got n 2 s)
    (heq : n.2.seq = s.fr.endP) (hp : s.pauses t = false) :
    Drain e prev p (D ++ [n.2]) m l (s.step t) ∧ Drain.Asks m (s.step t) := by
  obtain ⟨x, hhead, hx⟩ := hg.headOut_eq h
  have hseq := hg.nextSeq rfl
  have hsplit := h.split
  rw [splitAt, if_pos heq] at hsplit
  have hfull : t.full = false := by
    simpa [pauses, h.state, h.inorder, hg.cycle, hseq, heq, hhead, OooPkt.node] using hp
  have hfr : (s.step t).fr = (s.fr.drainHead s.ll.headOut).drainLoad s.ll.headOut := by
    refine (FlowReassembly.step_inorder h.state h.inorder).trans ?_
    simp [FlowReassembly.inorder, hg.cycle, hseq, heq, hhead, OooPkt.node, frIn, hfull]
  have hend : (s.step t).fr.endP = n.2.endSeq := by
    rw [hfr, hhead]
    rfl
  have hput : putOut ((s.fr.drainHead s.ll.headOut).drainLoad s.ll.headOut) = [(n.2.pktID, false)] := by
    rw [hhead]
    rfl
  have hrest := hg.rests (t := t) h
  refine ⟨⟨⟨h.taken_step, by rw [hfr]; exact h.work.info, by rw [hfr]; rfl, h.work.ordered, h.work.clear⟩,
    by rw [hfr]; exact h.state, by rw [hfr]; exact h.inorder, by rw [hfr]; exact h.start, by rw [hfr]; exact h.empty, hrest.state,
    LinkedList.idle_outReady h.llState |>.trans h.empty, by rw [hend, endOf_concat], ?_, by rw [hfr]; exact h.llValid, h.expected,
    ?_, h.freed (by rw [hfr]; rfl) (by rw [hfr]; rfl) (by rw [hfr]; rfl), ?_⟩, ?_⟩
  · rw [hfr, hhead]
    exact hx m rfl
  · rw [hend, hsplit]
    simp
  · rw [step_out hfr hput, h.out]
    simp
  · exact ⟨by rw [hfr]; rfl, by rw [hfr]; rfl, hrest.noRead, hrest.head⟩

theorem Drain.stop (h : Drain e prev p D n l s) (hg : Drain.Got n 2 s) (hne : n.2.seq ≠ s.fr.endP) :
    Writes e (n :: l) (s.step t) := by
  have hsplit := h.split
  rw [splitAt, if_neg hne] at hsplit
  obtain ⟨haft, hord, hemit⟩ := h.work.expected_done h.expected hsplit
  have htk := h.taken_step (t := t)
  have hfr : (s.step t).fr = s.fr.drainStop := by
    refine (FlowReassembly.step_inorder h.state h.inorder).trans ?_
    simp [FlowReassembly.inorder, hg.cycle, hg.nextSeq rfl, hne]
  refine ⟨by rw [hfr]; rfl, by rw [hfr]; exact h.start, by rw [hfr]; exact hg.load, by rw [hfr]; exact h.empty, hg.rests h, ?_, ?_,
    by rw [hfr]; rfl, by rw [htk]; exact hord, ?_⟩
  · have hs : (s.step t).fr.llStoreHead = false := by
      rw [hfr]
      exact hg.store
    rw [viewMem_calm hs, viewFree_calm hs, step_memNext h.llState, step_freeNext h.llState h.room h.empty]
    exact h.held
  · rw [htk, haft, hfr]
    refine ⟨?_, rfl, h.llValid, ?_⟩
    · show s.fr.endP = _
      rw [h.endP]
      simp
    · simp [FlowReassembly.drainStop, h.pointer]
  · rw [htk, hemit, step_quiet hfr rfl, h.out]
    simp

theorem Drain.Got.step_two (h : Drain e prev p D n l s) (hg : Drain.Got n 2 s) (hp : s.pauses t = false) :
    (∃ N, Writes e N (s.step t)) ∨
      ∃ m l', l = m :: l' ∧ Drain e prev p (D ++ [n.2]) m l' (s.step t) ∧ Drain.Asks m (s.step t) := by
  by_cases heq : n.2.seq = s.fr.endP
  · cases l with
    | nil => exact .inl ⟨[], h.release_last hg heq⟩
    | cons m l => exact .inr ⟨m, l, rfl, h.release_next hg heq hp⟩
  · exact .inl ⟨n :: l, h.stop hg heq⟩

theorem Fresh.taken_step (h : Fresh e prev p N s) (hS : s.fr.state = .compare) : (s.step t).taken = prev ++ [p] :=
  (step_taken (by simp [hS])).trans h.work.taken

theorem Fresh.release_alone (h : Fresh e prev p [] s) (hS : s.fr.state = .compare) (hf : s.fr.fceDataR = s.entry)
    (hin : s.fr.metaDataR.seq = s.fr.fceDataR.seq) (hq : p.info.seq = (OooFlow.after e prev).seq) : Writes e [] (s.step t) := by
  obtain ⟨hrest, hheld⟩ := calm_step (t := t) h.calm h.rests h.held
  have htk := h.taken_step (t := t) hS
  have hll : s.fr.fceDataR.llValid = false := by
    rw [hf]
    exact h.points.llValid
  have hfr : (s.step t).fr = s.fr.releaseAlone := by
    refine (FlowReassembly.step_inorder hS hin).trans ?_
    simp [FlowReassembly.inorder, h.cycle, hll]
  have hsplit : splitAt p.info.endSeq (OooFlow.after e prev).list = ([], []) := by
    rw [← h.points.list]
    rfl
  obtain ⟨haft, hord, hemit⟩ := h.work.expected_done hq hsplit
  have hput : putOut s.fr.releaseAlone = [(p.info.pktID, false)] := by
    by_cases hfin : p.info.finRst = true <;> simp [putOut, FlowReassembly.releaseAlone, h.work.info, hfin, p.flag]
  have hs : (s.step t).fr.llStoreHead = false := by
    rw [hfr]
    exact h.calm.store
  refine ⟨by rw [hfr]; rfl, by rw [hfr]; exact h.calm.start, by rw [hfr]; exact h.calm.load, by rw [hfr]; exact h.calm.empty, hrest,
    by rwa [viewMem_calm hs, viewFree_calm hs], ?_, by rw [hfr]; rfl, by rw [htk]; exact hord, ?_⟩
  · rw [htk, haft, hfr]
    exact ⟨h.endP, rfl, rfl, nofun⟩
  · rw [htk, hemit, step_out hfr hput, h.out]
    rfl

theorem Fresh.release_first (h : Fresh e prev p (n :: l) s) (hS : s.fr.state = .compare) (hf : s.fr.fceDataR = s.entry)
    (hd : s.fr.ch3Data = s.entry) (hin : s.fr.metaDataR.seq = s.fr.fceDataR.seq)
    (hq : p.info.seq = (OooFlow.after e prev).seq) : Drain e prev p [] n l (s.step t) ∧ Drain.Asks n (s.step t) := by
  obtain ⟨hrest, hheld⟩ := calm_step (t := t) h.calm h.rests h.held
  have hll : s.fr.fceDataR.llValid = true := by
    rw [hf]
    exact h.points.llValid
  have hfr : (s.step t).fr = s.fr.releaseLoad := by
    refine (FlowReassembly.step_inorder hS hin).trans ?_
    simp [FlowReassembly.inorder, h.cycle, hll]
  have hput : putOut s.fr.releaseLoad = [(p.info.pktID, false)] := by
    simp [putOut, FlowReassembly.releaseLoad, h.work.info, p.flag]
  have hs : (s.step t).fr.llStoreHead = false := by
    rw [hfr]
    exact h.calm.store
  refine ⟨⟨⟨h.taken_step hS, by rw [hfr]; exact h.work.info, by rw [hfr]; rfl, h.work.ordered, h.work.clear⟩, by rw [hfr]; exact hS,
    by rw [hfr]; exact hin, by rw [hfr]; exact h.calm.start, by rw [hfr]; exact h.calm.empty, hrest.state,
    LinkedList.idle_outReady h.rests.state |>.trans h.calm.empty, by rw [hfr]; exact h.endP, ?_, ?_, hq, ?_,
    by rwa [viewMem_calm hs, viewFree_calm hs], by rw [step_out hfr hput, h.out]; rfl⟩, ?_⟩
  · rw [hfr]
    show s.fr.fceDataR.pointer = n.1
    rw [hf]
    exact h.points.pointer n rfl
  · rw [hfr]
    show s.fr.ch3Data.llValid = true
    rw [hd]
    exact h.points.llValid
  · rw [hfr, ← h.points.list]
    show _ = ([] ++ (splitAt s.fr.endP _).1, (splitAt s.fr.endP _).2)
    rw [h.endP]
    rfl
  · exact ⟨by rw [hfr]; rfl, by rw [hfr]; rfl, hrest.noRead, hrest.head⟩

theorem Fresh.release (h : Fresh e prev p N s) (hS : s.fr.state = .compare) (hf : s.fr.fceDataR = s.entry)
    (hd : s.fr.ch3Data = s.entry) (hq : p.info.seq = (OooFlow.after e prev).seq) :
    (∃ N, Writes e N (s.step t)) ∨ ∃ n l, N = n :: l ∧ Drain e prev p [] n l (s.step t) ∧ Drain.Asks n (s.step t) := by
  have hin : s.fr.metaDataR.seq = s.fr.fceDataR.seq := by rw [h.work.info, hf, h.points.seq, hq]
  cases N with
  | nil => exact .inl ⟨[], h.release_alone hS hf hin hq⟩
  | cons n l => exact .inr ⟨n, l, rfl, h.release_first hS hf hd hin hq⟩

theorem Fresh.behind (h : Fresh e prev p N s) (hS : s.fr.state = .compare) (hf : s.fr.fceDataR = s.entry)
    (hd : s.fr.ch3Data = s.entry) (hne : p.info.seq ≠ (OooFlow.after e prev).seq)
    (hlt : ¬ p.info.seq > (OooFlow.after e prev).seq) : AtRest e N (s.step t) := by
  have hseq : s.fr.fceDataR.seq = (OooFlow.after e prev).seq := by rw [hf, h.points.seq]
  have hfr : (s.step t).fr = s.fr.overlap := by
    refine FlowReassembly.step_behind hS ?_ ?_ <;> rw [h.work.info, hseq]
    · exact hne
    · exact hlt
  have htk := h.taken_step (t := t) hS
  have hentry := step_entry (t := t) h.work.wren
  obtain ⟨hrest, hheld⟩ := calm_step (t := t) h.calm h.rests h.held
  have hnext : OooFlow.after e (prev ++ [p]) = OooFlow.after e prev := by
    rw [OooFlow.after_concat, OooFlow.next, if_neg hne, if_neg hlt]
  refine ⟨by rw [hfr]; rfl, by rw [hfr]; exact ⟨h.calm.start, h.calm.load, h.calm.store, h.calm.empty⟩, hrest, fun _ => ?_, hheld,
    by rw [hentry, htk, hnext]; exact h.points, by rw [htk, hnext]; exact h.work.ordered, ?_⟩
  · rw [hentry, hfr]
    exact hd
  · have hput : putOut s.fr.overlap = [(p.info.pktID, true)] := by
      simp [putOut, FlowReassembly.overlap, h.work.info]
    rw [htk, OooFlow.emitted_concat, step_out hfr hput, h.out]
    show _ = _ ++ (OooFlow.after e prev).emits p
    rw [OooFlow.emits, if_neg hne, if_neg hlt]

end FlowSys

end Pigasus
