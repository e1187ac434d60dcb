import Pigasus.FlowReassembly

/-!
# The moves of the slow path

What `flow_reassembly` can do in one cycle, one constructor for each branch of
its state machine.
-/

namespace Pigasus

namespace FlowReassembly

/-- The packet is the expected one, in cycle `n` of the comparison. -/
structure Inorder (s : FlowReassembly) (n : Nat) : Prop where
  state : s.state = .compare
  seq : s.metaDataR.seq = s.fceDataR.seq
  cycle : s.cycle = n

/-- The packet is ahead of the expected one, in cycle `n` of the comparison. -/
structure Ahead (s : FlowReassembly) (n : Nat) : Prop where
  state : s.state = .compare
  ne : s.metaDataR.seq ≠ s.fceDataR.seq
  seq : s.metaDataR.seq > s.fceDataR.seq
  cycle : s.cycle = n

inductive Move (s : FlowReassembly) (ll : LinkedList) (i : FrIn) : FlowReassembly → Prop
  | take (hS : s.state = .idle) (hm : i.metaValid = true) (hf : i.fceValid = true) : Move s ll i (s.take i)
  | idle (hS : s.state = .idle) : Move s ll i (s.idleDefault i)
  | getFce (hS : s.state = .getFce) : Move s ll i (s.getFceStep i)
  | waitWrReady (hS : s.state = .waitWrReady) : Move s ll i (s.waitWrReadyStep i)
  | releaseAlone (h : s.Inorder 0) (hl : s.fceDataR.llValid = false) : Move s ll i s.releaseAlone
  | releaseLoad (h : s.Inorder 0) (hl : s.fceDataR.llValid = true) : Move s ll i s.releaseLoad
  | drainWait (h : s.Inorder 1) : Move s ll i (s.drainWait ll)
  | drainLast (h : s.Inorder 2) (hn : s.nextSeq = s.endP) (hl : ll.headOut.last = true) :
      Move s ll i (s.drainLast ll.headOut)
  | drainPause (h : s.Inorder 2) (hn : s.nextSeq = s.endP) (hl : ll.headOut.last = false) (hf : i.reorderAlmostFull = true) :
      Move s ll i { s.drainHead ll.headOut with cycle := 3 }
  | drainNext (h : s.Inorder 2) (hn : s.nextSeq = s.endP) (hl : ll.headOut.last = false) (hf : i.reorderAlmostFull = false) :
      Move s ll i ((s.drainHead ll.headOut).drainLoad ll.headOut)
  | drainStop (h : s.Inorder 2) (hn : s.nextSeq ≠ s.endP) : Move s ll i s.drainStop
  | pauseWait (h : s.Inorder 3) (hf : i.reorderAlmostFull = true) : Move s ll i s.compareDefault
  | pauseNext (h : s.Inorder 3) (hf : i.reorderAlmostFull = false) : Move s ll i (s.compareDefault.drainLoad ll.headOut)
  | inorderOther (n : Nat) (h : s.Inorder (n + 4)) : Move s ll i { s.compareDefault with cycle := 0 }
  | storeStart (h : s.Ahead 0) : Move s ll i s.storeStart
  | storePointer (h : s.Ahead 1) : Move s ll i (s.storePointer ll)
  | storeInsert (h : s.Ahead 2) : Move s ll i s.storeInsert
  | storeWait (h : s.Ahead 3) (hd : ll.done = false) : Move s ll i (s.storeWait ll)
  | storeDone (h : s.Ahead 3) (hd : ll.done = true) : Move s ll i (s.storeDone ll)
  | storeOther (n : Nat) (h : s.Ahead (n + 4)) : Move s ll i { s.storeDefault with cycle := 0 }
  | overlap (hS : s.state = .compare) (hne : s.metaDataR.seq ≠ s.fceDataR.seq) (hlt : ¬ s.metaDataR.seq > s.fceDataR.seq) :
      Move s ll i s.overlap

variable (s : FlowReassembly) (ll : LinkedList) (i : FrIn)

theorem storeStart_keeps :
    s.storeStart.metaDataR = s.metaDataR ∧ s.storeStart.fceDataR = s.fceDataR ∧ s.storeStart.state = s.state := by
  unfold storeStart
  split <;> exact ⟨rfl, rfl, rfl⟩

theorem storePointer_keeps : (s.storePointer ll).metaDataR = s.metaDataR ∧
    (s.storePointer ll).fceDataR = s.fceDataR ∧ (s.storePointer ll).state = s.state := by
  unfold storePointer
  split <;> exact ⟨rfl, rfl, rfl⟩

theorem inorder_move (hS : s.state = .compare) (hq : s.metaDataR.seq = s.fceDataR.seq) : s.Move ll i (s.inorder ll i) := by
  unfold inorder
  split
  · rename_i hc
    split
    · rename_i hl
      exact .releaseLoad ⟨hS, hq, hc⟩ hl
    · rename_i hl
      exact .releaseAlone ⟨hS, hq, hc⟩ (by simpa using hl)
  · rename_i hc
    exact .drainWait ⟨hS, hq, hc⟩
  · rename_i hc
    split
    · rename_i hn
      have hn : s.nextSeq = s.endP := by simpa using hn
      split
      · rename_i hl
        exact .drainLast ⟨hS, hq, hc⟩ hn hl
      · rename_i hl
        have hl : ll.headOut.last = false := by simpa using hl
        split
        · rename_i hf
          exact .drainPause ⟨hS, hq, hc⟩ hn hl hf
        · rename_i hf
          exact .drainNext ⟨hS, hq, hc⟩ hn hl (by simpa using hf)
    · rename_i hn
      exact .drainStop ⟨hS, hq, hc⟩ (by simpa using hn)
  · rename_i hc
    split
    · rename_i hf
      exact .pauseWait ⟨hS, hq, hc⟩ hf
    · rename_i hf
      exact .pauseNext ⟨hS, hq, hc⟩ (by simpa using hf)
  · rename_i h0 h1 h2 h3
    simp only [imp_false] at h0 h1 h2 h3
    obtain ⟨k, hk⟩ : ∃ k, s.cycle = k + 4 := ⟨s.cycle - 4, by omega⟩
    exact .inorderOther k ⟨hS, hq, hk⟩

theorem outOfOrder_move (hS : s.state = .compare) (hne : s.metaDataR.seq ≠ s.fceDataR.seq)
    (hq : s.metaDataR.seq > s.fceDataR.seq) : s.Move ll i (s.outOfOrder ll) := by
  unfold outOfOrder
  split
  · rename_i hc
    exact .storeStart ⟨hS, hne, hq, hc⟩
  · rename_i hc
    exact .storePointer ⟨hS, hne, hq, hc⟩
  · rename_i hc
    exact .storeInsert ⟨hS, hne, hq, hc⟩
  · rename_i hc
    split
    · rename_i hd
      exact .storeDone ⟨hS, hne, hq, hc⟩ hd
    · rename_i hd
      exact .storeWait ⟨hS, hne, hq, hc⟩ (by simpa using hd)
  · rename_i h0 h1 h2 h3
    simp only [imp_false] at h0 h1 h2 h3
    obtain ⟨k, hk⟩ : ∃ k, s.cycle = k + 4 := ⟨s.cycle - 4, by omega⟩
    exact .storeOther k ⟨hS, hne, hq, hk⟩

theorem step_move : s.Move ll i (s.step ll i) := by
  cases hS : s.state with
  | idle =>
    simp only [step, hS]
    split
    · rename_i h
      simp only [Bool.and_eq_true] at h
      exact .take hS h.1.1 h.1.2
    · exact .idle hS
  | getFce =>
    simp only [step, hS]
    exact .getFce hS
  | waitWrReady =>
    simp only [step, hS]
    exact .waitWrReady hS
  | compare =>
    simp only [step, hS, beq_iff_eq]
    split
    · rename_i hq
      exact s.inorder_move ll i hS hq
    · rename_i hne
      split
      · rename_i hq
        exact s.outOfOrder_move ll i hS hne hq
      · rename_i hlt
        exact .overlap hS hne hlt

end FlowReassembly

end Pigasus
