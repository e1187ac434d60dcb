import Pigasus.FrMoves
import Pigasus.Startup

/-!
# The bytes in front of a packet

A released packet should carry the last seven bytes of the packet of its flow
that was released before it. The nodes that the slow path takes from a list do;
a packet that is released in order carries its own.
-/

namespace Pigasus

open Hdl

/-! ## Releases -/

structure Release where
  tuple : Tuple
  pktID : PktId
  -- the field with which the packet came in, and the one with which it leaves
  carried : BitVec 56
  last7Bytes : BitVec 56
  -- it has bytes, and they are to be checked
  payload : Bool
  -- there was no entry for its flow
  first : Bool
  deriving DecidableEq

def Metadata.checked (m : Metadata) : Bool := m.pktFlags == .check || m.pktFlags == .ooo

def FastPath.release (s : FastPath) (i : FastIn) : Option Release :=
  let d := s.decision i
  if !s.ch1InsertStall i && d.outMetaValid && d.outMetaData.pktFlags != .drop then
    some ⟨d.outMetaData.tuple, d.outMetaData.pktID, s.m10.last7Bytes, d.outMetaData.last7Bytes,
      d.outMetaData.checked && s.m10.len != 0, d.ch1Opcode == .insert⟩
  else none

namespace FlowReassembly

variable (s : FlowReassembly) (ll : LinkedList) (i : FrIn)

/-- The packet that is released on the way from `s` to `t`: the one that is held, or behind it a node of the list. -/
def releaseTo (t : FlowReassembly) : Option Release :=
  if t.reorderValid && t.reorderMeta.pktFlags != .drop then
    some ⟨t.reorderMeta.tuple, t.reorderMeta.pktID,
      if s.cycle == 0 then s.metaDataR.last7Bytes else ll.headOut.last7Bytes, t.reorderMeta.last7Bytes,
      t.reorderMeta.checked && (if s.cycle == 0 then s.metaDataR.len else ll.headOut.len) != 0, false⟩
  else none

def release : Option Release := s.releaseTo ll (s.step ll i)

/-- The packet has been released, and the nodes behind it are being looked at. -/
def draining : Bool := s.state == .compare && s.metaDataR.seq == s.fceDataR.seq && s.cycle != 0

end FlowReassembly

namespace Wrapper

def fastRelease (s : Wrapper) : Option Release := s.fast.release s.fastIn

def slowRelease (s : Wrapper) (i : WrapIn) : Option Release := s.slow.fr.release s.slow.ll (s.slow.frIn (s.slowIn i))

end Wrapper

/-! ## What was released before -/

/-- The field that the packet of a flow released last came in with, once bytes of the flow have been released. -/
abbrev Before := Tuple → Option (BitVec 56)

def Before.note (b : Before) : Option Release → Before
  | none => b
  | some r =>
    upd b r.tuple (if r.payload || (!r.first && (b r.tuple).isSome) then some r.carried else none)

/-- The wrapper, with the packets that it has taken in and what it has released. -/
structure Traced where
  w : Wrapper
  accepted : List Metadata
  before : Before

namespace Traced

def reset : Traced := ⟨.reset, [], fun _ => none⟩

/-- The releases of the fast path come first in a cycle. -/
def beforeSlow (x : Traced) : Before := x.before.note x.w.fastRelease

def step (x : Traced) (i : WrapIn) : Traced where
  w := x.w.step i
  accepted := if x.w.tupleInValid i then i.inMetaData :: x.accepted else x.accepted
  before := x.beforeSlow.note (x.w.slowRelease i)

def CameIn (x : Traced) (id : PktId) (f : BitVec 56) : Prop := ∃ m ∈ x.accepted, m.pktID = id ∧ m.last7Bytes = f

/-- What leaves with bytes to check leaves with the field of the packet before it. -/
structure Follows (x : Traced) (i : WrapIn) : Prop where
  fast : ∀ r, x.w.fastRelease = some r → r.payload = true → r.first = false →
    ∀ f, x.before r.tuple = some f → r.last7Bytes = f
  slow : ∀ r, x.w.slowRelease i = some r → r.payload = true →
    ∀ f, x.beforeSlow r.tuple = some f → r.last7Bytes = f
  fastCameIn : ∀ r, x.w.fastRelease = some r → x.CameIn r.pktID r.carried
  slowCameIn : ∀ r, x.w.slowRelease i = some r → x.CameIn r.pktID r.carried

/-- A packet that is released in order came in with the field of the packet before it; while the slow path looks at the
list of a flow, the fast path releases no packet of that flow, and a node that is taken from the list holds a packet. -/
structure InStep (x : Traced) (i : WrapIn) : Prop where
  fast : ∀ r, x.w.fastRelease = some r → r.payload = true → r.first = false →
    ∀ f, x.before r.tuple = some f → r.carried = f
  slow : ∀ r, x.w.slowRelease i = some r → x.w.slow.fr.draining = false → r.payload = true →
    ∀ f, x.beforeSlow r.tuple = some f → r.carried = f
  alone : ∀ r, x.w.fastRelease = some r → x.w.slow.fr.draining = true → r.tuple ≠ x.w.slow.fr.metaDataR.tuple
  node : ∀ r, x.w.slowRelease i = some r → x.w.slow.fr.draining = true → x.w.slow.ll.headOut.valid = true

end Traced

/-! ## What the slow path releases -/

namespace FlowReassembly

/-- What the cycles of the slow path rely on. -/
structure Steady (s : FlowReassembly) : Prop where
  getFce : s.state = .getFce → s.reorderValid = false ∧ s.cycle = 0
  taken : s.state ≠ .idle → s.metaDataR.pktFlags = .check
  draining : s.draining = true → s.reorderMeta.tuple = s.metaDataR.tuple

theorem Steady.reset : FlowReassembly.reset.Steady where
  getFce h := by cases h
  taken h := absurd rfl h
  draining h := by cases h

variable {s : FlowReassembly} {ll : LinkedList} {i : FrIn} {r : Release}

theorem draining_iff : s.draining = true ↔ s.state = .compare ∧ s.metaDataR.seq = s.fceDataR.seq ∧ s.cycle ≠ 0 := by
  simp [draining, and_assoc]

theorem Inorder.draining {n : Nat} (h : s.Inorder n) (hn : n ≠ 0) : s.draining = true :=
  draining_iff.2 ⟨h.state, h.seq, h.cycle ▸ hn⟩

theorem Inorder.not_draining (h : s.Inorder 0) : s.draining = false := by simp [FlowReassembly.draining, h.cycle]

structure Passes (s : FlowReassembly) (r : Release) : Prop where
  state : s.state ≠ .idle
  draining : s.draining = false
  tuple : r.tuple = s.metaDataR.tuple
  pktID : r.pktID = s.metaDataR.pktID
  carried : r.carried = s.metaDataR.last7Bytes
  last7Bytes : r.last7Bytes = s.metaDataR.last7Bytes

structure Drains (s : FlowReassembly) (ll : LinkedList) (r : Release) : Prop where
  draining : s.draining = true
  tuple : r.tuple = s.metaDataR.tuple
  pktID : r.pktID = ll.headOut.pktID
  carried : r.carried = ll.headOut.last7Bytes
  last7Bytes : r.last7Bytes = s.last7Bytes

theorem release_cases (hs : s.Steady) (h : s.release ll i = some r) :
    r.first = false ∧ (s.Passes r ∨ s.Drains ll r) := by
  have hm := s.step_move ll i
  unfold release releaseTo at h
  generalize s.step ll i = t at h hm
  split at h
  · rename_i hc
    obtain rfl := Option.some.inj h
    clear h
    simp only [Bool.and_eq_true, bne_iff_ne] at hc
    refine ⟨rfl, ?_⟩
    cases hm with
    | take | idle | waitWrReady | drainWait | drainStop | pauseWait | pauseNext | inorderOther | storeInsert | storeWait |
      storeOther => exact absurd hc.1 Bool.false_ne_true
    | getFce hS =>
      have hv : s.reorderValid = true := hc.1
      exact absurd ((hs.getFce hS).1.symm.trans hv) Bool.false_ne_true
    | releaseAlone h =>
      left
      have hst : s.state ≠ .idle := by simp [h.state]
      refine ⟨hst, h.not_draining, ?_, ?_, ?_, ?_⟩ <;> simp [releaseAlone, h.cycle] <;> split_ifs <;> rfl
    | releaseLoad h =>
      left
      have hst : s.state ≠ .idle := by simp [h.state]
      exact ⟨hst, h.not_draining, rfl, rfl, by simp [h.cycle], rfl⟩
    | drainLast h =>
      right
      have hd := h.draining (by decide)
      refine ⟨hd, ?_, ?_, ?_, ?_⟩ <;> simp [drainLast, h.cycle] <;> split_ifs <;>
        first | rfl | exact hs.draining hd
    | drainPause h | drainNext h =>
      right
      have hd := h.draining (by decide)
      exact ⟨hd, hs.draining hd, rfl, by simp [h.cycle], rfl⟩
    | storeStart h =>
      unfold storeStart at hc
      split at hc <;> exact absurd hc.1 Bool.false_ne_true
    | storePointer h =>
      unfold storePointer at hc
      split at hc <;> exact absurd hc.1 Bool.false_ne_true
    | storeDone h =>
      simp only [storeDone] at hc
      exact absurd (by simp [hc.1]) hc.2
    | overlap => exact absurd rfl hc.2
  · cases h

theorem Ahead.not_draining {n : Nat} (h : s.Ahead n) {t : FlowReassembly} (hd : t.draining = true)
    (hm : t.metaDataR = s.metaDataR) (hf : t.fceDataR = s.fceDataR) : False := by
  have hq := (draining_iff.1 hd).2.1
  rw [hm, hf] at hq
  exact h.ne hq

theorem Steady.step (hs : s.Steady) (hin : i.metaValid = true → i.metaData.pktFlags = .check) : (s.step ll i).Steady := by
  have hm := s.step_move ll i
  generalize s.step ll i = t at hm
  have keep (hS : s.state = .compare) (hm : t.metaDataR = s.metaDataR) (hg : t.state ≠ .getFce)
      (hd : t.draining = true → t.reorderMeta.tuple = s.metaDataR.tuple) : t.Steady :=
    ⟨fun h => absurd h hg, fun _ => hm ▸ hs.taken (by simp [hS]), fun h => hm ▸ hd h⟩
  cases hm with
  | take hS hv => exact ⟨fun _ => ⟨rfl, rfl⟩, fun _ => hin hv, fun h => by cases h⟩
  | idle hS => exact ⟨fun h => absurd (hS.symm.trans h) (by decide), fun h => absurd hS h, fun h => by
      rw [draining_iff] at h
      exact absurd (hS.symm.trans h.1) (by decide)⟩
  | getFce hS =>
    refine ⟨fun _ => hs.getFce hS, fun _ => hs.taken (by simp [hS]), fun h => ?_⟩
    exact absurd (hs.getFce hS).2 (draining_iff.1 h).2.2
  | waitWrReady hS =>
    refine ⟨fun h => ?_, fun _ => hs.taken (by simp [hS]), fun h => absurd rfl (draining_iff.1 h).2.2⟩
    simp only [waitWrReadyStep] at h
    split at h <;> cases h
  | releaseAlone h | drainLast h | drainStop h =>
    exact keep h.state rfl (fun h => by cases h) fun hd => by cases (draining_iff.1 hd).1
  | releaseLoad h => exact keep h.state rfl (fun hg => absurd (h.state.symm.trans hg) (by decide)) fun _ => rfl
  | drainWait h | drainPause h | drainNext h | pauseWait h | pauseNext h =>
    exact keep h.state rfl (fun hg => absurd (h.state.symm.trans hg) (by decide)) fun _ =>
      hs.draining (h.draining (by decide))
  | inorderOther n h =>
    exact keep h.state rfl (fun hg => absurd (h.state.symm.trans hg) (by decide)) fun hd =>
      absurd rfl (draining_iff.1 hd).2.2
  | storeStart h =>
    obtain ⟨h1, h2, h3⟩ := s.storeStart_keeps
    exact keep h.state h1 (by simp [h3, h.state]) fun hd => (h.not_draining hd h1 h2).elim
  | storePointer h =>
    obtain ⟨h1, h2, h3⟩ := s.storePointer_keeps ll
    exact keep h.state h1 (by simp [h3, h.state]) fun hd => (h.not_draining hd h1 h2).elim
  | storeInsert h | storeWait h | storeOther _ h =>
    exact keep h.state rfl (fun hg => absurd (h.state.symm.trans hg) (by decide)) fun hd =>
      (h.not_draining hd rfl rfl).elim
  | storeDone h =>
    refine keep h.state rfl (fun hg => ?_) fun hd => (h.not_draining hd rfl rfl).elim
    simp only [storeDone] at hg
    split at hg <;> cases hg
  | overlap hS hne => exact keep hS rfl (fun h => by cases h) fun hd => by cases (draining_iff.1 hd).1

theorem draining_next (hs : s.Steady) (hd : (s.step ll i).draining = true) :
    (s.step ll i).metaDataR = s.metaDataR ∧
      ((∃ r, s.release ll i = some r ∧ (s.step ll i).last7Bytes = r.carried) ∨
        (s.draining = true ∧ s.release ll i = none ∧ (s.step ll i).last7Bytes = s.last7Bytes)) := by
  have hm := s.step_move ll i
  unfold release
  generalize s.step ll i = t at hm hd
  cases hm with
  | take => cases hd
  | waitWrReady => exact absurd rfl (draining_iff.1 hd).2.2
  | idle hS => exact absurd (hS.symm.trans (draining_iff.1 hd).1) (by decide)
  | getFce hS => exact absurd (hs.getFce hS).2 (draining_iff.1 hd).2.2
  | releaseAlone | drainLast | drainStop => cases (draining_iff.1 hd).1
  | releaseLoad h =>
    have hf : s.metaDataR.pktFlags ≠ .drop := by simp [hs.taken (by simp [h.state])]
    refine ⟨rfl, .inl ⟨_, if_pos (by simpa [releaseLoad] using hf), ?_⟩⟩
    simp [releaseLoad, h.cycle]
  | drainPause h | drainNext h =>
    refine ⟨rfl, .inl ⟨_, if_pos rfl, ?_⟩⟩
    simp [drainHead, drainLoad, h.cycle]
  | drainWait h | pauseWait h | pauseNext h =>
    exact ⟨rfl, .inr ⟨h.draining (by decide), if_neg Bool.false_ne_true, rfl⟩⟩
  | inorderOther n h => exact absurd rfl (draining_iff.1 hd).2.2
  | storeStart h => exact (h.not_draining hd s.storeStart_keeps.1 s.storeStart_keeps.2.1).elim
  | storePointer h => exact (h.not_draining hd (s.storePointer_keeps ll).1 (s.storePointer_keeps ll).2.1).elim
  | storeInsert h | storeWait h | storeOther _ h | storeDone h => exact (h.not_draining hd rfl rfl).elim
  | overlap hS hne => cases (draining_iff.1 hd).1

end FlowReassembly

/-! ## Where the packets come from -/

def Entry.Holds (P : PktId → BitVec 56 → Prop) (e : Entry) : Prop := e.valid = true → P e.pktID e.last7Bytes

namespace LinkedList

structure All (P : PktId → BitVec 56 → Prop) (s : LinkedList) : Prop where
  mem : ∀ a, (s.mem a).Holds P
  wrData : s.llWrData.Holds P
  entry : s.entry.Holds P
  prevEntry : s.prevEntry.Holds P
  r1 : s.port.r1.Holds P
  q : s.port.q.Holds P
  headOut : s.headOut.Holds P

variable {P : PktId → BitVec 56 → Prop} {s : LinkedList} {i : LlIn}

theorem zero_holds : Entry.zero.Holds P := fun h => by cases h

theorem All.reset : LinkedList.reset.All P where
  mem _ := zero_holds
  wrData := zero_holds
  entry := zero_holds
  prevEntry := zero_holds
  r1 := zero_holds
  q := zero_holds
  headOut := zero_holds

theorem newNode_holds (hn : P i.pktID i.last7Bytes) (next : LlPtr) (last : Bool) : (newNode i next last).Holds P :=
  fun _ => hn

theorem All.compareStep (h : s.All P) (hn : P i.pktID i.last7Bytes) :
    (s.compareStep i).llWrData.Holds P ∧ (s.compareStep i).entry = s.entry ∧
      (s.compareStep i).prevEntry.Holds P ∧ (s.compareStep i).headOut = s.headOut := by
  unfold LinkedList.compareStep insertBetween insertTail
  split
  · split
    · split
      · exact ⟨newNode_holds hn _ _, rfl, h.prevEntry, rfl⟩
      · split
        · exact ⟨h.wrData, rfl, h.prevEntry, rfl⟩
        · refine ⟨h.wrData, rfl, ?_, rfl⟩
          dsimp only
          split
          · exact h.q
          · exact h.prevEntry
        · exact ⟨h.prevEntry, rfl, h.prevEntry, rfl⟩
        · exact ⟨newNode_holds hn _ _, rfl, h.prevEntry, rfl⟩
        · exact ⟨h.wrData, rfl, h.prevEntry, rfl⟩
    · split
      · split
        · split
          · exact ⟨h.entry, rfl, h.prevEntry, rfl⟩
          · exact ⟨newNode_holds hn _ _, rfl, h.prevEntry, rfl⟩
          · exact ⟨h.wrData, rfl, h.prevEntry, rfl⟩
        · exact ⟨h.wrData, rfl, h.prevEntry, rfl⟩
      · exact ⟨h.wrData, rfl, h.prevEntry, rfl⟩
  · refine ⟨?_, rfl, h.prevEntry, rfl⟩
    unfold insertEmpty
    dsimp only
    split
    · exact newNode_holds hn _ _
    · exact h.wrData

theorem All.control (h : s.All P) (hn : s.state = .compare → P i.pktID i.last7Bytes)
    (hz : i.headIn.valid = false) :
    (s.control i).llWrData.Holds P ∧ (s.control i).entry.Holds P ∧ (s.control i).prevEntry.Holds P ∧
      (s.control i).headOut.Holds P := by
  unfold LinkedList.control
  split
  · exact ⟨h.wrData, h.entry, h.prevEntry, h.headOut⟩
  · refine ⟨?_, zero_holds, zero_holds, ?_⟩
    · simp only [idleStep]
      split
      · exact fun hv => absurd (hz.symm.trans hv) Bool.false_ne_true
      · exact h.wrData
    · simp only [idleStep]
      split
      · exact h.q
      · exact h.headOut
  · exact ⟨h.wrData, h.entry, h.prevEntry, h.headOut⟩
  · refine ⟨h.wrData, ?_, h.prevEntry, h.headOut⟩
    simp only [readValidStep]
    split
    · exact h.q
    · exact h.entry
  · rename_i hS
    obtain ⟨h1, h2, h3, h4⟩ := h.compareStep (hn hS)
    exact ⟨h1, h2 ▸ h.entry, h3, h4 ▸ h.headOut⟩

theorem All.step (h : s.All P) (hn : s.state = .compare → P i.pktID i.last7Bytes) (hz : i.headIn.valid = false) :
    (s.step i).All P := by
  obtain ⟨h1, h2, h3, h4⟩ := h.control hn hz
  refine ⟨fun a => ?_, h1, h2, h3, ?_, h.r1, h4⟩
  · simp only [LinkedList.step, wr_apply]
    split
    · exact h.wrData
    · exact h.mem a
  · simp only [LinkedList.step, RdPort.step]
    split
    · exact h.mem _
    · exact h.r1

theorem All.mono {Q : PktId → BitVec 56 → Prop} (hPQ : ∀ id f, P id f → Q id f) (h : s.All P) : s.All Q where
  mem a hv := hPQ _ _ (h.mem a hv)
  wrData hv := hPQ _ _ (h.wrData hv)
  entry hv := hPQ _ _ (h.entry hv)
  prevEntry hv := hPQ _ _ (h.prevEntry hv)
  r1 hv := hPQ _ _ (h.r1 hv)
  q hv := hPQ _ _ (h.q hv)
  headOut hv := hPQ _ _ (h.headOut hv)

def inserting (s : LinkedList) : Prop := s.state = .read ∨ s.state = .readValid ∨ s.state = .compare

theorem inserting_of_step (h : (s.step i).inserting) : s.inserting ∨ i.start = true := by
  cases hS : s.state with
  | init =>
    simp only [inserting, LinkedList.step, LinkedList.control, hS, initStep] at h
    split at h <;> simp at h
  | idle =>
    right
    by_contra hn
    simp [inserting, LinkedList.step, LinkedList.control, hS, idleStep, hn] at h
  | read => exact .inl (.inl hS)
  | readValid => exact .inl (.inr (.inl hS))
  | compare => exact .inl (.inr (.inr hS))

end LinkedList

namespace FlowReassembly

variable {s : FlowReassembly} {ll : LinkedList} {i : FrIn}

theorem storeStart_regs : s.storeStart.llPktId = s.llPktId ∧ s.storeStart.llLast7Bytes = s.llLast7Bytes ∧
    s.storeStart.llStart = s.llStart ∧ s.storeStart.llHeadIn = s.llHeadIn := by
  unfold storeStart
  split <;> exact ⟨rfl, rfl, rfl, rfl⟩

variable (s ll) in
theorem storePointer_regs : (s.storePointer ll).llPktId = s.llPktId ∧
    (s.storePointer ll).llLast7Bytes = s.llLast7Bytes ∧ (s.storePointer ll).llStart = s.llStart ∧
    (s.storePointer ll).llHeadIn = s.llHeadIn := by
  unfold storePointer
  split <;> exact ⟨rfl, rfl, rfl, rfl⟩

variable (s ll i) in
theorem llRegs_step :
    (s.state ≠ .idle ∧ (s.step ll i).llPktId = s.metaDataR.pktID ∧
        (s.step ll i).llLast7Bytes = s.metaDataR.last7Bytes) ∨
      ((s.step ll i).llPktId = s.llPktId ∧ (s.step ll i).llLast7Bytes = s.llLast7Bytes ∧
        ((s.step ll i).llStart = true → s.llStart = true)) := by
  have hm := s.step_move ll i
  generalize s.step ll i = t at hm
  cases hm with
  | storeInsert h => exact .inl ⟨by simp [h.state], rfl, rfl⟩
  | storeStart h =>
    obtain ⟨h1, h2, h3, -⟩ := s.storeStart_regs
    exact .inr ⟨h1, h2, fun h => h3 ▸ h⟩
  | storePointer h =>
    obtain ⟨h1, h2, h3, -⟩ := storePointer_regs s ll
    exact .inr ⟨h1, h2, fun h => h3 ▸ h⟩
  | take | idle | waitWrReady | storeWait | storeDone => exact .inr ⟨rfl, rfl, fun h => absurd h Bool.false_ne_true⟩
  | _ => exact .inr ⟨rfl, rfl, id⟩

theorem llHeadIn_step (h : s.llHeadIn.valid = false) : (s.step ll i).llHeadIn.valid = false := by
  have hm := s.step_move ll i
  generalize s.step ll i = t at hm
  cases hm with
  | drainLast | drainPause | drainNext => rfl
  | storeStart =>
    obtain ⟨-, -, -, h4⟩ := s.storeStart_regs
    exact h4 ▸ h
  | storePointer =>
    obtain ⟨-, -, -, h4⟩ := storePointer_regs s ll
    exact h4 ▸ h
  | _ => exact h

theorem metaDataR_step (h : (s.step ll i).state ≠ .idle) :
    (i.metaValid = true ∧ (s.step ll i).metaDataR = i.metaData) ∨
      (s.state ≠ .idle ∧ (s.step ll i).metaDataR = s.metaDataR) := by
  have hm := s.step_move ll i
  generalize s.step ll i = t at hm h
  cases hm with
  | take hS hv => exact .inl ⟨hv, rfl⟩
  | idle hS => exact absurd hS h
  | getFce hS | waitWrReady hS | overlap hS => exact .inr ⟨by simp [hS], rfl⟩
  | storeStart hA => exact .inr ⟨by simp [hA.state], s.storeStart_keeps.1⟩
  | storePointer hA => exact .inr ⟨by simp [hA.state], (s.storePointer_keeps ll).1⟩
  | releaseAlone hA | releaseLoad hA | drainWait hA | drainLast hA | drainPause hA | drainNext hA | drainStop hA =>
    exact .inr ⟨by simp [hA.state], rfl⟩
  | pauseWait hA | pauseNext hA | inorderOther _ hA => exact .inr ⟨by simp [hA.state], rfl⟩
  | storeInsert hA | storeWait hA | storeDone hA | storeOther _ hA => exact .inr ⟨by simp [hA.state], rfl⟩

end FlowReassembly

namespace FastPath

variable {s : FastPath} {i : FastIn} {r : Release}

theorem decideHit_carries {d : Decision} {q : Fce} {m : Metadata} (ho : d.oooMetaData = { m with pktFlags := .check })
    (hd : d.outMetaData.tuple = m.tuple ∧ d.outMetaData.pktID = m.pktID ∧ d.outMetaData.last7Bytes = m.last7Bytes) :
    (decideHit d q m).oooMetaData = { m with pktFlags := .check } ∧ (decideHit d q m).outMetaData.tuple = m.tuple ∧
      (decideHit d q m).outMetaData.pktID = m.pktID ∧ (decideHit d q m).outMetaData.last7Bytes = m.last7Bytes := by
  simp only [decideHit]
  split_ifs <;> exact ⟨ho, by first | exact hd | exact ⟨rfl, rfl, rfl⟩⟩

theorem decision_carries (hs : s.ch1InsertStall i = false) :
    (s.decision i).oooMetaData = { s.m10 with pktFlags := .check } ∧ (s.decision i).outMetaData.tuple = s.m10.tuple ∧
      (s.decision i).outMetaData.pktID = s.m10.pktID ∧ (s.decision i).outMetaData.last7Bytes = s.m10.last7Bytes := by
  simp only [decision, hs, Bool.false_eq_true, if_false]
  split_ifs
  · exact ⟨rfl, rfl, rfl, rfl⟩
  · exact ⟨rfl, rfl, rfl, rfl⟩
  · exact decideHit_carries (m := s.m10) rfl ⟨rfl, rfl, rfl⟩

theorem decision_idle (hs : s.ch1InsertStall i = false) (hv : s.ft.ch0RdValid = false) :
    (s.decision i).outMetaValid = false ∧ (s.decision i).oooMetaValid = false := by
  simp [decision, hs, hv, decideNone]

theorem release_carries (h : s.release i = some r) : s.ft.ch0RdValid = true ∧ r.pktID = s.m10.pktID ∧
    r.carried = s.m10.last7Bytes ∧ r.last7Bytes = s.m10.last7Bytes := by
  unfold release at h
  dsimp only at h
  split at h
  · rename_i hc
    obtain rfl := Option.some.inj h
    simp only [Bool.and_eq_true, Bool.not_eq_true'] at hc
    obtain ⟨-, -, h2, h3⟩ := decision_carries hc.1.1
    refine ⟨?_, h2, rfl, h3⟩
    by_contra hv
    have ho := (decision_idle hc.1.1 (Bool.not_eq_true _ ▸ hv)).1
    exact absurd (ho.symm.trans hc.1.2) Bool.false_ne_true
  · cases h

end FastPath

namespace Traced

variable {x : Traced} {i : WrapIn}

def Came (x : Traced) (m : Metadata) : Prop := x.CameIn m.pktID m.last7Bytes

theorem CameIn.step {id : PktId} {f : BitVec 56} (h : x.CameIn id f) : (x.step i).CameIn id f := by
  obtain ⟨m, hm, h⟩ := h
  refine ⟨m, ?_, h⟩
  simp only [Traced.step]
  split
  · exact List.mem_cons_of_mem _ hm
  · exact hm

theorem came_accepted (h : x.w.tupleInValid i = true) : (x.step i).Came i.inMetaData := by
  refine ⟨i.inMetaData, ?_, rfl, rfl⟩
  simp [Traced.step, h]

/-- Every packet in the reassembler came in, and the slow path passes the field of the packet it released last on to the
node behind it. -/
structure Inv (x : Traced) : Prop where
  m : ∀ k, (x.w.hash 0).validAt k = true → x.Came (x.w.m k)
  m8 : x.w.fast.ft.rdValidAR = true → x.Came x.w.fast.m8
  m9 : x.w.fast.ft.rdValidA = true → x.Came x.w.fast.m9
  m10 : x.w.fast.ft.ch0RdValid = true → x.Came x.w.fast.m10
  ooo : x.w.fast.dec.oooMetaValid = true → x.Came x.w.fast.dec.oooMetaData ∧ x.w.fast.dec.oooMetaData.pktFlags = .check
  held : ∀ m ∈ x.w.slow.oooMetaFifo, x.Came m ∧ m.pktFlags = .check
  taken : x.w.slow.fr.state ≠ .idle → x.Came x.w.slow.fr.metaDataR
  steady : x.w.slow.fr.Steady
  nodes : x.w.slow.ll.All x.CameIn
  handed : x.w.slow.ll.inserting ∨ x.w.slow.fr.llStart = true → x.CameIn x.w.slow.fr.llPktId x.w.slow.fr.llLast7Bytes
  headIn : x.w.slow.fr.llHeadIn.valid = false
  behind : x.w.slow.fr.draining = true → ∀ f, x.before x.w.slow.fr.metaDataR.tuple = some f → x.w.slow.fr.last7Bytes = f

theorem Inv.reset : Traced.reset.Inv where
  m k hk := by
    simp only [Traced.reset, Wrapper.reset, vec_get, HashFunc.validAt_reset] at hk
    cases hk
  m8 h := by cases h
  m9 h := by cases h
  m10 h := by cases h
  ooo h := by cases h
  held m hm := by cases hm
  taken h := absurd rfl h
  steady := .reset
  nodes := .reset
  handed h := by
    rcases h with (h | h | h) | h <;> cases h
  headIn := rfl
  behind h := by cases h

theorem Inv.ooo_step (h : x.Inv) : (x.step i).w.fast.dec.oooMetaValid = true →
    (x.step i).Came (x.step i).w.fast.dec.oooMetaData ∧ (x.step i).w.fast.dec.oooMetaData.pktFlags = .check := by
  intro hv
  change (x.w.fast.decision x.w.fastIn).oooMetaValid = true at hv
  change (x.step i).Came (x.w.fast.decision x.w.fastIn).oooMetaData ∧ (x.w.fast.decision x.w.fastIn).oooMetaData.pktFlags = .check
  cases hs : x.w.fast.ch1InsertStall x.w.fastIn
  · rw [(FastPath.decision_carries hs).1]
    refine ⟨(h.m10 ?_).step, rfl⟩
    by_contra hr
    have ho := (FastPath.decision_idle hs (Bool.not_eq_true _ ▸ hr)).2
    exact absurd (ho.symm.trans hv) Bool.false_ne_true
  · have hd : x.w.fast.decision x.w.fastIn = x.w.fast.dec := by simp [FastPath.decision, hs]
    rw [hd] at hv ⊢
    exact ⟨(h.ooo hv).1.step, (h.ooo hv).2⟩

theorem Inv.held_step (h : x.Inv) (m : Metadata) (hm : m ∈ (x.step i).w.slow.oooMetaFifo) :
    (x.step i).Came m ∧ m.pktFlags = .check := by
  simp only [Traced.step, Wrapper.step, SlowPath.step, fifoStep, List.mem_append] at hm
  rcases hm with hm | hm
  · have hm : m ∈ x.w.slow.oooMetaFifo := by
      split at hm
      · exact List.mem_of_mem_tail hm
      · exact hm
    exact ⟨(h.held m hm).1.step, (h.held m hm).2⟩
  · simp only [Wrapper.slowIn] at hm
    split at hm
    · rename_i hv
      simp only [Option.toList_some, List.mem_singleton] at hm
      subst hm
      exact ⟨(h.ooo hv).1.step, (h.ooo hv).2⟩
    · cases hm

theorem Inv.given (h : x.Inv) (hv : (x.w.slow.frIn (x.w.slowIn i)).metaValid = true) :
    x.Came (x.w.slow.frIn (x.w.slowIn i)).metaData ∧ (x.w.slow.frIn (x.w.slowIn i)).metaData.pktFlags = .check := by
  simp only [SlowPath.frIn] at hv ⊢
  cases hl : x.w.slow.oooMetaFifo with
  | nil => simp [hl] at hv
  | cons m l => exact h.held m (by simp [hl])

theorem Inv.taken_step (h : x.Inv) (hs : (x.step i).w.slow.fr.state ≠ .idle) :
    (x.step i).Came (x.step i).w.slow.fr.metaDataR := by
  rcases FlowReassembly.metaDataR_step hs with ⟨hv, hm⟩ | ⟨hs, hm⟩
  · exact hm ▸ (h.given hv).1.step
  · exact hm ▸ (h.taken hs).step

theorem Inv.handed_step (h : x.Inv)
    (ha : (x.step i).w.slow.ll.inserting ∨ (x.step i).w.slow.fr.llStart = true) :
    (x.step i).CameIn (x.step i).w.slow.fr.llPktId (x.step i).w.slow.fr.llLast7Bytes := by
  have hreg := FlowReassembly.llRegs_step x.w.slow.fr x.w.slow.ll (x.w.slow.frIn (x.w.slowIn i))
  rcases hreg with ⟨hs, h1, h2⟩ | ⟨h1, h2, h3⟩
  · have hc := (h.taken hs).step (i := i)
    exact h1 ▸ h2 ▸ hc
  · have hc : x.w.slow.ll.inserting ∨ x.w.slow.fr.llStart = true := by
      rcases ha with ha | ha
      · exact LinkedList.inserting_of_step ha
      · exact .inr (h3 ha)
    exact h1 ▸ h2 ▸ (h.handed hc).step

theorem note_of_release {b : Before} {r : Release} {f : BitVec 56} (h : b.note (some r) r.tuple = some f) : r.carried = f := by
  simp only [Before.note, upd, if_true] at h
  split at h
  · exact Option.some.inj h
  · cases h

theorem beforeSlow_of_alone {t : Tuple} (h : ∀ r, x.w.fastRelease = some r → r.tuple ≠ t) : x.beforeSlow t = x.before t := by
  unfold beforeSlow
  cases hr : x.w.fastRelease with
  | none => rfl
  | some r =>
    have hne := h r hr
    simp [Before.note, upd, hne.symm]

theorem Inv.behind_step (h : x.Inv) (hok : x.InStep i) (hd : (x.step i).w.slow.fr.draining = true) (f : BitVec 56)
    (hb : (x.step i).before (x.step i).w.slow.fr.metaDataR.tuple = some f) : (x.step i).w.slow.fr.last7Bytes = f := by
  obtain ⟨hm, hn⟩ := FlowReassembly.draining_next h.steady hd
  change (x.beforeSlow.note (x.w.slowRelease i)) (x.step i).w.slow.fr.metaDataR.tuple = some f at hb
  rw [show (x.step i).w.slow.fr.metaDataR = x.w.slow.fr.metaDataR from hm] at hb
  rcases hn with ⟨r, hr, hl⟩ | ⟨hdr, hr, hl⟩
  · have ht : r.tuple = x.w.slow.fr.metaDataR.tuple := by
      rcases (FlowReassembly.release_cases h.steady hr).2 with hp | hp
      · exact hp.tuple
      · exact hp.tuple
    rw [show x.w.slowRelease i = some r from hr, ← ht] at hb
    exact hl.trans (note_of_release hb)
  · rw [show x.w.slowRelease i = none from hr] at hb
    have hb : x.before x.w.slow.fr.metaDataR.tuple = some f := by
      rw [← beforeSlow_of_alone fun r hr => hok.alone r hr hdr]
      exact hb
    exact hl.trans (h.behind hdr f hb)

theorem Inv.step (h : x.Inv) (hok : x.InStep i) : (x.step i).Inv where
  m k hk := validAt_next (P := (x.step i).Came) (fun k hk => (h.m k hk).step) came_accepted k hk
  m8 hr := (h.m 7 (ch0Rden_of_rdenA hr)).step
  m9 hr := (h.m8 hr).step
  m10 hr := (h.m9 hr).step
  ooo := h.ooo_step
  held := h.held_step
  taken := h.taken_step
  steady := h.steady.step fun hv => (h.given hv).2
  nodes := (h.nodes.step (fun hc => h.handed (.inl (.inr (.inr hc)))) h.headIn).mono fun _ _ => .step
  handed := h.handed_step
  headIn := FlowReassembly.llHeadIn_step h.headIn
  behind := h.behind_step hok

theorem Inv.slowCameIn (h : x.Inv) (hok : x.InStep i) {r : Release} (hr : x.w.slowRelease i = some r) :
    x.CameIn r.pktID r.carried := by
  rcases (FlowReassembly.release_cases h.steady hr).2 with hp | hp
  · rw [hp.pktID, hp.carried]
    exact h.taken hp.state
  · rw [hp.pktID, hp.carried]
    exact h.nodes.headOut (hok.node r hr hp.draining)

theorem Inv.follows (h : x.Inv) (hok : x.InStep i) : x.Follows i where
  fast r hr hp hf f hb := by
    obtain ⟨-, -, h1, h2⟩ := FastPath.release_carries hr
    rw [h2, ← h1]
    exact hok.fast r hr hp hf f hb
  slow r hr hp f hb := by
    rcases (FlowReassembly.release_cases h.steady hr).2 with hq | hq
    · rw [hq.last7Bytes, ← hq.carried]
      exact hok.slow r hr hq.draining hp f hb
    · rw [hq.tuple, beforeSlow_of_alone fun r hr => hok.alone r hr hq.draining] at hb
      rw [hq.last7Bytes]
      exact h.behind hq.draining f hb
  fastCameIn r hr := by
    obtain ⟨hv, h1, h2, -⟩ := FastPath.release_carries hr
    rw [h1, h2]
    exact h.m10 hv
  slowCameIn r hr := h.slowCameIn hok hr

theorem forall_some {o : Option (BitVec 56)} {c : BitVec 56} : (∀ f, o = some f → c = f) ↔ o = none ∨ o = some c := by
  cases o with
  | none => simp
  | some f => simp [eq_comm]

-- the field before is compared as an option, since a decision over all fields would go through 2 ^ 56 of them
instance : Decidable (x.InStep i) :=
  decidable_of_iff
    ((∀ r ∈ x.w.fastRelease, r.payload = true → r.first = false →
        x.before r.tuple = none ∨ x.before r.tuple = some r.carried) ∧
      (∀ r ∈ x.w.slowRelease i, x.w.slow.fr.draining = false → r.payload = true →
        x.beforeSlow r.tuple = none ∨ x.beforeSlow r.tuple = some r.carried) ∧
      (∀ r ∈ x.w.fastRelease, x.w.slow.fr.draining = true → r.tuple ≠ x.w.slow.fr.metaDataR.tuple) ∧
      ∀ r ∈ x.w.slowRelease i, x.w.slow.fr.draining = true → x.w.slow.ll.headOut.valid = true)
    (by
      simp only [← forall_some]
      exact ⟨fun h => ⟨h.1, h.2.1, h.2.2.1, h.2.2.2⟩, fun h => ⟨h.fast, h.slow, h.alone, h.node⟩⟩)

end Traced

/-! ## The context of a packet -/

/-- As long as the packets that are released in order come in with the field of the packet before them, every packet
leaves with it. -/
theorem released_follows (is : List WrapIn) (hok : AllSteps Traced.step Traced.InStep .reset is) :
    AllSteps Traced.step Traced.Follows .reset is :=
  allSteps_of_inv Traced.step (fun _ _ => Traced.Inv.step) (fun _ _ => Traced.Inv.follows) is .reset .reset hok

/-! ## Runs that begin with idle cycles -/

theorem FastPath.Same.release {s s' : FastPath} (h : s.Same s') {i i' : FastIn} (hi : i.Same i') :
    s'.release i' = s.release i := by
  have hd := h.decision hi
  unfold FastPath.release
  simp only [h.ch1InsertStall hi, hd.outMetaValid, hd.ch1Opcode]
  cases hs : s.ch1InsertStall i
  · cases hv : (s.decision i).outMetaValid
    · rfl
    · have hr : s.ft.ch0RdValid = true := by
        by_contra hr
        have ho := (FastPath.decision_idle hs (Bool.not_eq_true _ ▸ hr)).1
        exact absurd (ho.symm.trans hv) Bool.false_ne_true
      rw [hd.outMetaData hv, h.m10 hr]
  · rfl

namespace Traced

structure Same (x x' : Traced) : Prop where
  w : x.w.Same x'.w
  accepted : x'.accepted = x.accepted
  before : x'.before = x.before

variable {x x' : Traced} (h : x.Same x') (i : WrapIn)
include h

theorem Same.fastRelease : x'.w.fastRelease = x.w.fastRelease := h.w.fast.release h.w.fastIn

theorem Same.slowRelease : x'.w.slowRelease i = x.w.slowRelease i := by
  unfold Wrapper.slowRelease
  rw [h.w.slow, h.w.slowIn rfl]

theorem Same.step : (x.step i).Same (x'.step i) where
  w := h.w.step (.refl h.w i)
  accepted := by
    have ht := (WrapIn.Same.refl h.w i).tupleInValid
    simp only [Traced.step, ht, h.accepted]
  before := by simp only [Traced.step, beforeSlow, h.before, h.fastRelease, h.slowRelease i]

variable {i}

theorem Same.inStep (hs : x'.InStep i) : x.InStep i := by
  obtain ⟨h1, h2, h3, h4⟩ := hs
  simp only [beforeSlow, h.before, h.fastRelease, h.slowRelease i, h.w.slow] at h1 h2 h3 h4
  exact ⟨h1, h2, h3, h4⟩

theorem Same.allSteps {is : List WrapIn} (hs : AllSteps Traced.step InStep x' is) : AllSteps Traced.step InStep x is := by
  induction is generalizing x x' with
  | nil => exact trivial
  | cons i is ih => exact ⟨h.inStep hs.1, ih (h.step i) hs.2⟩

omit h in
theorem resting_steps (n : Nat) {op : PqOp} {random : BitVec 2} {ll : LinkedList} (h : x.w.Same (.resting op random ll)) :
    AllSteps Traced.step InStep x (List.replicate n .idle) ∧
      run Traced.step x (List.replicate n .idle) =
        ⟨run Wrapper.step x.w (List.replicate n .idle), x.accepted, x.before⟩ := by
  induction n generalizing x op random ll with
  | zero => exact ⟨trivial, rfl⟩
  | succ n ih =>
    have hx : x.Same ⟨.resting op random ll, x.accepted, x.before⟩ := ⟨h, rfl, rfl⟩
    have hf : x.w.fastRelease = none := hx.fastRelease.symm
    have hr : x.w.slowRelease .idle = none := (hx.slowRelease .idle).symm
    have hs : x.step .idle = ⟨x.w.step .idle, x.accepted, x.before⟩ := by
      simp only [Traced.step, beforeSlow, hf, hr, Before.note]
      rfl
    have hi : x.InStep .idle := by
      constructor <;> simp [hf, hr]
    obtain ⟨h1, h2⟩ := ih (x := x.step .idle) ((h.step (.refl h .idle)).trans (Wrapper.resting_step op random ll))
    refine ⟨⟨hi, h1⟩, ?_⟩
    rw [List.replicate_succ, run_cons, h2, hs]
    rfl

omit h in
theorem started_allSteps {n : Nat} (hn : (run Wrapper.step .reset (List.replicate n .idle)).Same .started)
    {is : List WrapIn} (hs : AllSteps Traced.step InStep ⟨.started, [], fun _ => none⟩ is) :
    AllSteps Traced.step InStep .reset (List.replicate n .idle ++ is) := by
  have hr : Traced.reset.w.Same (.resting .fastInsert 0 .reset) := Wrapper.Same.reset
  obtain ⟨h1, h2⟩ := resting_steps n hr
  refine h1.append ?_
  rw [h2]
  have h : Traced.Same ⟨run Wrapper.step .reset (List.replicate n .idle), [], fun _ => none⟩ ⟨.started, [], fun _ => none⟩ :=
    ⟨hn, rfl, rfl⟩
  exact h.allSteps hs

end Traced

/-- A flow begins, its second packet comes before its first, and the list is drained behind the first. -/
def drainRun : List WrapIn :=
  .packet (.tcp tupleA 100 0 1 0x2) :: List.replicate 6 .idle ++
    .packet { Metadata.tcp tupleA 111 10 2 0x10 with last7Bytes := 2 } :: List.replicate 17 .idle ++
    .packet { Metadata.tcp tupleA 101 10 3 0x10 with last7Bytes := 3 } :: List.replicate 40 .idle

theorem released_follows_drained :
    AllSteps Traced.step Traced.InStep .reset (List.replicate (LinkedList.depth + 2) .idle ++ drainRun) ∧
      AllSteps Traced.step Traced.Follows .reset (List.replicate (LinkedList.depth + 2) .idle ++ drainRun) :=
  have h : AllSteps Traced.step Traced.InStep ⟨.started, [], fun _ => none⟩ drainRun := by decide +kernel
  have hs := Traced.started_allSteps Wrapper.started_same h
  ⟨hs, released_follows _ hs⟩

/-- Two packets of a flow in order: the second leaves with its own bytes. -/
theorem inorder_keeps_own :
    let x := run Traced.step .reset
      (.packet { Metadata.tcp tupleA 100 10 1 0x10 with last7Bytes := 1 } :: List.replicate 6 .idle ++
        .packet { Metadata.tcp tupleA 110 10 2 0x10 with last7Bytes := 2 } :: List.replicate 21 .idle)
    x.before tupleA = some 1 ∧ x.w.fastRelease = some ⟨tupleA, 2, 2, 2, true, false⟩ := by
  decide +kernel

end Pigasus
