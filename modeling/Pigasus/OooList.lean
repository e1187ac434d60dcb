import Pigasus.Chain
import Pigasus.OooFlow
import Pigasus.FrMoves
import Mathlib.Data.Fintype.Card

/-!
# The list of a flow

`flow_reassembly` and `linked_list` with the entry of one flow. The entry is read on
channel 2 and written on channel 3, and every packet that is taken belongs to the flow.
-/

namespace Pigasus

open Hdl

/-- A cycle: the packet that is offered, and what the flow table and the reader do. -/
structure SlowTick where
  pkt : SlowPkt
  metaValid : Bool
  fce : Fce
  fceValid : Bool
  ch2Ready : Bool
  ch2RdValid : Bool
  ch3Ready : Bool
  full : Bool

/-- `taken` are the packets that have been taken, `out` those that have been put out. -/
structure FlowSys where
  fr : FlowReassembly
  ll : LinkedList
  entry : Fce
  taken : List SlowPkt
  out : List Emit

namespace FlowSys

def reset (ll : LinkedList) (entry : Fce) : FlowSys := ⟨.reset, ll, entry, [], []⟩

variable (s : FlowSys) (t : SlowTick)

def frIn : FrIn where
  metaData := t.pkt.info
  metaValid := t.metaValid
  fceData := t.fce
  fceValid := t.fceValid
  ch2Ready := t.ch2Ready
  ch2Q := s.entry
  ch2RdValid := t.ch2RdValid
  ch3Ready := t.ch3Ready
  reorderAlmostFull := t.full

def takes : Bool := s.fr.state == .idle && (t.metaValid && t.fceValid && !t.full)

/-- The packet that `flow_reassembly` puts out. -/
def putOut (fr : FlowReassembly) : List Emit :=
  if fr.reorderValid then [(fr.reorderMeta.pktID, fr.reorderMeta.pktFlags == .drop)] else []

def step : FlowSys where
  fr := s.fr.step s.ll (s.frIn t)
  ll := s.ll.step s.fr.llIn
  entry := if s.fr.ch3Wren && t.ch3Ready then s.fr.ch3Data else s.entry
  taken := if s.takes t then s.taken ++ [t.pkt] else s.taken
  out := s.out ++ putOut (s.fr.step s.ll (s.frIn t))

end FlowSys

/-! ## The memory and the free list behind the writes under way -/

namespace LinkedList

variable (s : LinkedList)

def memNext : LlPtr → Entry := wr s.llWr s.llWrAddr s.llWrData s.mem

def freeNext : List LlPtr :=
  (if s.emptylistOutReady then s.emptylist.tail else s.emptylist) ++ if s.emptylistInValid then [s.emptylistInData] else []

theorem freeNext_of_not {s : LinkedList} (ho : s.emptylistOutReady = false) (hi : s.emptylistInValid = false) :
    s.freeNext = s.emptylist := by
  simp [freeNext, ho, hi]

def Room : Prop := s.emptylistInValid = true → s.emptylistInReady = true

theorem step_emptylist (i : LlIn) (h : s.Room) : (s.step i).emptylist = s.freeNext := by
  simp only [step, fifoStep, freeNext]
  by_cases hv : s.emptylistInValid = true
  · simp [hv, h hv]
  · simp [hv]

theorem step_memNext (i : LlIn) :
    (s.step i).memNext = wr (s.control i).llWr (s.control i).llWrAddr (s.control i).llWrData s.memNext := rfl

theorem step_freeNext (i : LlIn) (h : s.Room) :
    (s.step i).freeNext = (if (s.control i).emptylistOutReady then s.freeNext.tail else s.freeNext) ++
      if (s.control i).emptylistInValid then [(s.control i).emptylistInData] else [] := by
  have := s.step_emptylist i h
  rw [freeNext, this]
  rfl

theorem room_of_nodup (hp : s.emptylistOutReady = false ∨ s.emptylistInValid = false) (hn : s.freeNext.Nodup) : s.Room := by
  intro hv
  have hp : s.emptylistOutReady = false := hp.resolve_right (by simp [hv])
  have hl : (s.emptylist ++ [s.emptylistInData]).length ≤ 512 := by
    rw [freeNext, hp, hv] at hn
    have := List.Nodup.length_le_card (l := (s.emptylist ++ [s.emptylistInData]).map BitVec.toFin)
      (List.Nodup.map (fun a b h => BitVec.eq_of_toFin_eq h) (by simpa using hn))
    simpa using this
  rw [List.length_append, List.length_singleton] at hl
  exact decide_eq_true (show s.emptylist.length < 512 by omega)

structure NoRead : Prop where
  rd : s.llRd = false
  rdR1 : s.llRdR1 = false
  rdValid : s.llRdValid = false

def Reading (e : Entry) : Nat → Prop
  | 0 => s.llRd = true ∧ s.llRdR1 = false ∧ s.llRdValid = false ∧ s.mem s.llRdAddr = e
  | 1 => s.llRd = false ∧ s.llRdR1 = true ∧ s.llRdValid = false ∧ s.port.r1 = e
  | _ => s.llRd = false ∧ s.llRdR1 = false ∧ s.llRdValid = true ∧ s.port.q = e

variable {s}

theorem NoRead.step {i : LlIn} (h : s.NoRead) (hc : (s.control i).llRd = false) : (s.step i).NoRead := ⟨hc, h.rd, h.rdR1⟩

theorem Reading.step_zero {e : Entry} {i : LlIn} (h : s.Reading e 0) (hc : (s.control i).llRd = false) :
    (s.step i).Reading e 1 := by
  obtain ⟨h1, h2, h3, h4⟩ := h
  exact ⟨hc, h1, h2, by simp [LinkedList.step, RdPort.step, h1, h4]⟩

theorem Reading.step_one {e : Entry} {i : LlIn} (h : s.Reading e 1) (hc : (s.control i).llRd = false) :
    (s.step i).Reading e 2 := by
  obtain ⟨h1, h2, h3, h4⟩ := h
  exact ⟨hc, h1, h2, by simp [LinkedList.step, RdPort.step, h4]⟩

theorem Reading.step_two {e : Entry} {i : LlIn} (h : s.Reading e 2) (hc : (s.control i).llRd = false) :
    (s.step i).NoRead := by
  obtain ⟨h1, h2, h3, h4⟩ := h
  exact ⟨hc, h1, h2⟩

end LinkedList

/-! ## The list in the memory -/

def OooPkt.node (x : OooPkt) (next : LlPtr) (last : Bool) : Entry :=
  ⟨true, x.seq, x.len, next, x.pktID, x.flits, last, x.last7Bytes⟩

/-- The nodes of a flow are in the memory, apart from the free ones, and the free ones are cleared. -/
structure Held (mem : LlPtr → Entry) (free : List LlPtr) (N : List (LlPtr × OooPkt)) : Prop where
  linked : Chain.Linked OooPkt.node mem N
  nodup : (free ++ N.map Prod.fst).Nodup
  zero : ∀ f ∈ free, (mem f).valid = false

structure Points (e : Fce) (A : OooFlow) (N : List (LlPtr × OooPkt)) : Prop where
  seq : e.seq = A.seq
  list : N.map Prod.snd = A.list
  llValid : e.llValid = !N.isEmpty
  pointer : ∀ n ∈ N.head?, e.pointer = n.1

/-! ## The components in a phase -/

namespace FlowReassembly

structure Calm (s : FlowReassembly) : Prop where
  start : s.llStart = false
  load : s.llLoadHead = false
  store : s.llStoreHead = false
  empty : s.llLoadEmptyPointer = false

variable {s : FlowReassembly} {ll : LinkedList} {i : FrIn}

theorem step_inorder (hS : s.state = .compare) (hq : s.metaDataR.seq = s.fceDataR.seq) : s.step ll i = s.inorder ll i := by
  simp [step, hS, hq]

theorem step_ahead (hS : s.state = .compare) (hq : s.metaDataR.seq > s.fceDataR.seq) :
    s.step ll i = s.outOfOrder ll := by
  have hne : s.metaDataR.seq ≠ s.fceDataR.seq := fun h => by simp [h] at hq
  simp [step, hS, hne, hq]

theorem step_behind (hS : s.state = .compare) (hne : s.metaDataR.seq ≠ s.fceDataR.seq)
    (hq : ¬ s.metaDataR.seq > s.fceDataR.seq) : s.step ll i = s.overlap := by
  have hq : s.metaDataR.seq ≤ s.fceDataR.seq := by simpa using hq
  simp [step, hS, hne, hq]

end FlowReassembly

namespace LinkedList

/-- The list waits for a request. -/
structure Rests (s : LinkedList) : Prop where
  state : s.state = .idle
  noRead : s.NoRead
  head : s.headOutValid = false
  one : s.emptylistOutReady = false ∨ s.emptylistInValid = false

variable {s : LinkedList} {i : LlIn}

theorem control_idle (h : s.state = .idle) : s.control i = s.idleStep i := by simp [control, h]

theorem idle_memNext (h : s.state = .idle) : (s.step i).memNext = wr i.storeHead i.headWrAddr i.headIn s.memNext := by
  rw [step_memNext, control_idle h]
  cases hs : i.storeHead <;> simp [idleStep, hs, wr]

theorem idle_freeNext (h : s.state = .idle) (hr : s.Room) (he : i.loadEmptyPointer = false) :
    (s.step i).freeNext = s.freeNext ++ if i.storeHead then [i.headWrAddr] else [] := by
  rw [step_freeNext _ _ hr, control_idle h]
  cases hs : i.storeHead <;> simp [idleStep, hs, he]

theorem Rests.step (h : s.Rests) (hs : i.start = false) (hl : i.loadHead = false)
    (ho : i.loadEmptyPointer = false ∨ i.storeHead = false) : (s.step i).Rests where
  state := by simp [LinkedList.step, control_idle h.state, idleStep, hs]
  noRead := h.noRead.step (by simp [control_idle h.state, idleStep, hl])
  head := by simp [LinkedList.step, control_idle h.state, idleStep, h.noRead.rdValid]
  one := by simpa [LinkedList.step, control_idle h.state, idleStep] using ho

theorem idle_outReady (h : s.state = .idle) : (s.step i).emptylistOutReady = i.loadEmptyPointer := by
  simp [LinkedList.step, control_idle h, idleStep]

theorem idle_inValid (h : s.state = .idle) : (s.step i).emptylistInValid = i.storeHead := by
  simp [LinkedList.step, control_idle h, idleStep]

theorem idle_ptrValid (h : s.state = .idle) : (s.step i).emptyPointerValid = i.loadEmptyPointer := by
  simp [LinkedList.step, control_idle h, idleStep]

theorem Rests.room (h : s.Rests) {N : List (LlPtr × OooPkt)} {mem : LlPtr → Entry} (hh : Held mem s.freeNext N) : s.Room :=
  s.room_of_nodup h.one (List.nodup_append.1 hh.nodup).1

end LinkedList

end Pigasus
