import Pigasus.Frames
import Pigasus.Struct

/-!
# The traffic manager

`traffic_manager`: packets, metadata and rule groups arrive on three streams.
A packet whose rule group has rules goes to channel 1 with its metadata and its
group; any other goes to channel 0 alone.
-/

namespace Pigasus

open Hdl Frames

/-- A beat of a 512-bit stream. -/
structure Flit512 where
  data : BitVec 512
  sop : Bool
  eop : Bool
  empty : BitVec 6
  deriving DecidableEq

abbrev Frame512 := Marked Flit512.eop

/-- A packet whose first flit, and no other, is marked as such. -/
structure StreamPkt extends Marked Flit512.eop where
  sop : ∀ a x r, body ++ [last] = a ++ x :: r → (x.sop = true ↔ a = [])

def StreamPkt.flits (p : StreamPkt) : List Flit512 := p.toMarked.flits

theorem sop_first {f : Flit512} {l : List Flit512} (hf : f.sop = true) (hl : ∀ x ∈ l, x.sop = false) :
    ∀ a x r, f :: l = a ++ x :: r → (x.sop = true ↔ a = []) := by
  intro a x r h
  cases a with
  | nil =>
    obtain ⟨rfl, -⟩ := List.cons.inj h
    simp [hf]
  | cons y a =>
    obtain ⟨-, htail⟩ := List.cons.inj h
    have hx : x ∈ l := by simp [htail]
    simp [hl x hx]

inductive TmState
  | idle | noCheck | check
  deriving DecidableEq

structure TmIn where
  pkt : Option Flit512
  metaData : Option Metadata
  usr : Option Flit512
  outPktAlmostFull : Bool
  outMetaAlmostFull : Bool
  outUsrAlmostFull : Bool

structure TrafficManager where
  state : TmState
  pktDoneR : Bool
  ruleDoneR : Bool
  -- the output registers, `none` when they are not valid
  outPkt : Option Flit512
  outPktChannel : Bool
  outMeta : Option Metadata
  outUsr : Option Flit512

namespace TrafficManager

def reset : TrafficManager := ⟨.idle, false, false, none, false, none, none⟩

variable (s : TrafficManager) (i : TmIn)

def notAlmostFull : Bool := !i.outPktAlmostFull && !i.outMetaAlmostFull && !i.outUsrAlmostFull

def transit : Bool := notAlmostFull i && i.metaData.isSome && i.usr.isSome

-- the end of a packet or of a rule group is on the bus
def atEop (o : Option Flit512) : Bool := o.any Flit512.eop

def inPktReady : Bool :=
  match s.state with
  | .idle => false
  | .noCheck => true
  | .check => !s.pktDoneR

def inUsrReady : Bool :=
  match s.state with
  | .idle => false
  | .noCheck => atEop i.pkt
  | .check => !s.ruleDoneR

def pktDone : Bool := s.state == .check && atEop i.pkt && s.inPktReady

def ruleDone : Bool := s.state == .check && atEop i.usr && s.inUsrReady i

def checkDone : Bool := s.state == .check && (s.ruleDone i || s.ruleDoneR) && (s.pktDone i || s.pktDoneR)

def noCheckDone : Bool := s.state == .noCheck && atEop i.pkt && s.inPktReady

def inMetaReady : Bool := s.checkDone i || s.noCheckDone i

def nextState : TmState :=
  match s.state with
  | .idle => if transit i then (if atEop i.usr then .noCheck else .check) else .idle
  | .noCheck => if s.noCheckDone i then .idle else .noCheck
  | .check => if s.checkDone i then .idle else .check

def step : TrafficManager where
  state := s.nextState i
  pktDoneR := !s.checkDone i && (s.pktDone i || s.pktDoneR)
  ruleDoneR := !s.checkDone i && (s.ruleDone i || s.ruleDoneR)
  outPkt := if s.inPktReady then i.pkt else none
  outPktChannel := s.state == .check
  outMeta := if s.checkDone i then i.metaData else none
  outUsr := if s.inUsrReady i && s.state == .check then i.usr else none

end TrafficManager

/-! ## The streams -/

/-- What belongs to one packet. -/
structure Triple where
  pkt : Frame512
  metaData : Metadata
  rules : Frame512

/-- The group has a flit before the one that ends it. -/
def Triple.checked (t : Triple) : Bool := !t.rules.body.isEmpty

/-- One stream: what has not arrived yet, and what waits to be taken. -/
structure Source (α : Type) where
  coming : List α
  waiting : List α

namespace Source

variable {α : Type} (q : Source α)

def all : List α := q.waiting ++ q.coming

/-- One edge: the next word may arrive, and the first that waits may be taken. -/
def step (arrives takes : Bool) : Source α where
  coming := if arrives then q.coming.tail else q.coming
  waiting := fifoStep q.waiting (if arrives then q.coming.head? else none) takes

end Source

structure TmTick where
  pktArrives : Bool
  metaArrives : Bool
  usrArrives : Bool
  outPktAlmostFull : Bool
  outMetaAlmostFull : Bool
  outUsrAlmostFull : Bool

/-- The manager between its sources and sinks that take all that is valid. -/
structure TmSys where
  pkt : Source Flit512
  metaData : Source Metadata
  usr : Source Flit512
  tm : TrafficManager
  outPkt : List (Flit512 × Bool)
  outMeta : List Metadata
  outUsr : List Flit512

namespace TmSys

def reset (ts : List Triple) : TmSys where
  pkt := ⟨ts.flatMap fun t => t.pkt.flits, []⟩
  metaData := ⟨ts.map Triple.metaData, []⟩
  usr := ⟨ts.flatMap fun t => t.rules.flits, []⟩
  tm := .reset
  outPkt := []
  outMeta := []
  outUsr := []

variable (s : TmSys) (i : TmTick)

def tmIn : TmIn where
  pkt := s.pkt.waiting.head?
  metaData := s.metaData.waiting.head?
  usr := s.usr.waiting.head?
  outPktAlmostFull := i.outPktAlmostFull
  outMetaAlmostFull := i.outMetaAlmostFull
  outUsrAlmostFull := i.outUsrAlmostFull

/-- What is in the output registers after the edge has been put out. -/
def step : TmSys where
  pkt := s.pkt.step i.pktArrives s.tm.inPktReady
  metaData := s.metaData.step i.metaArrives (s.tm.inMetaReady (s.tmIn i))
  usr := s.usr.step i.usrArrives (s.tm.inUsrReady (s.tmIn i))
  tm := s.tm.step (s.tmIn i)
  outPkt := s.outPkt ++ (s.tm.step (s.tmIn i)).outPkt.toList.map fun b => (b, (s.tm.step (s.tmIn i)).outPktChannel)
  outMeta := s.outMeta ++ (s.tm.step (s.tmIn i)).outMeta.toList
  outUsr := s.outUsr ++ (s.tm.step (s.tmIn i)).outUsr.toList

end TmSys

end Pigasus
