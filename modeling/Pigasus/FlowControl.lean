import Pigasus.TrafficManager

/-!
# Credit flow control between two boards

`flow_control` with its parts `pkt_almost_full`, `flow_control_parser` and
`ack_gen`, and two instances joined by links of any delay. Each node sends its
user's flits against a credit, and acknowledges the packets that its own user
has read with a single-flit packet that carries the number of flits.
-/

namespace Pigasus

open Hdl Frames

def inBufDepth : Nat := 16384
def dsThresh : Nat := 100
def fcFifoDepth : Nat := 512
def ackPktPort : BitVec 16 := 0xFFFF#16

def udpSport (x : BitVec 512) : BitVec 16 := x.extractLsb' 224 16

/-- `recv_ack_pkt.data` -/
def ackData (x : BitVec 512) : BitVec 32 := x.extractLsb' 144 32

/-- The parser takes the flit for an acknowledgement. -/
def isAck (f : Flit512) : Bool := f.sop && f.eop && udpSport f.data == ackPktPort

/-! ## `ack_gen` -/

structure AckGen where
  ackValid : Bool
  udpHdr : BitVec 336
  data : BitVec 32
  numFlit : BitVec 8

namespace AckGen

def reset : AckGen := ⟨false, 0, 0, 0⟩

/-- The header of the acknowledgement: the source and the destination of the packet
change places, and `ip_chsm` is only eight bits wide. -/
def hdr (x : BitVec 512) : BitVec 336 :=
  let eth := x.extractLsb' 416 48 ++ x.extractLsb' 464 48 ++ x.extractLsb' 400 16
  let ip := x.extractLsb' 320 80 ++ (x.extractLsb' 304 8).setWidth 16
  let dip := x.extractLsb' 256 16 ++ x.extractLsb' 240 16
  let sip := x.extractLsb' 272 32
  let udp := ackPktPort ++ udpSport x ++ x.extractLsb' 176 32
  (eth ++ ip ++ dip ++ sip ++ udp : BitVec (112 + 96 + 32 + 32 + 64))

def step (s : AckGen) (i : Option Flit512) : AckGen :=
  match i with
  | none => { s with ackValid := false }
  | some f =>
    { ackValid := f.eop
      udpHdr := if f.sop then hdr f.data else s.udpHdr
      data := if f.eop then (if f.sop then 1 else s.numFlit.setWidth 32 + 1) else s.data
      numFlit := if f.sop then 1 else s.numFlit + 1 }

end AckGen

/-- `ack_out_data` -/
def ackPkt (udpHdr : BitVec 336) (data : BitVec 32) : BitVec 512 := udpHdr ++ data ++ 0#144

/-! ## A node -/

structure FcTick where
  userOutValid : Bool
  userInReady : Bool
  outReady : Bool
  -- the multiplexer's choice between packets
  muxAck : Bool
  -- the next flit of the link comes in
  inValid : Bool
  -- how far the fill levels that are read lag behind
  outLag : Fin 3
  ackLag : Fin 3

/-- A queue with the fill levels of the last two cycles. -/
structure FcFifo where
  q : List Flit512
  fill1 : Nat
  fill2 : Nat

namespace FcFifo

def empty : FcFifo := ⟨[], 0, 0⟩

def fill (s : FcFifo) : Fin 3 → Nat
  | 0 => s.q.length
  | 1 => s.fill1
  | 2 => s.fill2

/-- A full queue takes no flit. -/
def step (s : FcFifo) (push : Option Flit512) (pop : Bool) : FcFifo where
  q := fifoStep s.q (if s.q.length < fcFifoDepth then push else none) pop
  fill1 := s.q.length
  fill2 := s.fill1

end FcFifo

structure FcNode where
  -- `pkt_almost_full`: the state is `SEND`, and its output register
  sending : Bool
  intUserOut : Option Flit512
  txCredit : Nat
  almostFull : Bool
  userOut : FcFifo
  -- `flow_control_parser`
  userFifo : Option Flit512
  ds : Option (BitVec 32)
  userIn : List Flit512
  ackGen : AckGen
  ackOut : Option Flit512
  ackFifo : FcFifo
  -- the multiplexer is inside a packet of the user
  locked : Bool

/-- A flit on a link. Where it comes from is for the statements only: no part reads it. -/
structure LinkFlit where
  flit : Flit512
  ack : Bool

namespace FcNode

def reset : FcNode where
  sending := false
  intUserOut := none
  txCredit := inBufDepth
  almostFull := false
  userOut := .empty
  userFifo := none
  ds := none
  userIn := []
  ackGen := .reset
  ackOut := none
  ackFifo := .empty
  locked := false

variable (s : FcNode) (t : FcTick)

/-- `st_multiplexer_pkt` serves the acknowledgements; never inside a packet of the user. -/
def grantAck : Bool := !s.locked && !s.ackFifo.q.isEmpty && (t.muxAck || s.userOut.q.isEmpty)

def takeUser : Bool := t.outReady && !s.grantAck t

def takeAck : Bool := t.outReady && s.grantAck t

def out : Option LinkFlit :=
  if s.takeAck t then s.ackFifo.q.head?.map (⟨·, true⟩)
  else if s.takeUser t then s.userOut.q.head?.map (⟨·, false⟩)
  else none

/-- The flit that the user hands over. -/
def accepted (userOut : Option Flit512) : Option Flit512 := if s.sending then userOut else none

/-- The flit that goes through `ack_gen` to the user. -/
def userInFlit : Option Flit512 := if t.userInReady then s.userIn.head? else none

def step (userOut inFlit : Option Flit512) : FcNode where
  sending := if s.sending then !(userOut.any Flit512.eop && s.almostFull) else !s.almostFull
  intUserOut := s.accepted userOut
  txCredit := (s.txCredit + (s.ds.getD 0).toNat + (if s.intUserOut.isSome then 2 ^ 32 - 1 else 0)) % 2 ^ 32
  almostFull := s.txCredit < dsThresh || 460 < s.userOut.fill t.outLag || 460 < s.ackFifo.fill t.ackLag
  userOut := s.userOut.step s.intUserOut (s.takeUser t)
  userFifo := if inFlit.any isAck then none else inFlit
  ds := if inFlit.any isAck then inFlit.map fun f => ackData f.data else none
  userIn := fifoStep s.userIn (if s.userIn.length < inBufDepth then s.userFifo else none) t.userInReady
  ackGen := s.ackGen.step (s.userInFlit t)
  ackOut := if s.ackGen.ackValid then some ⟨ackPkt s.ackGen.udpHdr s.ackGen.data, true, true, 0⟩ else none
  ackFifo := s.ackFifo.step s.ackOut (s.takeAck t)
  locked := if s.takeUser t then (match s.userOut.q.head? with | some f => !f.eop | none => s.locked) else s.locked

end FcNode

/-! ## Two nodes -/

/-- One of each for the nodes `false` and `true`. -/
structure Both (α : Type) where
  zero : α
  one : α

namespace Both

variable {α : Type}

def get (x : Both α) (b : Bool) : α := if b then x.one else x.zero

instance : CoeFun (Both α) fun _ => Bool → α := ⟨get⟩

def of (f : Bool → α) : Both α := ⟨f false, f true⟩

@[simp] theorem of_apply (f : Bool → α) (b : Bool) : of f b = f b := by cases b <;> rfl

end Both

/-- `link d` leads from `d` to `!d`; `src d` is what the user of `d` has still to send, `got d` what it has read. -/
structure FcSys where
  node : Both FcNode
  link : Both (List LinkFlit)
  src : Both (List Flit512)
  got : Both (List Flit512)
  -- the counts that the acknowledgements of `d` were made with, and that were added to the credit of `d`
  made : Both (List (BitVec 32))
  applied : Both (List (BitVec 32))

namespace FcSys

def reset (src : Both (List Flit512)) : FcSys where
  node := ⟨.reset, .reset⟩
  link := ⟨[], []⟩
  src := src
  got := ⟨[], []⟩
  made := ⟨[], []⟩
  applied := ⟨[], []⟩

variable (s : FcSys) (t : Both FcTick) (d : Bool)

def offered : Option Flit512 := if (t d).userOutValid then (s.src d).head? else none

/-- What comes in at `d`. -/
def arriving : Option LinkFlit := if (t d).inValid then (s.link !d).head? else none

def nextNode : FcNode := (s.node d).step (t d) (s.offered t d) ((s.arriving t d).map LinkFlit.flit)

def step : FcSys where
  node := .of fun d => s.nextNode t d
  link := .of fun d => fifoStep (s.link d) ((s.node d).out (t d)) (t !d).inValid
  src := .of fun d => if ((s.node d).accepted (s.offered t d)).isSome then (s.src d).tail else s.src d
  got := .of fun d => s.got d ++ ((s.node d).userInFlit (t d)).toList
  made := .of fun d => s.made d ++ if (s.nextNode t d).ackGen.ackValid then [(s.nextNode t d).ackGen.data] else []
  applied := .of fun d => s.applied d ++ (s.node d).ds.toList

end FcSys

/-- A packet of a user: at most 32 flits, of which the first is marked. -/
structure UserPkt extends Marked Flit512.eop where
  sop : ∀ a x r, body ++ [last] = a ++ x :: r → (x.sop = true ↔ a = [])
  short : body.length < 32

def UserPkt.flits (p : UserPkt) : List Flit512 := p.toMarked.flits

def userFlits (ps : List UserPkt) : List Flit512 := ps.flatMap UserPkt.flits

end Pigasus
