import Pigasus.TrafficManager

/-!
# Three streams over one link

`stream_mux` with `meta_gen` and `usr_gen`, and `stream_demux`. Packets go as
they are; a metadata word becomes a frame of one flit; a user packet is shifted
behind an Ethernet header and grows by one flit.
-/

namespace Pigasus

open Hdl Frames

def srcMac : BitVec 48 := 0x112233445566#48
def dstMac : BitVec 48 := 0x665544332211#48
def ethIp : BitVec 16 := 0x0800#16
def ethMeta : BitVec 16 := 0xFFFE#16
def ethUsr : BitVec 16 := 0xFFFF#16
def muxFifoDepth : Nat := 512

/-- `in_data[415:400]` -/
def ethType (x : BitVec 512) : BitVec 16 := x.extractLsb' 400 16

def low112 (x : BitVec 512) : BitVec 112 := x.extractLsb' 0 112
def high400 (x : BitVec 512) : BitVec 400 := x.extractLsb' 112 400
def low400 (x : BitVec 512) : BitVec 400 := x.extractLsb' 0 400
def high112 (x : BitVec 512) : BitVec 112 := x.extractLsb' 400 112

/-- `meta_gen` -/
def metaFlit (m : BitVec 252) : Flit512 := ⟨dstMac ++ srcMac ++ ethMeta ++ m ++ 0#148, true, true, 0⟩

/-! ## `usr_gen` -/

inductive GenState
  | first | normal | last
  deriving DecidableEq

structure UsrGen where
  state : GenState
  dataReg : BitVec 512
  outValid : Bool
  outSop : Bool
  outEop : Bool
  outData : BitVec 512

namespace UsrGen

def reset : UsrGen := ⟨.first, 0, false, false, false, 0⟩

def firstFlit (x : BitVec 512) : BitVec 512 := dstMac ++ srcMac ++ ethUsr ++ high400 x

def normalFlit (r x : BitVec 512) : BitVec 512 := low112 r ++ high400 x

def lastFlit (r : BitVec 512) : BitVec 512 := low112 r ++ 0#400

def ready (s : UsrGen) (almostFull : Bool) : Bool := !(s.state == .first && almostFull)

/-- `in_usr_data_reg` follows the bus in every cycle, with a valid flit or not. -/
def step (s : UsrGen) (valid : Bool) (i : Flit512) (almostFull : Bool) : UsrGen :=
  match s.state with
  | .first =>
    { state := if valid && i.sop && !almostFull then .normal else .first
      dataReg := i.data
      outValid := valid && i.sop && !almostFull
      outSop := valid && i.sop && !almostFull
      outEop := false
      outData := firstFlit i.data }
  | .normal =>
    { state := if valid && i.eop then .last else .normal
      dataReg := i.data
      outValid := valid
      outSop := false
      outEop := false
      outData := normalFlit s.dataReg i.data }
  | .last =>
    { state := .first
      dataReg := i.data
      outValid := true
      outSop := s.outSop
      outEop := true
      outData := lastFlit s.dataReg }

def out (s : UsrGen) : Option Flit512 := if s.outValid then some ⟨s.outData, s.outSop, s.outEop, 0⟩ else none

end UsrGen

/-! ## `stream_demux` -/

inductive DemuxState
  | first | pkt | usr
  deriving DecidableEq

structure Demux where
  state : DemuxState
  dataReg : BitVec 512
  sopReg : Bool
  outPktValid : Bool
  outPkt : Flit512
  outMetaValid : Bool
  outMeta : BitVec 252
  outUsrValid : Bool
  outUsr : Flit512

namespace Demux

def reset : Demux := ⟨.first, 0, false, false, ⟨0, false, false, 0⟩, false, 0, false, ⟨0, false, false, 0⟩⟩

structure Full where
  pkt : Bool
  metaData : Bool
  usr : Bool

variable (s : Demux) (valid : Bool) (i : Flit512) (full : Full)

def ready : Bool :=
  match s.state with
  | .first => (ethType i.data == ethIp && !full.pkt) || (ethType i.data == ethMeta && !full.metaData) ||
      (ethType i.data == ethUsr && !full.usr)
  | .pkt => true
  | .usr => true

-- the `case` on `eth_type` of the first flit of a frame
def takesPkt : Bool := valid && i.sop && ethType i.data == ethIp && !full.pkt

def takesMeta : Bool := valid && i.sop && ethType i.data == ethMeta && !full.metaData

def takesUsr : Bool := valid && i.sop && ethType i.data == ethUsr && !full.usr

def usrData : BitVec 512 := low400 s.dataReg ++ high112 i.data

def step : Demux :=
  let dataReg := if valid then i.data else s.dataReg
  let sopReg := if valid then i.sop else s.sopReg
  match s.state with
  | .first =>
    { state := if takesPkt valid i full then (if i.eop then .first else .pkt) else if takesUsr valid i full then .usr else .first
      dataReg := dataReg
      sopReg := sopReg
      outPktValid := takesPkt valid i full
      outPkt := ⟨i.data, takesPkt valid i full, takesPkt valid i full && i.eop,
        if takesPkt valid i full && i.eop then i.empty else 0⟩
      outMetaValid := takesMeta valid i full
      outMeta := i.data.extractLsb' 148 252
      outUsrValid := false
      outUsr := ⟨s.usrData i, false, false, 0⟩ }
  | .pkt =>
    { s with
      state := if valid && i.eop then .first else .pkt
      dataReg := dataReg
      sopReg := sopReg
      outPktValid := valid
      outPkt := ⟨i.data, false, i.eop, i.empty⟩
      outMeta := i.data.extractLsb' 148 252
      outUsr := { s.outUsr with data := s.usrData i } }
  | .usr =>
    { s with
      state := if valid && i.eop then .first else .usr
      dataReg := dataReg
      sopReg := sopReg
      outPkt := { s.outPkt with data := i.data }
      outMeta := i.data.extractLsb' 148 252
      outUsrValid := valid && !i.sop
      outUsr := ⟨s.usrData i, s.sopReg, i.eop, s.outUsr.empty⟩ }

end Demux

/-! ## The system -/

inductive Chan
  | pkt | metaData | usr
  deriving DecidableEq

structure MuxTick where
  pktValid : Bool
  metaValid : Bool
  usrValid : Bool
  -- what is on the user bus while nothing is valid
  usrIdle : BitVec 512
  usrAlmostFull : Bool
  -- the multiplexer's choice between frames
  choice : Chan
  outReady : Bool
  inValid : Bool
  full : Demux.Full

structure MuxSys where
  pktSrc : List Flit512
  metaSrc : List (BitVec 252)
  usrSrc : List Flit512
  gen : UsrGen
  metaFifo : List Flit512
  usrFifo : List Flit512
  -- the multiplexer is inside a frame of this channel
  lock : Option Chan
  -- the channel is for the statements only
  link : List (Chan × Flit512)
  demux : Demux
  outPkt : List Flit512
  outMeta : List (BitVec 252)
  outUsr : List Flit512

namespace MuxSys

variable (s : MuxSys) (t : MuxTick)

def usrOffered : Option Flit512 := if t.usrValid then s.usrSrc.head? else none

def usrBus : Flit512 := (s.usrOffered t).getD ⟨t.usrIdle, false, false, 0⟩

def usrTaken : Bool := (s.usrOffered t).isSome && s.gen.ready t.usrAlmostFull

def metaTaken : Option Flit512 :=
  if t.metaValid && s.metaFifo.length < muxFifoDepth then s.metaSrc.head?.map metaFlit else none

def offer (c : Chan) : Option Flit512 :=
  match c with
  | .pkt => if t.pktValid then s.pktSrc.head? else none
  | .metaData => s.metaFifo.head?
  | .usr => s.usrFifo.head?

/-- `st_multiplexer_pkt_3` stays with a frame, and between frames chooses a channel that has one. -/
def grant : Chan :=
  match s.lock with
  | some c => c
  | none =>
    if (s.offer t t.choice).isSome then t.choice
    else if (s.offer t .pkt).isSome then .pkt
    else if (s.offer t .metaData).isSome then .metaData
    else .usr

def muxOut : Option Flit512 := if t.outReady then s.offer t (s.grant t) else none

def takes (c : Chan) : Bool := t.outReady && s.grant t == c

def arriving : Option (Chan × Flit512) := if t.inValid then s.link.head? else none

def inFlit : Flit512 := ((s.arriving t).map Prod.snd).getD ⟨0, false, false, 0⟩

def linkTaken : Bool := (s.arriving t).isSome && s.demux.ready (s.inFlit t) t.full

def nextDemux : Demux := s.demux.step (s.arriving t).isSome (s.inFlit t) t.full

def step : MuxSys where
  pktSrc := if s.takes t .pkt && t.pktValid then s.pktSrc.tail else s.pktSrc
  metaSrc := if (s.metaTaken t).isSome then s.metaSrc.tail else s.metaSrc
  usrSrc := if s.usrTaken t then s.usrSrc.tail else s.usrSrc
  gen := s.gen.step (s.usrOffered t).isSome (s.usrBus t) t.usrAlmostFull
  metaFifo := fifoStep s.metaFifo (s.metaTaken t) (s.takes t .metaData)
  usrFifo := fifoStep s.usrFifo (if s.usrFifo.length < muxFifoDepth then s.gen.out else none) (s.takes t .usr)
  lock :=
    match s.muxOut t with
    | none => s.lock
    | some f => if f.eop then none else some (s.grant t)
  link := fifoStep s.link ((s.muxOut t).map fun f => (s.grant t, f)) (s.linkTaken t)
  demux := s.nextDemux t
  outPkt := s.outPkt ++ if (s.nextDemux t).outPktValid then [(s.nextDemux t).outPkt] else []
  outMeta := s.outMeta ++ if (s.nextDemux t).outMetaValid then [(s.nextDemux t).outMeta] else []
  outUsr := s.outUsr ++ if (s.nextDemux t).outUsrValid then [(s.nextDemux t).outUsr] else []

end MuxSys

/-! ## Packets -/

/-- An IPv4 packet, with `empty` only on its last flit. -/
structure IpPkt extends StreamPkt where
  ip : ∀ f ∈ (body ++ [last]).head?, ethType f.data = ethIp
  empty : ∀ f ∈ body, f.sop = true → f.empty = 0

/-- A user packet of two or more full beats. -/
structure UsrPkt extends StreamPkt where
  two : body ≠ []
  full : ∀ f ∈ body ++ [last], f.empty = 0

def MuxSys.reset (pkts : List IpPkt) (metas : List (BitVec 252)) (usrs : List UsrPkt) : MuxSys where
  pktSrc := pkts.flatMap fun p => p.flits
  metaSrc := metas
  usrSrc := usrs.flatMap fun p => p.flits
  gen := .reset
  metaFifo := []
  usrFifo := []
  lock := none
  link := []
  demux := .reset
  outPkt := []
  outMeta := []
  outUsr := []

end Pigasus
