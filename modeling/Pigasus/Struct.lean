import Pigasus.Hdl

/-!
# Shared types of the design

The packed structs and parameters of `struct_s.sv` in the `USE_BRAM` build:
`PKT_NUM = 1024`, `FT_DEPTH = 2048`, `PQ_DEPTH = 8`, `LL_DEPTH = 512`.
-/

namespace Pigasus

open Hdl

/-- `FT_AWIDTH` bits. -/
abbrev FtAddr := BitVec 11

/-- `LL_AWIDTH` bits. -/
abbrev LlPtr := BitVec 9

/-- `PKT_AWIDTH` bits. -/
abbrev PktId := BitVec 10

structure Tuple where
  sIP : BitVec 32
  dIP : BitVec 32
  sPort : BitVec 16
  dPort : BitVec 16
  deriving DecidableEq, Repr, Inhabited

/-- Flow context entry; `addr i` is the field `addr0` .. `addr3`. -/
structure Fce where
  valid : Bool
  tuple : Tuple
  seq : BitVec 32
  pointer : LlPtr
  llValid : Bool
  slowCnt : PktId
  last7Bytes : BitVec 56
  addr : Vec FtAddr 4
  deriving DecidableEq

def zeroTuple : Tuple := ⟨0, 0, 0, 0⟩

def Fce.zero : Fce := ⟨false, zeroTuple, 0, 0, false, 0, 0, vec fun _ => 0⟩

instance : Inhabited Fce := ⟨Fce.zero⟩

structure FceMeta where
  tuple : Tuple
  addr : Vec FtAddr 4
  deriving DecidableEq

def FceMeta.zero : FceMeta := ⟨zeroTuple, vec fun _ => 0⟩

/-- `FT_INSERT`, `FT_UPDATE`, `FT_DELETE`; `nop` is the reset value 0. -/
inductive Opcode
  | nop | insert | update | delete
  deriving DecidableEq, Repr

inductive PqOp
  | fastInsert | fastDelete
  deriving DecidableEq, Repr

/-- The values of `pkt_flags`. -/
inductive PktFlags
  | forward | drop | check | ooo | forwardOoo | done
  deriving DecidableEq, Repr, Inhabited

def tcpFin : Nat := 0
def tcpSyn : Nat := 1
def tcpRst : Nat := 2
def tcpFack : Nat := 4

def protTcp : BitVec 8 := 0x06#8
def protUdp : BitVec 8 := 0x11#8

structure Metadata where
  prot : BitVec 8
  tuple : Tuple
  seq : BitVec 32
  len : BitVec 16
  pktID : PktId
  empty : BitVec 6
  flits : BitVec 5
  hdrLen : BitVec 9
  tcpFlags : BitVec 9
  pktFlags : PktFlags
  pduFlag : BitVec 2
  last7Bytes : BitVec 56
  deriving DecidableEq, Repr, Inhabited

def Metadata.zero : Metadata := ⟨0, zeroTuple, 0, 0, 0, 0, 0, 0, 0, .forward, 0, 0⟩

def Metadata.tcp (t : Tuple) (seq : BitVec 32) (len : BitVec 16) (id : PktId) (flags : BitVec 9) : Metadata :=
  { Metadata.zero with prot := protTcp, tuple := t, seq := seq, len := len, pktID := id, tcpFlags := flags }

/-- The flag test that closes a flow: `tcp_flags[TCP_FIN] | tcp_flags[TCP_RST]`. -/
def Metadata.finRst (m : Metadata) : Bool := m.tcpFlags.getLsbD tcpFin || m.tcpFlags.getLsbD tcpRst

/-- `seq + len` in 32 bits. -/
def Metadata.endSeq (m : Metadata) : BitVec 32 := m.seq + m.len.setWidth 32

/-- A node of the out-of-order list. -/
structure Entry where
  valid : Bool
  seq : BitVec 32
  len : BitVec 16
  next : LlPtr
  pktID : PktId
  flits : BitVec 5
  last : Bool
  last7Bytes : BitVec 56
  deriving DecidableEq, Repr, Inhabited

def Entry.zero : Entry := ⟨false, 0, 0, 0, 0, 0, false, 0⟩

end Pigasus
