import Pigasus.FlowTableWrapper

/-!
# The parser in front of the reassembler

`parser` reads the headers of a frame at fixed positions of its first 64 bytes
and registers the metadata; `parser_out_fifo` hands them to `flow_table_wrapper`
in order.
-/

namespace Pigasus

open Hdl

/-- `NS`: the frame is not supported. -/
def protNs : BitVec 8 := 0xFF#8

def protEth : BitVec 16 := 0x0800#16
def ipV4 : BitVec 4 := 4#4
def ethHdrLen : BitVec 9 := 14#9

/-- The first 64 bytes of a frame, byte 0 in the most significant position. -/
abbrev Header := BitVec 512

namespace Header

variable (d : Header)

def ethType : BitVec 16 := d.extractLsb' 400 16
def ipVersion : BitVec 4 := d.extractLsb' 396 4
def ipIhl : BitVec 4 := d.extractLsb' 392 4
def ipLen : BitVec 16 := d.extractLsb' 368 16
def ipProt : BitVec 8 := d.extractLsb' 320 8
def ipSip : BitVec 32 := d.extractLsb' 272 32
def ipDipHigh : BitVec 16 := d.extractLsb' 256 16
def ipDipLow : BitVec 16 := d.extractLsb' 240 16
-- the ports stand at the same place in both protocols
def sPort : BitVec 16 := d.extractLsb' 224 16
def dPort : BitVec 16 := d.extractLsb' 208 16
def tcpSeq : BitVec 32 := d.extractLsb' 176 32
def tcpDo : BitVec 4 := d.extractLsb' 140 4
/-- `{tcp_ns, tcp_cwr, tcp_ece, tcp_urg, tcp_fack, tcp_psh, tcp_rst, tcp_syn, tcp_fin}`. -/
def tcpFlags : BitVec 9 := d.extractLsb' 128 9

def isTcp : Bool := d.ipProt == protTcp

def support : Bool :=
  d.ethType == protEth && d.ipVersion == ipV4 && d.ipIhl == 5 && (d.ipProt == protTcp || d.ipProt == protUdp)

/-- The bytes of the IP and transport headers. -/
def ipHdrLen (w : Nat) : BitVec w := d.ipIhl.setWidth w <<< 2
def l4HdrLen (w : Nat) : BitVec w := if d.isTcp then d.tcpDo.setWidth w <<< 2 else 8

/-- The metadata of a frame; `m` is what `input_comp` knows about it. -/
def metadata (m : Metadata) : Metadata where
  prot := if d.support then if d.isTcp then protTcp else protUdp else protNs
  tuple := ⟨d.ipSip, d.ipDipHigh ++ d.ipDipLow, d.sPort, d.dPort⟩
  seq := d.tcpSeq
  len := d.ipLen - d.ipHdrLen 16 - d.l4HdrLen 16
  pktID := m.pktID
  empty := m.empty
  flits := m.flits
  hdrLen := ethHdrLen + d.ipHdrLen 9 + d.l4HdrLen 9
  tcpFlags := d.tcpFlags
  pktFlags := .forward
  pduFlag := 0
  last7Bytes := m.last7Bytes

theorem metadata_prot (m : Metadata) :
    (d.metadata m).prot = protTcp ∨ (d.metadata m).prot = protUdp ∨ (d.metadata m).prot = protNs := by
  simp only [metadata]
  split_ifs <;> simp

end Header

/-! ## The parser with its FIFO -/

structure ParserIn where
  inPktData : Header
  inPktValid : Bool
  inPktSop : Bool
  inPktEop : Bool
  inMetaData : Metadata
  inMetaValid : Bool

structure Parser where
  outMetaData : Metadata
  outMetaValid : Bool

namespace Parser

def reset : Parser := ⟨.zero, false⟩

/-- A frame is taken over; only the first 64 bytes of a frame are presented, as one flit. -/
def accepts (outMetaReady : Bool) (i : ParserIn) : Bool :=
  outMetaReady && i.inPktValid && i.inPktSop && i.inPktEop && i.inMetaValid

def step (p : Parser) (outMetaReady : Bool) (i : ParserIn) : Parser :=
  if accepts outMetaReady i then ⟨i.inPktData.metadata i.inMetaData, true⟩
  else { p with outMetaValid := false }

end Parser

/-- One cycle at the pins of the parser and of the three outputs of the wrapper. -/
structure FrontIn where
  parser : ParserIn
  outMetaAlmostFull : Bool
  forwardMetaReady : Bool
  reorderMetaAlmostFull : Bool

/-- The parser, `parser_out_fifo` and the wrapper, with the history of the frames parsed, of the
wrapper's inputs and of what left on the forward output. The FIFO has a word for each of the
`PKT_NUM` packet buffers, so it is always ready. -/
structure Front where
  parser : Parser
  fifo : List Metadata
  ftw : Wrapper
  parsed : List Metadata
  ftwIns : List WrapIn
  forwarded : List Metadata

namespace Front

def reset : Front := ⟨.reset, [], .reset, [], [], []⟩

variable (s : Front) (i : FrontIn)

def ftwIn : WrapIn where
  inMetaData := s.fifo.headD .zero
  inMetaValid := !s.fifo.isEmpty
  outMetaAlmostFull := i.outMetaAlmostFull
  forwardMetaReady := i.forwardMetaReady
  reorderMetaAlmostFull := i.reorderMetaAlmostFull

def push : Option Metadata := if s.parser.outMetaValid then some s.parser.outMetaData else none

/-- The frame that the parser takes over. -/
def frame : Option Metadata :=
  if Parser.accepts true i.parser then some (i.parser.inPktData.metadata i.parser.inMetaData) else none

def step : Front where
  parser := s.parser.step true i.parser
  fifo := fifoStep s.fifo s.push (s.ftw.inMetaReady (s.ftwIn i))
  ftw := s.ftw.step (s.ftwIn i)
  parsed := s.parsed ++ (frame i).toList
  ftwIns := s.ftwIns ++ [s.ftwIn i]
  forwarded := s.forwarded ++ (s.ftw.out (s.ftwIn i)).forward.toList

end Front

end Pigasus
