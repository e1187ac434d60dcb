import Pigasus.StringMatcher

/-!
# The fingerprint of a packet

`non_fast_pattern_sm`: a shift-or filter and a hash table look for short patterns in
the 16 bytes of a beat, and `cal_fp` gathers the indices of a packet in a fingerprint
of 16 bits for each bucket. Byte `j` of a beat is the one at `[8j+7:8j]` after the
byte swap.
-/

namespace Pigasus

open Hdl

/-- One word on the packet bus. -/
abbrev NfWord := BusWord 16 4

/-- The contents of `shift_or.mif` and of the bitmaps of the eight buckets. -/
structure NfTables where
  matchTable : BitVec 14 → BitVec 64
  bitmap : Fin 8 → BitVec 14 → BitVec 8

abbrev NfLanes (α : Type) := Vec (Vec α 16) 8

/-! ## `non_fast_pattern_shiftor` -/

abbrev NfFilter := FilterRegs 16 128

namespace NfFilter

/-- The constant of the checked-in `non_fast_pattern_shiftor`; `shift_or.template` still has that of `first_filter`. -/
def initState : BitVec 64 := 0x000103070f1f3f7f#64

/-- The byte and the low six bits of the next one, which for the last byte is on the bus. -/
def addr (d : Vec Byte 16) (last : Bool) (next : Byte) (k : Fin 16) : BitVec 14 :=
  (if h : k.val + 1 < 16 then (d ⟨k.val + 1, h⟩).extractLsb' 0 6
    else if last then 0 else next.extractLsb' 0 6) ++ d k

/-- `shiftor_state_0` and `shiftor_state_1`. -/
def shiftorState (q : Vec (BitVec 64) 16) (st : BitVec 64) (g : Nat) : BitVec 128 := ShiftOr.block (wordsAt q) st g

def outData (q : Vec (BitVec 64) 16) (st : BitVec 64) (mask : BitVec 128) : BitVec 128 :=
  ((shiftorState q st 1).setWidth 64 ++ (shiftorState q st 0).setWidth 64) ||| mask

def nextState (q : Vec (BitVec 64) 16) (st : BitVec 64) : BitVec 64 := (shiftorState q st 1 >>> 64).setWidth 64

/-- `(16 - in_empty) * 8` -/
def shiftOf (empty : BitVec 4) : BitVec 9 := (16 - empty.setWidth 9) * 8

def maskOf (shift : BitVec 9) : BitVec 128 := (BitVec.allOnes 127).setWidth 128 <<< shift

def design (T : NfTables) : FilterDesign 16 128 4 where
  initState := initState
  read d last n k := T.matchTable (addr d last (n 0) k)
  nextState := nextState
  outData := outData
  shiftOf := shiftOf
  maskOf := maskOf

def step (T : NfTables) (s : NfFilter) (w : NfWord) : NfFilter := FilterRegs.step (design T) s w

end NfFilter

/-! ## `non_fast_pattern_ht` -/

/-- `NBITS` of a bucket. -/
def nfBits : Fin 8 → Nat
  | 0 => 17
  | 1 => 13
  | 2 => 13
  | 3 => 13
  | 4 => 13
  | 5 => 12
  | 6 => 11
  | 7 => 10

abbrev NfHash := HashRegs 16 23 17

namespace NfHash

/-- `padded_din`: the last seven bytes of the beat before, then the beat. -/
def padded (reg : Vec Byte 8) (d : Vec Byte 16) (k : Fin 23) : Byte :=
  if h : k.val < 7 then reg ⟨k.val + 1, by omega⟩ else d ⟨k.val - 7, by omega⟩

def lastBytes (d : Vec Byte 16) : Vec Byte 8 := vec fun k => d ⟨8 + k.val, by omega⟩

/-- Byte `b` of the window that ends at byte `j`. -/
def windowAt (j : Fin 16) (b : Fin 8) : Fin 23 := ⟨j.val + b.val, by omega⟩

/-- The window of bucket `i`, of `8 - i` bytes, may start in the beat before. -/
def laneValid (i : Fin 8) (j : Fin 16) (dinValid dinValidReg : Bool) : Bool :=
  if j.val + i.val < 7 then dinValid && dinValidReg else dinValid

theorem le_of_valid {i : Fin 8} {j : Fin 16} {v p : Bool} (h : laneValid i j v p = true) : v = true := by
  unfold laneValid at h
  split at h
  · exact (Bool.and_eq_true_iff.1 h).1
  · exact h

def design (T : NfTables) : HashDesign 16 23 14 where
  lastBytes := lastBytes
  padded := padded
  windowAt := windowAt
  laneValid := laneValid
  masked := Fin.val
  nbits := nfBits
  bitmap := T.bitmap
  laneValid_le := le_of_valid

def step (T : NfTables) (s : NfHash) (din : Vec Byte 16) (dinValid : Bool) : NfHash := HashRegs.step (design T) s din dinValid

end NfHash

/-! ## `cal_fp` -/

/-- The fields `fp_data[16i+15:16i]` of a fingerprint. -/
abbrev Fingerprint := Vec (BitVec 16) 8

/-- `sub_fp` and `valid` of two neighbours. -/
def orOpt : Option (BitVec 16) → Option (BitVec 16) → Option (BitVec 16)
  | none, none => none
  | a, b => some (a.getD 0 ||| b.getD 0)

def orLayer {n : Nat} (v : Vec (Option (BitVec 16)) (2 * n)) : Vec (Option (BitVec 16)) n :=
  vec fun j => orOpt (v ⟨2 * j.val, by omega⟩) (v ⟨2 * j.val + 1, by omega⟩)

structure CalFp where
  l0 : Vec (Vec (Option (BitVec 16)) 16) 8
  l1 : Vec (Vec (Option (BitVec 16)) 8) 8
  l2 : Vec (Vec (Option (BitVec 16)) 4) 8
  l3 : Vec (Vec (Option (BitVec 16)) 2) 8
  l4 : Vec (Vec (Option (BitVec 16)) 1) 8
  lastR : Vec Bool 5
  subFp : Fingerprint
  fpData : Fingerprint
  fpValid : Bool
  deriving Inhabited

namespace CalFp

/-- `1 << index_trunc` -/
def bitOf (index : BitVec 17) : BitVec 16 := 1#16 <<< (index.extractLsb' 0 4)

variable (s : CalFp)

/-- What the accumulator starts with behind the end of a packet: the first beat of the next packet may be there. -/
def restart (i : Fin 8) : BitVec 16 := (s.l4 i 0).getD 0

def step (din : NfLanes (Option (BitVec 17))) (last : Bool) : CalFp where
  l0 := vec fun i => vec fun j => (din i j).map bitOf
  l1 := vec fun i => orLayer (s.l0 i)
  l2 := vec fun i => orLayer (s.l1 i)
  l3 := vec fun i => orLayer (s.l2 i)
  l4 := vec fun i => orLayer (s.l3 i)
  lastR := shiftIn last s.lastR
  subFp := vec fun i =>
    if s.lastR 4 then s.restart i
    else match s.l4 i 0 with
      | some x => s.subFp i ||| x
      | none => s.subFp i
  fpData := s.subFp
  fpValid := s.lastR 4

end CalFp

/-! ## `non_fast_pattern_sm` -/

structure NfSm where
  filter : NfFilter
  hashIn : Vec Byte 16
  hashInValid : Bool
  hash : NfHash
  /-- `filter_out_r1` .. `filter_out_r13`. -/
  filterOutR : Vec (BitVec 128) 13
  /-- `new_pkt_r1` .. `new_pkt_r16`. -/
  newPktR : Vec Bool 16
  outNewPkt : Bool
  last : Bool
  /-- `index_valid` and `index_data`. -/
  index : NfLanes (Option (BitVec 17))
  cal : CalFp
  deriving Inhabited

namespace NfSm

variable (T : NfTables) (s : NfSm) (w : NfWord)

/-- The bucket of single bytes is not filtered. -/
def filtered (i : Fin 8) (j : Fin 16) (out : BitVec 128) : Bool := decide (i.val < 7) && out.getLsbD (i.val + 8 * j.val)

def hashOutValidFilter (i : Fin 8) (j : Fin 16) : Bool := (s.hash.port i j).doutValid && !filtered i j (s.filterOutR 12)

def step : NfSm where
  filter := s.filter.step T w
  hashIn := w.data
  hashInValid := w.valid
  hash := s.hash.step T s.hashIn s.hashInValid
  filterOutR := shiftIn (if s.filter.outValid then s.filter.out (NfFilter.design T) else BitVec.allOnes 128) s.filterOutR
  newPktR := shiftIn w.ends s.newPktR
  outNewPkt := s.newPktR 15
  last := s.outNewPkt
  index := lanes fun i j => if s.hashOutValidFilter i j then some (s.hash.port i j).dout else none
  cal := s.cal.step s.index s.last

/-- After reset, with nothing on its way. -/
def reset : NfSm := { (default : NfSm) with filter := { (default : NfFilter) with state := NfFilter.initState } }

end NfSm

/-! ## Packets -/

structure NfBeat where
  data : Vec Byte 16
  empty : BitVec 4

/-- What is on the bus in a cycle without a beat. -/
structure NfIdle where
  eop : Bool
  empty : BitVec 4
  data : Vec Byte 16

def NfIdle.word (x : NfIdle) : NfWord := ⟨false, x.eop, x.empty, x.data⟩

/-- A packet, and the idle cycles in front of it. -/
structure NfPacket where
  gap : List NfIdle
  body : List NfBeat
  last : NfBeat

def NfWord.idle : NfWord := default

def NfBeat.word (b : NfBeat) (eop : Bool) : NfWord := ⟨true, eop, b.empty, b.data⟩

def NfPacket.beats (p : NfPacket) : List NfBeat := p.body ++ [p.last]

/-- The beats on the bus, of which the last one has `eop`. -/
def beatWords16 : List NfBeat → List NfWord
  | [] => []
  | b :: l => b.word l.isEmpty :: beatWords16 l

def NfPacket.words (p : NfPacket) : List NfWord := p.gap.map NfIdle.word ++ beatWords16 p.beats

/-- The matcher and the fingerprints that it has emitted. -/
structure NfRun where
  sm : NfSm
  out : List Fingerprint

def NfRun.step (T : NfTables) (s : NfRun) (w : NfWord) : NfRun where
  sm := s.sm.step T w
  out := s.out ++ if s.sm.cal.fpValid then [s.sm.cal.fpData] else []

end Pigasus
