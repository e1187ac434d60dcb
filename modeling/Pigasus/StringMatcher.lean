import Pigasus.ShiftOrFilter
import Pigasus.Reduction

/-!
# The front of the string matcher

`string_matcher` up to the FIFOs of its 256 lanes: `pkt_almost_full` paces the
packets, `first_filter` runs a shift-or filter over them, `hashtable_top` hashes
the windows of two to eight bytes that end at each byte of a beat, and `frontend`
joins the two and marks the ends of packets. Byte `j` of a beat is the one at
`[8j+7:8j]` after the byte swap.
-/

namespace Pigasus

open Hdl

/-- One word on the packet bus. -/
abbrev FpWord := BusWord 32 5

/-- The contents of `match_table` and of the bitmaps of the eight buckets. -/
structure FpTables where
  matchTable : BitVec 13 → BitVec 64
  bitmap : Fin 8 → BitVec 13 → BitVec 8

/-- One value for each bucket and byte position. -/
abbrev Lanes (α : Type) := Vec (Vec α 32) 8

def lanes {α : Type} {B : Nat} (f : Fin 8 → Fin B → α) : Vec (Vec α B) 8 := vec fun i => vec (f i)

@[simp] theorem lanes_get {α : Type} {B : Nat} (f : Fin 8 → Fin B → α) (i : Fin 8) (j : Fin B) : lanes f i j = f i j := by
  simp [lanes]

/-! ## `pkt_almost_full` -/

inductive PafState
  | idle | send
  deriving DecidableEq, Repr, Inhabited

structure PktAlmostFull where
  state : PafState
  temp : FpWord
  hp : Vec FpWord 2
  deriving Inhabited

namespace PktAlmostFull

def inReady (s : PktAlmostFull) : Bool := s.state == .send

def step (s : PktAlmostFull) (outAlmostFull : Bool) (w : FpWord) : PktAlmostFull :=
  { state :=
      match s.state with
      | .idle => if outAlmostFull then .idle else .send
      | .send => if w.ends then .idle else .send
    temp := if s.state == .send then w else ⟨false, false, 0, w.data⟩
    hp := shiftIn s.temp s.hp }

end PktAlmostFull

/-! ## `first_filter` -/

abbrev FirstFilter := FilterRegs 32 256

namespace FirstFilter

/-- The state in front of a packet: no window may start before it. -/
def initState : BitVec 64 := 0x0003070f1f3f7fff#64

/-- The address of byte `k`: the byte and the low bits of the next one, which for the last byte is
on the bus. -/
def addr (d : Vec Byte 32) (last : Bool) (next : Byte) (k : Fin 32) : BitVec 13 :=
  (if h : k.val + 1 < 32 then (d ⟨k.val + 1, h⟩).extractLsb' 0 5
    else if last then 0 else next.extractLsb' 0 5) ++ d k

/-- `shiftor_state_0` .. `shiftor_state_3`. -/
def shiftorState (q : Vec (BitVec 64) 32) (st : BitVec 64) (g : Nat) : BitVec 128 := ShiftOr.block (wordsAt q) st g

def outData (q : Vec (BitVec 64) 32) (st : BitVec 64) (mask : BitVec 256) : BitVec 256 :=
  ((shiftorState q st 3).setWidth 64 ++ (shiftorState q st 2).setWidth 64 ++ (shiftorState q st 1).setWidth 64 ++
    (shiftorState q st 0).setWidth 64) ||| mask

def nextState (q : Vec (BitVec 64) 32) (st : BitVec 64) : BitVec 64 := (shiftorState q st 3 >>> 64).setWidth 64

/-- `(32 - in_empty) * 8`. -/
def shiftOf (empty : BitVec 5) : BitVec 9 := (32 - empty.setWidth 9) * 8

def maskOf (shift : BitVec 9) : BitVec 256 := (BitVec.allOnes 255).setWidth 256 <<< shift

def design (T : FpTables) : FilterDesign 32 256 5 where
  initState := initState
  read d last n k := T.matchTable (addr d last (n 0) k)
  nextState := nextState
  outData := outData
  shiftOf := shiftOf
  maskOf := maskOf

def step (T : FpTables) (s : FirstFilter) (w : FpWord) : FirstFilter := FilterRegs.step (design T) s w

end FirstFilter

/-! ## `mul_hash` and `acc_hash` -/

structure MulHash where
  aReg0 : Byte
  aReg1 : Byte
  aReg2 : Byte
  abReg0 : Vec (BitVec 24) 4
  abReg1 : Vec (BitVec 24) 4
  ab : Vec (BitVec 24) 4
  deriving Inhabited

namespace MulHash

/-- `b0` .. `b3`. -/
def coeff (k : Fin 4) : BitVec 16 := (0x0b4e0ef37bc32127#64).extractLsb' (16 * k.val) 16

def mul (a : Byte) : Vec (BitVec 24) 4 := vec fun k => a.setWidth 24 * (coeff k).setWidth 24

def step (s : MulHash) (a : Byte) : MulHash where
  aReg0 := a
  aReg1 := s.aReg0
  aReg2 := s.aReg1
  abReg0 := mul s.aReg2
  abReg1 := s.abReg0
  ab := s.abReg1

end MulHash

/-- `a01_b0` .. `a01_b3`. -/
structure AccL1 where
  a01b0 : BitVec 33
  a23b0 : BitVec 33
  a45b0 : BitVec 33
  a67b0 : BitVec 33
  a01b1 : BitVec 33
  a23b1 : BitVec 33
  a45b1 : BitVec 33
  a01b2 : BitVec 33
  a23b2 : BitVec 33
  a01b3 : BitVec 33
  deriving Inhabited

structure AccL2 where
  a01b1a23b0 : BitVec 34
  a01b2a45b0 : BitVec 34
  a01b3a23b2 : BitVec 17
  a45b1a67b0 : BitVec 17
  a01b0 : BitVec 33
  a23b1 : BitVec 33
  deriving Inhabited

structure AccL3 where
  sum0 : BitVec 51
  sum1 : BitVec 35
  sum2 : BitVec 17
  deriving Inhabited

structure AccL4 where
  halfSum0 : BitVec 51
  halfSum1 : BitVec 36
  deriving Inhabited

/-- With an index of up to `w` bits. -/
structure AccHash (w : Nat) where
  l1 : AccL1
  l2 : AccL2
  l3 : AccL3
  l4 : AccL4
  sum : BitVec 65
  p : BitVec w
  deriving Inhabited

namespace AccHash

/-- Two neighbouring bytes times one coefficient. -/
def merge (x y : BitVec 24) : BitVec 33 := x.setWidth 33 + (y ++ 0#8).setWidth 33

/-- Level 1; `n` is `LSB_BYTES_MASKED` and `ab k` the products of byte `k` of the window. -/
def level1 (n : Nat) (ab : Fin 8 → Vec (BitVec 24) 4) : AccL1 :=
  let m (k : Fin 8) (b : Fin 4) : BitVec 24 := if k.val + 1 ≤ n then 0 else ab k b
  { a01b0 := merge (m 0 0) (m 1 0)
    a23b0 := merge (m 2 0) (m 3 0)
    a45b0 := merge (m 4 0) (m 5 0)
    a67b0 := merge (m 6 0) (m 7 0)
    a01b1 := merge (m 0 1) (m 1 1)
    a23b1 := merge (m 2 1) (m 3 1)
    a45b1 := merge (m 4 1) (m 5 1)
    a01b2 := merge (m 0 2) (m 1 2)
    a23b2 := merge (m 2 2) (m 3 2)
    a01b3 := merge (m 0 3) (m 1 3) }

def level2 (s : AccL1) : AccL2 where
  a01b1a23b0 := s.a01b1.setWidth 34 + s.a23b0.setWidth 34
  a01b2a45b0 := s.a01b2.setWidth 34 + s.a45b0.setWidth 34
  a01b3a23b2 := (s.a01b3.setWidth 16).setWidth 17 + (s.a23b2.setWidth 16).setWidth 17
  a45b1a67b0 := (s.a45b1.setWidth 16).setWidth 17 + (s.a67b0.setWidth 16).setWidth 17
  a01b0 := s.a01b0
  a23b1 := s.a23b1

def level3 (s : AccL2) : AccL3 where
  sum0 := (s.a01b1a23b0.setWidth 51 <<< 16) + s.a01b0.setWidth 51
  sum1 := s.a01b2a45b0.setWidth 35 + s.a23b1.setWidth 35
  sum2 := (s.a01b3a23b2.setWidth 16).setWidth 17 + (s.a45b1a67b0.setWidth 16).setWidth 17

def level4 (s : AccL3) : AccL4 where
  halfSum0 := s.sum0
  halfSum1 := (s.sum2.setWidth 16 ++ 0#16).setWidth 36 + s.sum1.setWidth 36

def final (s : AccL4) : BitVec 65 := s.halfSum0.setWidth 65 + (s.halfSum1.setWidth 32 ++ 0#32).setWidth 65

/-- `sum[63:64-NBITS]`. -/
def select (w nbits : Nat) (sum : BitVec 65) : BitVec w := (sum.extractLsb' (64 - nbits) nbits).setWidth w

def step {w : Nat} (n nbits : Nat) (s : AccHash w) (ab : Fin 8 → Vec (BitVec 24) 4) : AccHash w where
  l1 := level1 n ab
  l2 := level2 s.l1
  l3 := level3 s.l2
  l4 := level4 s.l3
  sum := final s.l4
  p := select w nbits s.sum

end AccHash

/-! ## `hashtable` and `hashtable_top` -/

/-- One of the two ports of `hashtable`. -/
structure HashPort (w : Nat) where
  addrR1 : BitVec w
  addrR2 : BitVec w
  bmBitReg1 : BitVec 3
  bmBitReg2 : BitVec 3
  outValidReg1 : Bool
  qValid : Bool
  q : RdPort (BitVec 8)
  dout : BitVec w
  doutValid : Bool
  deriving Inhabited

namespace HashPort

variable {w n : Nat}

def bmAddr (a : BitVec w) : BitVec n := a.extractLsb' 3 n

def bmBit (a : BitVec w) : BitVec 3 := a.extractLsb' 0 3

/-- `(q >> bm_bit) & 1`. -/
def bit (q : BitVec 8) (b : BitVec 3) : Bool := (q >>> b) &&& 1 != 0

def step (bitmap : BitVec n → BitVec 8) (s : HashPort w) (addr : BitVec w) (addrValid : Bool) : HashPort w where
  addrR1 := addr
  addrR2 := s.addrR1
  bmBitReg1 := bmBit addr
  bmBitReg2 := s.bmBitReg1
  outValidReg1 := addrValid
  qValid := s.outValidReg1
  q := s.q.read (bitmap (bmAddr addr))
  dout := s.addrR2
  doutValid := s.qValid && bit s.q.q s.bmBitReg2

end HashPort

/-- What is particular to one table: its windows are taken from `P` bytes, and its bitmaps have addresses of `n` bits. -/
structure HashDesign (B P n : Nat) where
  lastBytes : Vec Byte B → Vec Byte 8
  /-- The last bytes of the beat before, then the beat. -/
  padded : Vec Byte 8 → Vec Byte B → Fin P → Byte
  /-- Byte `b` of the window that ends at byte `j`. -/
  windowAt : Fin B → Fin 8 → Fin P
  laneValid : Fin 8 → Fin B → Bool → Bool → Bool
  /-- `LSB_BYTES_MASKED` and `NBITS` of a bucket. -/
  masked : Fin 8 → Nat
  nbits : Fin 8 → Nat
  bitmap : Fin 8 → BitVec n → BitVec 8
  laneValid_le : ∀ {i j v p}, laneValid i j v p = true → v = true

structure HashRegs (B P w : Nat) where
  /-- The last eight bytes of the beat before. -/
  dinReg : Vec Byte 8
  dinValidReg : Bool
  mul : Vec MulHash P
  addrValid : Vec (Vec (Vec Bool 12) B) 8
  acc : Vec (Vec (AccHash w) B) 8
  port : Vec (Vec (HashPort w) B) 8
  deriving Inhabited

def HashRegs.step {B P w n : Nat} (F : HashDesign B P n) (s : HashRegs B P w) (din : Vec Byte B) (dinValid : Bool) :
    HashRegs B P w where
  dinReg := F.lastBytes din
  dinValidReg := dinValid
  mul := vec fun k => (s.mul k).step (F.padded s.dinReg din k)
  addrValid := lanes fun i j => shiftIn (F.laneValid i j dinValid s.dinValidReg) (s.addrValid i j)
  acc := lanes fun i j => (s.acc i j).step (F.masked i) (F.nbits i) fun b => (s.mul (F.windowAt j b)).ab
  port := lanes fun i j => (s.port i j).step (F.bitmap i) (s.acc i j).p (s.addrValid i j 11)

/-- The bytes that the window of a bucket leaves out: `LSB_BYTES_MASKED`. -/
def maskedBytes (i : Fin 8) : Nat := i.val - 1

/-- `NBITS` of a bucket. -/
def nbits : Fin 8 → Nat
  | 0 => 15
  | 1 => 15
  | 2 => 12
  | 3 => 12
  | 4 => 11
  | 5 => 12
  | 6 => 10
  | 7 => 8

/-- The window of bucket `i` that ends at byte `j` starts in the beat before. -/
def crosses (i : Fin 8) (j : Fin 32) : Bool := decide (j.val + maskedBytes i < 7)

abbrev HashTop := HashRegs 32 39 16

namespace HashTop

/-- `padded_din`: the last seven bytes of the beat before, then the beat. -/
def padded (reg : Vec Byte 8) (d : Vec Byte 32) (k : Fin 39) : Byte :=
  if h : k.val < 7 then reg ⟨k.val + 1, by omega⟩ else d ⟨k.val - 7, by omega⟩

def lastBytes (d : Vec Byte 32) : Vec Byte 8 := vec fun k => d ⟨24 + k.val, by omega⟩

/-- Byte `b` of the window that ends at byte `j`. -/
def windowAt (j : Fin 32) (b : Fin 8) : Fin 39 := ⟨j.val + b.val, by omega⟩

def laneValid (i : Fin 8) (j : Fin 32) (dinValid dinValidReg : Bool) : Bool :=
  if crosses i j then dinValid && dinValidReg else dinValid

theorem le_of_valid {i : Fin 8} {j : Fin 32} {v p : Bool} (h : laneValid i j v p = true) : v = true := by
  unfold laneValid at h
  split at h
  · exact (Bool.and_eq_true_iff.1 h).1
  · exact h

def design (T : FpTables) : HashDesign 32 39 13 where
  lastBytes := lastBytes
  padded := padded
  windowAt := windowAt
  laneValid := laneValid
  masked := maskedBytes
  nbits := nbits
  bitmap := T.bitmap
  laneValid_le := le_of_valid

def step (T : FpTables) (s : HashTop) (din : Vec Byte 32) (dinValid : Bool) : HashTop := HashRegs.step (design T) s din dinValid

end HashTop

/-! ## `frontend` -/

structure Frontend where
  filter : FirstFilter
  hashIn : Vec Byte 32
  hashInValid : Bool
  hash : HashTop
  /-- `filter_out_r1` .. `filter_out_r13`. -/
  filterOutR : Vec (BitVec 256) 13
  /-- `new_pkt_r1` .. `new_pkt_r16`. -/
  newPktR : Vec Bool 16
  outNewPkt : Bool
  deriving Inhabited

namespace Frontend

def filterBit (i : Fin 8) (j : Fin 32) : Nat := i.val + 8 * j.val

variable (T : FpTables) (s : Frontend) (w : FpWord)

def hashOut (i : Fin 8) (j : Fin 32) : BitVec 16 := (s.hash.port i j).dout

def hashOutValidFilter (i : Fin 8) (j : Fin 32) : Bool :=
  (s.hash.port i j).doutValid && !(s.filterOutR 12).getLsbD (filterBit i j)

def step : Frontend where
  filter := s.filter.step T w
  hashIn := w.data
  hashInValid := w.valid
  hash := s.hash.step T s.hashIn s.hashInValid
  filterOutR := shiftIn (if s.filter.outValid then s.filter.out (FirstFilter.design T) else BitVec.allOnes 256) s.filterOutR
  newPktR := shiftIn w.ends s.newPktR
  outNewPkt := s.newPktR 15

end Frontend

/-! ## `string_matcher` -/

/-- The registers in front of the FIFO of a lane. -/
structure LaneRegs where
  dinValid : Bool
  din : RuleS
  dinValidR1 : Bool
  dinR1 : RuleS
  dinValidR2 : Bool
  dinR2 : RuleS
  deriving Inhabited

structure Matcher where
  paf : PktAlmostFull
  front : Frontend
  lane : Lanes LaneRegs
  deriving Inhabited

namespace Matcher

/-- Behind a reset that has cleared the valid bits of the pipelines; everything else keeps the
contents of `p`. -/
def reset (p : Matcher) : Matcher where
  paf :=
    { p.paf with
      state := .idle
      temp := ⟨false, false, 0, p.paf.temp.data⟩
      hp := vec fun k => { p.paf.hp k with valid := false } }
  front :=
    { p.front with
      filter :=
        { p.front.filter with
          state := FirstFilter.initState
          inValidReg := false
          inValidReg1 := false
          outValid := false
          last := false
          lastR := false
          lastR1 := false
          mask := 0 }
      hashInValid := false
      hash :=
        { p.front.hash with
          dinValidReg := false
          addrValid := lanes fun _ _ => vec fun _ => false
          port := lanes fun i j =>
            { p.front.hash.port i j with outValidReg1 := false, qValid := false, doutValid := false } }
      newPktR := vec fun _ => false
      outNewPkt := false }
  lane := lanes fun i j => { p.lane i j with dinValid := false, dinValidR1 := false, dinValidR2 := false }

variable (T : FpTables) (s : Matcher)

def laneStep (i : Fin 8) (j : Fin 32) : LaneRegs :=
  let r := s.lane i j
  { dinValid := s.front.outNewPkt || s.front.hashOutValidFilter i j
    din :=
      { last := s.front.outNewPkt
        bucket := BitVec.ofFin i
        data := if s.front.hashOutValidFilter i j then s.front.hashOut i j else 0 }
    dinValidR1 := r.dinValid
    dinR1 := r.din
    dinValidR2 := r.dinValidR1
    dinR2 := r.dinR1 }

/-- What is being presented to the FIFO of lane `i`, `j`. -/
def written (i : Fin 8) (j : Fin 32) : Option RuleS :=
  if (s.lane i j).dinValidR2 then some (s.lane i j).dinR2 else none

def step (almostFull : Bool) (w : FpWord) : Matcher where
  paf := s.paf.step almostFull w
  front := s.front.step T (s.paf.hp 1)
  lane := lanes s.laneStep

end Matcher

/-! ## The source of the packets -/

structure FpBeat where
  data : Vec Byte 32
  empty : BitVec 5

/-- A packet: at least one beat. -/
structure FpPacket where
  first : FpBeat
  rest : List FpBeat

def FpPacket.beats (p : FpPacket) : List FpBeat := p.first :: p.rest

def FpBeat.word (b : FpBeat) (eop : Bool) : FpWord := ⟨true, eop, b.empty, b.data⟩

/-- One cycle: whether the source offers its next beat, what is on the bus when it does not, and the
level of the lane FIFOs. -/
structure FpTick where
  offer : Bool
  bus : FpWord
  almostFull : Bool

structure FpSource where
  -- the beats of the last packet that was begun
  sent : List FpBeat
  cur : List FpBeat
  pkts : List FpPacket

namespace FpSource

variable (s : FpSource)

/-- The beat that comes next, and whether it ends its packet. -/
def front : Option FpWord :=
  match s.cur, s.pkts with
  | b :: l, _ => some (b.word l.isEmpty)
  | [], p :: _ => some (p.first.word p.rest.isEmpty)
  | [], [] => none

/-- What is on the bus; a `contiguous` source does not pause in a packet. -/
def word (contiguous : Bool) (i : FpTick) : FpWord :=
  if i.offer || contiguous && !s.cur.isEmpty then s.front.getD { i.bus with valid := false }
  else { i.bus with valid := false }

def taken : FpSource :=
  match s.cur, s.pkts with
  | b :: l, ps => ⟨s.sent ++ [b], l, ps⟩
  | [], p :: ps => ⟨[p.first], p.rest, ps⟩
  | [], [] => s

end FpSource

/-- The string matcher with the source of its packets; `out` is what was presented to the FIFOs. -/
structure MatchSys where
  m : Matcher
  src : FpSource
  out : Lanes (List RuleS)

namespace MatchSys

def start (p : Matcher) (ps : List FpPacket) : MatchSys := ⟨p.reset, ⟨[], [], ps⟩, lanes fun _ _ => []⟩

def step (T : FpTables) (contiguous : Bool) (s : MatchSys) (i : FpTick) : MatchSys :=
  let w := s.src.word contiguous i
  { m := s.m.step T i.almostFull w
    src := if s.m.paf.inReady && w.valid then s.src.taken else s.src
    out := lanes fun i j => s.out i j ++ (s.m.written i j).toList }

end MatchSys

end Pigasus
