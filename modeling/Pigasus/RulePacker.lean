import Pigasus.Hdl

/-!
# Rule packers and depackers

`rule_packer_32_512`, `_128_512` and `_256_512` gather the beats of a rule
packet into 512-bit flits, `rule_depacker_512_128` and `_512_256` take them
apart again. A 512-bit register is the vector of its words.
-/

namespace Pigasus

open Hdl

structure RuleBeat (w : Nat) where
  eop : Bool
  data : BitVec w
  deriving DecidableEq, Repr

structure Flit (w n : Nat) where
  sop : Bool
  eop : Bool
  data : Vec (BitVec w) n
  deriving DecidableEq

/-! ## The packers -/

def Vec.set {w n : Nat} (v : Vec (BitVec w) n) (k : Nat) (d : BitVec w) : Vec (BitVec w) n :=
  vec fun j => if j.val = k then d else v j

/-- The part-select that a packer writes for the word number `k`. -/
structure PackerKind (w n : Nat) where
  write : Vec (BitVec w) n → Nat → BitVec w → Vec (BitVec w) n

/-- Word 4 is written as `[169:128]`, ten bits into word 5. -/
def packer32 : PackerKind 32 16 where
  write v k d :=
    if k = 4 then Vec.set (Vec.set v 4 d) 5 (v 5 &&& 0xfffffc00#32) else Vec.set v k d

def packer128 : PackerKind 128 4 := ⟨Vec.set⟩

def packer256 : PackerKind 256 2 := ⟨Vec.set⟩

structure PackIn (w : Nat) where
  valid : Bool
  beat : RuleBeat w
  outReady : Bool

structure Packer (w n : Nat) where
  intCnt : Nat
  outSop : Bool
  outEop : Bool
  outValid : Bool
  outData : Vec (BitVec w) n
  flitCnt : BitVec 8
  deriving DecidableEq

namespace Packer

variable {w n : Nat}

def reset : Packer w n where
  intCnt := 0
  outSop := false
  outEop := false
  outValid := false
  outData := vec fun _ => 0
  flitCnt := 0

variable (κ : PackerKind w n) (s : Packer w n) (i : PackIn w)

def inReady : Bool := !(i.beat.eop && s.intCnt != 0) && i.outReady

/-- The `sop` of a flit that is put out in this cycle. -/
def nextSop : Bool := !s.outSop && s.flitCnt == 0

/-- A flit is put out in this cycle. -/
def forms (s : Packer w n) (i : PackIn w) : Bool := i.valid && (i.beat.eop || s.intCnt + 1 == n)

/-- `out_rule_data`, which is written whether the output is ready or not. -/
def nextData : Vec (BitVec w) n :=
  if i.valid then κ.write (if s.intCnt = 0 then vec fun _ => 0 else s.outData) s.intCnt i.beat.data else s.outData

def nextFlitCnt : BitVec 8 :=
  if i.outReady && s.outValid then if s.outEop then 0 else s.flitCnt + 1 else s.flitCnt

def step : Packer w n :=
  if i.outReady then
    { intCnt := if i.valid then if s.forms i then 0 else s.intCnt + 1 else s.intCnt
      outSop := s.forms i && s.nextSop
      outEop := i.valid && i.beat.eop && s.intCnt == 0
      outValid := s.forms i
      outData := s.nextData κ i
      flitCnt := s.nextFlitCnt i }
  else { s with outData := s.nextData κ i }

def flit (s : Packer w n) : Flit w n := ⟨s.outSop, s.outEop, s.outData⟩

end Packer

/-! ## The depackers -/

/-- `rule_depacker_512_256` leaves `USE_ALMOST_FULL` of its FIFO at the default 0. -/
structure DepackerKind where
  useAlmostFull : Bool

def depacker128 : DepackerKind := ⟨true⟩

def depacker256 : DepackerKind := ⟨false⟩

inductive DepState
  | idle | middle | last
  deriving DecidableEq, Repr

/-- A beat of the depacked stream with its `sop`. -/
structure DepBeat (w : Nat) where
  sop : Bool
  beat : RuleBeat w
  deriving DecidableEq

structure DepIn (w n : Nat) where
  valid : Bool
  flit : Flit w n
  outReady : Bool

structure Depacker (w n : Nat) where
  state : DepState
  latch : Vec (BitVec w) n
  intCnt : Nat
  inReady : Bool
  intValid : Bool
  intData : DepBeat w
  fifo : List (DepBeat w)
  almostFull : Bool
  deriving DecidableEq

namespace Depacker

def fullLevel : Nat := 400
def fifoDepth : Nat := 512

variable {w n : Nat}

def reset : Depacker w n where
  state := .idle
  latch := vec fun _ => 0
  intCnt := 0
  inReady := false
  intValid := false
  intData := ⟨false, false, 0⟩
  fifo := []
  almostFull := false

variable (κ : DepackerKind) (s : Depacker w n) (i : DepIn w n)

/-- The word of the latch that is looked at in `MIDDLE`. -/
def word (s : Depacker w n) : BitVec w := if h : s.intCnt < n then s.latch ⟨s.intCnt, h⟩ else 0

/-- The registers after the edge, without the FIFO. -/
def update : Depacker w n :=
  let d := { s with inReady := false, intValid := false, intData := { s.intData with sop := false, beat.eop := false } }
  match s.state with
  | .idle =>
    if !s.almostFull && i.valid then
      if i.flit.eop then { d with intCnt := 0, inReady := true, state := .last }
      else { d with intCnt := 0, inReady := true, latch := i.flit.data, state := .middle }
    else { d with intCnt := 0 }
  | .middle =>
    { d with
      intValid := s.word != 0
      intData := ⟨false, false, if s.word != 0 then s.word else s.intData.beat.data⟩
      intCnt := s.intCnt + 1
      state := if s.intCnt + 1 = n then .idle else .middle }
  | .last => { d with intValid := true, intData := ⟨i.flit.sop, true, 0⟩, state := .idle }

def outValid (s : Depacker w n) : Bool := !s.fifo.isEmpty

/-- A beat is lost when the FIFO is full. -/
def push (s : Depacker w n) : Option (DepBeat w) :=
  if s.intValid && decide (s.fifo.length < fifoDepth) then some s.intData else none

def step : Depacker w n :=
  { s.update i with
    fifo := fifoStep s.fifo s.push (s.outValid && i.outReady)
    almostFull := κ.useAlmostFull && decide (fullLevel ≤ s.fifo.length) }

end Depacker

/-! ## A packer and a depacker -/

/-- A packer with its input beats, those taken and those to come, and the flits that have left it. -/
structure PackSys (w n : Nat) where
  taken : List (RuleBeat w)
  pend : List (RuleBeat w)
  pk : Packer w n
  flits : List (Flit w n)
  deriving DecidableEq

/-- In which cycles a beat is offered and a flit accepted. -/
structure PackTick where
  offer : Bool
  ready : Bool

namespace PackSys

variable {w n : Nat} (κ : PackerKind w n) (s : PackSys w n) (i : PackTick)

def reset (beats : List (RuleBeat w)) : PackSys w n := ⟨[], beats, .reset, []⟩

def packIn : PackIn w where
  valid := i.offer && !s.pend.isEmpty
  beat := s.pend.headD ⟨false, 0⟩
  outReady := i.ready

def takes : Bool := (s.packIn i).valid && s.pk.inReady (s.packIn i)

/-- The flit that is accepted in this cycle. -/
def accepted : List (Flit w n) := if i.ready && s.pk.outValid then [s.pk.flit] else []

def step : PackSys w n where
  taken := if s.takes i then s.taken ++ s.pend.take 1 else s.taken
  pend := if s.takes i then s.pend.tail else s.pend
  pk := s.pk.step κ (s.packIn i)
  flits := s.flits ++ s.accepted i

end PackSys

/-- A packer, a queue and a depacker; `out` has the beats that have left the depacker. -/
structure LinkSys (w n : Nat) where
  front : PackSys w n
  queue : List (Flit w n)
  dep : Depacker w n
  out : List (DepBeat w)
  deriving DecidableEq

structure LinkTick where
  front : PackTick
  read : Bool

namespace LinkSys

variable {w n : Nat} (κ : PackerKind w n) (δ : DepackerKind) (s : LinkSys w n) (i : LinkTick)

def reset (beats : List (RuleBeat w)) : LinkSys w n := ⟨.reset beats, [], .reset, []⟩

def depIn : DepIn w n where
  valid := !s.queue.isEmpty
  flit := s.queue.headD ⟨false, false, vec fun _ => 0⟩
  outReady := i.read

def step : LinkSys w n where
  front := s.front.step κ i.front
  queue := (if s.dep.inReady then s.queue.tail else s.queue) ++ s.front.accepted i.front
  dep := s.dep.step δ (s.depIn i)
  out := if i.read then s.out ++ s.dep.fifo.take 1 else s.out

end LinkSys

end Pigasus
