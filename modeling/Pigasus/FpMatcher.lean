import Pigasus.Pipeline

/-!
# The filter of the rules by fingerprint

The front of `nf_fp_matcher`: of the two rules in a beat those stay whose fingerprint
is in the fingerprint of the packet. The beats of a group and its last beat go through
the same stages, and the fingerprint goes with the last beat.
-/

namespace Pigasus

open Hdl

abbrev FpBits := BitVec 128

structure FpIn where
  almostFull : Bool
  ruleValid : Bool
  ruleEop : Bool
  ruleData : BitVec 32
  fpValid : Bool
  fpData : FpBits

structure FpMatcher where
  rd : Bool
  rdR1 : Bool
  rdR2 : Bool
  last : Bool
  lastR1 : Bool
  lastR2 : Bool
  fpAddr0 : BitVec 13
  fpAddr1 : BitVec 13
  fpR : FpBits
  fpR1 : FpBits
  fpR2 : FpBits
  dataR : BitVec 32
  dataR1 : BitVec 32
  dataR2 : BitVec 32
  rom0 : RdPort FpBits
  rom1 : RdPort FpBits
  intData : BitVec 32
  intValid : Bool
  intEop : Bool
  intCnt : BitVec 16

/-- A word of `int_fp_rule_fifo`. -/
structure FpRuleWord where
  sop : Bool
  eop : Bool
  data : BitVec 32
  deriving DecidableEq

namespace FpMatcher

/-- After a reset that is long enough to clear the delayed valid bits; the other registers have any contents. -/
def reset (s : FpMatcher) : FpMatcher :=
  { s with
    rd := false, rdR1 := false, rdR2 := false, last := false, lastR1 := false, lastR2 := false
    intValid := false, intEop := false, intCnt := 0 }

section
variable (i : FpIn)

def fpReady : Bool := !i.almostFull && i.ruleValid && i.ruleEop

def ruleReady : Bool := !i.almostFull && i.fpValid

/-- The condition of the first block. -/
def takes : Bool := i.fpValid && !i.almostFull && i.ruleValid

end

def fpMatch (fp rule : FpBits) : Bool := (fp &&& rule == rule) && rule != 0

variable (rom : BitVec 13 → FpBits) (s : FpMatcher) (i : FpIn)

def match0 : Bool := fpMatch s.fpR2 s.rom0.q

def match1 : Bool := fpMatch s.fpR2 s.rom1.q

def intSop : Bool := if s.intCnt = 0 then s.intValid else false

def low (x : BitVec 32) : BitVec 16 := x.extractLsb' 0 16

def high (x : BitVec 32) : BitVec 16 := x.extractLsb' 16 16

def step : FpMatcher where
  rd := takes i && !i.ruleEop
  rdR1 := s.rd
  rdR2 := s.rdR1
  last := takes i && i.ruleEop
  lastR1 := s.last
  lastR2 := s.lastR1
  fpAddr0 := if takes i && !i.ruleEop then i.ruleData.extractLsb' 0 13 - 1 else s.fpAddr0
  fpAddr1 := if takes i && !i.ruleEop then i.ruleData.extractLsb' 16 13 - 1 else s.fpAddr1
  fpR := i.fpData
  fpR1 := s.fpR
  fpR2 := s.fpR1
  dataR := i.ruleData
  dataR1 := s.dataR
  dataR2 := s.dataR1
  rom0 := s.rom0.read (rom s.fpAddr0)
  rom1 := s.rom1.read (rom s.fpAddr1)
  intData :=
    if s.lastR2 then 0
    else if s.rdR2 then (if s.match1 then high s.dataR2 else 0) ++ (if s.match0 then low s.dataR2 else 0)
    else s.intData
  intValid := s.lastR2 || (s.rdR2 && (s.match0 || s.match1))
  intEop := s.lastR2
  intCnt := if s.intValid then if s.intEop then 0 else s.intCnt + 1 else s.intCnt

end FpMatcher

/-! ## Groups of rules and fingerprints -/

/-- Two rules of a beat; 0 is no rule. -/
structure RulePair where
  id0 : BitVec 13
  id1 : BitVec 13
  deriving DecidableEq

def RulePair.word (b : RulePair) : BitVec 32 := (b.id1.setWidth 16 ++ b.id0.setWidth 16 : BitVec (16 + 16))

/-- Which side offers its next item in a cycle, and what is on the wires where nothing is offered. The data of a last
beat is read from there too. -/
structure FpSysTick where
  almostFull : Bool
  ruleOffer : Bool
  fpOffer : Bool
  idleEop : Bool
  idleData : BitVec 32
  idleFp : FpBits

/-- The filter between its sources: of group `group` the pairs in `rest` are left, and then its last beat. -/
structure FpSys where
  core : FpMatcher
  group : Nat
  rest : List RulePair
  fp : Nat
  out : List FpRuleWord

namespace FpSys

variable (rom : BitVec 13 → FpBits) (G : Nat → List RulePair) (F : Nat → FpBits)

def reset (c : FpMatcher) : FpSys := ⟨c.reset, 0, G 0, 0, []⟩

variable (s : FpSys) (i : FpSysTick)

def input : FpIn where
  almostFull := i.almostFull
  ruleValid := i.ruleOffer
  ruleEop := if i.ruleOffer then s.rest.isEmpty else i.idleEop
  ruleData := if i.ruleOffer then (s.rest.head?.map RulePair.word).getD i.idleData else i.idleData
  fpValid := i.fpOffer
  fpData := if i.fpOffer then F s.fp else i.idleFp

/-- The beat at the head of the rules is taken. -/
def ruleTaken : Bool := i.ruleOffer && FpMatcher.ruleReady (s.input F i)

def fpTaken : Bool := i.fpOffer && FpMatcher.fpReady (s.input F i)

def step : FpSys where
  core := s.core.step rom (s.input F i)
  group := if s.ruleTaken F i && s.rest.isEmpty then s.group + 1 else s.group
  rest :=
    if s.ruleTaken F i then
      match s.rest with
      | [] => G (s.group + 1)
      | _ :: l => l
    else s.rest
  fp := if s.fpTaken F i then s.fp + 1 else s.fp
  out := if s.core.intValid then s.out ++ [⟨s.core.intSop, s.core.intEop, s.core.intData⟩] else s.out

end FpSys

end Pigasus
