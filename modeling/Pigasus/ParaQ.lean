import Pigasus.Struct

/-!
# The insertion queue

`para_Q`: a shifting queue of eight flow entries with two read/write ports
addressed by tuple, an insert/delete operation and a deque. Every request is
registered first and carried out in the cycle after.
-/

namespace Pigasus

open Hdl

structure ParaQIn where
  addrA : Tuple
  dataA : Fce
  rdenA : Bool
  wrenA : Bool
  addrB : Tuple
  dataB : Fce
  rdenB : Bool
  wrenB : Bool
  opEn : Bool
  opId : PqOp
  opData : Fce
  dequeEn : Bool

structure ParaQ where
  dataAR : Fce
  rdenAR : Bool
  wrenAR : Bool
  dataBR : Fce
  rdenBR : Bool
  wrenBR : Bool
  opEnR : Bool
  opIdR : PqOp
  opDataR : Fce
  dequeEnR : Bool
  entries : Vec Fce 8
  isHitAR : Vec Bool 8
  isHitBR : Vec Bool 8
  isHitDeleteR : Vec Bool 8
  rdValidA : Bool
  rdHitA : Bool
  qA : Fce
  rdValidB : Bool
  rdHitB : Bool
  qB : Fce
  dequeData : Fce
  dequeDone : Bool
  error : BitVec 8

namespace ParaQ

def reset : ParaQ where
  dataAR := .zero
  rdenAR := false
  wrenAR := false
  dataBR := .zero
  rdenBR := false
  wrenBR := false
  opEnR := false
  opIdR := .fastInsert
  opDataR := .zero
  dequeEnR := false
  entries := vec fun _ => .zero
  isHitAR := vec fun _ => false
  isHitBR := vec fun _ => false
  isHitDeleteR := vec fun _ => false
  rdValidA := false
  rdHitA := false
  qA := .zero
  rdValidB := false
  rdHitB := false
  qB := .zero
  dequeData := .zero
  dequeDone := false
  error := 0

def errorFatalInsertFull : BitVec 8 := 1
def errorFatalABCollide : BitVec 8 := 1 <<< 1
def errorFatalDuplicates : BitVec 8 := 1 <<< 2
def errorFatalCorruptQ : BitVec 8 := 1 <<< 3
def errorFatalDequeOp : BitVec 8 := 1 <<< 4
def errorDeleteNoEntry : BitVec 8 := 1 <<< 5
def errorWriteNoEntry : BitVec 8 := 1 <<< 6
def errorABOpCollide : BitVec 8 := 1 <<< 7

def errorFatalMask : BitVec 8 :=
  errorFatalInsertFull ||| errorFatalABCollide ||| errorFatalDuplicates ||| errorFatalCorruptQ |||
    errorFatalDequeOp

variable (s : ParaQ)

def isErrorFatal : Bool := s.error &&& errorFatalMask != 0

def isValid (i : Fin 8) : Bool := (s.entries i).valid

/-- The number of valid entries, when they are a prefix of the queue. -/
def validCount? : Option Nat :=
  (List.range 9).find? fun n => (List.finRange 8).all fun i => s.isValid i == decide (i.val < n)

def queueCorrupted : Bool := s.validCount?.isNone

def firstEmpty (i : Fin 8) : Bool := s.validCount? == some i.val

def empty : Bool := isZero (List.finRange 8) s.isValid

def full : Bool := (List.finRange 8).all s.isValid

def isDeque : Bool := s.dequeEnR

def isDelete : Bool := !isZero (List.finRange 8) s.isHitDeleteR

def isInsert : Bool := s.opEnR && s.opIdR == .fastInsert

def shiftVec (i : Fin 8) : Bool :=
  s.dequeEnR || (List.finRange 8).any fun j => decide (j ≤ i) && s.isHitDeleteR j

/-- The entry that takes position `i`, before the port writes: the hit vectors are computed on it. -/
def stage (i : Fin 8) : Fce :=
  if !s.shiftVec i then
    if s.isInsert && s.firstEmpty i then s.opDataR else s.entries i
  else if h : i.val < 7 then
    if s.isInsert && s.firstEmpty ⟨i.val + 1, by omega⟩ then s.opDataR else s.entries ⟨i.val + 1, by omega⟩
  else if s.isInsert && isZero (List.finRange 8) s.firstEmpty then s.opDataR
  else .zero

/-- A port write to the entry at position `j`; port A wins. -/
def portWrite (j : Fin 8) : Option Fce :=
  if s.wrenAR && s.isHitAR j then some s.dataAR
  else if s.wrenBR && s.isHitBR j then some s.dataBR
  else none

def nextEntry (i : Fin 8) : Fce :=
  if !s.shiftVec i then (s.portWrite i).getD (s.stage i)
  else if h : i.val < 7 then (s.portWrite ⟨i.val + 1, by omega⟩).getD (s.stage i)
  else s.stage i

def hit (en : Bool) (t : Tuple) (i : Fin 8) : Bool :=
  (s.stage i).valid && en && decide (t = (s.stage i).tuple)

/-- The read multiplexer; it keeps its value when more than one position hits. -/
def readQ (hits : Fin 8 → Bool) (q : Fce) : Fce :=
  if isZero (List.finRange 8) hits then .zero
  else match oneHot? (List.finRange 8) hits with
    | some i => s.entries i
    | none => q

def duplicate (hits : Fin 8 → Bool) : Bool :=
  !isZero (List.finRange 8) hits && (oneHot? (List.finRange 8) hits).isNone

def sameHits (u v : Fin 8 → Bool) : Bool := (List.finRange 8).all fun i => u i == v i

/-- The error register; of several errors in one cycle the last assignment is kept. -/
def nextError : BitVec 8 :=
  let hitA := !isZero (List.finRange 8) s.isHitAR
  let hitB := !isZero (List.finRange 8) s.isHitBR
  if duplicate s.isHitAR || duplicate s.isHitBR then s.error ||| errorFatalDuplicates
  else if s.queueCorrupted then s.error ||| errorFatalCorruptQ
  else if s.isInsert && s.full && !s.shiftVec 7 then s.error ||| errorFatalInsertFull
  else if hitA && sameHits s.isHitAR s.isHitBR && s.wrenAR then s.error ||| errorFatalABCollide
  else if s.isDeque && s.isDelete then s.error ||| errorFatalDequeOp
  else if s.isDelete && (sameHits s.isHitAR s.isHitDeleteR || sameHits s.isHitBR s.isHitDeleteR) then
    s.error ||| errorABOpCollide
  else if s.opEnR && s.opIdR == .fastDelete && !s.isDelete then s.error ||| errorDeleteNoEntry
  else if (s.wrenAR && !hitA) || (s.wrenBR && !hitB) then s.error ||| errorWriteNoEntry
  else s.error

def step (i : ParaQIn) : ParaQ where
  dataAR := i.dataA
  rdenAR := i.rdenA
  wrenAR := i.wrenA
  dataBR := i.dataB
  rdenBR := i.rdenB
  wrenBR := i.wrenB
  opEnR := i.opEn
  opIdR := i.opId
  opDataR := i.opData
  dequeEnR := i.dequeEn
  entries := vec s.nextEntry
  isHitAR := vec (s.hit (i.rdenA || i.wrenA) i.addrA)
  isHitBR := vec (s.hit (i.rdenB || i.wrenB) i.addrB)
  isHitDeleteR := vec (s.hit (i.opEn && i.opId == .fastDelete) i.opData.tuple)
  rdValidA := s.rdenAR
  rdHitA := !isZero (List.finRange 8) s.isHitAR && s.rdenAR
  -- port B's write is forwarded to a simultaneous read on port A
  qA := if s.rdenAR && s.wrenBR && sameHits s.isHitAR s.isHitBR then s.dataBR else s.readQ s.isHitAR s.qA
  rdValidB := s.rdenBR
  rdHitB := !isZero (List.finRange 8) s.isHitBR && s.rdenBR
  qB := s.readQ s.isHitBR s.qB
  dequeData := if s.isDeque then (s.portWrite 0).getD (s.entries 0) else s.entries 0
  dequeDone := s.isDeque
  error := s.nextError

end ParaQ

end Pigasus
