import Pigasus.Struct

/-!
# The hash pipeline

`hash_func`: the final mix of lookup3 over three words, one operation per
stage, with a valid bit travelling beside the words. A stall freezes it.
-/

namespace Pigasus

structure Abc where
  a : BitVec 32
  b : BitVec 32
  c : BitVec 32

/-- Registers of `hash_func`: the word stages `a, b, c` .. `a6, b6, c6` and `valid` .. `valid6`. -/
structure HashFunc where
  s0 : Abc
  s1 : Abc
  s2 : Abc
  s3 : Abc
  s4 : Abc
  s5 : Abc
  s6 : Abc
  valid : Bool
  valid1 : Bool
  valid2 : Bool
  valid3 : Bool
  valid4 : Bool
  valid5 : Bool
  valid6 : Bool
  hashed : BitVec 32
  hashedValid : Bool

namespace HashFunc

def zeroAbc : Abc := ⟨0, 0, 0⟩

def reset : HashFunc where
  s0 := zeroAbc
  s1 := zeroAbc
  s2 := zeroAbc
  s3 := zeroAbc
  s4 := zeroAbc
  s5 := zeroAbc
  s6 := zeroAbc
  valid := false
  valid1 := false
  valid2 := false
  valid3 := false
  valid4 := false
  valid5 := false
  valid6 := false
  hashed := 0
  hashedValid := false

/-- `{sIP, sPort, dIP, dPort}`. -/
def key (t : Tuple) : BitVec 96 := t.sIP ++ t.sPort ++ t.dIP ++ t.dPort

/-- `(x ^ y) - rotl(y, k)`, the operation of every stage. -/
def mix (k : Nat) (x y : BitVec 32) : BitVec 32 := (x ^^^ y) - y.rotateLeft k

def load (initval : BitVec 32) (t : Tuple) : Abc where
  a := 0xdeadbefb#32 + (key t).extractLsb' 0 32 + initval
  b := 0xdeadbefb#32 + (key t).extractLsb' 32 32 + initval
  c := 0xdeadbefb#32 + (key t).extractLsb' 64 32 + initval

def stage1 (w : Abc) : Abc := { w with c := mix 14 w.c w.b }
def stage2 (w : Abc) : Abc := { w with a := mix 11 w.a w.c }
def stage3 (w : Abc) : Abc := { w with b := mix 25 w.b w.a }
def stage4 (w : Abc) : Abc := { w with c := mix 16 w.c w.b }
def stage5 (w : Abc) : Abc := { w with a := mix 4 w.a w.c }
def stage6 (w : Abc) : Abc := { w with b := mix 14 w.b w.a }
def final (w : Abc) : BitVec 32 := mix 24 w.c w.b

def step (h : HashFunc) (stall : Bool) (initval : BitVec 32) (tupleIn : Tuple) (tupleInValid : Bool) :
    HashFunc :=
  if stall then h
  else
    { s0 := load initval tupleIn
      s1 := stage1 h.s0
      s2 := stage2 h.s1
      s3 := stage3 h.s2
      s4 := stage4 h.s3
      s5 := stage5 h.s4
      s6 := stage6 h.s5
      valid := tupleInValid
      valid1 := h.valid
      valid2 := h.valid1
      valid3 := h.valid2
      valid4 := h.valid3
      valid5 := h.valid4
      valid6 := h.valid5
      hashed := final h.s6
      hashedValid := h.valid6 }

end HashFunc

/-- The hash that the pipeline computes for a tuple. -/
def hash (initval : BitVec 32) (t : Tuple) : BitVec 32 :=
  open HashFunc in final (stage6 (stage5 (stage4 (stage3 (stage2 (stage1 (load initval t)))))))

/-- The address of a tuple in sub-table `i`: the low `FT_AWIDTH` bits of the hash with `initval = i`. -/
def ftAddr (t : Tuple) (i : Fin 4) : FtAddr := (hash (BitVec.ofNat 32 i.val) t).setWidth 11

def tupleA : Tuple := ⟨1, 2, 3, 4⟩

/-- A flow with the address of `tupleA` in sub-table 0. -/
def tupleB : Tuple := ⟨1, 2, 3, 314⟩

example : tupleA ≠ tupleB ∧ ftAddr tupleA 0 = ftAddr tupleB 0 := by decide

end Pigasus
