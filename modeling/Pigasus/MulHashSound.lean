import Pigasus.MatcherPipe
import Mathlib.Tactic.IntervalCases
import Mathlib.Tactic.Ring

/-!
# The multiplicative hash

`mul_hash` multiplies a byte by the four coefficients of the constant, and `acc_hash`
adds the products of eight bytes in five levels of truncated sums. What is cut off
is a multiple of `2 ^ 64`, so that the sum is the product of the 64-bit window and
the constant.
-/

namespace Pigasus

open Hdl

/-! ## Windows -/

/-- `b`, as `mul_hash` has it. -/
def hashFactor : BitVec 64 := 0x0b4e0ef37bc32127#64

/-- Eight bytes as a little-endian number. -/
def windowWord (a : Fin 8 → Byte) : BitVec 64 := a 7 ++ a 6 ++ a 5 ++ a 4 ++ a 3 ++ a 2 ++ a 1 ++ a 0

theorem toNat_append_byte {n : Nat} (x : BitVec n) (y : Byte) : (x ++ y).toNat = 256 * x.toNat + y.toNat := by
  rw [BitVec.toNat_append, ← Nat.shiftLeft_add_eq_or_of_lt y.isLt, Nat.shiftLeft_eq]
  omega

def pairAt (a : Fin 8 → Byte) (k : Fin 4) : Nat := (a ⟨2 * k.val, by omega⟩).toNat + 256 * (a ⟨2 * k.val + 1, by omega⟩).toNat

theorem toNat_windowWord (a : Fin 8 → Byte) :
    (windowWord a).toNat = pairAt a 0 + 2 ^ 16 * pairAt a 1 + 2 ^ 32 * pairAt a 2 + 2 ^ 48 * pairAt a 3 := by
  simp only [windowWord, toNat_append_byte, pairAt]
  show _ = (a 0).toNat + 256 * (a 1).toNat + 2 ^ 16 * ((a 2).toNat + 256 * (a 3).toNat) +
    2 ^ 32 * ((a 4).toNat + 256 * (a 5).toNat) + 2 ^ 48 * ((a 6).toNat + 256 * (a 7).toNat)
  omega

def byteOf (x : BitVec 64) (k : Fin 8) : Byte := x.extractLsb' (8 * k.val) 8

theorem windowWord_byteOf (x : BitVec 64) : windowWord (byteOf x) = x := by
  apply BitVec.eq_of_toNat_eq
  have hx := x.isLt
  simp only [windowWord, toNat_append_byte, byteOf, BitVec.extractLsb'_toNat, Nat.shiftRight_eq_div_pow]
  show _ = x.toNat
  simp
  omega

theorem windowWord_and (a b : Fin 8 → Byte) : windowWord a &&& windowWord b = windowWord fun k => a k &&& b k := by
  have h : (a 7 ++ a 6 ++ a 5 ++ a 4 ++ a 3 ++ a 2 ++ a 1 ++ a 0) &&& (b 7 ++ b 6 ++ b 5 ++ b 4 ++ b 3 ++ b 2 ++ b 1 ++ b 0) =
      (a 7 &&& b 7) ++ (a 6 &&& b 6) ++ (a 5 &&& b 5) ++ (a 4 &&& b 4) ++ (a 3 &&& b 3) ++ (a 2 &&& b 2) ++ (a 1 &&& b 1) ++
        (a 0 &&& b 0) := by
    simp only [BitVec.and_append]
  exact h

/-! ## The mask -/

/-- The `m` lowest bytes of `andmsk` are 0x00, the others 0xff. -/
def MasksLow (andmsk : BitVec 64) (m : Nat) : Prop := ∀ k : Fin 8, byteOf andmsk k = if k.val < m then 0x00 else 0xff

/-- `LSB_BYTES_MASKED`. -/
def lsbBytesMasked (andmsk : BitVec 64) : Nat :=
  if byteOf andmsk 7 == 0 then 8
  else if byteOf andmsk 6 == 0 then 7
  else if byteOf andmsk 5 == 0 then 6
  else if byteOf andmsk 4 == 0 then 5
  else if byteOf andmsk 3 == 0 then 4
  else if byteOf andmsk 2 == 0 then 3
  else if byteOf andmsk 1 == 0 then 2
  else if byteOf andmsk 0 == 0 then 1
  else 0

def keptBytes (n : Nat) (a : Fin 8 → Byte) (k : Fin 8) : Byte := if k.val + 1 ≤ n then 0 else a k

theorem MasksLow.lsbBytesMasked_eq {andmsk : BitVec 64} {m : Nat} (h : MasksLow andmsk m) (hm : m ≤ 7) :
    lsbBytesMasked andmsk = m := by
  have hb : ∀ k : Fin 8, (byteOf andmsk k == 0) = decide (k.val < m) := by
    intro k
    rw [h k]
    by_cases hk : k.val < m
    · simp [hk]
    · simp [hk]
  simp only [lsbBytesMasked, hb]
  interval_cases m <;> rfl

theorem MasksLow.and_eq {andmsk : BitVec 64} {m : Nat} (h : MasksLow andmsk m) (a : Fin 8 → Byte) :
    windowWord a &&& andmsk = windowWord (keptBytes m a) := by
  rw [← windowWord_byteOf andmsk, windowWord_and]
  congr 1
  funext k
  rw [h k, keptBytes]
  by_cases hk : k.val < m
  · rw [if_pos hk, if_pos (by omega)]
    exact BitVec.and_zero
  · rw [if_neg hk, if_neg (by omega)]
    exact BitVec.and_allOnes

/-! ## The levels of `acc_hash` -/

theorem toNat_mul (a : Byte) (b : Fin 4) : (MulHash.mul a b).toNat = a.toNat * (MulHash.coeff b).toNat := by
  have ha : a.toNat < 2 ^ 8 := a.isLt
  have hb : (MulHash.coeff b).toNat < 2 ^ 16 := (MulHash.coeff b).isLt
  have hp : a.toNat * (MulHash.coeff b).toNat < 2 ^ 8 * 2 ^ 16 := Nat.mul_lt_mul'' ha hb
  rw [MulHash.mul, vec_get, BitVec.toNat_mul, BitVec.toNat_setWidth, BitVec.toNat_setWidth,
    Nat.mod_eq_of_lt (a := a.toNat) (by omega), Nat.mod_eq_of_lt (a := (MulHash.coeff b).toNat) (by omega)]
  exact Nat.mod_eq_of_lt hp

namespace AccHash

theorem toNat_merge (x y : Byte) (b : Fin 4) :
    (merge (MulHash.mul x b) (MulHash.mul y b)).toNat = (x.toNat + 256 * y.toNat) * (MulHash.coeff b).toNat := by
  have hx : (MulHash.mul x b).toNat < 2 ^ 24 := (MulHash.mul x b).isLt
  have hy : (MulHash.mul y b).toNat < 2 ^ 24 := (MulHash.mul y b).isLt
  have hz : (MulHash.mul y b ++ 0#8).toNat = 256 * (MulHash.mul y b).toNat := by
    rw [toNat_append_byte]
    rfl
  rw [merge, BitVec.toNat_add, BitVec.toNat_setWidth, BitVec.toNat_setWidth, hz]
  rw [Nat.mod_eq_of_lt (by omega), Nat.mod_eq_of_lt (by omega), Nat.mod_eq_of_lt (by omega), toNat_mul, toNat_mul]
  ring

structure Products (s : AccL1) (p c : Fin 4 → Nat) : Prop where
  a01b0 : s.a01b0.toNat = p 0 * c 0
  a23b0 : s.a23b0.toNat = p 1 * c 0
  a45b0 : s.a45b0.toNat = p 2 * c 0
  a67b0 : s.a67b0.toNat = p 3 * c 0
  a01b1 : s.a01b1.toNat = p 0 * c 1
  a23b1 : s.a23b1.toNat = p 1 * c 1
  a45b1 : s.a45b1.toNat = p 2 * c 1
  a01b2 : s.a01b2.toNat = p 0 * c 2
  a23b2 : s.a23b2.toNat = p 1 * c 2
  a01b3 : s.a01b3.toNat = p 0 * c 3

theorem level1_products (n : Nat) (a : Fin 8 → Byte) :
    Products (level1 n fun k => MulHash.mul (a k)) (pairAt (keptBytes n a)) fun b => (MulHash.coeff b).toNat := by
  have hm : ∀ (k : Fin 8) (b : Fin 4),
      (if k.val + 1 ≤ n then 0 else MulHash.mul (a k) b) = MulHash.mul (keptBytes n a k) b := by
    intro k b
    rw [keptBytes]
    split
    · exact BitVec.eq_of_toNat_eq (by rw [toNat_mul]; simp)
    · rfl
  simp only [level1, hm]
  constructor <;> exact toNat_merge _ _ _

theorem final_mod {s : AccL1} {x0 x1 x2 x3 y0 y1 y2 z0 z1 w0 : Nat} (h0 : s.a01b0.toNat = x0) (h1 : s.a23b0.toNat = x1)
    (h2 : s.a45b0.toNat = x2) (h3 : s.a67b0.toNat = x3) (h4 : s.a01b1.toNat = y0) (h5 : s.a23b1.toNat = y1)
    (h6 : s.a45b1.toNat = y2) (h7 : s.a01b2.toNat = z0) (h8 : s.a23b2.toNat = z1) (h9 : s.a01b3.toNat = w0)
    (l0 : x0 < 2 ^ 32) (l1 : x1 < 2 ^ 32) (l4 : y0 < 2 ^ 32) :
    (final (level4 (level3 (level2 s)))).toNat % 2 ^ 64 =
      (x0 + 2 ^ 16 * (x1 + y0) + 2 ^ 32 * (x2 + y1 + z0) + 2 ^ 48 * (x3 + y2 + z1 + w0)) % 2 ^ 64 := by
  simp only [final, level4, level3, level2, BitVec.toNat_add, BitVec.toNat_setWidth, BitVec.toNat_append,
    BitVec.toNat_shiftLeft, h0, h1, h2, h3, h4, h5, h6, h7, h8, h9, Nat.shiftLeft_eq, BitVec.toNat_ofNat,
    Nat.zero_mod, Nat.or_zero]
  omega

theorem pairAt_lt (a : Fin 8 → Byte) (k : Fin 4) : pairAt a k < 2 ^ 16 := by
  have h0 : (a ⟨2 * k.val, by omega⟩).toNat < 2 ^ 8 := (a ⟨2 * k.val, by omega⟩).isLt
  have h1 : (a ⟨2 * k.val + 1, by omega⟩).toNat < 2 ^ 8 := (a ⟨2 * k.val + 1, by omega⟩).isLt
  unfold pairAt
  omega

theorem product_mod (p c : Fin 4 → Nat) :
    (p 0 + 2 ^ 16 * p 1 + 2 ^ 32 * p 2 + 2 ^ 48 * p 3) * (c 0 + 2 ^ 16 * c 1 + 2 ^ 32 * c 2 + 2 ^ 48 * c 3) % 2 ^ 64 =
      (p 0 * c 0 + 2 ^ 16 * (p 1 * c 0 + p 0 * c 1) + 2 ^ 32 * (p 2 * c 0 + p 1 * c 1 + p 0 * c 2) +
        2 ^ 48 * (p 3 * c 0 + p 2 * c 1 + p 1 * c 2 + p 0 * c 3)) % 2 ^ 64 := by
  have h : (p 0 + 2 ^ 16 * p 1 + 2 ^ 32 * p 2 + 2 ^ 48 * p 3) * (c 0 + 2 ^ 16 * c 1 + 2 ^ 32 * c 2 + 2 ^ 48 * c 3) =
      (p 0 * c 0 + 2 ^ 16 * (p 1 * c 0 + p 0 * c 1) + 2 ^ 32 * (p 2 * c 0 + p 1 * c 1 + p 0 * c 2) +
        2 ^ 48 * (p 3 * c 0 + p 2 * c 1 + p 1 * c 2 + p 0 * c 3)) +
      2 ^ 64 * (p 3 * c 1 + p 2 * c 2 + p 1 * c 3 + 2 ^ 16 * (p 3 * c 2 + p 2 * c 3) + 2 ^ 32 * (p 3 * c 3)) := by
    ring
  rw [h, Nat.add_mul_mod_self_left]

theorem toNat_hashFactor : hashFactor.toNat = (MulHash.coeff 0).toNat + 2 ^ 16 * (MulHash.coeff 1).toNat +
    2 ^ 32 * (MulHash.coeff 2).toNat + 2 ^ 48 * (MulHash.coeff 3).toNat := by
  decide

theorem sumOf_setWidth (n : Nat) (a : Fin 8 → Byte) :
    (sumOf n fun k => MulHash.mul (a k)).setWidth 64 = windowWord (keptBytes n a) * hashFactor := by
  have h := level1_products n a
  have hlt : ∀ k b, pairAt (keptBytes n a) k * (MulHash.coeff b).toNat < 2 ^ 16 * 2 ^ 16 := fun k b =>
    Nat.mul_lt_mul'' (pairAt_lt _ k) (MulHash.coeff b).isLt
  apply BitVec.eq_of_toNat_eq
  rw [BitVec.toNat_setWidth, BitVec.toNat_mul, toNat_windowWord, toNat_hashFactor,
    product_mod (pairAt (keptBytes n a)) fun b => (MulHash.coeff b).toNat]
  exact final_mod h.a01b0 h.a23b0 h.a45b0 h.a67b0 h.a01b1 h.a23b1 h.a45b1 h.a01b2 h.a23b2 h.a01b3 (hlt 0 0) (hlt 1 0)
    (hlt 0 1)

end AccHash

/-! ## Eight `mul_hash` in front of one `acc_hash` -/

structure WindowHash (nbits : Nat) where
  mul : Vec MulHash 8
  acc : AccHash nbits

namespace WindowHash

variable {nbits : Nat} (andmsk : BitVec 64) (s : WindowHash nbits)

def step (a : Vec Byte 8) : WindowHash nbits where
  mul := vec fun k => (s.mul k).step (a k)
  acc := s.acc.step (lsbBytesMasked andmsk) nbits fun k => (s.mul k).ab

def Stage (k : Nat) (a : Vec Byte 8) : Prop :=
  match k with
  | 0 | 1 | 2 | 3 | 4 | 5 => ∀ b, MulHash.Stage k (s.mul b) (a b)
  | k + 6 => AccHash.Stage (lsbBytesMasked andmsk) nbits k s.acc fun b => MulHash.mul (a b)

variable {andmsk s}

theorem stage_zero (a : Vec Byte 8) : Stage andmsk (s.step andmsk a) 0 a := by
  intro b
  simp only [step, vec_get]
  rfl

theorem stage_succ {a : Vec Byte 8} (w : Vec Byte 8) (k : Nat) (h : s.Stage andmsk k a) :
    (s.step andmsk w).Stage andmsk (k + 1) a := by
  match k with
  | 0 | 1 | 2 | 3 | 4 =>
    intro b
    simp only [step, vec_get]
    exact MulHash.stage_succ _ _ (h b)
  | 5 =>
    -- the products reach `acc_hash`
    have hab : (fun b => (s.mul b).ab) = fun b => MulHash.mul (a b) := funext h
    show AccHash.level1 _ (fun b => (s.mul b).ab) = _
    rw [hab]
  | k + 6 => exact AccHash.stage_succ _ k h

theorem stage_run {a : Vec Byte 8} (ws : List (Vec Byte 8)) {k : Nat} {s : WindowHash nbits} (h : s.Stage andmsk k a) :
    (run (step andmsk) s ws).Stage andmsk (k + ws.length) a := by
  induction ws generalizing s k with
  | nil => exact h
  | cons w ws ih =>
    have := ih (stage_succ w k h)
    rwa [Nat.add_assoc, Nat.add_comm 1] at this

end WindowHash

/-- Twelve cycles after a window, whatever comes before and behind it, `p` is the top `nbits` bits of the product modulo
`2 ^ 64`. -/
theorem windowHash_product {andmsk : BitVec 64} {m nbits : Nat} (hmask : MasksLow andmsk m) (hm : m ≤ 7) (hn : nbits ≤ 64)
    (s : WindowHash nbits) (pre : List (Vec Byte 8)) (a : Vec Byte 8) (post : List (Vec Byte 8)) (hp : post.length = 11) :
    (run (WindowHash.step andmsk) s (pre ++ a :: post)).acc.p =
      ((windowWord a &&& andmsk) * hashFactor).extractLsb' (64 - nbits) nbits := by
  have h : (run (WindowHash.step andmsk) s (pre ++ a :: post)).Stage andmsk 11 a := by
    rw [run_append, run_cons]
    have h0 : WindowHash.Stage andmsk ((run (WindowHash.step andmsk) s pre).step andmsk a) 0 a := WindowHash.stage_zero a
    have := WindowHash.stage_run post h0
    rwa [hp] at this
  refine (Eq.trans h (BitVec.setWidth_eq _)).trans ?_
  rw [hmask.lsbBytesMasked_eq hm, hmask.and_eq, ← AccHash.sumOf_setWidth]
  apply BitVec.eq_of_getLsbD_eq
  intro i hi
  simp only [BitVec.getLsbD_extractLsb', BitVec.getLsbD_setWidth, hi, decide_true, Bool.true_and]
  have h64 : 64 - nbits + i < 64 := by omega
  simp [h64]

theorem windowHash_product_sixBytes : MasksLow 0xffffffffffff0000#64 2 ∧
    (run (WindowHash.step 0xffffffffffff0000#64) ⟨default, default⟩
      ([vec fun _ => 0xff] ++ (vec fun k => BitVec.ofNat 8 (k.val + 1)) :: List.replicate 11 (vec fun _ => 0))).acc.p =
      ((0x0807060504030000#64 * 0x0b4e0ef37bc32127#64).extractLsb' 49 15 : BitVec 15) := by
  have h : MasksLow 0xffffffffffff0000#64 2 := by
    unfold MasksLow
    decide
  refine ⟨h, (windowHash_product h (by decide) (by decide) _ _ _ _ (List.length_replicate ..)).trans ?_⟩
  decide

end Pigasus
