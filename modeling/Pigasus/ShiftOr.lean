import Mathlib.Data.List.Basic

/-!
# Shift-or in blocks

A shift-or automaton with eight buckets reads one table word per byte: bit
`8 d + i` of the word of a byte rules out a match of bucket `i` that ends `d` bytes
later. Run in blocks, the words of eight bytes are joined at a time, and what
reaches beyond the block is carried to the next one.
-/

namespace ShiftOr

/-- What the bytes up to `n` and the initial state rule out for bucket `i` at byte `n`. -/
def serial (st : BitVec 64) (w : Nat → BitVec 64) (n i : Nat) : Bool :=
  decide (n < 8) && st.getLsbD (8 * n + i) || (List.range 8).any fun d => decide (d ≤ n) && (w (n - d)).getLsbD (8 * d + i)

def group (w : Nat → BitVec 64) (g : Nat) : BitVec 128 :=
  (List.range 8).foldr (fun j r => (w (8 * g + j)).setWidth 128 <<< (8 * j) ||| r) 0

def block (w : Nat → BitVec 64) (st : BitVec 64) : Nat → BitVec 128
  | 0 => group w 0 ||| st.setWidth 128
  | g + 1 => group w (g + 1) ||| (block w st g >>> 64)

def next (w : Nat → BitVec 64) (st : BitVec 64) (g : Nat) : BitVec 64 := (block w st g >>> 64).setWidth 64

theorem serial_eq_true {st : BitVec 64} {w : Nat → BitVec 64} {n i : Nat} :
    serial st w n i = true ↔
      (n < 8 ∧ st.getLsbD (8 * n + i) = true) ∨ ∃ d < 8, d ≤ n ∧ (w (n - d)).getLsbD (8 * d + i) = true := by
  simp [serial]

theorem getLsbD_foldr (f : Nat → BitVec 128) (l : List Nat) (b : Nat) :
    (l.foldr (fun j r => f j ||| r) 0).getLsbD b = l.any fun j => (f j).getLsbD b := by
  induction l with
  | nil => simp
  | cons j l ih => rw [List.foldr_cons, BitVec.getLsbD_or, ih, List.any_cons]

variable {w w' : Nat → BitVec 64} {st : BitVec 64} {g n i : Nat}

theorem serial_congr (h : ∀ m ≤ n, w m = w' m) : serial st w n i = serial st w' n i := by
  have hw : ∀ d, w (n - d) = w' (n - d) := fun d => h _ (Nat.sub_le n d)
  simp only [serial, hw]

theorem group_congr (h : ∀ j < 8, w (8 * g + j) = w' (8 * g + j)) : group w g = group w' g := by
  apply List.foldr_ext
  intro j hj r
  rw [h j (List.mem_range.1 hj)]

theorem block_congr (h : ∀ m < 8 * g + 8, w m = w' m) : block w st g = block w' st g := by
  induction g with
  | zero => rw [block, block, group_congr fun j hj => h _ (by omega)]
  | succ g ih => rw [block, block, group_congr fun j hj => h _ (by omega), ih fun m hm => h m (by omega)]

theorem next_congr (h : ∀ m < 8 * g + 8, w m = w' m) : next w st g = next w' st g := by
  rw [next, next, block_congr h]

theorem getLsbD_group (hi : i < 8) : (group w g).getLsbD (8 * n + i) = true ↔
    ∃ j < 8, j ≤ n ∧ n < j + 8 ∧ (w (8 * g + j)).getLsbD (8 * (n - j) + i) = true := by
  rw [group, getLsbD_foldr, List.any_eq_true]
  simp only [List.mem_range, BitVec.getLsbD_shiftLeft, BitVec.getLsbD_setWidth, Bool.and_eq_true, decide_eq_true_eq,
    Bool.not_eq_true', decide_eq_false_iff_not]
  refine exists_congr fun j => and_congr_right fun hj => ?_
  constructor
  · rintro ⟨⟨-, hjb⟩, -, hw⟩
    have hlt := BitVec.lt_of_getLsbD hw
    refine ⟨by omega, by omega, ?_⟩
    rwa [show 8 * (n - j) + i = 8 * n + i - 8 * j by omega]
  · rintro ⟨hle, hlt, hw⟩
    refine ⟨⟨by omega, by omega⟩, by omega, ?_⟩
    rwa [show 8 * n + i - 8 * j = 8 * (n - j) + i by omega]

theorem getLsbD_block_high (hn : n < 8) (hi : i < 8) : (block w st g).getLsbD (64 + (8 * n + i)) = true ↔
    ∃ d < 8, n < d ∧ (w (8 * g + 8 + n - d)).getLsbD (8 * d + i) = true := by
  have hb : (block w st g).getLsbD (64 + (8 * n + i)) = (group w g).getLsbD (8 * (n + 8) + i) := by
    rw [show 64 + (8 * n + i) = 8 * (n + 8) + i by omega]
    cases g with
    | zero =>
      have hs : st.getLsbD (8 * (n + 8) + i) = false := BitVec.getLsbD_of_ge _ _ (by omega)
      simp [block, hs]
    | succ g => simp [block, show 128 ≤ 64 + (8 * (n + 8) + i) by omega]
  rw [hb, getLsbD_group hi]
  constructor
  · rintro ⟨j, hj, -, hlt, hw⟩
    refine ⟨n + 8 - j, by omega, by omega, ?_⟩
    rwa [show 8 * g + 8 + n - (n + 8 - j) = 8 * g + j by omega]
  · rintro ⟨d, hd, hlt, hw⟩
    refine ⟨n + 8 - d, by omega, by omega, by omega, ?_⟩
    rwa [show 8 * g + (n + 8 - d) = 8 * g + 8 + n - d by omega, show n + 8 - (n + 8 - d) = d by omega]

theorem getLsbD_block (hn : n < 8) (hi : i < 8) : (block w st g).getLsbD (8 * n + i) = serial st w (8 * g + n) i := by
  rw [Bool.eq_iff_iff, serial_eq_true]
  cases g with
  | zero =>
    have h0 : 8 * 0 + n = n := by omega
    rw [block, BitVec.getLsbD_or, Bool.or_eq_true, getLsbD_group hi, h0]
    constructor
    · rintro (⟨j, hj, hle, -, hw⟩ | hst)
      · refine .inr ⟨n - j, by omega, by omega, ?_⟩
        rwa [show n - (n - j) = 8 * 0 + j by omega]
      · refine .inl ⟨hn, ?_⟩
        rwa [BitVec.getLsbD_setWidth, decide_eq_true (by omega), Bool.true_and] at hst
    · rintro (⟨-, hst⟩ | ⟨d, hd, hle, hw⟩)
      · refine .inr ?_
        rwa [BitVec.getLsbD_setWidth, decide_eq_true (by omega), Bool.true_and]
      · refine .inl ⟨n - d, by omega, by omega, by omega, ?_⟩
        rwa [show 8 * 0 + (n - d) = n - d by omega, show n - (n - d) = d by omega]
  | succ g =>
    rw [block, BitVec.getLsbD_or, Bool.or_eq_true, getLsbD_group hi, BitVec.getLsbD_ushiftRight,
      getLsbD_block_high hn hi]
    constructor
    · rintro (⟨j, hj, hle, -, hw⟩ | ⟨d, hd, hlt, hw⟩)
      · refine .inr ⟨n - j, by omega, by omega, ?_⟩
        rwa [show 8 * (g + 1) + n - (n - j) = 8 * (g + 1) + j by omega]
      · refine .inr ⟨d, hd, by omega, ?_⟩
        rwa [show 8 * (g + 1) + n - d = 8 * g + 8 + n - d by omega]
    · rintro (⟨h8, -⟩ | ⟨d, hd, -, hw⟩)
      · omega
      · -- the byte is in this group or in the one before
        by_cases hdn : d ≤ n
        · refine .inl ⟨n - d, by omega, by omega, by omega, ?_⟩
          rwa [show 8 * (g + 1) + (n - d) = 8 * (g + 1) + n - d by omega, show n - (n - d) = d by omega]
        · refine .inr ⟨d, hd, by omega, ?_⟩
          rwa [show 8 * g + 8 + n - d = 8 * (g + 1) + n - d by omega]

theorem getLsbD_setWidth_block (hn : n < 8) (hi : i < 8) :
    ((block w st g).setWidth 64).getLsbD (8 * n + i) = serial st w (8 * g + n) i := by
  rw [BitVec.getLsbD_setWidth, getLsbD_block hn hi, decide_eq_true (by omega), Bool.true_and]

theorem serial_next (hi : i < 8) : serial (next w st g) (fun m => w (8 * g + 8 + m)) n i = serial st w (8 * g + 8 + n) i := by
  rw [Bool.eq_iff_iff, serial_eq_true, serial_eq_true]
  constructor
  · rintro (⟨hn, hst⟩ | ⟨d, hd, hle, hw⟩)
    · rw [next, BitVec.getLsbD_setWidth, decide_eq_true (by omega), Bool.true_and, BitVec.getLsbD_ushiftRight,
        getLsbD_block_high hn hi] at hst
      obtain ⟨d, hd, -, hw⟩ := hst
      exact .inr ⟨d, hd, by omega, hw⟩
    · refine .inr ⟨d, hd, by omega, ?_⟩
      rwa [show 8 * g + 8 + n - d = 8 * g + 8 + (n - d) by omega]
  · rintro (⟨h8, -⟩ | ⟨d, hd, -, hw⟩)
    · omega
    · by_cases hdn : d ≤ n
      · refine .inr ⟨d, hd, hdn, ?_⟩
        rwa [show 8 * g + 8 + (n - d) = 8 * g + 8 + n - d by omega]
      · refine .inl ⟨by omega, ?_⟩
        rw [next, BitVec.getLsbD_setWidth, decide_eq_true (by omega), Bool.true_and, BitVec.getLsbD_ushiftRight,
          getLsbD_block_high (by omega) hi]
        exact ⟨d, hd, by omega, hw⟩

end ShiftOr
