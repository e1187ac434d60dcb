import Pigasus.FilterSound
import Pigasus.MulHashSound

/-!
# The windows of a packet

What the lanes of the string matcher are to receive, in terms of the bytes of a
packet: the windows that end at a byte, their place in the bitmap of the bucket, and
what the match table rules out.
-/

namespace Pigasus

open Hdl

/-! ## Windows over bytes -/

/-- The `len` bytes that end at byte `n`, as the high bytes of a number of 64 bits. -/
def windowValue (len : Nat) (l : List Byte) (n : Nat) : Nat :=
  ((List.range len).map fun b => (l.getD (n - b) 0).toNat * 256 ^ (7 - b)).sum

/-- The top `nbits` bits of the window times a constant, modulo `2 ^ 64`. -/
def windowIndex (len nbits : Nat) (l : List Byte) (n : Nat) : Nat :=
  windowValue len l n * 0x0b4e0ef37bc32127 % 2 ^ 64 / 2 ^ (64 - nbits)

theorem sum_range_eight (f : Nat → Nat) (m : Nat) (hm : m ≤ 7) :
    ((List.range (8 - m)).map f).sum = ((List.range 8).map fun b => if b < 8 - m then f b else 0).sum := by
  interval_cases m <;> rfl

theorem toNat_window (m : Nat) (hm : m ≤ 7) (a : Fin 8 → Byte) (l : List Byte) (n : Nat)
    (ha : ∀ k : Fin 8, m ≤ k.val → a k = l.getD (n - (7 - k.val)) 0) :
    (windowWord (keptBytes m a)).toNat = windowValue (8 - m) l n := by
  have hk : ∀ b : Nat, (hb : b < 8) → (keptBytes m a ⟨7 - b, by omega⟩).toNat * 256 ^ (7 - b) =
      if b < 8 - m then (l.getD (n - b) 0).toNat * 256 ^ (7 - b) else 0 := by
    intro b hb
    by_cases h : b < 8 - m
    · rw [if_pos h, keptBytes, if_neg (by simp only; omega), ha _ (by simp only; omega)]
      simp only [show 7 - (7 - b) = b by omega]
    · rw [if_neg h, keptBytes, if_pos (by simp only; omega)]
      exact Nat.zero_mul _
  have hw : ∀ c : Fin 8 → Byte, (windowWord c).toNat = (c 7).toNat * 256 ^ 7 + ((c 6).toNat * 256 ^ 6 + ((c 5).toNat * 256 ^ 5 +
      ((c 4).toNat * 256 ^ 4 + ((c 3).toNat * 256 ^ 3 + ((c 2).toNat * 256 ^ 2 + ((c 1).toNat * 256 ^ 1 +
        ((c 0).toNat * 256 ^ 0 + 0))))))) := by
    intro c
    simp only [windowWord, toNat_append_byte]
    ring
  rw [windowValue, sum_range_eight _ m hm, hw]
  exact congrArg₂ (· + ·) (hk 0 (by omega)) <| congrArg₂ (· + ·) (hk 1 (by omega)) <|
    congrArg₂ (· + ·) (hk 2 (by omega)) <| congrArg₂ (· + ·) (hk 3 (by omega)) <|
    congrArg₂ (· + ·) (hk 4 (by omega)) <| congrArg₂ (· + ·) (hk 5 (by omega)) <|
    congrArg₂ (· + ·) (hk 6 (by omega)) <| congrArg₂ (· + ·) (hk 7 (by omega)) rfl

theorem toNat_extract_sum (x : BitVec 65) (nbits : Nat) (h : nbits ≤ 64) :
    (x.extractLsb' (64 - nbits) nbits).toNat = (x.setWidth 64).toNat / 2 ^ (64 - nbits) := by
  have hp : 2 ^ 64 = 2 ^ (64 - nbits) * 2 ^ nbits := by rw [← Nat.pow_add]; congr 1; omega
  rw [BitVec.extractLsb'_toNat, BitVec.toNat_setWidth, Nat.shiftRight_eq_div_pow, hp, Nat.mod_mul_right_div_self]

theorem toNat_sumOf (m nbits : Nat) (hm : m ≤ 7) (hn : nbits ≤ 64) (a : Fin 8 → Byte) (l : List Byte) (n : Nat)
    (ha : ∀ k : Fin 8, m ≤ k.val → a k = l.getD (n - (7 - k.val)) 0) :
    ((AccHash.sumOf m fun k => MulHash.mul (a k)).extractLsb' (64 - nbits) nbits).toNat = windowIndex (8 - m) nbits l n := by
  rw [toNat_extract_sum _ _ hn, AccHash.sumOf_setWidth, BitVec.toNat_mul, toNat_window m hm a l n ha]
  rfl

/-! ## Windows over beats -/

theorem getD_window {B : Nat} (hB : 7 ≤ B) {pre l : List (Vec Byte B)} {d prev : Vec Byte B}
    (hp : ∀ c, pre.getLast? = some c → prev = c) (j : Fin B) (k : Fin 8) (h : 7 ≤ B * pre.length + j.val + k.val) :
    (bytes (pre ++ d :: l)).getD (B * pre.length + j.val - (7 - k.val)) 0 =
      if hc : j.val + k.val < 7 then prev ⟨B - 7 + (j.val + k.val), by omega⟩ else d ⟨j.val + k.val - 7, by omega⟩ := by
  by_cases hc : j.val + k.val < 7
  · obtain ⟨q, c, rfl⟩ : ∃ q c, pre = q ++ [c] := by
      rcases List.eq_nil_or_concat pre with rfl | ⟨q, c, rfl⟩
      · simp only [List.length_nil, Nat.mul_zero] at h
        omega
      · exact ⟨q, c, List.concat_eq_append⟩
    have hb := getD_bytes (l := q ++ [c] ++ d :: l) (k := q.length) (by simp) ⟨B - 7 + (j.val + k.val), by omega⟩
    rw [dif_pos hc, hp c (by simp)]
    refine Eq.trans ?_ (hb.trans (by simp))
    congr 1
    simp only [List.length_append, List.length_singleton, Nat.mul_succ]
    omega
  · have hb := getD_bytes (l := pre ++ d :: l) (k := pre.length) (by simp) ⟨j.val + k.val - 7, by omega⟩
    rw [dif_neg hc]
    refine Eq.trans ?_ (hb.trans (by simp))
    congr 1
    simp only
    omega

/-! ## What a lane is to receive -/

/-- The windows of the buckets have eight, eight, seven, .. and two bytes. -/
def fpLength (i : Fin 8) : Nat := [8, 8, 7, 6, 5, 4, 3, 2].getD i.val 0

def fpIndexBits (i : Fin 8) : Nat := [15, 15, 12, 12, 11, 12, 10, 8].getD i.val 0

section
variable (T : FpTables) (i : Fin 8)

/-- The index of the window that ends at byte `n`, when it lies in the packet, the bitmap of the bucket has it and no
byte rules it out. -/
def windowEntry (bs : List FpBeat) (n : Nat) : Option RuleS :=
  let h := windowIndex (fpLength i) (fpIndexBits i) (bytesOf bs) n
  if fpLength i ≤ n + 1 ∧ (T.bitmap i (BitVec.ofNat 13 (h / 8))).getLsbD (h % 8) = true ∧
      ShiftOr.serial 0x0003070f1f3f7fff#64 (tableWord T bs) n i.val = false then
    some ⟨false, BitVec.ofFin i, BitVec.ofNat 16 h⟩
  else none

/-- The windows that end at byte `j` of a beat, and the end of the packet. -/
def packetReport (j : Fin 32) (p : FpPacket) : List RuleS :=
  ((List.range p.beats.length).filterMap fun k => windowEntry T i p.beats (32 * k + j.val)) ++ [⟨true, BitVec.ofFin i, 0⟩]

end

theorem length_fp : ∀ i : Fin 8, fpLength i = 8 - maskedBytes i ∧ fpIndexBits i = nbits i ∧ maskedBytes i ≤ 7 ∧ nbits i ≤ 16 := by decide

theorem HashPort.bit_eq {w n : Nat} (bitmap : BitVec n → BitVec 8) (h : BitVec w) :
    bit (bitmap (bmAddr h)) (bmBit h) = (bitmap (BitVec.ofNat n (h.toNat / 8))).getLsbD (h.toNat % 8) := by
  have ha : bmAddr h = BitVec.ofNat n (h.toNat / 8) := by
    apply BitVec.eq_of_toNat_eq
    rw [bmAddr, BitVec.extractLsb'_toNat, Nat.shiftRight_eq_div_pow, BitVec.toNat_ofNat]
  have hb : (bmBit h).toNat = h.toNat % 8 := by
    rw [bmBit, BitVec.extractLsb'_toNat, Nat.shiftRight_zero]
  rw [bit, shift_and_one, ha, hb]

/-! ## The beats of a packet one by one -/

section
variable {T : FpTables} {i : Fin 8} {j : Fin 32} {st : BitVec 64} {pre l : List FpBeat} {b : FpBeat}

def lastData (pre : List FpBeat) : Option (Vec Byte 32) := pre.getLast?.map FpBeat.data

theorem paddedByte_eq (k : Fin 8) (h : 7 ≤ 32 * pre.length + j.val + k.val) :
    paddedByte ((lastData pre).getD (vec fun _ => 0)) b.data (HashTop.windowAt j k) =
      (bytesOf (pre ++ b :: l)).getD (32 * pre.length + j.val - (7 - k.val)) 0 := by
  have hp : ∀ c, (pre.map FpBeat.data).getLast? = some c → (lastData pre).getD (vec fun _ => 0) = c := by
    intro c hc
    rw [lastData, ← List.getLast?_map, hc, Option.getD_some]
  have hw := getD_window (by omega) (d := b.data) (l := l.map FpBeat.data) hp j k (by rwa [List.length_map])
  rw [List.length_map, ← List.map_cons, ← List.map_append, ← bytesOf_eq] at hw
  rw [hw, paddedByte, HashTop.padded, HashTop.lastBytes]
  refine dite_congr rfl (fun _ => ?_) fun _ => rfl
  rw [vec_get]
  congr 1
  exact Fin.ext (by simp only [HashTop.windowAt]; omega)

theorem toNat_indexOf (h : fpLength i ≤ 32 * pre.length + j.val + 1) :
    (indexOf i j (lastData pre) b).toNat =
      windowIndex (fpLength i) (fpIndexBits i) (bytesOf (pre ++ b :: l)) (32 * pre.length + j.val) := by
  obtain ⟨hl, hb, hm, hn⟩ := length_fp i
  have hs := toNat_sumOf (maskedBytes i) (nbits i) hm (by omega)
    (fun k => paddedByte ((lastData pre).getD (vec fun _ => 0)) b.data (HashTop.windowAt j k)) (bytesOf (pre ++ b :: l))
    (32 * pre.length + j.val) fun k hk => paddedByte_eq k (by omega)
  rw [hl, hb, ← hs, indexOf, windowHash, AccHash.select, BitVec.toNat_setWidth]
  refine Nat.mod_eq_of_lt (Nat.lt_of_lt_of_le (BitVec.isLt _) ?_)
  exact Nat.pow_le_pow_right (by omega) hn

theorem crosses_eq : crosses i j = decide (j.val + 1 < fpLength i) := by
  obtain ⟨hl, -, hm, -⟩ := length_fp i
  rw [crosses, decide_eq_decide, hl]
  omega

theorem entry_eq (hst : (FirstFilter.design T).Carries (FirstFilter.look T) st (pre.map FpBeat.data) ((b :: l).map FpBeat.data)) :
    (if reported T i j st (lastData pre) b l then [⟨false, BitVec.ofFin i, indexOf i j (lastData pre) b⟩] else []) =
      (windowEntry T i (pre ++ b :: l) (32 * pre.length + j.val)).toList := by
  have hin : (!crosses i j || (lastData pre).isSome) = decide (fpLength i ≤ 32 * pre.length + j.val + 1) := by
    have h8 : fpLength i ≤ 8 := by
      obtain ⟨hl, -⟩ := length_fp i
      omega
    rw [crosses_eq]
    rcases List.eq_nil_or_concat pre with rfl | ⟨q, c, rfl⟩
    · have hc : (!decide (j.val + 1 < fpLength i)) = decide (fpLength i ≤ j.val + 1) := by
        rw [← decide_not, decide_eq_decide, Nat.not_lt]
      simpa [lastData] using hc
    · have : (lastData (q.concat c)).isSome = true := by simp [lastData]
      rw [this, Bool.or_true, eq_comm, decide_eq_true_iff, List.length_concat]
      omega
  have hf : (FirstFilter.outData (filterWords T b l) st 0).getLsbD (Frontend.filterBit i j) =
      ShiftOr.serial 0x0003070f1f3f7fff#64 (tableWord T (pre ++ b :: l)) (32 * pre.length + j.val) i.val := by
    have hb := (FirstFilter.sound T).out_carries hst 0 j.isLt i.isLt
    rw [Frontend.filterBit, Nat.add_comm, tableWord_eq, filterWords_eq, List.map_append]
    refine hb.trans ?_
    rw [show (0 : BitVec 256).getLsbD (8 * j.val + i.val) = false from BitVec.getLsbD_zero, Bool.or_false, List.length_map]
    rfl
  rw [reported, hin, FpTables.bitmapBit, HashPort.bit_eq, hf, windowEntry]
  by_cases h : fpLength i ≤ 32 * pre.length + j.val + 1
  · rw [← toNat_indexOf (b := b) (l := l) h]
    simp only [h, decide_true, Bool.true_and, true_and, BitVec.ofNat_toNat, BitVec.setWidth_eq, Bool.and_eq_true,
      Bool.not_eq_true']
    split <;> rfl
  · simp [h]

theorem indices_eq (l pre : List FpBeat) (st : BitVec 64)
    (hst : (FirstFilter.design T).Carries (FirstFilter.look T) st (pre.map FpBeat.data) (l.map FpBeat.data)) :
    indices T i j st (lastData pre) l =
      (List.range l.length).filterMap fun k => windowEntry T i (pre ++ l) (32 * (pre.length + k) + j.val) := by
  induction l generalizing pre st with
  | nil => rfl
  | cons b l ih =>
    have hd : some b.data = lastData (pre ++ [b]) := by simp [lastData]
    have hl : (pre ++ [b]).length = pre.length + 1 := by simp
    have hnext : (FirstFilter.design T).Carries (FirstFilter.look T) (FirstFilter.nextState (filterWords T b l) st)
        ((pre ++ [b]).map FpBeat.data) (l.map FpBeat.data) := by
      rw [List.map_append, filterWords_eq]
      exact (FirstFilter.sound T).carries_next hst
    rw [indices, entry_eq hst, hd, ih (pre ++ [b]) _ hnext, hl, List.append_assoc, List.length_cons,
      List.range_succ_eq_map, List.filterMap_cons, List.filterMap_map]
    have hf : (fun k => windowEntry T i (pre ++ ([b] ++ l)) (32 * (pre.length + 1 + k) + j.val)) =
        (fun k => windowEntry T i (pre ++ b :: l) (32 * (pre.length + k) + j.val)) ∘ Nat.succ := by
      funext k
      simp only [Function.comp, Nat.succ_eq_add_one, Nat.add_assoc, Nat.add_comm 1, List.singleton_append]
    rw [hf, Nat.add_zero]
    cases windowEntry T i (pre ++ b :: l) (32 * pre.length + j.val) <;> rfl

theorem report_eq (p : FpPacket) : report T i j p = packetReport T i j p := by
  have h := indices_eq (T := T) (i := i) (j := j) p.beats [] FirstFilter.initState (FilterDesign.carries_start _)
  simp only [List.nil_append, List.length_nil, Nat.zero_add] at h
  rw [report, packetReport, ← h]
  rfl

end

/-- For every contents of the tables, every sequence of packets with contiguous beats and every spacing between them,
each lane receives, packet by packet, the indices of the windows of the packet that end in this lane, in order, and one
marker behind them; with room for long enough it receives all of them. -/
theorem stringMatcher_reports (T : FpTables) (p : Matcher) (ps : List FpPacket) (is : List FpTick) :
    MatchSys.Reports T true (fun i j => ps.flatMap (packetReport T i j)) (run (MatchSys.step T true) (.start p ps) is) := by
  have hr : (fun i j => ps.flatMap (packetReport T i j)) = fun i j => ps.flatMap (report T i j) := by
    funext i j
    exact congrArg ps.flatMap (funext fun q => (report_eq q).symm)
  rw [hr]
  exact MatchSys.reports_run T p ps is

end Pigasus
