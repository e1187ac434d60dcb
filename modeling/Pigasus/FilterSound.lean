import Pigasus.NfMatcherSound
import Pigasus.MatcherSound

/-!
# The shift-or filters

`first_filter` computes the shift-or automaton over the bytes of a packet, 32 of them
in a cycle; `non_fast_pattern_shiftor` does so with 16. Both are to set the bits behind
the end of a packet, but they take `in_empty` from the cycle behind the last beat.
-/

namespace Pigasus

open Hdl

/-! ## The two designs -/

namespace FirstFilter

theorem getLsbD_outData (q : Vec (BitVec 64) 32) (st : BitVec 64) (mask : BitVec 256) {n i : Nat} (hn : n < 32) (hi : i < 8) :
    (outData q st mask).getLsbD (8 * n + i) = (ShiftOr.serial st (wordsAt q) n i || mask.getLsbD (8 * n + i)) := by
  rw [outData, BitVec.getLsbD_or]
  congr 1
  obtain ⟨g, r, hg, hr, rfl⟩ : ∃ g r, g < 4 ∧ r < 8 ∧ n = 8 * g + r := ⟨n / 8, n % 8, by omega, by omega, by omega⟩
  rw [← ShiftOr.getLsbD_setWidth_block hr hi]
  simp only [BitVec.getLsbD_append]
  match g, hg with
  | 0, _ => rw [if_pos (by omega), show 8 * (8 * 0 + r) + i = 8 * r + i by omega, shiftorState]
  | 1, _ => rw [if_neg (by omega), if_pos (by omega), show 8 * (8 * 1 + r) + i - 64 = 8 * r + i by omega, shiftorState]
  | 2, _ =>
    rw [if_neg (by omega), if_neg (by omega), if_pos (by omega), show 8 * (8 * 2 + r) + i - 64 - 64 = 8 * r + i by omega,
      shiftorState]
  | 3, _ =>
    rw [if_neg (by omega), if_neg (by omega), if_neg (by omega),
      show 8 * (8 * 3 + r) + i - 64 - 64 - 64 = 8 * r + i by omega, shiftorState]

theorem toNat_shiftOf : ∀ e : BitVec 5, (shiftOf e).toNat = 8 * (32 - e.toNat) := by decide

theorem getLsbD_maskOf (e : BitVec 5) {n i : Nat} (hn : n < 32) (hi : i < 8) :
    (maskOf (shiftOf e)).getLsbD (8 * n + i) = decide (32 - e.toNat ≤ n) := by
  have he : e.toNat < 32 := e.isLt
  rw [maskOf, BitVec.shiftLeft_eq', toNat_shiftOf, BitVec.getLsbD_shiftLeft, BitVec.getLsbD_setWidth, BitVec.getLsbD_allOnes,
    Bool.eq_iff_iff]
  simp only [Bool.and_eq_true, decide_eq_true_eq, Bool.not_eq_true', decide_eq_false_iff_not]
  omega

def look (T : FpTables) (x y : Byte) : BitVec 64 := T.matchTable (y.extractLsb' 0 5 ++ x)

theorem sound (T : FpTables) : (design T).Sound (look T) 3 where
  size := rfl
  read_lt d last n k h := by
    show T.matchTable (addr d last (n 0) _) = _
    rw [addr, dif_pos h]
    rfl
  read_last d n h := by
    show T.matchTable (addr d true (n 0) _) = _
    rw [addr, dif_neg (by simp)]
    rfl
  read_next d n h h0 := by
    show T.matchTable (addr d false (n 0) _) = _
    rw [addr, dif_neg (by simp)]
    rfl
  next _ _ := rfl
  out q st mask n i hn hi := getLsbD_outData q st mask hn hi
  mask x n i hn hi := getLsbD_maskOf x hn hi

/-- Behind a reset with nothing on its way; everything else keeps the contents of `p`. -/
def reset (T : FpTables) (p : FirstFilter) : FirstFilter := FilterRegs.reset (design T) p

def shown (T : FpTables) (s : FirstFilter) : Option (BitVec 256) := FilterRegs.shown (design T) s

end FirstFilter

namespace NfFilter

theorem getLsbD_outData (q : Vec (BitVec 64) 16) (st : BitVec 64) (mask : BitVec 128) {n i : Nat} (hn : n < 16) (hi : i < 8) :
    (outData q st mask).getLsbD (8 * n + i) = (ShiftOr.serial st (wordsAt q) n i || mask.getLsbD (8 * n + i)) := by
  rw [outData, BitVec.getLsbD_or]
  congr 1
  obtain ⟨g, r, hg, hr, rfl⟩ : ∃ g r, g < 2 ∧ r < 8 ∧ n = 8 * g + r := ⟨n / 8, n % 8, by omega, by omega, by omega⟩
  rw [← ShiftOr.getLsbD_setWidth_block hr hi, BitVec.getLsbD_append]
  match g, hg with
  | 0, _ => rw [if_pos (by omega), show 8 * (8 * 0 + r) + i = 8 * r + i by omega, shiftorState]
  | 1, _ => rw [if_neg (by omega), show 8 * (8 * 1 + r) + i - 64 = 8 * r + i by omega, shiftorState]

theorem toNat_shiftOf : ∀ e : BitVec 4, (shiftOf e).toNat = 8 * (16 - e.toNat) := by decide

theorem getLsbD_maskOf (e : BitVec 4) {n i : Nat} (hn : n < 16) (hi : i < 8) :
    (maskOf (shiftOf e)).getLsbD (8 * n + i) = decide (16 - e.toNat ≤ n) := by
  have he : e.toNat < 16 := e.isLt
  rw [maskOf, BitVec.shiftLeft_eq', toNat_shiftOf, BitVec.getLsbD_shiftLeft, BitVec.getLsbD_setWidth, BitVec.getLsbD_allOnes,
    Bool.eq_iff_iff]
  simp only [Bool.and_eq_true, decide_eq_true_eq, Bool.not_eq_true', decide_eq_false_iff_not]
  omega

def look (T : NfTables) (x y : Byte) : BitVec 64 := T.matchTable (y.extractLsb' 0 6 ++ x)

theorem sound (T : NfTables) : (design T).Sound (look T) 1 where
  size := rfl
  read_lt d last n k h := by
    show T.matchTable (addr d last (n 0) _) = _
    rw [addr, dif_pos h]
    rfl
  read_last d n h := by
    show T.matchTable (addr d true (n 0) _) = _
    rw [addr, dif_neg (by simp)]
    rfl
  read_next d n h h0 := by
    show T.matchTable (addr d false (n 0) _) = _
    rw [addr, dif_neg (by simp)]
    rfl
  next _ _ := rfl
  out q st mask n i hn hi := getLsbD_outData q st mask hn hi
  mask x n i hn hi := getLsbD_maskOf x hn hi

def reset (T : NfTables) (p : NfFilter) : NfFilter := FilterRegs.reset (design T) p

def shown (T : NfTables) (s : NfFilter) : Option (BitVec 128) := FilterRegs.shown (design T) s

end NfFilter

/-! ## The bytes of a packet -/

def bytesOf (bs : List FpBeat) : List Byte := bs.flatMap fun b => b.data.toList

/-- A byte with the low five bits of the following byte above it; behind the last beat these are 0. -/
def byteAddr (l : List Byte) (n : Nat) : BitVec 13 := (l.getD (n + 1) 0).extractLsb' 0 5 ++ l.getD n 0

def tableWord (T : FpTables) (bs : List FpBeat) (n : Nat) : BitVec 64 := T.matchTable (byteAddr (bytesOf bs) n)

theorem bytesOf_eq (bs : List FpBeat) : bytesOf bs = bytes (bs.map FpBeat.data) := by
  rw [bytesOf, bytes, List.flatMap_map]

theorem tableWord_eq (T : FpTables) (bs : List FpBeat) :
    tableWord T bs = lookAt (FirstFilter.look T) (bytes (bs.map FpBeat.data)) := by
  rw [← bytesOf_eq]
  rfl

theorem filterWords_eq (T : FpTables) (b : FpBeat) (l : List FpBeat) :
    filterWords T b l = (FirstFilter.design T).beatWords b.data (l.map FpBeat.data) := by
  cases l with
  | nil =>
    refine vec_ext fun k => ?_
    rw [filterWords, FpTables.words, FilterDesign.beatWords, vec_get, vec_get]
    show T.matchTable (FirstFilter.addr b.data true 0 k) = T.matchTable (FirstFilter.addr b.data true (b.data 0) k)
    simp only [FirstFilter.addr, if_true]
  | cons c l => rfl

/-! ## Packets with a cycle between them -/

structure FpIdle where
  eop : Bool
  empty : BitVec 5
  data : Vec Byte 32

def FpIdle.word (x : FpIdle) : FpWord := ⟨false, x.eop, x.empty, x.data⟩

/-- A packet and the idle cycles behind it; in the first of them `in_empty` is 0. -/
structure PacedPacket where
  pkt : FpPacket
  gap : FpIdle
  gap_empty : gap.empty = 0
  more : List FpIdle

def beatWords32 : List FpBeat → List FpWord
  | [] => []
  | b :: l => b.word l.isEmpty :: beatWords32 l

def PacedPacket.words (q : PacedPacket) : List FpWord := beatWords32 q.pkt.beats ++ (q.gap :: q.more).map FpIdle.word

section
variable {B W e : Nat} (F : FilterDesign B W e)

namespace FilterRegs

theorem shownOf_idle {w : BusWord B e} (hw : w.valid = false) (st : BitVec 64) (ws : List (BusWord B e)) :
    shownOf F st (w :: ws) = shownOf F st ws := by
  have ha : BusSlot.after F (BusSlot.ahead w (ws.headD default) st) = st := BusSlot.after_of_not_valid hw
  have hs : BusSlot.shown F (BusSlot.ahead w (ws.headD default) st) = none := BusSlot.shown_of_not_valid hw
  rw [shownOf, slots, ha, List.map_cons, hs, List.reduceOption_cons_of_none]
  rfl

theorem shownOf_beat {w : BusWord B e} (hw : w.valid = true) (st : BitVec 64) (ws : List (BusWord B e)) :
    shownOf F st (w :: ws) = (BusSlot.ahead w (ws.headD default) st).filterOut F ::
      shownOf F ((BusSlot.ahead w (ws.headD default) st).after F) ws := by
  have hs : (BusSlot.ahead w (ws.headD default) st).shown F = some ((BusSlot.ahead w (ws.headD default) st).filterOut F) :=
    if_pos hw
  rw [shownOf, slots, List.map_cons, hs, List.reduceOption_cons_of_some]
  rfl

end FilterRegs

end

section
variable (T : FpTables)

def fpShown (st : BitVec 64) (ws : List FpWord) : List (BitVec 256) := FilterRegs.shownOf (FirstFilter.design T) st ws

theorem fpShown_idles (l : List FpIdle) (st : BitVec 64) (ws : List FpWord) :
    fpShown T st (l.map FpIdle.word ++ ws) = fpShown T st ws := by
  induction l with
  | nil => rfl
  | cons x l ih =>
    rw [List.map_cons, List.cons_append, fpShown, FilterRegs.shownOf_idle _ rfl]
    exact ih

theorem fpShown_beats (b : FpBeat) (l : List FpBeat) (x : FpIdle) (hx : x.empty = 0) (st : BitVec 64) (ws : List FpWord) :
    fpShown T st (beatWords32 (b :: l) ++ x.word :: ws) =
      (FirstFilter.design T).blocks st ((b :: l).map FpBeat.data) ++ fpShown T FirstFilter.initState (x.word :: ws) := by
  induction l generalizing b st with
  | nil =>
    have hm : (BusSlot.ahead (b.word true) x.word st).mask (FirstFilter.design T) = 0 := by
      show (if _ then FirstFilter.maskOf (FirstFilter.shiftOf x.empty) else 0) = 0
      rw [hx]
      rfl
    have hq : (BusSlot.ahead (b.word true) x.word st).words (FirstFilter.design T) = filterWords T b [] := by
      refine vec_ext fun k => ?_
      rw [BusSlot.words, filterWords, FpTables.words, vec_get, vec_get]
      show T.matchTable (FirstFilter.addr b.data true (x.data 0) k) = T.matchTable (FirstFilter.addr b.data true 0 k)
      simp only [FirstFilter.addr, if_true]
    show fpShown T st (b.word true :: x.word :: ws) = _
    rw [fpShown, FilterRegs.shownOf_beat _ rfl]
    refine congrArg₂ List.cons ?_ rfl
    exact congrArg₂ ((FirstFilter.design T).outData · st ·) (hq.trans (filterWords_eq T b [])) hm
  | cons c l ih =>
    show fpShown T st (b.word false :: (beatWords32 (c :: l) ++ x.word :: ws)) = _
    rw [fpShown, FilterRegs.shownOf_beat _ rfl, List.map_cons, FilterDesign.blocks, List.cons_append]
    refine congrArg₂ List.cons rfl ?_
    exact ih c _

theorem fpShown_packets (ps : List PacedPacket) (ws : List FpWord) :
    fpShown T FirstFilter.initState (ps.flatMap PacedPacket.words ++ ws) =
      ps.flatMap (fun q => (FirstFilter.design T).blocks FirstFilter.initState (q.pkt.beats.map FpBeat.data)) ++
        fpShown T FirstFilter.initState ws := by
  induction ps with
  | nil => rfl
  | cons q ps ih =>
    have hgap : fpShown T FirstFilter.initState (q.gap.word :: (q.more.map FpIdle.word ++
        (ps.flatMap PacedPacket.words ++ ws))) = fpShown T FirstFilter.initState (ps.flatMap PacedPacket.words ++ ws) :=
      fpShown_idles T (q.gap :: q.more) _ _
    rw [List.flatMap_cons, List.flatMap_cons, List.append_assoc, PacedPacket.words, List.map_cons, List.append_assoc,
      List.cons_append, FpPacket.beats, fpShown_beats T _ _ _ q.gap_empty, hgap, ih, List.append_assoc]

end

/-- Bit `8 n + i` of the outputs of a packet, one behind the other. -/
def concatBit (os : List (BitVec 256)) (n i : Nat) : Bool := (os.getD (n / 32) 0).getLsbD (8 * (n % 32) + i)

/-- The outputs are those of the packets in order; in the outputs of a packet, bit `8 n + i` is what the byte-serial
automaton over the bytes of this packet says about bucket `i` at byte `n`. -/
theorem firstFilter_serial (T : FpTables) (p : FirstFilter) (lead : List FpIdle) (ps : List PacedPacket) (x y z : FpIdle) :
    ∃ oss : List (List (BitVec 256)),
      (trace (FirstFilter.step T) (FirstFilter.shown T) (FirstFilter.reset T p)
        (lead.map FpIdle.word ++ ps.flatMap PacedPacket.words ++ [x.word, y.word, z.word])).reduceOption = oss.flatten ∧
      List.Forall₂ (fun os q => os.length = q.pkt.beats.length ∧ ∀ n < 32 * q.pkt.beats.length, ∀ i < 8,
        concatBit os n i = ShiftOr.serial 0x0003070f1f3f7fff#64 (tableWord T q.pkt.beats) n i) oss ps := by
  have hlen : ∀ q : PacedPacket, ((FirstFilter.design T).blocks FirstFilter.initState (q.pkt.beats.map FpBeat.data)).length =
      q.pkt.beats.length := fun q => (FilterDesign.length_blocks _ _).trans (List.length_map _)
  refine ⟨ps.map fun q => (FirstFilter.design T).blocks FirstFilter.initState (q.pkt.beats.map FpBeat.data), ?_, ?_⟩
  · have hv : ∀ v ∈ [x.word, y.word, z.word], v.valid = false := by
      intro v hm
      simp only [List.mem_cons, List.not_mem_nil, or_false] at hm
      rcases hm with rfl | rfl | rfl <;> rfl
    have hz : fpShown T FirstFilter.initState [x.word, y.word, z.word] = [] :=
      fpShown_idles T [x, y, z] FirstFilter.initState []
    have ho := FilterRegs.outputs_eq (F := FirstFilter.design T) p
      (lead.map FpIdle.word ++ ps.flatMap PacedPacket.words) [x.word, y.word, z.word] hv rfl
    refine ho.trans ?_
    show fpShown T FirstFilter.initState _ = _
    rw [List.append_assoc, fpShown_idles, fpShown_packets, hz, List.append_nil, List.flatMap_def]
  · rw [List.forall₂_map_left_iff, List.forall₂_same]
    intro q _
    refine ⟨hlen q, fun n hn i hi => ?_⟩
    have hk : n / 32 < ((FirstFilter.design T).blocks FirstFilter.initState (q.pkt.beats.map FpBeat.data)).length := by
      rw [hlen]
      omega
    rw [concatBit, List.getD_eq_getElem _ _ hk,
      (FirstFilter.sound T).getLsbD_blocks (List.getElem?_eq_getElem hk) (by omega) hi, tableWord_eq]
    congr 1
    omega

/-! ## The end of a packet -/

/-- A word without `in_empty`. -/
structure BareWord (n : Nat) where
  valid : Bool
  ends : Bool
  data : Vec Byte n
  deriving Inhabited

/-- In an output of `m` bytes, the bits at byte `k` and behind it are 1 if `ends`, the others are those of `u`. -/
def EndMasked {w : Nat} (m : Nat) (ends : Bool) (k : Nat) (o u : BitVec w) : Prop :=
  ∀ n < m, ∀ i < 8, o.getLsbD (8 * n + i) = (ends && decide (k ≤ n) || u.getLsbD (8 * n + i))

section
variable {B W e : Nat} {F : FilterDesign B W e} {look : Byte → Byte → BitVec 64} {g : Nat}

def BusWord.bare (w : BusWord B e) : BareWord B := ⟨w.valid, w.ends, w.data⟩

/-- The shift-or result of every beat, without a mask. -/
def FilterDesign.unmasked (F : FilterDesign B W e) : BitVec 64 → List (BareWord B) → List (BitVec W) :=
  results BareWord.valid (fun w n st => F.outData (vec (F.read w.data w.ends n.data)) st 0)
    (fun w n st => if w.ends then F.initState else F.nextState (vec (F.read w.data w.ends n.data)) st) default

theorem FilterDesign.Sound.endMasked (h : F.Sound look g) {w n : BusWord B e} (st : BitVec 64)
    (hn : w.ends = true → n.empty = w.empty) :
    EndMasked B w.ends (B - w.empty.toNat) ((BusSlot.ahead w n st).filterOut F)
      (F.outData (vec (F.read w.data w.ends n.data)) st 0) := by
  intro k hk i hi
  have hm : ((BusSlot.ahead w n st).mask F).getLsbD (8 * k + i) = (w.ends && decide (B - w.empty.toNat ≤ k)) := by
    cases he : w.ends with
    | false =>
      have : (BusSlot.ahead w n st).mask F = 0 := if_neg (by simp [BusSlot.ahead, he])
      simp [this]
    | true =>
      have : (BusSlot.ahead w n st).mask F = F.maskOf (F.shiftOf w.empty) := by
        rw [BusSlot.mask, ← hn he]
        exact if_pos he
      rw [this, h.mask _ _ _ hk hi, Bool.true_and]
  rw [BusSlot.filterOut, h.out _ _ _ _ _ hk hi, h.out _ _ _ _ _ hk hi, hm, Bool.or_comm]
  simp only [BitVec.ofNat_eq_ofNat, BitVec.getLsbD_zero, Bool.or_false]
  rfl

theorem FilterDesign.Sound.masks_end (h : F.Sound look g) (p : FilterRegs B W) (us : List (BusWord B e)) (x y z : BusWord B e)
    (hx : x.valid = false ∧ y.valid = false ∧ z.valid = false)
    (hu : EachNext (fun w n => w.ends = true → n.empty = w.empty) default (us ++ [x, y, z])) :
    List.Forall₂ (fun o x => EndMasked B x.1.ends (B - x.1.empty.toNat) o x.2)
        (trace (FilterRegs.step F) (FilterRegs.shown F) (FilterRegs.reset F p) (us ++ [x, y, z])).reduceOption
        (((us ++ [x, y, z]).filter BusWord.valid).zip (F.unmasked F.initState ((us ++ [x, y, z]).map BusWord.bare))) ∧
      (F.unmasked F.initState ((us ++ [x, y, z]).map BusWord.bare)).length = ((us ++ [x, y, z]).filter BusWord.valid).length := by
  rw [FilterRegs.outputs_eq p us [x, y, z] (by simpa using hx) rfl]
  refine forall₂_results BareWord.valid BusWord.bare (R := fun o w u => EndMasked B w.ends (B - w.empty.toNat) o u)
    (fun w n t hv => ?_) (fun w n t hv hP => ?_) _ _ hu
  · exact ⟨BusSlot.shown_of_not_valid hv, BusSlot.after_of_not_valid hv⟩
  · exact ⟨_, if_pos hv, h.endMasked t hP, if_pos hv⟩

end

def FirstFilter.unmasked (T : FpTables) : BitVec 64 → List (BareWord 32) → List (BitVec 256) := (FirstFilter.design T).unmasked

def NfFilter.unmasked (T : NfTables) : BitVec 64 → List (BareWord 16) → List (BitVec 128) := (NfFilter.design T).unmasked

/-- Both filters, for any words on the bus: when `in_empty` is held for one cycle behind the last beat of each packet, the
output of every beat is the shift-or result of the words without their `in_empty`, with 1 in all bits behind the end of the
packet. -/
theorem filters_mask_end (T : FpTables) (N : NfTables) (p : FirstFilter) (q : NfFilter) (us : List FpWord) (ns : List NfWord)
    (x y z : FpWord) (a b c : NfWord) (hx : x.valid = false ∧ y.valid = false ∧ z.valid = false)
    (ha : a.valid = false ∧ b.valid = false ∧ c.valid = false)
    (hu : EachNext (fun w n => w.ends = true → n.empty = w.empty) default (us ++ [x, y, z]))
    (hn : EachNext (fun w n => w.ends = true → n.empty = w.empty) default (ns ++ [a, b, c])) :
    (List.Forall₂ (fun o x => EndMasked 32 x.1.ends (32 - x.1.empty.toNat) o x.2)
        (trace (FirstFilter.step T) (FirstFilter.shown T) (FirstFilter.reset T p) (us ++ [x, y, z])).reduceOption
        (((us ++ [x, y, z]).filter BusWord.valid).zip
          (FirstFilter.unmasked T FirstFilter.initState ((us ++ [x, y, z]).map BusWord.bare))) ∧
      (FirstFilter.unmasked T FirstFilter.initState ((us ++ [x, y, z]).map BusWord.bare)).length =
        ((us ++ [x, y, z]).filter BusWord.valid).length) ∧
    List.Forall₂ (fun o x => EndMasked 16 x.1.ends (16 - x.1.empty.toNat) o x.2)
        (trace (NfFilter.step N) (NfFilter.shown N) (NfFilter.reset N q) (ns ++ [a, b, c])).reduceOption
        (((ns ++ [a, b, c]).filter BusWord.valid).zip
          (NfFilter.unmasked N NfFilter.initState ((ns ++ [a, b, c]).map BusWord.bare))) ∧
      (NfFilter.unmasked N NfFilter.initState ((ns ++ [a, b, c]).map BusWord.bare)).length =
        ((ns ++ [a, b, c]).filter BusWord.valid).length := by
  exact ⟨(FirstFilter.sound T).masks_end p us x y z hx hu, (NfFilter.sound N).masks_end q ns a b c ha hn⟩

def FpTables.zero : FpTables := ⟨fun _ => 0, fun _ _ => 0⟩

def NfTables.zero : NfTables := ⟨fun _ => 0, fun _ _ => 0⟩

def fpEnd (e : BitVec 5) : FpWord := ⟨true, true, e, vec fun _ => 0⟩

def nfEnd (e : BitVec 4) : NfWord := ⟨true, true, e, vec fun _ => 0⟩

def fpPause (e : BitVec 5) : FpWord := ⟨false, false, e, vec fun _ => 0⟩

def nfPause (e : BitVec 4) : NfWord := ⟨false, false, e, vec fun _ => 0⟩

theorem filters_mask_end_held :
    List.Forall₂ (fun o x => EndMasked 32 x.1.ends (32 - x.1.empty.toNat) o x.2)
        (trace (FirstFilter.step .zero) (FirstFilter.shown .zero) (FirstFilter.reset .zero default)
          ([fpEnd 3] ++ [fpPause 3, fpPause 0, fpPause 0])).reduceOption
        ([fpEnd 3].zip (FirstFilter.unmasked .zero FirstFilter.initState
          (([fpEnd 3] ++ [fpPause 3, fpPause 0, fpPause 0]).map BusWord.bare))) ∧
      List.Forall₂ (fun o x => EndMasked 16 x.1.ends (16 - x.1.empty.toNat) o x.2)
        (trace (NfFilter.step .zero) (NfFilter.shown .zero) (NfFilter.reset .zero default)
          ([nfEnd 5, nfEnd 5] ++ [nfPause 5, nfPause 0, nfPause 0])).reduceOption
        ([nfEnd 5, nfEnd 5].zip (NfFilter.unmasked .zero NfFilter.initState
          (([nfEnd 5, nfEnd 5] ++ [nfPause 5, nfPause 0, nfPause 0]).map BusWord.bare))) := by
  have hu : EachNext (fun w n => w.ends = true → n.empty = w.empty) default ([fpEnd 3] ++ [fpPause 3, fpPause 0, fpPause 0]) :=
    ⟨fun _ => rfl, nofun, nofun, nofun, trivial⟩
  have hn : EachNext (fun w n => w.ends = true → n.empty = w.empty) default
      ([nfEnd 5, nfEnd 5] ++ [nfPause 5, nfPause 0, nfPause 0]) := ⟨fun _ => rfl, fun _ => rfl, nofun, nofun, nofun, trivial⟩
  have h := filters_mask_end .zero .zero default default [fpEnd 3] [nfEnd 5, nfEnd 5] (fpPause 3) (fpPause 0) (fpPause 0)
    (nfPause 5) (nfPause 0) (nfPause 0) ⟨rfl, rfl, rfl⟩ ⟨rfl, rfl, rfl⟩ hu hn
  exact ⟨h.1.1, h.2.1⟩

/-- `pkt_almost_full` in front of `first_filter`. -/
structure PacedFilter where
  paf : PktAlmostFull
  filter : FirstFilter

def PacedFilter.step (T : FpTables) (s : PacedFilter) (w : FpWord) : PacedFilter where
  paf := s.paf.step false w
  filter := s.filter.step T (s.paf.hp 1)

/-- With a table of zeros: a packet of one byte behind `pkt_almost_full` is not masked at byte 20, and in
`non_fast_pattern_shiftor` a packet of 16 bytes is masked at byte 10 by a packet of one byte that follows it, which is not
masked there itself. -/
theorem filters_mask_late :
    (trace (PacedFilter.step .zero) (fun s => s.filter.shown .zero) ⟨⟨.idle, fpPause 0, vec fun _ => fpPause 0⟩, FirstFilter.reset .zero default⟩
        ([fpPause 0, fpEnd 31] ++ List.replicate 7 (fpPause 0))).reduceOption.map (fun o => o.getLsbD (8 * 20)) = [false] ∧
      (trace (NfFilter.step .zero) (NfFilter.shown .zero) (NfFilter.reset .zero default)
        ([nfEnd 0, nfEnd 15] ++ List.replicate 3 (nfPause 0))).reduceOption.map (fun o => o.getLsbD (8 * 10)) = [true, false] ∧
      (NfFilter.unmasked .zero NfFilter.initState
        (([nfEnd 0, nfEnd 15] ++ List.replicate 3 (nfPause 0)).map BusWord.bare)).map (fun o => o.getLsbD (8 * 10)) =
        [false, false] := by
  decide +kernel

end Pigasus
