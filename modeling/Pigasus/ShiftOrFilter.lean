import Pigasus.Pipeline
import Pigasus.ShiftOr
import Pigasus.PktDataShift
import Mathlib.Data.List.GetD

/-!
# Filters of one design

`first_filter` and `non_fast_pattern_shiftor` send a beat through three registers: its
bytes look up words of the match table, the words are joined with the state of the
automaton, and the state moves on with the beat that leaves. The two differ in the
bytes of a beat, in the bits of an address and in the constant that they start from.
-/

namespace Pigasus

open Hdl

/-- One word on a packet bus with beats of `B` bytes. -/
structure BusWord (B e : Nat) where
  valid : Bool
  eop : Bool
  empty : BitVec e
  data : Vec Byte B
  deriving Inhabited

def BusWord.ends {B e : Nat} (w : BusWord B e) : Bool := w.valid && w.eop

theorem BusWord.ends_of_not_valid {B e : Nat} {w : BusWord B e} (h : w.valid = false) : w.ends = false := by
  simp [BusWord.ends, h]

structure FilterDesign (B W e : Nat) where
  initState : BitVec 64
  /-- The word of a byte of a beat, which may be the last one of its packet and has another word behind it. -/
  read : Vec Byte B → Bool → Vec Byte B → Fin B → BitVec 64
  nextState : Vec (BitVec 64) B → BitVec 64 → BitVec 64
  outData : Vec (BitVec 64) B → BitVec 64 → BitVec W → BitVec W
  shiftOf : BitVec e → BitVec 9
  maskOf : BitVec 9 → BitVec W

structure FilterRegs (B W : Nat) where
  inReg : Vec Byte B
  state : BitVec 64
  inValidReg : Bool
  inValidReg1 : Bool
  outValid : Bool
  last : Bool
  lastR : Bool
  lastR1 : Bool
  mask : BitVec W
  shift : BitVec 9
  q : Vec (RdPort (BitVec 64)) B
  deriving Inhabited

/-- A word between its neighbours, and the filter's state in front of it. -/
structure BusSlot (B e : Nat) where
  prev : BusWord B e
  word : BusWord B e
  next : BusWord B e
  st : BitVec 64

variable {B W e : Nat}

namespace FilterRegs

variable (F : FilterDesign B W e) (s : FilterRegs B W)

def qs : Vec (BitVec 64) B := vec fun k => (s.q k).q

def out : BitVec W := F.outData s.qs s.state s.mask

/-- The output in a cycle that has one. -/
def shown : Option (BitVec W) := if s.outValid then some (s.out F) else none

def step (w : BusWord B e) : FilterRegs B W where
  inReg := if w.valid then w.data else s.inReg
  state := if s.outValid then if s.lastR1 then F.initState else F.nextState s.qs s.state else s.state
  inValidReg := w.valid
  inValidReg1 := s.inValidReg
  outValid := s.inValidReg1
  last := w.ends
  lastR := s.last
  lastR1 := s.lastR
  mask := if s.lastR then F.maskOf s.shift else 0
  -- `in_empty` is taken one cycle behind the beat that `last_r` marks
  shift := F.shiftOf w.empty
  q := vec fun k => (s.q k).read (F.read s.inReg s.last w.data k)

/-- Behind a reset with nothing on its way; everything else keeps the contents of `s`. -/
def reset : FilterRegs B W :=
  { s with
    state := F.initState
    inValidReg := false
    inValidReg1 := false
    outValid := false
    last := false
    lastR := false
    lastR1 := false
    mask := 0 }

end FilterRegs

/-! ## The word in the registers -/

namespace BusSlot

variable (F : FilterDesign B W e) (a : BusSlot B e)

def words : Vec (BitVec 64) B := vec (F.read a.word.data a.word.ends a.next.data)

def mask : BitVec W := if a.word.ends then F.maskOf (F.shiftOf a.next.empty) else 0

def filterOut : BitVec W := F.outData (a.words F) a.st (a.mask F)

def after : BitVec 64 :=
  if a.word.valid then if a.word.ends then F.initState else F.nextState (a.words F) a.st else a.st

/-- What the word shows at the output of the filter. -/
def shown : Option (BitVec W) := if a.word.valid then some (a.filterOut F) else none

variable {F a}

theorem after_of_not_valid (h : a.word.valid = false) : a.after F = a.st := by simp [after, h]

theorem shown_of_not_valid (h : a.word.valid = false) : a.shown F = none := by simp [shown, h]

def ahead (w n : BusWord B e) (st : BitVec 64) : BusSlot B e := ⟨default, w, n, st⟩

end BusSlot

namespace FilterRegs

variable (F : FilterDesign B W e)

def Stage : Nat → FilterRegs B W → BusSlot B e → Prop
  | 0, s, a => s.inValidReg = a.word.valid ∧ s.last = a.word.ends ∧ (a.word.valid = true → s.inReg = a.word.data)
  | 1, s, a => s.inValidReg1 = a.word.valid ∧ s.lastR = a.word.ends ∧
      (a.word.ends = true → s.shift = F.shiftOf a.next.empty) ∧ (a.word.valid = true → ∀ k, (s.q k).r1 = a.words F k)
  | 2, s, a => s.outValid = a.word.valid ∧ s.lastR1 = a.word.ends ∧ s.mask = a.mask F ∧
      (a.word.valid = true → s.qs = a.words F)
  | _, _, _ => True

variable {F} {s : FilterRegs B W} {a : BusSlot B e}

theorem stage_zero : Stage F 0 (s.step F a.word) a := ⟨rfl, rfl, fun h => by simp [step, h]⟩

theorem stage_succ {w : BusWord B e} (k : Nat) (hw : k = 0 → w = a.next) (h : Stage F k s a) :
    Stage F (k + 1) (s.step F w) a := by
  match k with
  | 0 =>
    obtain rfl := hw rfl
    obtain ⟨hv, hl, hd⟩ := h
    refine ⟨hv, hl, fun _ => rfl, fun ha l => ?_⟩
    simp [step, BusSlot.words, hd ha, hl]
  | 1 =>
    obtain ⟨hv, hl, hs, hq⟩ := h
    refine ⟨hv, hl, ?_, fun ha => vec_ext fun l => ?_⟩
    · cases he : a.word.ends with
      | false => simp [step, BusSlot.mask, hl, he]
      | true => simp [step, BusSlot.mask, hl, he, hs he]
    · simp [qs, step, hq ha l]
  | k + 2 => trivial

theorem state_step (w : BusWord B e) (h : Stage F 2 s a) (hst : s.state = a.st) : (s.step F w).state = a.after F := by
  obtain ⟨hv, hl, -, hq⟩ := h
  cases ha : a.word.valid with
  | false => simp [step, BusSlot.after, hv, ha, hst]
  | true => simp [step, BusSlot.after, hv, hl, ha, hq ha, hst]

theorem out_eq (h : Stage F 2 s a) (hst : s.state = a.st) (ha : a.word.valid = true) : s.out F = a.filterOut F := by
  obtain ⟨-, -, hm, hq⟩ := h
  simp [out, BusSlot.filterOut, hm, hq ha, hst]

variable (F) in
/-- The way of a word through the registers, and then through the pipe `d` behind the output. -/
def Delayed {n : Nat} (k : Nat) (s : FilterRegs B W) (d : Vec (BitVec W) n) (a : BusSlot B e) : Prop :=
  match k with
  | 0 | 1 | 2 => Stage F k s a
  | k + 3 => ∀ h : k < n, a.word.valid = true → d ⟨k, h⟩ = a.filterOut F

theorem delayed_succ {n : Nat} {d : Vec (BitVec W) n} {o : BitVec W} {w : BusWord B e} (k : Nat) (hw : k = 0 → w = a.next)
    (hst : k = 2 → s.state = a.st) (h : Delayed F k s d a) :
    Delayed F (k + 1) (s.step F w) (shiftIn (if s.outValid then s.out F else o) d) a := by
  match k with
  | 0 | 1 => exact stage_succ _ hw h
  | 2 =>
    intro _ ha
    rw [shiftIn_zero, if_pos (h.1.trans ha)]
    exact out_eq h (hst rfl) ha
  | k + 3 =>
    intro hk ha
    exact (shiftIn_succ _ _ k hk).trans (h (by omega) ha)

theorem delayed_quiet {n : Nat} {d : Vec (BitVec W) n} (ha : a.word.valid = false) (h0 : s.inValidReg = false)
    (h1 : s.inValidReg1 = false) (h2 : s.outValid = false) (l0 : s.last = false) (l1 : s.lastR = false) (l2 : s.lastR1 = false)
    (hm : s.mask = 0) (k : Nat) : Delayed F k s d a := by
  have he := BusWord.ends_of_not_valid ha
  unfold Delayed
  split <;> simp [Stage, BusSlot.mask, *]

theorem threeStage : ThreeStage (step F) (Stage F) BusSlot.ahead BusSlot.st (BusSlot.after F) state where
  st_slot _ _ _ := rfl
  enter s w n t := stage_zero (a := BusSlot.ahead w n t)
  first s w n t h := stage_succ 0 (fun _ => rfl) h
  second s w a h := stage_succ 1 (fun h => by cases h) h
  leave s w a h hs := state_step w h hs

theorem shown_eq (h : Stage F 2 s a) (hs : s.state = a.st) : s.shown F = a.shown F := by
  rw [shown, BusSlot.shown, h.1]
  split
  · rename_i hv
    rw [out_eq h hs hv]
  · rfl

def shownOf (F : FilterDesign B W e) (st : BitVec 64) (ws : List (BusWord B e)) : List (BitVec W) :=
  ((slots BusSlot.ahead (BusSlot.after F) default st ws).map (BusSlot.shown F)).reduceOption

theorem outputs_eq (p : FilterRegs B W) (us vs : List (BusWord B e)) (hv : ∀ v ∈ vs, v.valid = false) (h3 : vs.length = 3) :
    (trace (step F) (shown F) (reset F p) (us ++ vs)).reduceOption = shownOf F F.initState (us ++ vs) := by
  refine threeStage.reduceOption_trace (w := default) (a := BusSlot.ahead default default F.initState)
    (b := BusSlot.ahead default default F.initState) (fun s a => shown_eq) ?_ ?_ ?_ rfl rfl ?_ rfl rfl ?_ h3
  · exact ⟨rfl, rfl, nofun⟩
  · exact ⟨rfl, rfl, nofun, nofun⟩
  · exact ⟨rfl, rfl, rfl, nofun⟩
  · exact fun n st => BusSlot.shown_of_not_valid rfl
  · exact fun v hm n st => BusSlot.shown_of_not_valid (hv v hm)

end FilterRegs

/-! ## The bytes of a packet -/

def wordsAt (q : Vec (BitVec 64) B) (n : Nat) : BitVec 64 := if h : n < B then q ⟨n, h⟩ else 0

theorem wordsAt_of_lt (q : Vec (BitVec 64) B) {n : Nat} (h : n < B) : wordsAt q n = q ⟨n, h⟩ := dif_pos h

def bytes (ds : List (Vec Byte B)) : List Byte := ds.flatMap fun d => d.toList

theorem length_bytes (ds : List (Vec Byte B)) : (bytes ds).length = B * ds.length := by
  induction ds with
  | nil => rfl
  | cons d ds ih =>
    rw [bytes] at ih ⊢
    rw [List.flatMap_cons, List.length_append, ih, List.length_cons, Nat.mul_succ, Nat.add_comm]
    simp

theorem getD_bytes {l : List (Vec Byte B)} {k : Nat} (hk : k < l.length) (n : Fin B) :
    (bytes l).getD (B * k + n.val) 0 = l[k] n := by
  induction l generalizing k with
  | nil => cases hk
  | cons d l ih =>
    have hd : d.toList.length = B := by simp
    rw [bytes, List.flatMap_cons]
    cases k with
    | zero =>
      have hn : B * 0 + n.val < d.toList.length := by rw [hd]; omega
      rw [List.getD_append _ _ _ _ hn, List.getD_eq_getElem _ _ hn]
      simp only [Nat.mul_zero, Nat.zero_add]
      exact (List.Vector.get_eq_get_toList d n).symm
    | succ k =>
      have hb : B * (k + 1) + n.val - B = B * k + n.val := by rw [Nat.mul_succ]; omega
      rw [List.getD_append_right _ _ _ _ (by rw [hd, Nat.mul_succ]; omega), hd, hb]
      exact ih (Nat.lt_of_succ_lt_succ hk)

theorem getD_bytes_add (d : Vec Byte B) (ds : List (Vec Byte B)) (n : Nat) :
    (bytes (d :: ds)).getD (B + n) 0 = (bytes ds).getD n 0 := by
  have hd : d.toList.length = B := by simp
  rw [bytes, List.flatMap_cons, List.getD_append_right _ _ _ _ (by omega), hd, Nat.add_sub_cancel_left]
  rfl

/-- Word `n` of a packet: what the table has for byte `n` in front of byte `n + 1`; behind the last beat there is 0. -/
def lookAt (look : Byte → Byte → BitVec 64) (l : List Byte) (n : Nat) : BitVec 64 := look (l.getD n 0) (l.getD (n + 1) 0)

/-- What the design computes: the words are those of the table `look`, the state and the outputs are those of the automaton
over `g + 1` groups of eight bytes, and the mask begins behind the bytes that are not empty. -/
structure FilterDesign.Sound (F : FilterDesign B W e) (look : Byte → Byte → BitVec 64) (g : Nat) : Prop where
  size : B = 8 * g + 8
  read_lt : ∀ d last n (k : Nat) (h : k + 1 < B), F.read d last n ⟨k, by omega⟩ = look (d ⟨k, by omega⟩) (d ⟨k + 1, h⟩)
  read_last : ∀ d n (h : B - 1 < B), F.read d true n ⟨B - 1, h⟩ = look (d ⟨B - 1, h⟩) 0
  read_next : ∀ d n (h : B - 1 < B) (h0 : 0 < B), F.read d false n ⟨B - 1, h⟩ = look (d ⟨B - 1, h⟩) (n ⟨0, h0⟩)
  next : ∀ q st, F.nextState q st = ShiftOr.next (wordsAt q) st g
  out : ∀ q st mask n i, n < B → i < 8 →
    (F.outData q st mask).getLsbD (8 * n + i) = (ShiftOr.serial st (wordsAt q) n i || mask.getLsbD (8 * n + i))
  mask : ∀ x n i, n < B → i < 8 → (F.maskOf (F.shiftOf x)).getLsbD (8 * n + i) = decide (B - x.toNat ≤ n)

namespace FilterDesign

variable {F : FilterDesign B W e} {look : Byte → Byte → BitVec 64} {g : Nat}

theorem Sound.read_end (h : F.Sound look g) (d n m : Vec Byte B) (k : Fin B) : F.read d true n k = F.read d true m k := by
  by_cases hk : k.val + 1 < B
  · exact (h.read_lt d true n k hk).trans (h.read_lt d true m k hk).symm
  · have hB : B - 1 < B := by omega
    obtain rfl : k = ⟨B - 1, hB⟩ := Fin.ext (by simp only; omega)
    rw [h.read_last, h.read_last]

def beatWords (F : FilterDesign B W e) (d : Vec Byte B) (ds : List (Vec Byte B)) : Vec (BitVec 64) B :=
  vec (F.read d ds.isEmpty (ds.headD d))

theorem Sound.wordsAt_eq (h : F.Sound look g) (d : Vec Byte B) (ds : List (Vec Byte B)) {n : Nat} (hn : n < 8 * g + 8) :
    wordsAt (F.beatWords d ds) n = lookAt look (bytes (d :: ds)) n := by
  have hB := h.size
  have h0 : (bytes (d :: ds)).getD n 0 = d ⟨n, by omega⟩ := by
    have := getD_bytes (l := d :: ds) (k := 0) (by simp) ⟨n, by omega⟩
    simpa using this
  rw [wordsAt_of_lt _ (by omega), beatWords, vec_get, lookAt, h0]
  by_cases hl : n + 1 < B
  · have h1 : (bytes (d :: ds)).getD (n + 1) 0 = d ⟨n + 1, hl⟩ := by
      have := getD_bytes (l := d :: ds) (k := 0) (by simp) ⟨n + 1, hl⟩
      simpa using this
    rw [h1, h.read_lt]
  · -- the byte behind the beat
    obtain rfl : n = B - 1 := by omega
    have h1 : (bytes (d :: ds)).getD (B - 1 + 1) 0 = (bytes ds).getD 0 0 := by
      rw [← getD_bytes_add d ds 0]
      congr 1
      omega
    rw [h1]
    cases ds with
    | nil => exact h.read_last d d _
    | cons c ds =>
      have h2 : (bytes (c :: ds)).getD 0 0 = c ⟨0, by omega⟩ := by
        have := getD_bytes (l := c :: ds) (k := 0) (by simp) ⟨0, by omega⟩
        simpa using this
      rw [h2]
      exact h.read_next d c _ _

theorem Sound.out_beat (h : F.Sound look g) (d : Vec Byte B) (ds : List (Vec Byte B)) (st : BitVec 64) (mask : BitVec W)
    {n i : Nat} (hn : n < B) (hi : i < 8) : (F.outData (F.beatWords d ds) st mask).getLsbD (8 * n + i) =
      (ShiftOr.serial st (lookAt look (bytes (d :: ds))) n i || mask.getLsbD (8 * n + i)) := by
  have hB := h.size
  rw [h.out _ _ _ _ _ hn hi, ShiftOr.serial_congr fun m hm => h.wordsAt_eq d ds (by omega)]

theorem Sound.serial_beat (h : F.Sound look g) (d : Vec Byte B) (ds : List (Vec Byte B)) (st : BitVec 64) {n i : Nat}
    (hi : i < 8) : ShiftOr.serial (F.nextState (F.beatWords d ds) st) (lookAt look (bytes ds)) n i =
      ShiftOr.serial st (lookAt look (bytes (d :: ds))) (B + n) i := by
  have hs : (fun m => lookAt look (bytes (d :: ds)) (8 * g + 8 + m)) = lookAt look (bytes ds) := by
    funext m
    rw [← h.size, lookAt, Nat.add_assoc, getD_bytes_add, getD_bytes_add]
    rfl
  rw [h.next, ShiftOr.next_congr fun m hm => h.wordsAt_eq d ds hm, ← hs, ShiftOr.serial_next hi]
  exact congrArg (fun m => ShiftOr.serial st _ (m + n) i) h.size.symm

/-- From the state `st` the automaton goes over the beats `ds` as it does behind the beats `pre` of their packet. -/
def Carries (F : FilterDesign B W e) (look : Byte → Byte → BitVec 64) (st : BitVec 64) (pre ds : List (Vec Byte B)) : Prop :=
  ∀ n i, i < 8 → ShiftOr.serial st (lookAt look (bytes ds)) n i =
    ShiftOr.serial F.initState (lookAt look (bytes (pre ++ ds))) (B * pre.length + n) i

theorem carries_start (ds : List (Vec Byte B)) : F.Carries look F.initState [] ds := by
  intro n i _
  simp

theorem Sound.carries_next (h : F.Sound look g) {st : BitVec 64} {pre ds : List (Vec Byte B)} {d : Vec Byte B}
    (hc : F.Carries look st pre (d :: ds)) : F.Carries look (F.nextState (F.beatWords d ds) st) (pre ++ [d]) ds := by
  intro n i hi
  rw [h.serial_beat d ds st hi, hc _ _ hi, List.append_assoc, List.length_append, Nat.mul_add, Nat.add_assoc]
  simp

theorem Sound.out_carries (h : F.Sound look g) {st : BitVec 64} {pre ds : List (Vec Byte B)} {d : Vec Byte B}
    (hc : F.Carries look st pre (d :: ds)) (mask : BitVec W) {n i : Nat} (hn : n < B) (hi : i < 8) :
    (F.outData (F.beatWords d ds) st mask).getLsbD (8 * n + i) =
      (ShiftOr.serial F.initState (lookAt look (bytes (pre ++ d :: ds))) (B * pre.length + n) i || mask.getLsbD (8 * n + i)) := by
  rw [h.out_beat d ds st mask hn hi, hc _ _ hi]

/-- The outputs for the beats of a packet from the state `st`, without a mask. -/
def blocks (F : FilterDesign B W e) : BitVec 64 → List (Vec Byte B) → List (BitVec W)
  | _, [] => []
  | st, d :: ds => F.outData (F.beatWords d ds) st 0 :: blocks F (F.nextState (F.beatWords d ds) st) ds

theorem length_blocks (st : BitVec 64) (ds : List (Vec Byte B)) : (F.blocks st ds).length = ds.length := by
  induction ds generalizing st with
  | nil => rfl
  | cons d ds ih => simp [blocks, ih]

theorem Sound.getLsbD_blocks (h : F.Sound look g) {ds : List (Vec Byte B)} {st : BitVec 64} {k n i : Nat} {o : BitVec W}
    (ho : (F.blocks st ds)[k]? = some o) (hn : n < B) (hi : i < 8) :
    o.getLsbD (8 * n + i) = ShiftOr.serial st (lookAt look (bytes ds)) (B * k + n) i := by
  induction ds generalizing st k with
  | nil => cases ho
  | cons d ds ih =>
    cases k with
    | zero =>
      cases ho
      rw [h.out_beat d ds st 0 hn hi]
      simp
    | succ k =>
      rw [ih ho, h.serial_beat d ds st hi]
      congr 1
      rw [Nat.mul_succ]
      omega

end FilterDesign

end Pigasus
