import Pigasus.StringMatcher

/-!
# The string matcher as a pipeline

Between the packet bus and the FIFOs the string matcher has no feedback but the
state of the filter. What is written to a lane for a word therefore depends on
the word, on the words next to it and on the state of the filter in front of it.
-/

namespace Pigasus

open Hdl

/-! ## What is written for a word -/

abbrev FpSlot := BusSlot 32 5

/-- Byte `b` of the 39 bytes that the windows of a beat are taken from. -/
def paddedByte (prev d : Vec Byte 32) (b : Fin 39) : Byte := HashTop.padded (HashTop.lastBytes prev) d b

def products (prev d : Vec Byte 32) (j : Fin 32) (b : Fin 8) : Vec (BitVec 24) 4 :=
  MulHash.mul (paddedByte prev d (HashTop.windowAt j b))

def AccHash.sumOf (n : Nat) (ab : Fin 8 → Vec (BitVec 24) 4) : BitVec 65 :=
  final (level4 (level3 (level2 (level1 n ab))))

/-- The hash index of the window of bucket `i` that ends at byte `j` of `d`. -/
def windowHash (i : Fin 8) (j : Fin 32) (prev d : Vec Byte 32) : BitVec 16 :=
  AccHash.select 16 (nbits i) (AccHash.sumOf (maskedBytes i) (products prev d j))

def FpTables.bitmapBit (T : FpTables) (i : Fin 8) (h : BitVec 16) : Bool :=
  HashPort.bit (T.bitmap i (HashPort.bmAddr h)) (HashPort.bmBit h)

/-- The words of the match table for a beat; `next` is the byte behind it. -/
def FpTables.words (T : FpTables) (d : Vec Byte 32) (last : Bool) (next : Byte) : Vec (BitVec 64) 32 :=
  vec fun k => T.matchTable (FirstFilter.addr d last next k)

namespace FpSlot

variable (T : FpTables) (a : FpSlot) (i : Fin 8) (j : Fin 32)

abbrev words : Vec (BitVec 64) 32 := BusSlot.words (FirstFilter.design T) a

abbrev mask : BitVec 256 := BusSlot.mask (FirstFilter.design T) a

abbrev filterOut : BitVec 256 := BusSlot.filterOut (FirstFilter.design T) a

abbrev after : BitVec 64 := BusSlot.after (FirstFilter.design T) a

def hash : BitVec 16 := windowHash i j a.prev.data a.word.data

def laneValid : Bool := HashTop.laneValid i j a.word.valid a.prev.valid

def hit : Bool :=
  a.laneValid i j && T.bitmapBit i (a.hash i j) && !(a.filterOut T).getLsbD (Frontend.filterBit i j)

/-- What is written to lane `i`, `j`: a hit, or the marker of a packet that ends in front of the word. -/
def entry : Option RuleS :=
  if a.prev.ends || a.hit T i j then
    some ⟨a.prev.ends, BitVec.ofFin i, if a.hit T i j then a.hash i j else 0⟩
  else none

def push (n : FpWord) : FpSlot := ⟨a.word, a.next, n, a.after T⟩

end FpSlot

/-! ## The hash -/

def MulHash.Stage : Nat → MulHash → Byte → Prop
  | 0, s, a => s.aReg0 = a
  | 1, s, a => s.aReg1 = a
  | 2, s, a => s.aReg2 = a
  | 3, s, a => s.abReg0 = mul a
  | 4, s, a => s.abReg1 = mul a
  | 5, s, a => s.ab = mul a
  | _, _, _ => True

theorem MulHash.stage_succ {s : MulHash} {a : Byte} (b : Byte) (k : Nat) (h : Stage k s a) :
    Stage (k + 1) (s.step b) a := by
  match k with
  | 0 | 1 | 3 | 4 => exact h
  | 2 => exact congrArg mul h
  | k + 5 => trivial

def AccHash.Stage {w : Nat} (n m : Nat) : Nat → AccHash w → (Fin 8 → Vec (BitVec 24) 4) → Prop
  | 0, s, ab => s.l1 = level1 n ab
  | 1, s, ab => s.l2 = level2 (level1 n ab)
  | 2, s, ab => s.l3 = level3 (level2 (level1 n ab))
  | 3, s, ab => s.l4 = level4 (level3 (level2 (level1 n ab)))
  | 4, s, ab => s.sum = sumOf n ab
  | 5, s, ab => s.p = select w m (sumOf n ab)
  | _, _, _ => True

theorem AccHash.stage_zero {w n m : Nat} {s : AccHash w} {x ab : Fin 8 → Vec (BitVec 24) 4} (h : x = ab) :
    Stage n m 0 (step n m s x) ab := by
  rw [h]
  rfl

theorem AccHash.stage_succ {w n m : Nat} {s : AccHash w} {ab : Fin 8 → Vec (BitVec 24) 4} (x : Fin 8 → Vec (BitVec 24) 4)
    (k : Nat) (h : Stage n m k s ab) : Stage n m (k + 1) (step n m s x) ab := by
  match k with
  | 0 => exact congrArg level2 h
  | 1 => exact congrArg level3 h
  | 2 => exact congrArg level4 h
  | 3 => exact congrArg final h
  | 4 => exact congrArg (select w m) h
  | k + 5 => trivial

def HashPort.Stage {w n : Nat} (bitmap : BitVec n → BitVec 8) : Nat → HashPort w → BitVec w → Bool → Prop
  | 0, s, a, v => s.outValidReg1 = v ∧
      (v = true → s.addrR1 = a ∧ s.bmBitReg1 = bmBit a ∧ s.q.r1 = bitmap (bmAddr a))
  | 1, s, a, v => s.qValid = v ∧ (v = true → s.addrR2 = a ∧ s.bmBitReg2 = bmBit a ∧ s.q.q = bitmap (bmAddr a))
  | 2, s, a, v => s.doutValid = (v && bit (bitmap (bmAddr a)) (bmBit a)) ∧ (v = true → s.dout = a)
  | _, _, _, _ => True

theorem HashPort.stage_succ {w n : Nat} {bitmap : BitVec n → BitVec 8} {s : HashPort w} {a : BitVec w} {v : Bool} (b : BitVec w)
    (u : Bool) (k : Nat) (h : Stage bitmap k s a v) : Stage bitmap (k + 1) (step bitmap s b u) a v := by
  match k with
  | 0 => exact h
  | 1 =>
    obtain ⟨hv, hd⟩ := h
    cases v with
    | false => exact ⟨by simp [step, hv], fun h => by cases h⟩
    | true =>
      obtain ⟨h1, h2, h3⟩ := hd rfl
      exact ⟨by simp [step, hv, h2, h3], fun _ => h1⟩
  | k + 2 => trivial

/-- The products of the bytes of the window that ends at byte `j`. -/
def HashDesign.products {B P n : Nat} (F : HashDesign B P n) (prev d : Vec Byte B) (j : Fin B) (b : Fin 8) : Vec (BitVec 24) 4 :=
  MulHash.mul (F.padded (F.lastBytes prev) d (F.windowAt j b))

namespace BusSlot

variable {B P w n e : Nat} (F : HashDesign B P n) (a : BusSlot B e) (i : Fin 8) (j : Fin B)

def index (w : Nat) : BitVec w := AccHash.select w (F.nbits i) (AccHash.sumOf (F.masked i) (F.products a.prev.data a.word.data j))

def indexValid : Bool := F.laneValid i j a.word.valid a.prev.valid

end BusSlot

namespace HashRegs

variable {B P w n e : Nat} (F : HashDesign B P n)

/-- The registers of cycle `k + 1`, when the beat came in that many cycles ago. -/
def Stage (k : Nat) (s : HashRegs B P w) (a : BusSlot B e) : Prop :=
  (∀ h : k < 12, ∀ i j, s.addrValid i j ⟨k, h⟩ = a.indexValid F i j) ∧
    match k with
    | 0 | 1 | 2 | 3 | 4 | 5 =>
      a.word.valid = true → ∀ b, MulHash.Stage k (s.mul b) (F.padded (F.lastBytes a.prev.data) a.word.data b)
    | 6 | 7 | 8 | 9 | 10 | 11 =>
      a.word.valid = true → ∀ i j,
        AccHash.Stage (F.masked i) (F.nbits i) (k - 6) (s.acc i j) (F.products a.prev.data a.word.data j)
    | 12 | 13 | 14 => ∀ i j, HashPort.Stage (F.bitmap i) (k - 12) (s.port i j) (a.index F i j w) (a.indexValid F i j)
    | _ => True

variable {F} {s : HashRegs B P w} {a : BusSlot B e}

theorem stage_zero {din : Vec Byte B} {v : Bool} (hv : v = a.word.valid) (hp : s.dinValidReg = a.prev.valid)
    (hd : a.word.valid = true → din = a.word.data ∧ s.dinReg = F.lastBytes a.prev.data) :
    Stage F 0 (s.step F din v) a := by
  refine ⟨fun _ i j => ?_, fun h b => ?_⟩
  · simp only [step, lanes_get]
    rw [shiftIn_zero, hv, hp]
    rfl
  · obtain ⟨rfl, hr⟩ := hd h
    simp only [step, vec_get, hr]
    rfl

theorem stage_succ (din : Vec Byte B) (v : Bool) (k : Nat) (h : Stage F k s a) : Stage F (k + 1) (s.step F din v) a := by
  obtain ⟨hv, h⟩ := h
  refine ⟨fun hk i j => ?_, ?_⟩
  · simp only [step, lanes_get]
    exact (shiftIn_succ _ _ k hk).trans (hv (by omega) i j)
  match k with
  | 0 | 1 | 2 | 3 | 4 =>
    intro ha b
    simp only [step, vec_get]
    exact MulHash.stage_succ _ _ (h ha b)
  | 5 =>
    intro ha i j
    simp only [step, lanes_get]
    -- the products reach `acc_hash`
    have hab : ∀ b, (s.mul b).ab = MulHash.mul (F.padded (F.lastBytes a.prev.data) a.word.data b) := h ha
    exact AccHash.stage_zero (funext fun b => hab (F.windowAt j b))
  | 6 | 7 | 8 | 9 | 10 =>
    intro ha i j
    simp only [step, lanes_get]
    exact AccHash.stage_succ _ _ (h ha i j)
  | 11 =>
    intro i j
    have hv : s.addrValid i j 11 = a.indexValid F i j := hv (by omega) i j
    simp only [step, lanes_get, hv]
    refine ⟨rfl, fun hl => ?_⟩
    have hp : (s.acc i j).p = a.index F i j w := h (F.laneValid_le hl) i j
    exact ⟨hp, congrArg HashPort.bmBit hp, congrArg (fun p => F.bitmap i (HashPort.bmAddr p)) hp⟩
  | 12 | 13 =>
    intro i j
    simp only [step, lanes_get]
    exact HashPort.stage_succ _ _ _ (h i j)
  | k + 14 => trivial

theorem stage_quiet (hw : a.word.valid = false) (ha : ∀ i j k, s.addrValid i j k = false)
    (hp : ∀ i j, (s.port i j).outValidReg1 = false ∧ (s.port i j).qValid = false ∧ (s.port i j).doutValid = false) (k : Nat) :
    Stage F k s a := by
  have hx (i : Fin 8) (j : Fin B) : a.indexValid F i j = false :=
    Bool.eq_false_iff.2 fun h => absurd (F.laneValid_le h) (Bool.eq_false_iff.1 hw)
  refine ⟨fun h i j => (ha i j _).trans (hx i j).symm, ?_⟩
  split <;> simp [HashPort.Stage, hw, hx, hp]

end HashRegs

/-! ## `frontend` -/

namespace Frontend

variable (T : FpTables)

def FilterStage (k : Nat) (s : Frontend) (a : FpSlot) : Prop :=
  FilterRegs.Delayed (FirstFilter.design T) k s.filter s.filterOutR a

def HashStage (k : Nat) (s : Frontend) (a : FpSlot) : Prop :=
  match k with
  | 0 => s.hashInValid = a.word.valid ∧ s.hash.dinValidReg = a.prev.valid ∧
      (a.word.valid = true → s.hashIn = a.word.data ∧ s.hash.dinReg = HashTop.lastBytes a.prev.data)
  | k + 1 => HashRegs.Stage (HashTop.design T) k s.hash a

def MarkStage (k : Nat) (s : Frontend) (a : FpSlot) : Prop :=
  (∀ h : k < 16, s.newPktR ⟨k, h⟩ = a.prev.ends) ∧ (k = 16 → s.outNewPkt = a.prev.ends)

variable {T} {s : Frontend} {a : FpSlot} {w : FpWord}

theorem filterStage_succ (k : Nat) (hw : k = 0 → w = a.next) (hst : k = 2 → s.filter.state = a.st)
    (h : FilterStage T k s a) : FilterStage T (k + 1) (s.step T w) a := FilterRegs.delayed_succ k hw hst h

theorem hashStage_succ (k : Nat) (h : HashStage T k s a) : HashStage T (k + 1) (s.step T w) a := by
  match k with
  | 0 =>
    obtain ⟨hv, hp, hd⟩ := h
    exact HashRegs.stage_zero hv hp hd
  | k + 1 => exact HashRegs.stage_succ _ _ _ h

theorem markStage_succ (k : Nat) (h : MarkStage k s a) : MarkStage (k + 1) (s.step T w) a := by
  refine ⟨fun hk => ?_, fun hk => ?_⟩
  · simp only [step]
    exact (shiftIn_succ _ _ k hk).trans (h.1 (by omega))
  · obtain rfl : k = 15 := by omega
    exact h.1 (by omega)

theorem hashOutValidFilter_eq (hf : FilterStage T 15 s a) (hh : HashStage T 15 s a) (i : Fin 8) (j : Fin 32) :
    s.hashOutValidFilter i j = a.hit T i j := by
  have hv : (s.hash.port i j).doutValid = (a.laneValid i j && T.bitmapBit i (a.hash i j)) := (hh.2 i j).1
  unfold hashOutValidFilter FpSlot.hit
  rw [hv]
  cases hl : a.laneValid i j with
  | false => rfl
  | true =>
    have hr : s.filterOutR 12 = a.filterOut T := hf (by decide) (HashTop.le_of_valid hl)
    rw [hr]

theorem hashOut_eq (hh : HashStage T 15 s a) {i : Fin 8} {j : Fin 32} (h : a.hit T i j = true) :
    s.hashOut i j = a.hash i j := by
  apply (hh.2 i j).2
  unfold FpSlot.hit at h
  simp only [Bool.and_eq_true] at h
  exact h.1.1

end Frontend

/-! ## `string_matcher` -/

theorem PktAlmostFull.step_hp_zero (s : PktAlmostFull) (full : Bool) (w : FpWord) : (s.step full w).hp 0 = s.temp :=
  shiftIn_zero _ _ (by decide)

theorem PktAlmostFull.step_hp_one (s : PktAlmostFull) (full : Bool) (w : FpWord) : (s.step full w).hp 1 = s.hp 0 :=
  shiftIn_succ _ _ 0 (by decide)

def LaneRegs.Stage : Nat → LaneRegs → Option RuleS → Prop
  | 0, r, e => (if r.dinValid then some r.din else none) = e
  | 1, r, e => (if r.dinValidR1 then some r.dinR1 else none) = e
  | 2, r, e => (if r.dinValidR2 then some r.dinR2 else none) = e
  | _, _, _ => True

namespace Matcher

variable (T : FpTables)

def Stage (k : Nat) (s : Matcher) (a : FpSlot) : Prop :=
  match k with
  | 0 => s.paf.temp = a.next ∧ s.paf.hp 0 = a.word ∧ s.paf.hp 1 = a.prev
  | 1 => s.paf.hp 0 = a.next ∧ s.paf.hp 1 = a.word ∧ s.front.hashInValid = a.prev.valid ∧
      s.front.hashIn = a.prev.data ∧ Frontend.MarkStage 0 s.front a
  | k + 2 => (k = 0 → s.paf.hp 1 = a.next) ∧
      (k ≤ 15 → Frontend.FilterStage T k s.front a ∧ Frontend.HashStage T k s.front a ∧
        Frontend.MarkStage (k + 1) s.front a) ∧
      (16 ≤ k → ∀ i j, LaneRegs.Stage (k - 16) (s.lane i j) (a.entry T i j))

variable {T} {s : Matcher} {a : FpSlot}

theorem stage_zero (full : Bool) (w : FpWord) (h : Stage T 0 s a) :
    Stage T 0 (s.step T full w) (a.push T (s.paf.step full w).temp) := by
  obtain ⟨ht, h0, -⟩ := h
  exact ⟨rfl, (PktAlmostFull.step_hp_zero _ _ _).trans ht, (PktAlmostFull.step_hp_one _ _ _).trans h0⟩

theorem laneStep_eq (hf : Frontend.FilterStage T 15 s.front a) (hh : Frontend.HashStage T 15 s.front a)
    (hm : Frontend.MarkStage 16 s.front a) (i : Fin 8) (j : Fin 32) :
    LaneRegs.Stage 0 (s.laneStep i j) (a.entry T i j) := by
  have hv := Frontend.hashOutValidFilter_eq hf hh i j
  have hn := hm.2 rfl
  simp only [LaneRegs.Stage, laneStep, FpSlot.entry, hv, hn]
  cases hx : a.hit T i j with
  | false => rfl
  | true => simp [Frontend.hashOut_eq hh hx]

theorem stage_succ (full : Bool) (w : FpWord) (k : Nat) (hst : k = 4 → s.front.filter.state = a.st)
    (h : Stage T k s a) : Stage T (k + 1) (s.step T full w) a := by
  match k with
  | 0 =>
    obtain ⟨ht, h0, h1⟩ := h
    refine ⟨(PktAlmostFull.step_hp_zero _ _ _).trans ht, (PktAlmostFull.step_hp_one _ _ _).trans h0,
      congrArg BusWord.valid h1, congrArg BusWord.data h1, fun _ => ?_, fun h => by omega⟩
    exact (shiftIn_zero _ _ _).trans (congrArg BusWord.ends h1)
  | 1 =>
    obtain ⟨h0, h1, hv, hd, hm⟩ := h
    refine ⟨fun _ => (PktAlmostFull.step_hp_one _ _ _).trans h0, fun _ => ⟨?_, ?_, Frontend.markStage_succ 0 hm⟩,
      fun h => by cases h⟩
    · simp only [step, h1]
      exact FilterRegs.stage_zero
    · exact ⟨congrArg BusWord.valid h1, hv, fun _ => ⟨congrArg BusWord.data h1, congrArg HashTop.lastBytes hd⟩⟩
  | k + 2 =>
    obtain ⟨hw, hf, hl⟩ := h
    refine ⟨fun h => by omega, fun hk => ?_, fun hk i j => ?_⟩
    · obtain ⟨h1, h2, h3⟩ := hf (by omega)
      refine ⟨Frontend.filterStage_succ k hw ?_ h1, Frontend.hashStage_succ k h2, Frontend.markStage_succ _ h3⟩
      intro hk
      exact hst (by omega)
    · simp only [step, lanes_get]
      by_cases h15 : k = 15
      · subst h15
        obtain ⟨h1, h2, h3⟩ := hf (by omega)
        exact laneStep_eq h1 h2 h3 i j
      · have hs := hl (by omega) i j
        obtain ⟨n, rfl⟩ : ∃ n, k = n + 16 := ⟨k - 16, by omega⟩
        rw [show n + 1 + 16 - 16 = n + 1 by omega]
        rw [show n + 16 - 16 = n by omega] at hs
        match n with
        | 0 | 1 => exact hs
        | n + 2 => trivial

/-! ## The history of the bus -/

/-- The slots of `hist`, the last one first, account for the registers. -/
structure Tracks (T : FpTables) (s : Matcher) (hist : List FpSlot) : Prop where
  pipe : Delayed (Stage T) hist s
  state : ∀ a, hist[4]? = some a → s.front.filter.state = a.st
  chain : hist.IsChain fun a b => a.st = b.after T
  long : 20 < hist.length

variable {hist : List FpSlot}

theorem Tracks.head (h : Tracks T s (a :: hist)) : Stage T 0 s a := h.pipe 0 a rfl

theorem Tracks.written_eq (h : Tracks T s hist) (ha : hist[20]? = some a) (i : Fin 8) (j : Fin 32) :
    s.written i j = a.entry T i j := (h.pipe 20 a ha).2.2 (by decide) i j

theorem Tracks.step (full : Bool) (w : FpWord) (h : Tracks T s (a :: hist)) :
    Tracks T (s.step T full w) (a.push T (s.paf.step full w).temp :: a :: hist) where
  pipe := by
    intro k b hk
    cases k with
    | zero => cases hk; exact stage_zero full w h.head
    | succ k =>
      refine stage_succ full w k ?_ (h.pipe k b hk)
      intro hk4
      subst hk4
      exact h.state b hk
  state := by
    intro b hb
    have hlen := h.long
    obtain ⟨c, hc⟩ : ∃ c, (a :: hist)[4]? = some c := ⟨_, List.getElem?_eq_getElem (by omega)⟩
    have hs := (h.pipe 4 c hc).2.1 (by decide)
    have hcs := FilterRegs.state_step (s.paf.hp 1) hs.1 (h.state c hc)
    refine hcs.trans ?_
    -- slots 3 and 4 are next to each other
    have hb3 : (a :: hist)[3]? = some b := hb
    obtain ⟨h3, rfl⟩ := List.getElem?_eq_some_iff.1 hb3
    obtain ⟨h4, rfl⟩ := List.getElem?_eq_some_iff.1 hc
    exact (List.isChain_iff_getElem.1 h.chain 3 h4).symm
  chain := List.isChain_cons_cons.2 ⟨rfl, h.chain⟩
  long := Nat.lt_succ_of_lt h.long

/-! ## After reset -/

variable (p : Matcher)

theorem stage_reset (hw : a.word.valid = false) (hp : a.prev.valid = false) (k : Nat)
    (hn : k = 0 → p.reset.paf.hp 1 = a.next) : Stage T (k + 2) p.reset a := by
  have hm : a.prev.ends = false := by simp [BusWord.ends, hp]
  have hl (i : Fin 8) (j : Fin 32) : a.laneValid i j = false := by simp [FpSlot.laneValid, HashTop.laneValid, hw]
  have hh (i : Fin 8) (j : Fin 32) : a.hit T i j = false := by simp [FpSlot.hit, hl]
  refine ⟨hn, fun hk => ⟨?_, ?_, fun h => ?_, fun h => ?_⟩, fun hk i j => ?_⟩
  · exact FilterRegs.delayed_quiet hw rfl rfl rfl rfl rfl rfl rfl k
  · cases k with
    | zero => simp [Frontend.HashStage, reset, hw, hp]
    | succ k => exact HashRegs.stage_quiet hw (by simp [reset]) (by simp [reset]) k
  · simp [reset, hm]
  · simp [reset, hm]
  · have hn : a.entry T i j = none := by simp [FpSlot.entry, hm, hh]
    rw [hn]
    unfold LaneRegs.Stage
    split <;> simp [reset]

def seeds : List FpSlot :=
  let none : FpWord := ⟨false, false, 0, p.front.hashIn⟩
  ⟨p.reset.paf.hp 1, p.reset.paf.hp 0, p.reset.paf.temp, FirstFilter.initState⟩ ::
    ⟨none, p.reset.paf.hp 1, p.reset.paf.hp 0, FirstFilter.initState⟩ ::
    ⟨none, none, p.reset.paf.hp 1, FirstFilter.initState⟩ ::
    List.replicate 18 ⟨none, none, none, FirstFilter.initState⟩

theorem reset_hp (k : Fin 2) : (p.reset.paf.hp k).valid = false := by simp [reset]

theorem seeds_quiet (h : a ∈ p.seeds) :
    a.prev.valid = false ∧ a.word.valid = false ∧ a.next.valid = false ∧ a.st = FirstFilter.initState := by
  simp only [seeds, List.mem_cons, List.mem_replicate] at h
  have ht : p.reset.paf.temp.valid = false := rfl
  rcases h with rfl | rfl | rfl | ⟨-, rfl⟩ <;> simp only [reset_hp, ht, and_self]

theorem Tracks.reset : Tracks T p.reset p.seeds where
  pipe := by
    intro k b hk
    have hq := p.seeds_quiet (List.mem_of_getElem? hk)
    match k with
    | 0 => cases hk; exact ⟨rfl, rfl, rfl⟩
    | 1 =>
      cases hk
      exact ⟨rfl, rfl, rfl, rfl, fun _ => vec_get _ _, fun h => by cases h⟩
    | 2 => cases hk; exact stage_reset p hq.2.1 hq.1 0 fun _ => rfl
    | k + 3 => exact stage_reset p hq.2.1 hq.1 (k + 1) fun h => by cases h
  state := by
    intro b hb
    exact (p.seeds_quiet (List.mem_of_getElem? hb)).2.2.2.symm
  chain := by
    refine List.isChain_iff_getElem.2 fun k hk => ?_
    have h0 := p.seeds_quiet (List.getElem_mem (by omega : k < p.seeds.length))
    have h1 := p.seeds_quiet (List.getElem_mem hk)
    exact h0.2.2.2.trans ((BusSlot.after_of_not_valid h1.2.1).trans h1.2.2.2).symm
  long := by simp [seeds]

end Matcher

end Pigasus
