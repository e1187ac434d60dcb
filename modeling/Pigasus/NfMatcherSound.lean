import Pigasus.NfMatcher
import Pigasus.MatcherPipe

/-!
# One fingerprint for each packet

What the tables report for a word depends on the word, its neighbours and the state
of the filter. The matches and the end of a word meet in the accumulator, so that each
packet gets the matches of its own beats.
-/

namespace Pigasus

open Hdl

/-! ## What is reported for a word -/

abbrev NfSlot := BusSlot 16 4

def nfPadded (prev d : Vec Byte 16) (b : Fin 23) : Byte := NfHash.padded (NfHash.lastBytes prev) d b

namespace NfSlot

variable (T : NfTables) (a : NfSlot) (i : Fin 8) (j : Fin 16)

abbrev filterOut : BitVec 128 := BusSlot.filterOut (NfFilter.design T) a

abbrev after : BitVec 64 := BusSlot.after (NfFilter.design T) a

/-- The index of the window of bucket `i` that ends at byte `j`. -/
def hash : BitVec 17 :=
  AccHash.select 17 (nfBits i) (AccHash.sumOf i.val fun b => MulHash.mul (nfPadded a.prev.data a.word.data (NfHash.windowAt j b)))

def laneValid : Bool := NfHash.laneValid i j a.word.valid a.prev.valid

def found : Option (BitVec 17) :=
  if a.laneValid i j && HashPort.bit (T.bitmap i (HashPort.bmAddr (a.hash i j))) (HashPort.bmBit (a.hash i j)) &&
      !NfSm.filtered i j (a.filterOut T) then some (a.hash i j) else none

def hits : List (BitVec 17) := (List.finRange 16).filterMap (a.found T i)

variable {T a i j}

theorem laneValid_le (h : a.laneValid i j = true) : a.word.valid = true := NfHash.le_of_valid h

theorem found_of_not_valid (h : a.word.valid = false) : a.found T i j = none := by
  have : a.laneValid i j = false := by
    by_contra hc
    rw [laneValid_le (by simpa using hc)] at h
    cases h
  simp [found, this]

end NfSlot

def nfSlots (T : NfTables) (prev : NfWord) (st : BitVec 64) : List NfWord → List NfSlot
  | [] => []
  | w :: ws =>
    let a : NfSlot := ⟨prev, w, ws.headD .idle, st⟩
    a :: nfSlots T w (a.after T) ws

/-! ## The tree of `cal_fp` -/

theorem orOpt_getD (a b : Option (BitVec 16)) : (orOpt a b).getD 0 = a.getD 0 ||| b.getD 0 := by
  cases a <;> cases b <;> simp [orOpt]

def orBits (l : List (BitVec 17)) : BitVec 16 := l.foldr (fun x r => CalFp.bitOf x ||| r) 0

theorem orBits_append (l l' : List (BitVec 17)) : orBits (l ++ l') = orBits l ||| orBits l' := by
  induction l with
  | nil => simp [orBits]
  | cons x l ih =>
    show CalFp.bitOf x ||| orBits (l ++ l') = CalFp.bitOf x ||| orBits l ||| orBits l'
    rw [ih, BitVec.or_assoc]

def orFirst (v : Fin 16 → Option (BitVec 17)) (l : List (Fin 16)) : BitVec 16 :=
  l.foldr (fun j r => ((v j).map CalFp.bitOf).getD 0 ||| r) 0

theorem orFirst_eq (v : Fin 16 → Option (BitVec 17)) (l : List (Fin 16)) : orFirst v l = orBits (l.filterMap v) := by
  induction l with
  | nil => rfl
  | cons j l ih =>
    show ((v j).map CalFp.bitOf).getD 0 ||| orFirst v l = _
    rw [ih, List.filterMap_cons]
    cases v j with
    | none => simp
    | some x => rfl

def treeOf (v : Fin 16 → Option (BitVec 17)) : Vec (Option (BitVec 16)) 16 := vec fun j => (v j).map CalFp.bitOf

theorem foldr_finRange (g : Fin 16 → BitVec 16) : (List.finRange 16).foldr (fun j r => g j ||| r) 0 =
    (((g 0 ||| g 1) ||| (g 2 ||| g 3)) ||| ((g 4 ||| g 5) ||| (g 6 ||| g 7))) |||
      (((g 8 ||| g 9) ||| (g 10 ||| g 11)) ||| ((g 12 ||| g 13) ||| (g 14 ||| g 15))) := by
  have h : List.finRange 16 = [0, 1, 2, 3, 4, 5, 6, 7, 8, 9, 10, 11, 12, 13, 14, 15] := by decide
  rw [h]
  have h0 : g 15 ||| (0 : BitVec 16) = g 15 := BitVec.or_zero
  simp only [List.foldr_cons, List.foldr_nil, h0, BitVec.or_assoc]

theorem tree_getD (v : Fin 16 → Option (BitVec 17)) :
    ((orLayer (n := 1) (orLayer (n := 2) (orLayer (n := 4) (orLayer (n := 8) (treeOf v))))) 0).getD 0 = orBits ((List.finRange 16).filterMap v) := by
  have hg : ∀ j, (treeOf v j).getD 0 = ((v j).map CalFp.bitOf).getD 0 := fun j => by rw [treeOf, vec_get]
  rw [← orFirst_eq, orFirst, foldr_finRange]
  simp only [← hg]
  generalize treeOf v = u
  simp only [orLayer, vec_get, orOpt_getD]
  rfl

namespace CalFp

/-- The layers and the end marker when the indices came in `k + 1` cycles ago. -/
def Stage : Nat → CalFp → (Fin 8 → Fin 16 → Option (BitVec 17)) → Prop
  | 0, s, v => ∀ i, s.l0 i = treeOf (v i)
  | 1, s, v => ∀ i, s.l1 i = orLayer (n := 8) (treeOf (v i))
  | 2, s, v => ∀ i, s.l2 i = orLayer (n := 4) (orLayer (n := 8) (treeOf (v i)))
  | 3, s, v => ∀ i, s.l3 i = orLayer (n := 2) (orLayer (n := 4) (orLayer (n := 8) (treeOf (v i))))
  | 4, s, v => ∀ i, s.l4 i = orLayer (n := 1) (orLayer (n := 2) (orLayer (n := 4) (orLayer (n := 8) (treeOf (v i)))))
  | _, _, _ => True

theorem stage_zero {s : CalFp} {v : Fin 8 → Fin 16 → Option (BitVec 17)} (din : NfLanes (Option (BitVec 17))) (last : Bool)
    (h : ∀ i j, din i j = v i j) : Stage 0 (s.step din last) v := by
  intro i
  simp only [step, vec_get, treeOf, h]

theorem stage_succ {s : CalFp} {v : Fin 8 → Fin 16 → Option (BitVec 17)} (din : NfLanes (Option (BitVec 17))) (last : Bool) (k : Nat)
    (h : Stage k s v) : Stage (k + 1) (s.step din last) v := by
  match k with
  | 0 | 1 | 2 | 3 =>
    intro i
    simp only [step, vec_get, h i]
  | k + 4 => trivial

end CalFp

/-! ## The whole pipeline -/

namespace NfSm

variable (T : NfTables)

def FilterStage (k : Nat) (s : NfSm) (a : NfSlot) : Prop :=
  FilterRegs.Delayed (NfFilter.design T) k s.filter s.filterOutR a

/-- The hash, behind a register of its own; then the indices and the tree. -/
def HashStage (k : Nat) (s : NfSm) (a : NfSlot) : Prop :=
  match k with
  | 0 => s.hashInValid = a.word.valid ∧ s.hash.dinValidReg = a.prev.valid ∧
      (a.word.valid = true → s.hashIn = a.word.data ∧ s.hash.dinReg = NfHash.lastBytes a.prev.data)
  | k + 1 => if k < 15 then HashRegs.Stage (NfHash.design T) k s.hash a
    else if k = 15 then ∀ i j, s.index i j = a.found T i j
    else CalFp.Stage (k - 16) s.cal (a.found T)

/-- The end of the packet, up to the pipe of `cal_fp`. -/
def MarkStage (k : Nat) (s : NfSm) (a : NfSlot) : Prop :=
  (∀ h : k < 16, s.newPktR ⟨k, h⟩ = a.word.ends) ∧ (k = 16 → s.outNewPkt = a.word.ends) ∧ (k = 17 → s.last = a.word.ends) ∧
    ∀ j : Fin 5, k = 18 + j.val → s.cal.lastR j = a.word.ends

end NfSm

namespace NfSm

variable {T : NfTables} {s : NfSm} {a : NfSlot} {w : NfWord}

theorem filterStage_succ (k : Nat) (hw : k = 0 → w = a.next) (hst : k = 2 → s.filter.state = a.st) (h : FilterStage T k s a) :
    FilterStage T (k + 1) (s.step T w) a := FilterRegs.delayed_succ k hw hst h

theorem index_eq (hf : FilterStage T 15 s a) (hh : HashStage T 15 s a) (i : Fin 8) (j : Fin 16) :
    (s.step T w).index i j = a.found T i j := by
  have hh : HashRegs.Stage (NfHash.design T) 14 s.hash a := by simpa [HashStage] using hh
  have hv : (s.hash.port i j).doutValid = (a.laneValid i j &&
      HashPort.bit (T.bitmap i (HashPort.bmAddr (a.hash i j))) (HashPort.bmBit (a.hash i j))) := (hh.2 i j).1
  have hd : a.laneValid i j = true → (s.hash.port i j).dout = a.hash i j := (hh.2 i j).2
  have hx : (s.step T w).index i j = if s.hashOutValidFilter i j then some (s.hash.port i j).dout else none := by
    simp only [step, lanes_get]
  have hif : s.hashOutValidFilter i j =
      (a.laneValid i j && HashPort.bit (T.bitmap i (HashPort.bmAddr (a.hash i j))) (HashPort.bmBit (a.hash i j)) &&
        !filtered i j (s.filterOutR 12)) := by
    rw [hashOutValidFilter, hv]
  rw [hx]
  simp only [hif, NfSlot.found]
  cases hl : a.laneValid i j with
  | false => rfl
  | true =>
    have hr : s.filterOutR 12 = a.filterOut T := hf (by decide) (NfSlot.laneValid_le hl)
    rw [hr, hd hl]

theorem hashStage_succ (k : Nat) (hf : k = 15 → FilterStage T 15 s a) (h : HashStage T k s a) : HashStage T (k + 1) (s.step T w) a := by
  match k with
  | 0 =>
    obtain ⟨hv, hp, hd⟩ := h
    exact HashRegs.stage_zero hv hp hd
  | k + 1 =>
    by_cases hk : k + 1 < 15
    · have h : HashRegs.Stage (NfHash.design T) k s.hash a := by simpa [HashStage, show k < 15 by omega] using h
      have : HashRegs.Stage (NfHash.design T) (k + 1) (s.step T w).hash a := HashRegs.stage_succ s.hashIn s.hashInValid k h
      simpa [HashStage, hk] using this
    · by_cases h15 : k = 14
      · subst h15
        have := index_eq (w := w) (hf rfl) h
        simpa [HashStage] using this
      · by_cases h16 : k = 15
        · subst h16
          have h : ∀ i j, s.index i j = a.found T i j := by simpa [HashStage] using h
          have : CalFp.Stage 0 (s.step T w).cal (a.found T) := CalFp.stage_zero s.index s.last h
          simpa [HashStage] using this
        · have h : CalFp.Stage (k - 16) s.cal (a.found T) := by
            simpa [HashStage, show ¬ k < 15 by omega, h16] using h
          have : CalFp.Stage (k - 16 + 1) (s.step T w).cal (a.found T) := CalFp.stage_succ s.index s.last _ h
          rw [show k - 16 + 1 = k + 1 - 16 by omega] at this
          simpa [HashStage, hk, show ¬ k + 1 = 15 by omega] using this

theorem markStage_succ (k : Nat) (h : MarkStage k s a) : MarkStage (k + 1) (s.step T w) a := by
  obtain ⟨h1, h2, h3, h4⟩ := h
  refine ⟨fun hk => ?_, fun hk => ?_, fun hk => h2 (by omega), fun j hj => ?_⟩
  · simp only [step]
    exact (shiftIn_succ _ _ k hk).trans (h1 (by omega))
  · obtain rfl : k = 15 := by omega
    exact h1 (by omega)
  · simp only [step, CalFp.step]
    obtain ⟨j, hlt⟩ := j
    cases j with
    | zero =>
      rw [shiftIn_zero]
      exact h3 (by simp only at hj; omega)
    | succ j =>
      rw [shiftIn_succ]
      exact h4 ⟨j, by omega⟩ (by simp only at hj ⊢; omega)

def Stage (T : NfTables) (k : Nat) (s : NfSm) (a : NfSlot) : Prop := FilterStage T k s a ∧ HashStage T k s a ∧ MarkStage k s a

theorem stage_zero (hv : s.hashInValid = a.prev.valid) (hd : s.hashIn = a.prev.data) : Stage T 0 (s.step T a.word) a := by
  refine ⟨FilterRegs.stage_zero, ⟨rfl, hv, fun _ => ⟨rfl, congrArg NfHash.lastBytes hd⟩⟩, fun h => ?_, by omega, by omega, by omega⟩
  simp only [step]
  exact shiftIn_zero _ _ _

theorem stage_succ (k : Nat) (hw : k = 0 → w = a.next) (hst : k = 2 → s.filter.state = a.st) (h : Stage T k s a) :
    Stage T (k + 1) (s.step T w) a :=
  ⟨filterStage_succ k hw hst h.1, hashStage_succ k (fun hk => hk ▸ h.1) h.2.1, markStage_succ k h.2.2⟩

end NfSm

/-! ## The accumulator -/

/-- What is gathered of an unfinished packet, and the fingerprints of the packets before it. -/
structure Tally where
  carry : Fin 8 → BitVec 16
  out : List Fingerprint

namespace NfSlot

variable (T : NfTables)

def field (a : NfSlot) (i : Fin 8) : BitVec 16 := orBits (a.hits T i)

def count (a : NfSlot) (t : Tally) : Tally :=
  if a.word.ends then ⟨fun _ => 0, t.out ++ [vec fun i => t.carry i ||| a.field T i]⟩ else ⟨fun i => t.carry i ||| a.field T i, t.out⟩

end NfSlot

def tally (T : NfTables) (hist : List NfSlot) : Tally := hist.foldr (NfSlot.count T) ⟨fun _ => 0, []⟩

namespace NfRun

variable {T : NfTables} {s : NfRun} {hist : List NfSlot}

/-- The history accounts for the registers; its last word awaits the word `n`. -/
structure Tracks (T : NfTables) (s : NfRun) (hist : List NfSlot) (st : BitVec 64) (prev n : NfWord) : Prop where
  pipe : Delayed (NfSm.Stage T) hist s.sm
  last : ∃ a, hist[0]? = some a ∧ a.next = n ∧ a.word = prev ∧ a.after T = st
  inReg : s.sm.hashInValid = prev.valid ∧ s.sm.hashIn = prev.data
  state : ∀ a, hist[2]? = some a → s.sm.filter.state = a.st
  chain : hist.IsChain fun a b => a.st = b.after T
  long : 30 ≤ hist.length
  sub : ∀ a, hist[22]? = some a → ∀ i, s.sm.cal.subFp i = (tally T (hist.drop 23)).carry i ||| a.field T i
  fp : ∀ a, hist[23]? = some a → s.sm.cal.fpValid = a.word.ends ∧
    ∀ i, s.sm.cal.fpData i = (tally T (hist.drop 24)).carry i ||| a.field T i
  out : s.out = (tally T (hist.drop 24)).out

theorem tally_drop {k : Nat} {a : NfSlot} (h : hist[k]? = some a) : tally T (hist.drop k) = a.count T (tally T (hist.drop (k + 1))) := by
  obtain ⟨hk, rfl⟩ := List.getElem?_eq_some_iff.1 h
  rw [List.drop_eq_getElem_cons hk]
  rfl

theorem Tracks.step {st : BitVec 64} {prev w : NfWord} (n : NfWord) (h : Tracks T s hist st prev w) :
    Tracks T (s.step T w) (⟨prev, w, n, st⟩ :: hist) (NfSlot.after T ⟨prev, w, n, st⟩) w n := by
  obtain ⟨a0, h0, hn, hp, hs⟩ := h.last
  have hlen := h.long
  have hget : ∀ k < 30, ∃ a, hist[k]? = some a := fun k hk => ⟨_, List.getElem?_eq_getElem (by omega)⟩
  refine ⟨?_, ⟨_, rfl, rfl, rfl, rfl⟩, ⟨rfl, rfl⟩, ?_, ?_, by simp only [List.length_cons]; omega, ?_, ?_, ?_⟩
  · intro k a hk
    cases k with
    | zero =>
      cases hk
      exact @NfSm.stage_zero T s.sm ⟨prev, w, n, st⟩ h.inReg.1 h.inReg.2
    | succ k =>
      have hk : hist[k]? = some a := hk
      refine NfSm.stage_succ k (fun hk0 => ?_) (fun hk2 => ?_) (h.pipe k a hk)
      · subst hk0
        rw [h0] at hk
        cases hk
        exact hn.symm
      · subst hk2
        exact h.state a hk
  · intro a ha
    have ha : hist[1]? = some a := ha
    obtain ⟨b, hb⟩ := hget 2 (by omega)
    have hstep := FilterRegs.state_step w (h.pipe 2 b hb).1 (h.state b hb)
    have hc : a.st = b.after T := by
      obtain ⟨h1, rfl⟩ := List.getElem?_eq_some_iff.1 ha
      obtain ⟨h2, rfl⟩ := List.getElem?_eq_some_iff.1 hb
      exact List.isChain_iff_getElem.1 h.chain 1 (by omega)
    rw [hc]
    exact hstep
  · cases hist with
    | nil => cases h0
    | cons b l =>
      cases h0
      exact List.isChain_cons_cons.2 ⟨hs.symm, h.chain⟩
  · intro a ha i
    have ha : hist[21]? = some a := ha
    obtain ⟨b, hb⟩ := hget 22 (by omega)
    have hmark : s.sm.cal.lastR 4 = b.word.ends := (h.pipe 22 b hb).2.2.2.2.2 4 rfl
    have hl4 : CalFp.Stage 4 s.sm.cal (a.found T) := (h.pipe 21 a ha).2.1
    have hfield : (s.sm.cal.l4 i 0).getD 0 = a.field T i := by
      rw [hl4 i]
      exact tree_getD _
    have hsub := h.sub b hb i
    show (s.sm.cal.step s.sm.index s.sm.last).subFp i = (tally T (hist.drop 22)).carry i ||| a.field T i
    rw [tally_drop hb, NfSlot.count]
    simp only [CalFp.step, vec_get, hmark, CalFp.restart, hfield]
    cases b.word.ends with
    | true => simp
    | false =>
      rw [← hfield]
      cases s.sm.cal.l4 i 0 with
      | none => simp [hsub]
      | some x => simp [hsub]
  · intro a ha
    have ha : hist[22]? = some a := ha
    exact ⟨(h.pipe 22 a ha).2.2.2.2.2 4 rfl, h.sub a ha⟩
  · obtain ⟨b, hb⟩ := hget 23 (by omega)
    obtain ⟨hv, hd⟩ := h.fp b hb
    show s.out ++ (if s.sm.cal.fpValid then [s.sm.cal.fpData] else []) = (tally T (hist.drop 23)).out
    rw [tally_drop hb, NfSlot.count, hv, h.out]
    cases b.word.ends with
    | true =>
      have : s.sm.cal.fpData = vec fun i => (tally T (hist.drop 24)).carry i ||| b.field T i := vec_ext fun i => by rw [hd, vec_get]
      simp [this]
    | false => simp

end NfRun

/-! ## Whole runs -/

section
variable {T : NfTables}

theorem NfRun.Tracks.run {st : BitVec 64} {prev : NfWord} (ws : List NfWord) {s : NfRun} {hist : List NfSlot}
    (h : NfRun.Tracks T s hist st prev (ws.headD .idle)) :
    ∃ st' prev', NfRun.Tracks T (Hdl.run (NfRun.step T) s ws) ((nfSlots T prev st ws).reverse ++ hist) st' prev' .idle := by
  induction ws generalizing s hist st prev with
  | nil => exact ⟨st, prev, h⟩
  | cons w ws ih =>
    obtain ⟨st', prev', h'⟩ := ih (h.step (ws.headD .idle))
    refine ⟨st', prev', ?_⟩
    simp only [nfSlots, List.reverse_cons, List.append_assoc, List.singleton_append]
    exact h'

theorem NfSlot.field_of_not_valid {a : NfSlot} (h : a.word.valid = false) (i : Fin 8) : a.field T i = 0 := by
  have : a.hits T i = [] := by
    rw [NfSlot.hits, List.filterMap_eq_nil_iff]
    intro j _
    exact NfSlot.found_of_not_valid h
  rw [NfSlot.field, this]
  rfl

/-- Nothing on the bus, and `n` next. -/
def NfSlot.quiet (n : NfWord) : NfSlot := ⟨NfWord.idle, NfWord.idle, n, NfFilter.initState⟩

theorem NfSlot.count_of_not_valid {a : NfSlot} (h : a.word.valid = false) (t : Tally) : a.count T t = t := by
  have he : a.word.ends = false := by simp [BusWord.ends, h]
  simp [NfSlot.count, he, NfSlot.field_of_not_valid h]

theorem tally_quiet {l : List NfSlot} (h : ∀ a ∈ l, a.word.valid = false) : tally T l = ⟨fun _ => 0, []⟩ := by
  induction l with
  | nil => rfl
  | cons a l ih =>
    show a.count T (tally T l) = _
    rw [NfSlot.count_of_not_valid (h a (by simp)), ih fun b hb => h b (by simp [hb])]

theorem tally_append (a b : List NfSlot) : tally T (a.reverse ++ b) = a.foldl (fun t x => x.count T t) (tally T b) := by
  induction a generalizing b with
  | nil => rfl
  | cons x a ih =>
    rw [List.reverse_cons, List.append_assoc, List.singleton_append, ih, List.foldl_cons]
    rfl

/-- The beats of each packet; `cur` are those of a packet that has begun. -/
def packetBeats (cur : List NfSlot) : List NfSlot → List (List NfSlot)
  | [] => []
  | a :: l =>
    if a.word.valid then
      if a.word.ends then (cur ++ [a]) :: packetBeats [] l else packetBeats (cur ++ [a]) l
    else packetBeats cur l

def fingerprint (T : NfTables) (l : List NfSlot) : Fingerprint := vec fun i => orBits (l.flatMap (NfSlot.hits T · i))

theorem foldl_count (l cur : List NfSlot) (t : Tally) (hc : ∀ i, t.carry i = orBits (cur.flatMap (NfSlot.hits T · i))) :
    (l.foldl (fun t x => x.count T t) t).out = t.out ++ (packetBeats cur l).map (fingerprint T) := by
  induction l generalizing cur t with
  | nil => simp [packetBeats]
  | cons a l ih =>
    rw [List.foldl_cons]
    cases hv : a.word.valid with
    | false =>
      rw [NfSlot.count_of_not_valid hv, ih cur t hc]
      simp [packetBeats, hv]
    | true =>
      have hcur : ∀ i, t.carry i ||| a.field T i = orBits ((cur ++ [a]).flatMap (NfSlot.hits T · i)) := by
        intro i
        rw [hc, List.flatMap_append, orBits_append]
        simp [NfSlot.field]
      cases he : a.word.ends with
      | true =>
        rw [ih [] _ (by simp [NfSlot.count, he, orBits])]
        have hf : (vec fun i => t.carry i ||| a.field T i) = fingerprint T (cur ++ [a]) := by
          rw [fingerprint]
          exact congrArg vec (funext hcur)
        simp [NfSlot.count, he, packetBeats, hv, hf]
      | false =>
        rw [ih (cur ++ [a]) _ (by simpa [NfSlot.count, he] using hcur)]
        simp [NfSlot.count, he, packetBeats, hv]

theorem packetBeats_append_idle {l l' cur : List NfSlot} (h : ∀ a ∈ l', a.word.valid = false) : packetBeats cur (l ++ l') = packetBeats cur l := by
  have hl' : ∀ cur, packetBeats cur l' = [] := by
    induction l' with
    | nil => exact fun _ => rfl
    | cons a l' ih =>
      intro cur
      simp only [packetBeats, h a (by simp), Bool.false_eq_true, if_false]
      exact ih (fun b hb => h b (by simp [hb])) cur
  induction l generalizing cur with
  | nil => exact hl' cur
  | cons a l ih => simp only [List.cons_append, packetBeats, ih]

theorem length_nfSlots (prev : NfWord) (st : BitVec 64) (ws : List NfWord) : (nfSlots T prev st ws).length = ws.length := by
  induction ws generalizing prev st with
  | nil => rfl
  | cons w ws ih => simp only [nfSlots, List.length_cons, ih]

theorem nfSlots_append (prev : NfWord) (st : BitVec 64) (us vs : List NfWord) :
    ∃ l prev' st', nfSlots T prev st (us ++ vs) = l ++ nfSlots T prev' st' vs ∧ l.length = us.length := by
  induction us generalizing prev st with
  | nil => exact ⟨[], prev, st, rfl, rfl⟩
  | cons w us ih =>
    obtain ⟨l, prev', st', h, hl⟩ := ih w (NfSlot.after T ⟨prev, w, (us ++ vs).headD .idle, st⟩)
    exact ⟨_ :: l, prev', st', congrArg _ h, congrArg (· + 1) hl⟩

theorem not_valid_of_mem_nfSlots {vs : List NfWord} (hv : ∀ v ∈ vs, v.valid = false) {prev : NfWord} {st : BitVec 64}
    {a : NfSlot} (ha : a ∈ nfSlots T prev st vs) : a.word.valid = false := by
  induction vs generalizing prev st with
  | nil => cases ha
  | cons v vs ih =>
    rcases List.mem_cons.1 ha with rfl | ha
    · exact hv v List.mem_cons_self
    · exact ih (fun w hw => hv w (List.mem_cons_of_mem _ hw)) ha

end

/-! ## From reset -/

theorem default_get {α : Type} {n : Nat} [Inhabited α] (i : Fin n) : (default : Vec α n) i = default := by simp [default]

theorem NfHash.stage_default {T : NfTables} {a : NfSlot} (hv : a.word.valid = false) (k : Nat) :
    HashRegs.Stage (design T) k (default : NfHash) a := by
  refine HashRegs.stage_quiet hv (fun i j k => ?_) (fun i j => ?_) k
  · show (default : NfLanes (Vec Bool 12)) i j k = false
    rw [default_get, default_get, default_get]
    rfl
  · have h : (default : NfHash).port i j = default := by
      show (default : NfLanes (HashPort 17)) i j = default
      rw [default_get, default_get]
    rw [h]
    exact ⟨rfl, rfl, rfl⟩

theorem CalFp.stage_default (k : Nat) : CalFp.Stage k default fun _ _ => none := by
  have h0 : treeOf (fun _ => none) = default := vec_ext fun j => by
    rw [treeOf, vec_get, default_get]
    rfl
  have hl : ∀ n, orLayer (default : Vec (Option (BitVec 16)) (2 * n)) = default := fun n => vec_ext fun j => by
    rw [orLayer, vec_get, default_get, default_get, default_get]
    rfl
  match k with
  | 0 =>
    intro i
    rw [h0]
    exact default_get i
  | 1 =>
    intro i
    rw [h0, hl 8]
    exact default_get i
  | 2 =>
    intro i
    rw [h0, hl 8, hl 4]
    exact default_get i
  | 3 =>
    intro i
    rw [h0, hl 8, hl 4, hl 2]
    exact default_get i
  | 4 =>
    intro i
    rw [h0, hl 8, hl 4, hl 2, hl 1]
    exact default_get i
  | k + 5 => trivial

theorem NfSm.stage_reset (T : NfTables) (k : Nat) (n : NfWord) : NfSm.Stage T k NfSm.reset (NfSlot.quiet n) := by
  have hf : (NfSlot.quiet n).found T = fun _ _ => none := funext fun i => funext fun j => NfSlot.found_of_not_valid rfl
  refine ⟨?_, ?_, ?_⟩
  · exact FilterRegs.delayed_quiet rfl rfl rfl rfl rfl rfl rfl rfl k
  · match k with
    | 0 => exact ⟨rfl, rfl, fun h => by cases h⟩
    | k + 1 =>
      unfold HashStage
      dsimp only
      split
      · exact NfHash.stage_default rfl k
      · split
        · intro i j
          rw [hf]
          show (default : NfLanes (Option (BitVec 17))) i j = none
          rw [default_get, default_get]
          rfl
        · rw [hf]
          exact CalFp.stage_default _
  · refine ⟨fun h => ?_, fun _ => rfl, fun _ => rfl, fun j _ => ?_⟩
    · show (default : Vec Bool 16) ⟨k, h⟩ = false
      rw [default_get]
      rfl
    · show (default : Vec Bool 5) j = false
      rw [default_get]
      rfl

theorem NfRun.tracks_reset (T : NfTables) (n : NfWord) :
    NfRun.Tracks T ⟨NfSm.reset, []⟩ (.quiet n :: List.replicate 29 (.quiet .idle)) NfFilter.initState .idle n := by
  have hq : ∀ a ∈ NfSlot.quiet n :: List.replicate 29 (NfSlot.quiet .idle), ∃ m, a = NfSlot.quiet m := by
    intro a ha
    rcases List.mem_cons.1 ha with rfl | ha
    · exact ⟨n, rfl⟩
    · exact ⟨.idle, List.eq_of_mem_replicate ha⟩
  have hget : ∀ (k : Nat) (a : NfSlot), (NfSlot.quiet n :: List.replicate 29 (NfSlot.quiet .idle))[k]? = some a → ∃ m, a = NfSlot.quiet m :=
    fun k a ha => hq a (List.mem_of_getElem? ha)
  have ht : ∀ k, tally T ((NfSlot.quiet n :: List.replicate 29 (NfSlot.quiet .idle)).drop k) = ⟨fun _ => 0, []⟩ := by
    intro k
    apply tally_quiet
    intro a ha
    obtain ⟨m, rfl⟩ := hq a (List.mem_of_mem_drop ha)
    rfl
  have hzero : ∀ i, (default : Fingerprint) i = 0 := fun i => by
    rw [default_get]
    rfl
  refine ⟨fun k a ha => ?_, ⟨_, rfl, rfl, rfl, rfl⟩, ⟨rfl, rfl⟩, fun a ha => ?_, ?_, by simp, fun a ha i => ?_, fun a ha => ⟨?_, fun i => ?_⟩, ?_⟩
  · obtain ⟨m, rfl⟩ := hget k a ha
    exact NfSm.stage_reset T k m
  · obtain ⟨m, rfl⟩ := hget 2 a ha
    rfl
  · rw [List.isChain_iff_getElem]
    intro k hk
    obtain ⟨m, hm⟩ := hget k _ (List.getElem?_eq_getElem (by omega))
    obtain ⟨m', hm'⟩ := hget (k + 1) _ (List.getElem?_eq_getElem hk)
    rw [hm, hm']
    rfl
  · obtain ⟨m, rfl⟩ := hget 22 a ha
    rw [ht, NfSlot.field_of_not_valid rfl]
    exact (hzero i).trans (by simp)
  · obtain ⟨m, rfl⟩ := hget 23 a ha
    rfl
  · obtain ⟨m, rfl⟩ := hget 23 a ha
    rw [ht, NfSlot.field_of_not_valid rfl]
    exact (hzero i).trans (by simp)
  · rw [ht]

/-- The packets on the bus are found again behind the pipeline: 24 cycles behind the last word, one fingerprint of each has
come, in order. -/
theorem fingerprints_run (T : NfTables) (us vs : List NfWord) (hv : ∀ v ∈ vs, v.valid = false) (h24 : vs.length = 24) :
    (Hdl.run (NfRun.step T) ⟨NfSm.reset, []⟩ (us ++ vs)).out =
      (packetBeats [] (nfSlots T .idle NfFilter.initState (us ++ vs))).map (fingerprint T) := by
  obtain ⟨st, prev, h⟩ := (NfRun.tracks_reset T ((us ++ vs).headD .idle)).run (us ++ vs)
  obtain ⟨l, prev', st', hs, hl⟩ := nfSlots_append (T := T) .idle NfFilter.initState us vs
  -- the last 24 words are idle, and only they have not reached the output
  have hidle : ∀ a ∈ nfSlots T prev' st' vs, a.word.valid = false := fun a ha => not_valid_of_mem_nfSlots hv ha
  have hquiet : tally T (NfSlot.quiet ((us ++ vs).headD .idle) :: List.replicate 29 (.quiet .idle)) = ⟨fun _ => 0, []⟩ := by
    apply tally_quiet
    intro a ha
    rcases List.mem_cons.1 ha with rfl | ha
    · rfl
    · rw [List.eq_of_mem_replicate ha]
      rfl
  rw [hs] at h
  have hd : ((l ++ nfSlots T prev' st' vs).reverse ++
      (NfSlot.quiet ((us ++ vs).headD .idle) :: List.replicate 29 (.quiet .idle))).drop 24 =
      l.reverse ++ (NfSlot.quiet ((us ++ vs).headD .idle) :: List.replicate 29 (.quiet .idle)) := by
    rw [List.reverse_append, List.append_assoc]
    exact List.drop_left' (by rw [List.length_reverse, length_nfSlots, h24])
  rw [h.out, hd, tally_append, hquiet, foldl_count _ [] _ (fun _ => rfl), List.nil_append, hs, packetBeats_append_idle hidle]

end Pigasus
