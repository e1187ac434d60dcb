import Pigasus.FpMatcher

/-!
# One filtered packet for each group

What is taken in a cycle comes out as at most one word four cycles later, so the words of
the rule FIFO are those of the groups taken so far. A fingerprint is taken exactly with
the last beat of its group.
-/

namespace Pigasus

open Hdl

variable (rom : BitVec 13 → FpBits)

/-! ## The packets that are meant -/

def keepsRule (fp : FpBits) (r : BitVec 13) : Bool := r != 0 && (rom (r - 1) != 0 && rom (r - 1) &&& fp == rom (r - 1))

def keptId (fp : FpBits) (r : BitVec 13) : BitVec 16 := if keepsRule rom fp r then r.setWidth 16 else 0

def keptBeat (fp : FpBits) (b : RulePair) : Option (BitVec 32) :=
  if keepsRule rom fp b.id0 || keepsRule rom fp b.id1 then some (keptId rom fp b.id1 ++ keptId rom fp b.id0 : BitVec (16 + 16))
  else none

def keptBeats (fp : FpBits) (bs : List RulePair) : List (BitVec 32) := bs.filterMap (keptBeat rom fp)

/-- The words of an open packet from word `n` on. The counter behind `sop` has 16 bits. -/
def openWords : Nat → List (BitVec 32) → List FpRuleWord
  | _, [] => []
  | n, d :: ds => ⟨n % 2 ^ 16 == 0, false, d⟩ :: openWords (n + 1) ds

/-- The packet of a group: the beats that stay, and an empty word with `eop`. -/
def fpPacket (fp : FpBits) (bs : List RulePair) : List FpRuleWord :=
  openWords 0 (keptBeats rom fp bs) ++ [⟨(keptBeats rom fp bs).length % 2 ^ 16 == 0, true, 0⟩]

/-- What the groups in front of group `k` and the pairs `bs` of group `k` give. -/
def fpWords (G : Nat → List RulePair) (F : Nat → FpBits) (k : Nat) (bs : List RulePair) : List FpRuleWord :=
  (List.range k).flatMap (fun j => fpPacket rom (F j) (G j)) ++ openWords 0 (keptBeats rom (F k) bs)

theorem openWords_concat (n : Nat) (ds : List (BitVec 32)) (d : BitVec 32) :
    openWords n (ds ++ [d]) = openWords n ds ++ [⟨(n + ds.length) % 2 ^ 16 == 0, false, d⟩] := by
  induction ds generalizing n with
  | nil => rfl
  | cons x ds ih =>
    rw [List.cons_append, openWords, ih, openWords, List.length_cons, List.cons_append]
    simp only [Nat.add_assoc, Nat.add_comm 1]

/-! ## What is taken in a cycle -/

inductive FpEvent
  | none
  | pair (b : RulePair) (fp : FpBits)
  | last

namespace FpEvent

def isPair : FpEvent → Bool
  | pair _ _ => true
  | _ => false

def isLast : FpEvent → Bool
  | last => true
  | _ => false

/-- The word of the event, with its `eop`. -/
def word : FpEvent → Option (Bool × BitVec 32)
  | none => .none
  | pair b fp => (keptBeat rom fp b).map fun d => (false, d)
  | last => some (true, 0)

end FpEvent

structure FpWritten where
  words : List FpRuleWord
  cnt : Nat

def FpWritten.push (w : FpWritten) : Option (Bool × BitVec 32) → FpWritten
  | none => w
  | some (eop, d) => ⟨w.words ++ [⟨w.cnt % 2 ^ 16 == 0, eop, d⟩], if eop then 0 else w.cnt + 1⟩

def written : List FpEvent → FpWritten
  | [] => ⟨[], 0⟩
  | e :: hist => (written hist).push (e.word rom)

/-! ## The stages -/

theorem low_word (b : RulePair) : FpMatcher.low b.word = b.id0.setWidth 16 := by
  have h : (b.id1.setWidth 16 ++ b.id0.setWidth 16 : BitVec (16 + 16)).extractLsb' 0 16 = b.id0.setWidth 16 :=
    BitVec.extractLsb'_append_eq_right
  exact h

theorem high_word (b : RulePair) : FpMatcher.high b.word = b.id1.setWidth 16 := by
  have h : (b.id1.setWidth 16 ++ b.id0.setWidth 16 : BitVec (16 + 16)).extractLsb' 16 16 = b.id1.setWidth 16 :=
    BitVec.extractLsb'_append_eq_left
  exact h

theorem extract_slot (x : BitVec 32) (k : Nat) : x.extractLsb' k 13 = (x.extractLsb' k 16).setWidth 13 := by
  apply BitVec.eq_of_getLsbD_eq
  intro j hj
  have : j < 16 := by omega
  simp [hj, this]

theorem setWidth_back (r : BitVec 13) : (r.setWidth 16).setWidth 13 = r := by
  rw [BitVec.setWidth_setWidth_of_le r (by decide), BitVec.setWidth_eq]

theorem addr0_word (b : RulePair) : b.word.extractLsb' 0 13 = b.id0 := by
  rw [extract_slot, ← FpMatcher.low, low_word, setWidth_back]

theorem addr1_word (b : RulePair) : b.word.extractLsb' 16 13 = b.id1 := by
  rw [extract_slot, ← FpMatcher.high, high_word, setWidth_back]

variable {rom} in
theorem fpMatch_rom (h : rom 8191 = 0) (fp : FpBits) (r : BitVec 13) : FpMatcher.fpMatch fp (rom (r - 1)) = keepsRule rom fp r := by
  unfold FpMatcher.fpMatch keepsRule
  by_cases hr : r = 0
  · subst hr
    rw [show (0 : BitVec 13) - 1 = 8191 by decide, h]
    simp
  · have : (r != 0) = true := by simpa using hr
    rw [this, Bool.true_and, BitVec.and_comm fp, Bool.and_comm]

namespace FpMatcher

def Stage : Nat → FpMatcher → FpEvent → Prop
  | 0, s, e => s.rd = e.isPair ∧ s.last = e.isLast ∧
      ∀ b fp, e = .pair b fp → s.fpAddr0 = b.id0 - 1 ∧ s.fpAddr1 = b.id1 - 1 ∧ s.dataR = b.word ∧ s.fpR = fp
  | 1, s, e => s.rdR1 = e.isPair ∧ s.lastR1 = e.isLast ∧
      ∀ b fp, e = .pair b fp → s.rom0.r1 = rom (b.id0 - 1) ∧ s.rom1.r1 = rom (b.id1 - 1) ∧ s.dataR1 = b.word ∧ s.fpR1 = fp
  | 2, s, e => s.rdR2 = e.isPair ∧ s.lastR2 = e.isLast ∧
      ∀ b fp, e = .pair b fp → s.rom0.q = rom (b.id0 - 1) ∧ s.rom1.q = rom (b.id1 - 1) ∧ s.dataR2 = b.word ∧ s.fpR2 = fp
  | 3, s, e => s.intValid = (e.word rom).isSome ∧ ∀ w ∈ e.word rom, s.intEop = w.1 ∧ s.intData = w.2
  | _, _, _ => True

variable {rom} {s : FpMatcher} {e : FpEvent}

theorem stage_pair (h0 : rom 8191 = 0) {b : RulePair} {fp : FpBits} (i : FpIn) (h : Stage rom 2 s (.pair b fp)) :
    Stage rom 3 (s.step rom i) (.pair b fp) := by
  obtain ⟨hr, hl, hb⟩ := h
  obtain ⟨hq0, hq1, hd, hf⟩ := hb b fp rfl
  have hm0 : s.match0 = keepsRule rom fp b.id0 := by rw [match0, hq0, hf, fpMatch_rom h0]
  have hm1 : s.match1 = keepsRule rom fp b.id1 := by rw [match1, hq1, hf, fpMatch_rom h0]
  have hrd : s.rdR2 = true := hr
  have hla : s.lastR2 = false := hl
  simp only [Stage, step, hrd, hla, hm0, hm1, hd, low_word, high_word, FpEvent.word, keptBeat]
  by_cases hk : (keepsRule rom fp b.id0 || keepsRule rom fp b.id1) = true
  · simp [hk, keptId]
  · simp [hk]

theorem stage_next (h0 : rom 8191 = 0) (i : FpIn) (k : Nat) (h : Stage rom k s e) : Stage rom (k + 1) (s.step rom i) e := by
  match k with
  | 0 | 1 =>
    obtain ⟨hr, hl, hb⟩ := h
    refine ⟨hr, hl, fun b fp he => ?_⟩
    obtain ⟨ha0, ha1, hd, hf⟩ := hb b fp he
    exact ⟨by simp [step, ha0], by simp [step, ha1], hd, hf⟩
  | 2 =>
    cases e with
    | none =>
      obtain ⟨hr, hl, -⟩ := h
      have hrd : s.rdR2 = false := hr
      have hla : s.lastR2 = false := hl
      simp [Stage, step, hrd, hla, FpEvent.word]
    | pair b fp => exact stage_pair h0 i h
    | last =>
      obtain ⟨hr, hl, -⟩ := h
      have hla : s.lastR2 = true := hl
      simp [Stage, step, hla, FpEvent.word]
  | k + 3 => trivial

end FpMatcher

/-! ## The sources -/

namespace FpSys

variable {rom} {G : Nat → List RulePair} {F : Nat → FpBits} {s : FpSys} {i : FpSysTick}

def event (F : Nat → FpBits) (s : FpSys) (i : FpSysTick) : FpEvent :=
  if s.ruleTaken F i then
    match s.rest with
    | [] => .last
    | b :: _ => .pair b (F s.fp)
  else .none

theorem takes_eq : FpMatcher.takes (s.input F i) = s.ruleTaken F i := by
  simp only [FpMatcher.takes, ruleTaken, FpMatcher.ruleReady, input]
  cases i.fpOffer <;> cases i.almostFull <;> cases i.ruleOffer <;> rfl

theorem ruleTaken_iff : s.ruleTaken F i = true ↔ i.ruleOffer = true ∧ i.fpOffer = true ∧ i.almostFull = false := by
  simp only [ruleTaken, FpMatcher.ruleReady, input]
  cases i.fpOffer <;> cases i.almostFull <;> cases i.ruleOffer <;> decide

theorem fpTaken_eq : s.fpTaken F i = (s.ruleTaken F i && s.rest.isEmpty) := by
  simp only [fpTaken, ruleTaken, FpMatcher.fpReady, FpMatcher.ruleReady, input]
  cases i.fpOffer <;> cases i.almostFull <;> cases i.ruleOffer <;> simp

theorem stage_enter : FpMatcher.Stage rom 0 (s.step rom G F i).core (event F s i) := by
  by_cases ht : s.ruleTaken F i = true
  · obtain ⟨hr, hf, -⟩ := ruleTaken_iff.mp ht
    cases hrest : s.rest with
    | nil =>
      have heop : (s.input F i).ruleEop = true := by simp [input, hr, hrest]
      have hev : event F s i = .last := by simp [event, ht, hrest]
      rw [hev]
      refine ⟨?_, ?_, fun b fp he => FpEvent.noConfusion he⟩
      · simp [step, FpMatcher.step, heop, FpEvent.isPair]
      · simp [step, FpMatcher.step, takes_eq, ht, heop, FpEvent.isLast]
    | cons b l =>
      have hdata : (s.input F i).ruleData = b.word := by simp [input, hr, hrest]
      have hfp : (s.input F i).fpData = F s.fp := by simp [input, hf]
      have heop : (s.input F i).ruleEop = false := by simp [input, hr, hrest]
      have hev : event F s i = .pair b (F s.fp) := by simp [event, ht, hrest]
      rw [hev]
      refine ⟨?_, ?_, ?_⟩
      · simp [step, FpMatcher.step, takes_eq, ht, heop, FpEvent.isPair]
      · simp [step, FpMatcher.step, heop, FpEvent.isLast]
      · rintro b' fp' he
        obtain ⟨rfl, rfl⟩ := FpEvent.pair.inj he
        simp [step, FpMatcher.step, takes_eq, ht, heop, hdata, hfp, addr0_word, addr1_word]
  · simp [FpMatcher.Stage, step, FpMatcher.step, takes_eq, event, ht, FpEvent.isPair, FpEvent.isLast]

/-! ## The invariant -/

structure Piped (rom : BitVec 13 → FpBits) (hist : List FpEvent) (s : FpSys) : Prop where
  stages : Delayed (FpMatcher.Stage rom) hist s.core
  long : 4 ≤ hist.length
  cnt : s.core.intCnt = BitVec.ofNat 16 (written rom (hist.drop 4)).cnt
  out : s.out = (written rom (hist.drop 4)).words

/-- Both sides offer, and the rule FIFO has room. -/
def serves (i : FpSysTick) : Bool := i.ruleOffer && i.fpOffer && !i.almostFull

def beatsBefore (G : Nat → List RulePair) (m : Nat) : Nat := ((List.range m).map fun j => (G j).length + 1).sum

theorem beatsBefore_succ (G : Nat → List RulePair) (m : Nat) : beatsBefore G (m + 1) = beatsBefore G m + (G m).length + 1 := by
  unfold beatsBefore
  rw [List.range_succ, List.map_append, List.sum_append]
  simp [Nat.add_assoc]

theorem beatsBefore_mono (G : Nat → List RulePair) {a b : Nat} (h : a ≤ b) : beatsBefore G a ≤ beatsBefore G b := by
  induction b, h using Nat.le_induction with
  | base => exact Nat.le_refl _
  | succ b _ ih =>
    rw [beatsBefore_succ]
    omega

/-- The events are those of the groups in front, and of the pairs `bs` that are gone from the group in work. -/
structure Taken (rom : BitVec 13 → FpBits) (G : Nat → List RulePair) (F : Nat → FpBits) (hist : List FpEvent)
    (s : FpSys) (bs : List RulePair) : Prop where
  group : G s.group = bs ++ s.rest
  fp : s.fp = s.group
  words : (written rom hist).words = fpWords rom G F s.group bs
  cnt : (written rom hist).cnt = (keptBeats rom (F s.group) bs).length

variable {hist : List FpEvent} {bs : List RulePair}

theorem Piped.sop_eq (h : Piped rom hist s) (hv : s.core.intValid = true) :
    s.core.intSop = ((written rom (hist.drop 4)).cnt % 2 ^ 16 == 0) := by
  have h0 : s.core.intCnt = 0 ↔ (written rom (hist.drop 4)).cnt % 2 ^ 16 = 0 := by
    rw [h.cnt, ← BitVec.toNat_inj]
    simp
  unfold FpMatcher.intSop
  by_cases hc : (written rom (hist.drop 4)).cnt % 2 ^ 16 = 0
  · rw [if_pos (h0.mpr hc), hv, hc]
    rfl
  · rw [if_neg (mt h0.mp hc)]
    simpa using hc

theorem Piped.step (h0 : rom 8191 = 0) (h : Piped rom hist s) : Piped rom (event F s i :: hist) (s.step rom G F i) := by
  have h3 : 3 < hist.length := h.long
  -- the word that is written is that of the cycle four back
  have hst : FpMatcher.Stage rom 3 s.core hist[3] := h.stages 3 _ (List.getElem?_eq_getElem h3)
  obtain ⟨hv, hw⟩ := hst
  have hdrop : (event F s i :: hist).drop 4 = hist[3] :: hist.drop 4 := by
    rw [List.drop_succ_cons, List.drop_eq_getElem_cons h3]
  refine ⟨h.stages.step stage_enter fun k y hk => FpMatcher.stage_next h0 _ k hk, by simp; omega, ?_, ?_⟩
  · rw [hdrop, written]
    simp only [FpSys.step, FpMatcher.step]
    cases he : hist[3].word rom with
    | none => simp [hv, he, FpWritten.push, h.cnt]
    | some w =>
      obtain ⟨heop, -⟩ := hw w he
      simp only [hv, he, heop, Option.isSome_some, if_true, FpWritten.push]
      cases w.1
      · simp [h.cnt, BitVec.ofNat_add]
      · rfl
  · rw [hdrop, written]
    simp only [FpSys.step]
    cases he : hist[3].word rom with
    | none => simp [hv, he, FpWritten.push, h.out]
    | some w =>
      obtain ⟨heop, hdata⟩ := hw w he
      have hvalid : s.core.intValid = true := by rw [hv, he]; rfl
      rw [if_pos hvalid, h.sop_eq hvalid, heop, hdata, h.out]
      rfl

theorem fpWords_succ (k : Nat) : fpWords rom G F (k + 1) [] =
    fpWords rom G F k (G k) ++ [⟨(keptBeats rom (F k) (G k)).length % 2 ^ 16 == 0, true, 0⟩] := by
  simp [fpWords, List.range_succ, fpPacket, keptBeats, openWords]

theorem keptBeats_concat (fp : FpBits) (b : RulePair) :
    keptBeats rom fp (bs ++ [b]) = keptBeats rom fp bs ++ (keptBeat rom fp b).toList := by
  simp only [keptBeats, List.filterMap_append]
  cases h : keptBeat rom fp b <;> simp [h]

theorem Taken.step (h : Taken rom G F hist s bs) : ∃ bs', Taken rom G F (event F s i :: hist) (s.step rom G F i) bs' := by
  by_cases ht : s.ruleTaken F i = true
  · cases hrest : s.rest with
    | nil =>
      -- the last beat closes the packet of the whole group
      have hg : G s.group = bs := by rw [h.group, hrest, List.append_nil]
      have hev : event F s i = .last := by simp [event, ht, hrest]
      refine ⟨[], ?_, ?_, ?_, ?_⟩
      · simp [FpSys.step, ht, hrest]
      · simp [FpSys.step, fpTaken_eq, ht, hrest, h.fp]
      · rw [hev, written]
        simp only [FpEvent.word, FpWritten.push, h.words, h.cnt]
        simp only [FpSys.step, ht, hrest, List.isEmpty_nil, Bool.and_self, if_true]
        rw [fpWords_succ, hg]
      · rw [hev, written]
        simp [FpEvent.word, FpWritten.push, keptBeats]
    | cons b l =>
      have hgroup : (s.step rom G F i).group = s.group := by simp [FpSys.step, hrest]
      have hev : event F s i = .pair b (F s.group) := by simp [event, ht, hrest, h.fp]
      refine ⟨bs ++ [b], ?_, ?_, ?_, ?_⟩
      · rw [hgroup, h.group, hrest]
        simp [FpSys.step, ht, hrest]
      · rw [hgroup]
        simp [FpSys.step, fpTaken_eq, hrest, h.fp]
      · rw [hgroup, hev, written, fpWords, keptBeats_concat]
        cases hk : keptBeat rom (F s.group) b with
        | none => simp [FpEvent.word, hk, FpWritten.push, h.words, fpWords]
        | some d =>
          simp only [FpEvent.word, hk, FpWritten.push, h.words, h.cnt, fpWords, Option.map_some, Option.toList_some,
            openWords_concat, Nat.zero_add, List.append_assoc]
      · rw [hgroup, hev, written, keptBeats_concat]
        cases hk : keptBeat rom (F s.group) b with
        | none => simp [FpEvent.word, hk, FpWritten.push, h.cnt]
        | some d => simp [FpEvent.word, hk, FpWritten.push, h.cnt]
  · have hev : event F s i = .none := by simp [event, ht]
    refine ⟨bs, ?_, ?_, ?_, ?_⟩
    · simp [FpSys.step, ht, h.group]
    · simp [FpSys.step, fpTaken_eq, ht, h.fp]
    · rw [hev]
      simp [written, FpEvent.word, FpWritten.push, FpSys.step, ht, h.words]
    · rw [hev]
      simp [written, FpEvent.word, FpWritten.push, FpSys.step, ht, h.cnt]

/-! ## Whole runs -/

theorem written_idle (rom : BitVec 13 → FpBits) (k : Nat) : written rom ((List.replicate 4 FpEvent.none).drop k) = ⟨[], 0⟩ := by
  rw [List.drop_replicate]
  induction 4 - k with
  | zero => rfl
  | succ m ih => rw [List.replicate_succ, written, ih]; rfl

theorem reset_piped (c : FpMatcher) : Piped rom (List.replicate 4 .none) (reset G c) := by
  refine ⟨?_, by simp, by rw [written_idle]; rfl, by rw [written_idle]; rfl⟩
  intro k x hk
  obtain ⟨h4, rfl⟩ := List.getElem?_eq_some_iff.mp hk
  rw [List.getElem_replicate]
  simp only [List.length_replicate] at h4
  match k with
  | 0 | 1 | 2 => exact ⟨rfl, rfl, fun b fp he => FpEvent.noConfusion he⟩
  | 3 => exact ⟨rfl, fun w hw => nomatch hw⟩

theorem reset_taken (c : FpMatcher) : Taken rom G F (List.replicate 4 .none) (reset G c) [] := by
  have hw := written_idle rom 0
  rw [List.drop_zero] at hw
  exact ⟨rfl, rfl, by rw [hw]; rfl, by rw [hw]; rfl⟩

theorem piped_steps (h0 : rom 8191 = 0) (is : List FpSysTick) (h : Piped rom hist s) (ht : Taken rom G F hist s bs) :
    ∃ new bs', new.length = is.length ∧ Piped rom (new ++ hist) (run (FpSys.step rom G F) s is) ∧
      Taken rom G F (new ++ hist) (run (FpSys.step rom G F) s is) bs' := by
  induction is generalizing s hist bs with
  | nil => exact ⟨[], bs, rfl, h, ht⟩
  | cons i is ih =>
    obtain ⟨bs₁, ht₁⟩ := ht.step (i := i)
    obtain ⟨new, bs', hn, hp, ht'⟩ := ih (h.step (G := G) (i := i) h0) ht₁
    exact ⟨new ++ [event F s i], bs', by simp [hn], by simpa using hp, by simpa using ht'⟩

theorem beats_step (s : FpSys) (i : FpSysTick) (c : Nat) (h : c + s.rest.length = beatsBefore G s.group + (G s.group).length) :
    c + (serves i).toNat + (s.step rom G F i).rest.length =
      beatsBefore G (s.step rom G F i).group + (G (s.step rom G F i).group).length := by
  have hs : serves i = s.ruleTaken F i := by
    rw [Bool.eq_iff_iff, ruleTaken_iff]
    simp [serves, and_assoc]
  rw [hs]
  cases ht : s.ruleTaken F i with
  | false => simpa [FpSys.step, ht] using h
  | true =>
    cases hrest : s.rest with
    | nil =>
      rw [hrest, List.length_nil] at h
      have hg : (s.step rom G F i).group = s.group + 1 := by simp [FpSys.step, ht, hrest]
      have hr : (s.step rom G F i).rest = G (s.group + 1) := by simp [FpSys.step, ht, hrest]
      rw [hg, hr, beatsBefore_succ, Bool.toNat_true]
      omega
    | cons b l =>
      rw [hrest, List.length_cons] at h
      have hg : (s.step rom G F i).group = s.group := by simp [FpSys.step, hrest]
      have hr : (s.step rom G F i).rest = l := by simp [FpSys.step, ht, hrest]
      rw [hg, hr, Bool.toNat_true]
      omega

theorem beats_run (rom : BitVec 13 → FpBits) (F : Nat → FpBits) (is : List FpSysTick) (s : FpSys) (c : Nat)
    (h : c + s.rest.length = beatsBefore G s.group + (G s.group).length) :
    let s' := run (FpSys.step rom G F) s is
    c + is.countP serves + s'.rest.length = beatsBefore G s'.group + (G s'.group).length := by
  induction is generalizing s c with
  | nil => exact h
  | cons i is ih =>
    have hn := ih (s.step rom G F i) _ (beats_step s i c h)
    intro s'
    have hc : (i :: is).countP serves = (serves i).toNat + is.countP serves := by
      rw [List.countP_cons, Nat.add_comm]
      cases serves i <;> rfl
    rw [hc, ← Nat.add_assoc]
    exact hn

theorem fp_with_last : ∀ (is : List FpSysTick) (s : FpSys), s.fp = s.group →
    AllSteps (FpSys.step rom G F) (fun s i => s.fp = s.group ∧ (s.fpTaken F i = true ↔ s.ruleTaken F i = true ∧ s.rest = []))
      s is
  | [], _, _ => trivial
  | i :: is, s, h => by
    refine ⟨⟨h, ?_⟩, fp_with_last is _ ?_⟩
    · rw [fpTaken_eq, Bool.and_eq_true, List.isEmpty_iff]
    · simp only [FpSys.step, fpTaken_eq, h]

/-- Four cycles after any run the rule FIFO has got the packets of the groups that were taken, in order, and the words
of the pairs taken from the next group. A beat is taken in each cycle in which both sides offer and there is room, so
groups that are offered often enough have all their words there. -/
theorem groups_filtered (rom : BitVec 13 → FpBits) (h0 : rom 8191 = 0) (G : Nat → List RulePair) (F : Nat → FpBits)
    (c : FpMatcher) (is js : List FpSysTick) (h4 : js.length = 4) :
    let s := run (FpSys.step rom G F) (reset G c) is
    (∃ bs, G s.group = bs ++ s.rest ∧
      (run (FpSys.step rom G F) (reset G c) (is ++ js)).out = fpWords rom G F s.group bs ∧
      ((List.range s.group).map fun j => (G j).length + 1).sum + bs.length =
        is.countP fun i => i.ruleOffer && i.fpOffer && !i.almostFull) ∧
    (∀ m, ((List.range m).map fun j => (G j).length + 1).sum ≤ is.countP (fun i => i.ruleOffer && i.fpOffer && !i.almostFull) →
      m ≤ s.group ∧ (List.range m).flatMap (fun j => fpPacket rom (F j) (G j)) <+:
        (run (FpSys.step rom G F) (reset G c) (is ++ js)).out) ∧
    s.fp = s.group ∧
    AllSteps (FpSys.step rom G F) (fun s i => s.fp = s.group ∧ (s.fpTaken F i = true ↔ s.ruleTaken F i = true ∧ s.rest = []))
      (reset G c) is := by
  obtain ⟨new, bs, -, hp, ht⟩ := piped_steps h0 is (reset_piped (G := G) c) (reset_taken (F := F) c)
  obtain ⟨new', bs', hn, hp', -⟩ := piped_steps h0 js hp ht
  have hout : (run (FpSys.step rom G F) (reset G c) (is ++ js)).out =
      fpWords rom G F (run (FpSys.step rom G F) (reset G c) is).group bs := by
    rw [run_append, hp'.out, List.drop_left' (by rw [hn, h4]), ht.words]
  have hbeats := beats_run rom F is (reset G c) 0 rfl
  have hlen := congrArg List.length ht.group
  rw [List.length_append] at hlen
  refine ⟨⟨bs, ht.group, hout, ?_⟩, ?_, ht.fp, fp_with_last is _ rfl⟩
  · change beatsBefore G _ + bs.length = is.countP serves
    dsimp only at hbeats
    omega
  · intro m hm
    change beatsBefore G m ≤ is.countP serves at hm
    have hle : m ≤ (run (FpSys.step rom G F) (reset G c) is).group := by
      by_contra hlt
      have hmono := beatsBefore_mono G (Nat.lt_of_not_le hlt)
      rw [Nat.succ_eq_add_one, beatsBefore_succ] at hmono
      dsimp only at hbeats
      omega
    refine ⟨hle, ?_⟩
    obtain ⟨d, hd⟩ := Nat.exists_eq_add_of_le hle
    rw [hout, hd, fpWords, List.range_add, List.flatMap_append, List.append_assoc]
    exact List.prefix_append _ _

/-! ## A group of two beats -/

def twoRules (a : BitVec 13) : FpBits := if a = 0 then 1 else if a = 2 then 2 else 0

def fpTick (rule fp full : Bool) : FpSysTick := ⟨full, rule, fp, true, 0xFFFFFFFF, 0⟩

def fpCore : FpMatcher :=
  ⟨true, true, true, true, true, true, 0, 0, 0, 0, 0, 0, 0, 0, ⟨0, 0⟩, ⟨0, 0⟩, 0, true, true, 7⟩

def twoBeats (k : Nat) : List RulePair := if k = 0 then [⟨1, 3⟩, ⟨2, 0⟩] else []

def twoBeatsTicks : List FpSysTick :=
  [fpTick true false false, fpTick true true false, fpTick true true true, fpTick true true false,
    fpTick true true false, fpTick false true false]

/-- Rule 3 and the second beat do not stay: the packet has no bit of rule 3, and rule 2 has no fingerprint. -/
theorem groups_filtered_two :
    let s := run (FpSys.step twoRules twoBeats fun _ => 1) (reset twoBeats fpCore) twoBeatsTicks
    s.group = 1 ∧ fpWords twoRules twoBeats (fun _ => 1) 1 [] = [⟨true, false, 1⟩, ⟨false, true, 0⟩] ∧
      ∃ bs, twoBeats s.group = bs ++ s.rest ∧
        (run (FpSys.step twoRules twoBeats fun _ => 1) (reset twoBeats fpCore)
          (twoBeatsTicks ++ List.replicate 4 (fpTick false false false))).out =
          fpWords twoRules twoBeats (fun _ => 1) s.group bs := by
  obtain ⟨⟨bs, hbs, hout, -⟩, -⟩ := groups_filtered twoRules (by decide) twoBeats (fun _ => 1) fpCore twoBeatsTicks
    (List.replicate 4 (fpTick false false false)) rfl
  exact ⟨by decide +kernel, by decide +kernel, bs, hbs, hout⟩

end FpSys

end Pigasus
