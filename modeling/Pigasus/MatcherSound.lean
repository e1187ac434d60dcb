import Pigasus.MatcherPipe

/-!
# The string matcher reports the windows of a packet

Every lane receives, packet by packet, the hash indices of its windows that pass
the filter and the bitmap, and then one marker. With pauses between the beats of
a packet this depends on the pauses: the hash forgets the beat in front of a
pause, and the filter reads the byte behind a beat from the bus, valid or not.
-/

namespace Pigasus

open Hdl

/-! ## What is to be reported -/

section
variable (T : FpTables) (i : Fin 8) (j : Fin 32)

/-- The words of the match table for the beat `b` in front of the beats `l`. -/
def filterWords (b : FpBeat) : List FpBeat → Vec (BitVec 64) 32
  | [] => T.words b.data true 0
  | n :: _ => T.words b.data false (n.data 0)

def indexOf (prev : Option (Vec Byte 32)) (b : FpBeat) : BitVec 16 :=
  windowHash i j (prev.getD (vec fun _ => 0)) b.data

/-- The window that ends at byte `j` of `b` lies in the packet, its bitmap bit is 1 and its bit of the
filter is 0. -/
def reported (st : BitVec 64) (prev : Option (Vec Byte 32)) (b : FpBeat) (l : List FpBeat) : Bool :=
  (!crosses i j || prev.isSome) && T.bitmapBit i (indexOf i j prev b) &&
    !(FirstFilter.outData (filterWords T b l) st 0).getLsbD (Frontend.filterBit i j)

/-- The indices that are reported for the beats behind `prev`, when the filter is in state `st`. -/
def indices : BitVec 64 → Option (Vec Byte 32) → List FpBeat → List RuleS
  | _, _, [] => []
  | st, prev, b :: l =>
    (if reported T i j st prev b l then [⟨false, BitVec.ofFin i, indexOf i j prev b⟩] else []) ++
      indices (FirstFilter.nextState (filterWords T b l) st) (some b.data) l

def mark : RuleS := ⟨true, BitVec.ofFin i, 0⟩

/-- What lane `i`, `j` is to receive for a packet. -/
def report (p : FpPacket) : List RuleS := indices T i j FirstFilter.initState none p.beats ++ [mark i]

/-- The state of the filter behind the beats `l` that are followed by `n`. -/
def stateOver (n : FpBeat) : BitVec 64 → List FpBeat → BitVec 64
  | st, [] => st
  | st, b :: l => stateOver n (FirstFilter.nextState (filterWords T b (l ++ [n])) st) l

theorem stateOver_snoc (b n : FpBeat) (l : List FpBeat) (st : BitVec 64) :
    stateOver T n st (l ++ [b]) = FirstFilter.nextState (filterWords T b [n]) (stateOver T b st l) := by
  induction l generalizing st with
  | nil => rfl
  | cons c l ih =>
    simp only [List.cons_append, stateOver]
    rw [ih]
    cases l <;> rfl

end

section
variable {T : FpTables} {i : Fin 8} {j : Fin 32}

theorem windowHash_congr (h : crosses i j = false) (p q d : Vec Byte 32) : windowHash i j p d = windowHash i j q d := by
  have hc : 7 ≤ j.val + maskedBytes i := by simpa [crosses] using h
  have key (k : Fin 8) (b : Fin 4) : (if k.val + 1 ≤ maskedBytes i then 0 else products p d j k b) =
      if k.val + 1 ≤ maskedBytes i then 0 else products q d j k b := by
    by_cases hk : k.val + 1 ≤ maskedBytes i
    · simp only [if_pos hk]
    · have h7 : ¬ (HashTop.windowAt j k).val < 7 := by
        simp only [HashTop.windowAt]
        omega
      have hb (r : Vec Byte 32) : paddedByte r d (HashTop.windowAt j k) =
          d ⟨(HashTop.windowAt j k).val - 7, by omega⟩ := dif_neg h7
      simp only [if_neg hk, products, hb]
  simp only [windowHash, AccHash.sumOf, AccHash.level1, key]

theorem reported_none {st : BitVec 64} {d : Vec Byte 32} {b : FpBeat} {l : List FpBeat}
    (h : crosses i j = true → reported T i j st (some d) b l = false) :
    (reported T i j st none b l = reported T i j st (some d) b l) ∧
      (reported T i j st none b l = true → indexOf i j none b = indexOf i j (some d) b) := by
  cases hc : crosses i j with
  | true =>
    have hn : reported T i j st none b l = false := by simp [reported, hc]
    exact ⟨hn.trans (h hc).symm, fun h => by rw [hn] at h; cases h⟩
  | false =>
    have hi : indexOf i j none b = indexOf i j (some d) b := windowHash_congr hc _ _ _
    exact ⟨by simp [reported, hc, hi], fun _ => hi⟩

theorem indices_none {st : BitVec 64} {d : Vec Byte 32} {b : FpBeat} {l : List FpBeat}
    (h : crosses i j = true → reported T i j st (some d) b l = false) :
    indices T i j st none (b :: l) = indices T i j st (some d) (b :: l) := by
  obtain ⟨hr, hi⟩ := reported_none h
  simp only [indices, ← hr]
  by_cases hn : reported T i j st none b l = true
  · simp only [if_pos hn, hi hn]
  · simp only [if_neg hn]

end

/-! ## The slots of a packet -/

def BusWord.beat? {B e : Nat} (w : BusWord B e) : Option (Vec Byte B) := if w.valid then some w.data else none

namespace FpSlot

variable {T : FpTables} {a : FpSlot} {i : Fin 8} {j : Fin 32} {b : FpBeat} {l : List FpBeat}

theorem hit_of_not_valid (h : a.word.valid = false) : a.hit T i j = false := by
  simp [hit, laneValid, HashTop.laneValid, h]

theorem entry_of_not_valid (h : a.word.valid = false) :
    (a.entry T i j).toList = if a.prev.ends then [mark i] else [] := by
  simp only [entry, hit_of_not_valid h, Bool.or_false, mark]
  cases a.prev.ends <;> rfl

theorem hit_of_beat (hv : a.word.valid = true) (hd : a.word.data = b.data) (hm : a.mask T = 0)
    (hq : a.words T = filterWords T b l) :
    a.hit T i j = reported T i j a.st a.prev.beat? b l ∧
      (a.hit T i j = true → a.hash i j = indexOf i j a.prev.beat? b) := by
  have hf : a.filterOut T = FirstFilter.outData (filterWords T b l) a.st 0 := by
    rw [filterOut, BusSlot.filterOut]
    exact congrArg₂ (FirstFilter.outData · a.st ·) hq hm
  cases hp : a.prev.valid with
  | true =>
    have hb : a.prev.beat? = some a.prev.data := by simp [BusWord.beat?, hp]
    rw [hb]
    have hi : a.hash i j = indexOf i j (some a.prev.data) b := by rw [hash, hd]; rfl
    refine ⟨?_, fun _ => hi⟩
    simp [hit, reported, ← hi, hf, laneValid, HashTop.laneValid, hv, hp]
  | false =>
    have hb : a.prev.beat? = none := by simp [BusWord.beat?, hp]
    rw [hb]
    cases hc : crosses i j with
    | true =>
      have hn : a.hit T i j = false := by simp [hit, laneValid, HashTop.laneValid, hc, hp]
      refine ⟨?_, fun h => by rw [hn] at h; cases h⟩
      rw [hn]
      simp [reported, hc]
    | false =>
      have hi : a.hash i j = indexOf i j none b := by
        rw [hash, hd]
        exact windowHash_congr hc _ _ _
      refine ⟨?_, fun _ => hi⟩
      simp [hit, reported, ← hi, hf, laneValid, HashTop.laneValid, hv, hc]

theorem entry_of_beat (hv : a.word.valid = true) (hd : a.word.data = b.data) (hp : a.prev.ends = false)
    (hm : a.mask T = 0) (hq : a.words T = filterWords T b l) :
    (a.entry T i j).toList =
      if reported T i j a.st a.prev.beat? b l then [⟨false, BitVec.ofFin i, indexOf i j a.prev.beat? b⟩] else [] := by
  obtain ⟨hr, hi⟩ := hit_of_beat (i := i) (j := j) hv hd hm hq
  rw [← hr]
  cases hh : a.hit T i j with
  | false => simp [entry, hp, hh]
  | true => simp [entry, hp, hh, hi hh]

end FpSlot

theorem FpTables.words_next {T : FpTables} {d : Vec Byte 32} {x y : Byte}
    (h : T.matchTable (FirstFilter.addr d false x 31) = T.matchTable (FirstFilter.addr d false y 31)) :
    T.words d false x = T.words d false y := by
  refine vec_ext fun k => ?_
  simp only [FpTables.words, vec_get]
  by_cases hk : k.val + 1 < 32
  · simp only [FirstFilter.addr, dif_pos hk]
  · obtain rfl : k = 31 := Fin.ext (by omega)
    exact h

/-! ## The packets on the bus -/

namespace FpSource

variable {s : FpSource} {c : Bool} {i : FpTick}

theorem front_valid {w : FpWord} (h : s.front = some w) : w.valid = true := by
  unfold front at h
  split at h <;> cases h <;> rfl

theorem word_of_not_valid (h : (s.word c i).valid = false) : s.word c i = { i.bus with valid := false } := by
  unfold word at h ⊢
  split_ifs at h ⊢ with ho
  · cases hf : s.front with
    | none => rfl
    | some w =>
      rw [hf, Option.getD_some, front_valid hf] at h
      cases h
  · rfl

theorem word_of_valid (h : (s.word c i).valid = true) : s.front = some (s.word c i) := by
  unfold word at h ⊢
  split_ifs at h ⊢ with ho
  cases hf : s.front with
  | none => rw [hf] at h; cases h
  | some w => rfl

end FpSource

/-- Where the source is: between two packets, at the beat `b` behind `pre`, or in a pause of a packet. -/
inductive FpPhase
  | rest
  | beat (pre : List FpBeat) (b : FpBeat)
  | paused

namespace MatchSys

section
variable (T : FpTables) (a : FpSlot) (s : MatchSys)

def At : FpPhase → Prop
  | .rest => a.next.valid = false ∧ a.after T = FirstFilter.initState ∧ s.src.cur = []
  | .beat pre b => a.next = b.word s.src.cur.isEmpty ∧ a.word.ends = false ∧
      s.m.paf.state = (if s.src.cur.isEmpty then .idle else .send) ∧ s.src.sent = pre ++ [b] ∧
      a.after T = stateOver T b FirstFilter.initState pre
  | .paused => a.next.valid = false ∧ a.word.ends = false ∧ s.m.paf.state = .send ∧
      ∃ n l, s.src.cur = n :: l ∧ a.after T = stateOver T n FirstFilter.initState s.src.sent

def owed (i : Fin 8) (j : Fin 32) : FpPhase → List RuleS
  | .rest => if a.word.ends then [mark i] else []
  | .beat _ b => indices T i j (a.after T) a.word.beat? (b :: s.src.cur) ++ [mark i]
  | .paused => indices T i j (a.after T) none s.src.cur ++ [mark i]

/-- A pause between the beats `sent` and `cur`, with `byte` on the bus behind the last beat, does not
change what is reported. -/
def PauseHarmless (sent cur : List FpBeat) (byte : Byte) : Prop :=
  match sent.getLast?, cur with
  | some x, n :: l =>
    T.matchTable (FirstFilter.addr x.data false byte 31) =
      T.matchTable (FirstFilter.addr x.data false (n.data 0) 31) ∧
    ∀ i j, crosses i j = true → reported T i j (stateOver T n FirstFilter.initState sent) (some x.data) n l = false
  | _, _ => True

/-- Every pause is harmless in the cycle in which it begins. -/
def PausesHarmless (c : Bool) (i : FpTick) : Prop :=
  s.m.paf.temp.valid = true → (s.src.word c i).valid = false → PauseHarmless T s.src.sent s.src.cur (i.bus.data 0)

end

variable {T : FpTables} {a : FpSlot} {s : MatchSys} {c : Bool} {i : FpTick}

def pushed (T : FpTables) (c : Bool) (a : FpSlot) (s : MatchSys) (i : FpTick) : FpSlot :=
  a.push T (s.step T c i).m.paf.temp

theorem step_of_idle (h : s.m.paf.state = .idle) :
    (s.step T c i).m.paf.temp.valid = false ∧ (s.step T c i).m.paf.temp.empty = 0 ∧ (s.step T c i).src = s.src := by
  simp [step, Matcher.step, PktAlmostFull.step, PktAlmostFull.inReady, h]

theorem temp_of_send (T : FpTables) (h : s.m.paf.state = .send) : (s.step T c i).m.paf.temp = s.src.word c i := by
  simp [step, Matcher.step, PktAlmostFull.step, h]

theorem step_of_pause (h : s.m.paf.state = .send) (hv : (s.src.word c i).valid = false) :
    (s.step T c i).m.paf.state = .send ∧ (s.step T c i).src = s.src := by
  simp [step, Matcher.step, PktAlmostFull.step, h, hv, BusWord.ends]

theorem src_of_taken (h : s.m.paf.state = .send) (hv : (s.src.word c i).valid = true) :
    (s.step T c i).src = s.src.taken := by
  simp [step, PktAlmostFull.inReady, h, hv]

theorem state_of_taken (h : s.m.paf.state = .send) :
    (s.step T c i).m.paf.state = if (s.src.word c i).ends then .idle else .send := by
  simp [step, Matcher.step, PktAlmostFull.step, h]

theorem at_beat {n : FpBeat} {l : List FpBeat} (h : s.m.paf.state = .send) (hv : (s.src.word c i).valid = true)
    (hc : s.src.cur = n :: l) (he : a.next.ends = false)
    (hst : (pushed T c a s i).after T = stateOver T n FirstFilter.initState s.src.sent) :
    (s.step T c i).src = ⟨s.src.sent ++ [n], l, s.src.pkts⟩ ∧
      At T (pushed T c a s i) (s.step T c i) (.beat s.src.sent n) := by
  have hw : s.src.word c i = n.word l.isEmpty := by
    have hf := FpSource.word_of_valid hv
    simpa [FpSource.front, hc] using hf.symm
  have hs : (s.step T c i).src = ⟨s.src.sent ++ [n], l, s.src.pkts⟩ := by
    rw [src_of_taken h hv, FpSource.taken, hc]
  refine ⟨hs, ?_, he, ?_, ?_, hst⟩
  · rw [hs]
    exact (temp_of_send T h).trans hw
  · rw [hs, state_of_taken h, hw]
    rfl
  · rw [hs]

theorem at_first (h : s.m.paf.state = .send) (hv : (s.src.word c i).valid = true) (hc : s.src.cur = [])
    (he : a.next.ends = false) (hst : (pushed T c a s i).after T = FirstFilter.initState) :
    ∃ p ps, s.src.pkts = p :: ps ∧ (s.step T c i).src = ⟨[p.first], p.rest, ps⟩ ∧
      At T (pushed T c a s i) (s.step T c i) (.beat [] p.first) := by
  have hf := FpSource.word_of_valid hv
  cases hp : s.src.pkts with
  | nil => simp [FpSource.front, hc, hp] at hf
  | cons p ps =>
    have hw : s.src.word c i = p.first.word p.rest.isEmpty := by simpa [FpSource.front, hc, hp] using hf.symm
    have hs : (s.step T c i).src = ⟨[p.first], p.rest, ps⟩ := by
      rw [src_of_taken h hv, FpSource.taken, hc, hp]
    refine ⟨p, ps, rfl, hs, ?_, he, ?_, ?_, hst⟩
    · rw [hs]
      exact (temp_of_send T h).trans hw
    · rw [hs, state_of_taken h, hw]
      rfl
    · rw [hs]
      rfl

def Moves (T : FpTables) (c : Bool) (a : FpSlot) (s : MatchSys) (i : FpTick) (ph : FpPhase) : Prop :=
  ∃ ph', At T (pushed T c a s i) (s.step T c i) ph' ∧ ∀ k j,
    ((pushed T c a s i).entry T k j).toList ++ owed T (pushed T c a s i) (s.step T c i) k j ph' ++
      (s.step T c i).src.pkts.flatMap (report T k j) = owed T a s k j ph ++ s.src.pkts.flatMap (report T k j)

theorem At.rest (h : At T a s .rest) : Moves T c a s i .rest := by
  obtain ⟨hn, ha, hc⟩ := h
  have hst : (pushed T c a s i).after T = FirstFilter.initState := (BusSlot.after_of_not_valid hn).trans ha
  have he : a.next.ends = false := BusWord.ends_of_not_valid hn
  have hE (k : Fin 8) (j : Fin 32) : ((pushed T c a s i).entry T k j).toList = if a.word.ends then [mark k] else [] :=
    FpSlot.entry_of_not_valid hn
  have hr (hv : (s.step T c i).m.paf.temp.valid = false) (hs : (s.step T c i).src = s.src) : Moves T c a s i .rest := by
    refine ⟨.rest, ⟨hv, hst, by rw [hs, hc]⟩, fun k j => ?_⟩
    have ho : owed T (pushed T c a s i) (s.step T c i) k j .rest = [] := if_neg (by simpa [pushed, FpSlot.push] using he)
    rw [hE, ho, hs, List.append_nil]
    rfl
  cases hp : s.m.paf.state with
  | idle =>
    obtain ⟨h1, -, h3⟩ := step_of_idle (T := T) (c := c) (i := i) hp
    exact hr h1 h3
  | send =>
    cases hv : (s.src.word c i).valid with
    | false => exact hr (by rw [temp_of_send T hp, hv]) (step_of_pause hp hv).2
    | true =>
      obtain ⟨p, ps, hps, hs, hat⟩ := at_first hp hv hc he hst
      refine ⟨_, hat, fun k j => ?_⟩
      have hb : (pushed T c a s i).word.beat? = none := by simp [pushed, FpSlot.push, BusWord.beat?, hn]
      simp only [hE, owed, hst, hb, hs, hps]
      simp [report, FpPacket.beats]

theorem At.paused (h : At T a s .paused) : Moves T c a s i .paused := by
  obtain ⟨hn, hw, hp, n, l, hc, ha⟩ := h
  have hst : (pushed T c a s i).after T = a.after T := BusSlot.after_of_not_valid hn
  have he : a.next.ends = false := BusWord.ends_of_not_valid hn
  have hE (k : Fin 8) (j : Fin 32) : ((pushed T c a s i).entry T k j).toList = [] :=
    (FpSlot.entry_of_not_valid hn).trans (if_neg (by simpa [pushed, FpSlot.push] using hw))
  cases hv : (s.src.word c i).valid with
  | false =>
    obtain ⟨h1, h2⟩ := step_of_pause (T := T) hp hv
    refine ⟨.paused, ⟨?_, he, h1, n, l, ?_, ?_⟩, fun k j => ?_⟩
    · exact (congrArg BusWord.valid (temp_of_send T hp)).trans hv
    · rw [h2, hc]
    · rw [h2, hst, ha]
    · rw [hE, owed, hst, h2]
      rfl
  | true =>
    obtain ⟨hs, hat⟩ := at_beat hp hv hc he (hst.trans ha)
    refine ⟨_, hat, fun k j => ?_⟩
    have hb : (pushed T c a s i).word.beat? = none := by simp [pushed, FpSlot.push, BusWord.beat?, hn]
    rw [hE, owed, hst, hb, hs, owed, hc]
    rfl

theorem mask_of_not_ends (h : a.word.ends = false) : a.mask T = 0 := if_neg (by simp [h])

theorem At.last {pre : List FpBeat} {b : FpBeat} (h : At T a s (.beat pre b)) (hc : s.src.cur = []) :
    Moves T c a s i (.beat pre b) := by
  obtain ⟨hn, hw, hp, hs, ha⟩ := h
  rw [hc] at hn hp
  obtain ⟨hv, he, hsrc⟩ := step_of_idle (T := T) (c := c) (i := i) hp
  have hm : (pushed T c a s i).mask T = 0 := by
    simp only [pushed, FpSlot.push, FpSlot.mask, BusSlot.mask, he]
    split_ifs
    · show FirstFilter.maskOf (FirstFilter.shiftOf 0) = 0
      rfl
    · rfl
  have hend : (pushed T c a s i).word.ends = true := by simp [pushed, FpSlot.push, hn, FpBeat.word, BusWord.ends]
  have hq : (pushed T c a s i).words T = filterWords T b [] := by
    simp only [FpSlot.words, BusSlot.words, hend]
    simp only [pushed, FpSlot.push, hn]
    rfl
  have hE (k : Fin 8) (j : Fin 32) := FpSlot.entry_of_beat (i := k) (j := j) (a := pushed T c a s i)
    (congrArg BusWord.valid hn) (congrArg BusWord.data hn) hw hm hq
  refine ⟨.rest, ⟨hv, ?_, by rw [hsrc, hc]⟩, fun k j => ?_⟩
  · have hvalid : (pushed T c a s i).word.valid = true := congrArg BusWord.valid hn
    rw [FpSlot.after, BusSlot.after, if_pos hvalid, if_pos hend]
    rfl
  · rw [hE, owed, if_pos hend, hsrc, owed, hc]
    simp only [indices, List.append_nil]
    rfl

theorem entry_of_next {pre : List FpBeat} {b n : FpBeat} {l : List FpBeat} (h : At T a s (.beat pre b))
    (hc : s.src.cur = n :: l)
    (hx : T.words b.data false ((s.step T c i).m.paf.temp.data 0) = T.words b.data false (n.data 0)) :
    (pushed T c a s i).after T = stateOver T n FirstFilter.initState s.src.sent ∧ ∀ k j,
      owed T a s k j (.beat pre b) = ((pushed T c a s i).entry T k j).toList ++
        indices T k j ((pushed T c a s i).after T) (some b.data) (n :: l) ++ [mark k] := by
  obtain ⟨hn, hw, hp, hs, ha⟩ := h
  rw [hc] at hn
  have hend : (pushed T c a s i).word.ends = false := by simp [pushed, FpSlot.push, hn, FpBeat.word, BusWord.ends]
  have hv : (pushed T c a s i).word.valid = true := congrArg BusWord.valid hn
  have hd : (pushed T c a s i).word.data = b.data := congrArg BusWord.data hn
  have hq : (pushed T c a s i).words T = filterWords T b (n :: l) := by
    rw [FpSlot.words, BusSlot.words, hend, hd]
    exact hx
  have hst : (pushed T c a s i).after T = FirstFilter.nextState (filterWords T b (n :: l)) (a.after T) := by
    rw [FpSlot.after, BusSlot.after, if_pos hv, if_neg (by simp [hend])]
    exact congrArg (FirstFilter.nextState · (a.after T)) hq
  refine ⟨?_, fun k j => ?_⟩
  · rw [hst, hs, stateOver_snoc, ha]
    rfl
  · rw [FpSlot.entry_of_beat hv hd hw (mask_of_not_ends hend) hq, owed, hc, indices, hst]
    rfl

theorem At.beat {pre : List FpBeat} {b : FpBeat} (h : At T a s (.beat pre b)) (ht : s.m.paf.temp = a.next)
    (ok : PausesHarmless T s c i) : Moves T c a s i (.beat pre b) := by
  cases hc : s.src.cur with
  | nil => exact h.last hc
  | cons n l =>
    have h' := h
    obtain ⟨hn, hw, hp, hs, ha⟩ := h'
    rw [hc] at hn hp
    have hp : s.m.paf.state = .send := hp
    have he : a.next.ends = false := by simp [hn, FpBeat.word, BusWord.ends]
    have hb : (pushed T c a s i).word.beat? = some b.data := by simp [pushed, FpSlot.push, BusWord.beat?, hn, FpBeat.word]
    cases hv : (s.src.word c i).valid with
    | true =>
      have hx : T.words b.data false ((s.step T c i).m.paf.temp.data 0) = T.words b.data false (n.data 0) := by
        have hf := FpSource.word_of_valid hv
        simp only [FpSource.front, hc] at hf
        rw [temp_of_send T hp, ← Option.some.inj hf]
        rfl
      obtain ⟨hst, ho⟩ := entry_of_next h hc hx
      obtain ⟨hsrc, hat⟩ := at_beat hp hv hc he hst
      refine ⟨_, hat, fun k j => ?_⟩
      rw [ho, owed, hb, hsrc]
      simp
    | false =>
      have hok := ok (by rw [ht, hn]; rfl) hv
      simp only [PauseHarmless, hs, List.getLast?_concat, hc] at hok
      have hx : T.words b.data false ((s.step T c i).m.paf.temp.data 0) = T.words b.data false (n.data 0) := by
        rw [temp_of_send T hp, FpSource.word_of_not_valid hv]
        exact FpTables.words_next hok.1
      obtain ⟨hst, ho⟩ := entry_of_next h hc hx
      obtain ⟨h1, h2⟩ := step_of_pause (T := T) hp hv
      refine ⟨.paused, ⟨?_, he, h1, n, l, ?_, ?_⟩, fun k j => ?_⟩
      · exact (congrArg BusWord.valid (temp_of_send T hp)).trans hv
      · rw [h2, hc]
      · rw [h2, hst]
      · have hl : indices T k j ((pushed T c a s i).after T) none (n :: l) =
            indices T k j ((pushed T c a s i).after T) (some b.data) (n :: l) := by
          apply indices_none
          intro hcr
          rw [hst, hs]
          exact hok.2 k j hcr
        rw [ho, owed, h2, hc, hl]
        simp

/-! ## Runs -/

def given (T : FpTables) (hist : List FpSlot) (i : Fin 8) (j : Fin 32) : List RuleS :=
  hist.reverse.flatMap fun a => (a.entry T i j).toList

/-- The slots of `hist` account for the registers and for what was written. -/
structure Flow (T : FpTables) (hist : List FpSlot) (s : MatchSys) : Prop where
  pipe : s.m.Tracks T hist
  out : ∀ i j, s.out i j = given T (hist.drop 21) i j

structure Inv (T : FpTables) (ps : List FpPacket) (hist : List FpSlot) (s : MatchSys) : Prop extends Flow T hist s where
  ledger : ∃ a l ph, hist = a :: l ∧ At T a s ph ∧ ∀ i j,
    given T hist i j ++ owed T a s i j ph ++ s.src.pkts.flatMap (report T i j) = ps.flatMap (report T i j)

variable {ps : List FpPacket} {hist : List FpSlot}

theorem given_cons (k : Fin 8) (j : Fin 32) :
    given T (a :: hist) k j = given T hist k j ++ (a.entry T k j).toList := by
  simp [given]

theorem Flow.start (p : Matcher) : Flow T p.seeds (start p ps) where
  pipe := Matcher.Tracks.reset p
  out := by
    intro i j
    simp [MatchSys.start, Matcher.seeds, given]

theorem Flow.step (h : Flow T (a :: hist) s) : Flow T (pushed T c a s i :: a :: hist) (s.step T c i) where
  pipe := h.pipe.step _ _
  out := by
    intro k j
    have hlen := h.pipe.long
    obtain ⟨y, hy⟩ : ∃ y, (a :: hist)[20]? = some y := ⟨_, List.getElem?_eq_getElem (by omega)⟩
    have hw := h.pipe.written_eq hy k j
    have ho := h.out k j
    simp only [given] at ho ⊢
    rw [flatMap_drop_cons _ _ hy, ← ho, ← hw]
    simp [MatchSys.step]

theorem Inv.start (p : Matcher) : Inv T ps p.seeds (start p ps) where
  toFlow := .start p
  ledger := by
    have hg (i : Fin 8) (j : Fin 32) : given T p.seeds i j = [] := by
      refine List.flatMap_eq_nil_iff.2 fun a ha => ?_
      obtain ⟨h1, h2, -⟩ := p.seeds_quiet (List.mem_reverse.1 ha)
      rw [FpSlot.entry_of_not_valid h2, BusWord.ends_of_not_valid h1]
      rfl
    have hq := p.seeds_quiet (a := p.seeds.head (by simp [Matcher.seeds])) (List.head_mem _)
    refine ⟨_, _, .rest, (List.cons_head_tail (by simp [Matcher.seeds])).symm, ⟨hq.2.2.1, ?_, rfl⟩, fun i j => ?_⟩
    · exact (BusSlot.after_of_not_valid hq.2.1).trans hq.2.2.2
    · rw [hg, owed, BusWord.ends_of_not_valid hq.2.1]
      rfl

theorem At.step {ph : FpPhase} (h : At T a s ph) (ht : s.m.paf.temp = a.next) (ok : PausesHarmless T s c i) :
    Moves T c a s i ph := by
  cases ph with
  | rest => exact h.rest
  | beat pre b => exact h.beat ht ok
  | paused => exact h.paused

theorem Inv.step (h : Inv T ps hist s) (ok : PausesHarmless T s c i) :
    ∃ a, Inv T ps (a :: hist) (s.step T c i) := by
  obtain ⟨a, l, ph, rfl, hat, htot⟩ := h.ledger
  obtain ⟨ph', hat', hmv⟩ := hat.step h.pipe.head.1 ok
  refine ⟨_, h.toFlow.step, pushed T c a s i, a :: l, ph', rfl, hat', fun k j => ?_⟩
  rw [given_cons, ← htot k j, List.append_assoc, List.append_assoc, List.append_assoc, ← hmv k j]
  simp

theorem pausesHarmless_of_done (h : s.src.cur = []) : PausesHarmless T s c i := by
  intro _ _
  unfold PauseHarmless
  rw [h]
  split
  · rename_i heq
    cases heq
  · trivial

theorem pausesHarmless_of_offer (h : (i.offer || c) = true) : PausesHarmless T s c i := by
  intro ht hv
  refine pausesHarmless_of_done (c := c) ?_ ht hv
  by_contra hne
  obtain ⟨n, l, hnl⟩ := List.exists_cons_of_ne_nil hne
  have ho : (i.offer || c && !s.src.cur.isEmpty) = true := by simpa [hnl] using h
  rw [FpSource.word, if_pos ho, FpSource.front, hnl] at hv
  cases hv

theorem Inv.after (is : List FpTick) (h : Inv T ps hist s)
    (ok : AllSteps (MatchSys.step T c) (fun s i => PausesHarmless T s c i) s is) :
    ∃ l : List FpSlot, l.length = is.length ∧ Inv T ps (l ++ hist) (run (MatchSys.step T c) s is) := by
  induction is generalizing s hist with
  | nil => exact ⟨[], rfl, h⟩
  | cons i is ih =>
    obtain ⟨a, h'⟩ := h.step ok.1
    obtain ⟨l, hl, h''⟩ := ih h' ok.2
    exact ⟨l ++ [a], by simp [hl], by simpa using h''⟩

theorem Inv.out_prefix (h : Inv T ps hist s) (k : Fin 8) (j : Fin 32) : s.out k j <+: ps.flatMap (report T k j) := by
  obtain ⟨a, l, ph, rfl, -, htot⟩ := h.ledger
  rw [h.out, ← htot, List.append_assoc]
  refine List.IsPrefix.trans ?_ (List.prefix_append _ _)
  conv_rhs => rw [← List.take_append_drop 21 (a :: l)]
  simp only [given, List.reverse_append, List.flatMap_append]
  exact List.prefix_append _ _

/-! ## Everything comes out -/

def Done (s : MatchSys) : Prop := s.src.cur = [] ∧ s.src.pkts = []

/-- A bound for the cycles until then, when there is room for every packet. -/
def work (s : MatchSys) : Nat :=
  2 * (s.src.cur.length + (s.src.pkts.flatMap FpPacket.beats).length) + if s.m.paf.state = .idle then 1 else 0

/-- A cycle in which the source offers its next beat and there is room for it. -/
def go (bus : FpWord) : FpTick := ⟨true, bus, false⟩

theorem Done.not_valid (h : s.Done) : (s.src.word c i).valid = false := by
  unfold FpSource.word FpSource.front
  rw [h.1, h.2]
  split_ifs <;> rfl

theorem Done.step (h : s.Done) : (s.step T c i).Done := by
  have hs : (s.step T c i).src = s.src := by simp [MatchSys.step, h.not_valid]
  exact ⟨by rw [hs, h.1], by rw [hs, h.2]⟩

theorem Done.allSteps (h : s.Done) (is : List FpTick) :
    AllSteps (MatchSys.step T c) (fun s i => PausesHarmless T s c i) s is :=
  allSteps_of_inv (MatchSys.step T c) (fun _ _ (hd : MatchSys.Done _) (_ : True) => hd.step)
    (fun _ _ hd _ => pausesHarmless_of_done hd.1) is s h (allSteps_of_forall _ (fun _ _ => trivial) _ _)

theorem work_step (bus : FpWord) : (s.step T c (go bus)).work < s.work ∨ s.Done := by
  cases hp : s.m.paf.state with
  | idle =>
    left
    have hs : (s.step T c (go bus)).src = s.src := (step_of_idle hp).2.2
    have hst : (s.step T c (go bus)).m.paf.state = .send := by
      simp [MatchSys.step, Matcher.step, PktAlmostFull.step, hp, go]
    simp [work, hs, hst, hp]
  | send =>
    have hle : (if (s.step T c (go bus)).m.paf.state = .idle then 1 else 0) ≤ 1 := by split_ifs <;> omega
    cases hv : (s.src.word c (go bus)).valid with
    | true =>
      left
      have hs := src_of_taken (T := T) hp hv
      have hf := FpSource.word_of_valid hv
      unfold work
      rw [hs, FpSource.taken]
      cases hc : s.src.cur with
      | cons n l => simp [hp]; omega
      | nil =>
        cases hk : s.src.pkts with
        | nil => simp [FpSource.front, hc, hk] at hf
        | cons q qs => simp [hp, FpPacket.beats]; omega
    | false =>
      right
      have hw : (s.src.front.getD { bus with valid := false }).valid = false := hv
      cases hf : s.src.front with
      | some w =>
        rw [hf, Option.getD_some, FpSource.front_valid hf] at hw
        cases hw
      | none =>
        unfold FpSource.front at hf
        split at hf
        · cases hf
        · cases hf
        · exact ⟨by assumption, by assumption⟩

theorem Done.temp (h : s.Done) : (s.step T c i).m.paf.temp.valid = false := by
  cases hp : s.m.paf.state with
  | idle => exact (step_of_idle hp).1
  | send => exact (congrArg BusWord.valid (temp_of_send T hp)).trans h.not_valid

theorem At.eq_rest {ph : FpPhase} (h : At T a s ph) (hd : s.Done) (hn : a.next.valid = false) : ph = .rest := by
  cases ph with
  | rest => rfl
  | beat pre b =>
    rw [h.1] at hn
    cases hn
  | paused =>
    obtain ⟨-, -, -, n, l, hc, -⟩ := h
    rw [hd.1] at hc
    cases hc

theorem Inv.settled (h : Inv T ps hist s) (hd : s.Done) (i i' : FpTick) : ∃ a a', Inv T ps (a' :: a :: hist)
    ((s.step T c i).step T c i') ∧ ∀ k j, given T (a' :: a :: hist) k j = ps.flatMap (report T k j) := by
  obtain ⟨a, h1⟩ := h.step (pausesHarmless_of_done (c := c) (i := i) hd.1)
  have hd1 := hd.step (T := T) (c := c) (i := i)
  obtain ⟨a', h2⟩ := h1.step (pausesHarmless_of_done (c := c) (i := i') hd1.1)
  have hd2 := hd1.step (T := T) (c := c) (i := i')
  refine ⟨a, a', h2, fun k j => ?_⟩
  obtain ⟨b, l, ph, hb, hat, htot⟩ := h2.ledger
  obtain ⟨rfl, -⟩ := List.cons.inj hb
  have hn : a'.next.valid = false := h2.pipe.head.1 ▸ hd1.temp
  obtain rfl := hat.eq_rest hd2 hn
  -- the word of the slot is the one that was behind the packets before
  have hw : a'.word.valid = false := by
    have h0 : ((s.step T c i).step T c i').m.paf.hp 0 = a'.word := h2.pipe.head.2.1
    rw [← h0]
    exact (congrArg BusWord.valid (PktAlmostFull.step_hp_zero _ _ _)).trans hd.temp
  rw [← htot k j, owed, BusWord.ends_of_not_valid hw, hd2.2]
  simp

theorem Inv.out_later (h : Inv T ps hist s) (hd : s.Done) {js : List FpTick} (hj : js.length = 21) (k : Fin 8)
    (j : Fin 32) : (run (MatchSys.step T c) s js).out k j = given T hist k j := by
  obtain ⟨l, hl, h'⟩ := h.after js (hd.allSteps js)
  rw [h'.out, List.drop_left' (hl.trans hj)]

/-- Each lane receives the entries of `R` in order, and given room for long enough, all of them. -/
structure Reports (T : FpTables) (c : Bool) (R : Fin 8 → Fin 32 → List RuleS) (s : MatchSys) : Prop where
  out : ∀ i j, s.out i j <+: R i j
  delivered : ∀ bus n js, s.work ≤ n → js.length = 23 → ∀ i j,
    (run (MatchSys.step T c) s (List.replicate n (go bus) ++ js)).out i j = R i j

theorem Inv.reports (h : Inv T ps hist s) : s.Reports T c fun i j => ps.flatMap (report T i j) where
  out := h.out_prefix
  delivered := by
    intro bus n js hn hj k l
    have hok : AllSteps (MatchSys.step T c) (fun s i => PausesHarmless T s c i) s (List.replicate n (go bus)) := by
      clear hn
      induction n generalizing s hist with
      | zero => trivial
      | succ n ih =>
        have h0 : PausesHarmless T s c (go bus) := pausesHarmless_of_offer rfl
        obtain ⟨_, h'⟩ := h.step h0
        exact ⟨h0, ih h'⟩
    have hd : (run (MatchSys.step T c) s (List.replicate n (go bus))).Done :=
      run_reaches (MatchSys.step T c) Done work (fun _ _ (_ : True) (_ : True) => trivial)
        (fun s _ => work_step bus) (fun s _ hd => hd.step) n trivial (.inl hn)
        (allSteps_of_forall _ (fun _ _ => trivial) _ _)
    obtain ⟨_, _, h1⟩ := h.after _ hok
    obtain ⟨j0, js, rfl⟩ := List.exists_cons_of_length_eq_add_one hj
    obtain ⟨j1, js, rfl⟩ := List.exists_cons_of_length_eq_add_one (Nat.succ.inj hj)
    obtain ⟨a, a', h2, hg⟩ := h1.settled (c := c) hd j0 j1
    rw [run_append, run_cons, run_cons, h2.out_later hd.step.step (by simpa using hj), hg]

theorem reports_run (T : FpTables) (p : Matcher) (ps : List FpPacket) (is : List FpTick) :
    Reports T true (fun i j => ps.flatMap (report T i j)) (run (MatchSys.step T true) (.start p ps) is) := by
  have hok : AllSteps (MatchSys.step T true) (fun s i => MatchSys.PausesHarmless T s true i) (.start p ps) is :=
    allSteps_of_forall _ (fun _ i => MatchSys.pausesHarmless_of_offer (Bool.or_true i.offer)) is _
  obtain ⟨_, _, h⟩ := (MatchSys.Inv.start p).after is hok
  exact h.reports

end MatchSys

end Pigasus
