import Pigasus.MatcherSound

/-!
# The FIFOs of the lanes do not overflow

The FIFOs hold a packet back only before it begins. Their reserve has to take
what is in the pipeline, the rest of the packet and its marker; a bound on the
sum of these and of the fill level is kept by every step.
-/

namespace Pigasus

open Hdl

/-! ## The string matcher with its FIFOs -/

/-- `FULL_LEVEL` and `FIFO_DEPTH` of the lane FIFOs. -/
def laneFullLevel : Nat := 40

def laneFifoDepth : Nat := 128

/-- One cycle: the source, and how many entries the reader takes from each FIFO. -/
structure LaneTick where
  offer : Bool
  bus : FpWord
  pops : Lanes Nat

structure LaneSys where
  sys : MatchSys
  fill : Lanes Nat
  almostFull : Lanes Bool
  pipedPktAlmostFull : Bool

namespace LaneSys

def start (p : Matcher) (ps : List FpPacket) : LaneSys where
  sys := .start p ps
  fill := lanes fun _ _ => 0
  almostFull := lanes fun _ _ => false
  pipedPktAlmostFull := false

def inReady (s : LaneSys) (k : Fin 8) (j : Fin 32) : Bool := decide (s.fill k j < laneFifoDepth)

def matchTick (s : LaneSys) (i : LaneTick) : FpTick := ⟨i.offer, i.bus, s.pipedPktAlmostFull⟩

def step (T : FpTables) (c : Bool) (s : LaneSys) (i : LaneTick) : LaneSys where
  sys := s.sys.step T c (s.matchTick i)
  fill := lanes fun k j =>
    s.fill k j - i.pops k j + if (s.sys.m.written k j).isSome && s.inReady k j then 1 else 0
  almostFull := lanes fun k j => decide (laneFullLevel ≤ s.fill k j)
  pipedPktAlmostFull := (List.finRange 8).any fun k => (List.finRange 32).any fun j => s.almostFull k j

/-- No entry is presented to a FIFO that does not take it. -/
def NoOverflow (s : LaneSys) : Prop := ∀ k j, (s.sys.m.written k j).isSome = true → s.inReady k j = true

end LaneSys

/-! ## What can still come -/

def inFlight (T : FpTables) (hist : List FpSlot) (k : Fin 8) (j : Fin 32) : Nat :=
  (hist.take 21).countP fun a => (a.entry T k j).isSome

/-- The most entries that a lane can receive from the newest word on, up to the marker of the packet that has begun or
may begin. -/
def toCome (a : FpSlot) (s : MatchSys) : Nat :=
  (if a.next.valid || a.word.ends then 1 else 0) + (if a.next.ends then 1 else 0) + s.src.cur.length +
    if s.src.cur ≠ [] then 1 else if s.m.paf.state = .send then 64 else 0

section
variable {T : FpTables} {a : FpSlot} {s : MatchSys} {c : Bool} {i : FpTick} {hist : List FpSlot}

theorem inFlight_le (T : FpTables) (hist : List FpSlot) (k : Fin 8) (j : Fin 32) : inFlight T hist k j ≤ 21 := by
  refine Nat.le_trans List.countP_le_length ?_
  simp

theorem inFlight_cons {y : FpSlot} (x : FpSlot) (hy : hist[20]? = some y) (k : Fin 8) (j : Fin 32) :
    inFlight T (x :: hist) k j + (if (y.entry T k j).isSome then 1 else 0) =
      inFlight T hist k j + if (x.entry T k j).isSome then 1 else 0 := by
  have ht : hist.take 21 = hist.take 20 ++ [y] := by rw [List.take_add_one, hy]; rfl
  simp only [inFlight, List.take_succ_cons, List.countP_cons, ht, List.countP_append, List.countP_nil]
  omega

theorem entry_le (k : Fin 8) (j : Fin 32) : (if ((MatchSys.pushed T c a s i).entry T k j).isSome then 1 else 0) ≤
    if a.next.valid || a.word.ends then 1 else 0 := by
  cases hv : a.next.valid with
  | true =>
    rw [Bool.true_or, if_pos rfl]
    split_ifs <;> omega
  | false =>
    have h : ((MatchSys.pushed T c a s i).entry T k j).toList = if a.word.ends then [mark k] else [] :=
      FpSlot.entry_of_not_valid hv
    cases he : a.word.ends with
    | true => split_ifs <;> simp_all
    | false =>
      rw [he, if_neg (by simp), Option.toList_eq_nil_iff] at h
      simp [h]

theorem toCome_wait (hv : (s.step T c i).m.paf.temp.valid = false) (hs : (s.step T c i).src = s.src) :
    toCome (MatchSys.pushed T c a s i) (s.step T c i) + (if a.next.valid || a.word.ends then 1 else 0) ≤
      toCome a s + if s.m.paf.state = .idle ∧ (s.step T c i).m.paf.state = .send then 64 else 0 := by
  have hn : (MatchSys.pushed T c a s i).next = (s.step T c i).m.paf.temp := rfl
  have hw : (MatchSys.pushed T c a s i).word = a.next := rfl
  simp only [toCome, hn, hw, hv, BusWord.ends_of_not_valid hv, hs, Bool.false_or]
  -- a packet may begin only if none has begun and the state goes to `send`
  have hst : (if s.src.cur ≠ [] then 1 else if (s.step T c i).m.paf.state = .send then 64 else 0) ≤
      (if s.src.cur ≠ [] then 1 else if s.m.paf.state = .send then 64 else 0) +
        if s.m.paf.state = .idle ∧ (s.step T c i).m.paf.state = .send then 64 else 0 := by
    by_cases hc : s.src.cur ≠ []
    · rw [if_pos hc, if_pos hc]
      omega
    · rw [if_neg hc, if_neg hc]
      cases hp : s.m.paf.state <;> cases hp' : (s.step T c i).m.paf.state <;> simp
  have hb : (if false = true then 1 else 0) = 0 := rfl
  omega

theorem toCome_step (he : a.next.ends = true → s.m.paf.state = .idle)
    (hl : ∀ q ∈ s.src.pkts, q.beats.length ≤ 63) :
    toCome (MatchSys.pushed T c a s i) (s.step T c i) + (if a.next.valid || a.word.ends then 1 else 0) ≤
      toCome a s + if s.m.paf.state = .idle ∧ (s.step T c i).m.paf.state = .send then 64 else 0 := by
  cases hp : s.m.paf.state with
  | idle =>
    obtain ⟨hv, -, hs⟩ := MatchSys.step_of_idle (T := T) (c := c) (i := i) hp
    have := toCome_wait (a := a) hv hs
    rwa [hp] at this
  | send =>
    have hne : a.next.ends = false := by
      by_contra h
      rw [hp] at he
      exact absurd (he (by simpa using h)) (by simp)
    cases hv : (s.src.word c i).valid with
    | false =>
      have := toCome_wait (T := T) (a := a) ((congrArg BusWord.valid (MatchSys.temp_of_send T hp)).trans hv)
        (MatchSys.step_of_pause hp hv).2
      rwa [hp] at this
    | true =>
      have hn : (MatchSys.pushed T c a s i).next = s.src.word c i := MatchSys.temp_of_send T hp
      have hw : (MatchSys.pushed T c a s i).word = a.next := rfl
      have hs := MatchSys.src_of_taken (T := T) hp hv
      have hst := MatchSys.state_of_taken (T := T) (c := c) (i := i) hp
      have hf := FpSource.word_of_valid hv
      cases hc : s.src.cur with
      | cons n l =>
        have hx : s.src.word c i = n.word l.isEmpty := by simpa [FpSource.front, hc] using hf.symm
        simp only [toCome, hn, hw, hne, hs, FpSource.taken, hc, hst, hx, hp]
        cases l <;> simp [FpBeat.word, BusWord.ends] <;> omega
      | nil =>
        cases hk : s.src.pkts with
        | nil => simp [FpSource.front, hc, hk] at hf
        | cons q qs =>
          have hq : q.rest.length + 1 ≤ 63 := by simpa [FpPacket.beats] using hl q (by simp [hk])
          have hx : s.src.word c i = q.first.word q.rest.isEmpty := by simpa [FpSource.front, hc, hk] using hf.symm
          simp only [toCome, hn, hw, hne, hs, FpSource.taken, hc, hk, hst, hx, hp]
          cases hr : q.rest <;> simp [FpBeat.word, BusWord.ends] <;> simp [hr] at hq <;> omega

end

/-! ## Runs -/

namespace LaneSys

structure Inv (T : FpTables) (s : LaneSys) (hist : List FpSlot) : Prop where
  flow : s.sys.Flow T hist
  idle : s.sys.m.paf.state = .idle → s.sys.src.cur = []
  ends : s.sys.m.paf.temp.ends = true → s.sys.m.paf.state = .idle
  short : ∀ q ∈ s.sys.src.pkts, q.beats.length ≤ 63
  -- the levels are one and two cycles old when a packet is let in
  almostFull : ∀ k j, s.almostFull k j = false → s.fill k j ≤ 40
  piped : s.pipedPktAlmostFull = false → ∀ k j, s.fill k j ≤ 41
  bound : ∀ a l, hist = a :: l → ∀ k j, s.fill k j + inFlight T hist k j + toCome a s.sys ≤ 128

variable {T : FpTables} {c : Bool} {s : LaneSys} {hist : List FpSlot}

theorem Inv.start (p : Matcher) {ps : List FpPacket} (hp : ∀ q ∈ ps, q.beats.length ≤ 63) :
    Inv T (start p ps) p.seeds where
  flow := .start p
  idle _ := rfl
  ends h := by cases h
  short := hp
  almostFull := by simp [LaneSys.start]
  piped := by simp [LaneSys.start]
  bound := by
    intro a l ha k j
    have hq := p.seeds_quiet (a := a) (by simp [ha])
    have hi := inFlight_le T p.seeds k j
    have h0 : toCome a (LaneSys.start p ps).sys = 0 := by
      simp [toCome, hq.2.2.1, BusWord.ends_of_not_valid hq.2.2.1, BusWord.ends_of_not_valid hq.2.1, LaneSys.start,
        MatchSys.start, Matcher.reset]
    rw [h0]
    simp [LaneSys.start]
    omega

theorem fill_step (i : LaneTick) (k : Fin 8) (j : Fin 32) :
    (s.step T c i).fill k j ≤ s.fill k j + if (s.sys.m.written k j).isSome then 1 else 0 := by
  simp only [step, lanes_get]
  cases (s.sys.m.written k j).isSome <;> cases s.inReady k j <;> simp
  omega

theorem taken_pkts (s : FpSource) : ∀ q ∈ s.taken.pkts, q ∈ s.pkts := by
  intro q hq
  unfold FpSource.taken at hq
  split at hq
  · exact hq
  · rename_i hk
    rw [hk]
    exact List.mem_cons_of_mem _ hq
  · exact hq

theorem taken_cur {s : FpSource} {c : Bool} {i : FpTick} (h : (s.word c i).ends = true) : s.taken.cur = [] := by
  have hv : (s.word c i).valid = true := (Bool.and_eq_true_iff.1 h).1
  have he : (s.word c i).eop = true := (Bool.and_eq_true_iff.1 h).2
  have hf := FpSource.word_of_valid hv
  unfold FpSource.front at hf
  unfold FpSource.taken
  split at hf
  · rw [← Option.some.inj hf] at he
    simpa [FpBeat.word] using he
  · rw [← Option.some.inj hf] at he
    simpa [FpBeat.word] using he
  · cases hf

theorem Inv.bound_step (h : Inv T s hist) {a : FpSlot} {l : List FpSlot} (ha : hist = a :: l) (i : LaneTick) (k : Fin 8)
    (j : Fin 32) : s.fill k j + inFlight T hist k j + toCome a s.sys +
      (if s.sys.m.paf.state = .idle ∧ (s.sys.step T c (s.matchTick i)).m.paf.state = .send then 64 else 0) ≤ 128 := by
  split_ifs with ht
  · obtain ⟨hi, hs⟩ := ht
    have hp : s.pipedPktAlmostFull = false := by
      cases hf : s.pipedPktAlmostFull with
      | false => rfl
      | true => simp [MatchSys.step, Matcher.step, PktAlmostFull.step, matchTick, hi, hf] at hs
    have h1 := h.piped hp k j
    have h2 := inFlight_le T hist k j
    have h3 : toCome a s.sys ≤ 2 := by
      simp only [toCome, h.idle hi, hi]
      split_ifs <;> simp_all
    omega
  · have := h.bound a l ha k j
    omega

theorem Inv.step (i : LaneTick) (h : Inv T s hist) : ∃ a, Inv T (s.step T c i) (a :: hist) := by
  obtain ⟨a, l, rfl⟩ : ∃ a l, hist = a :: l := by
    cases hist with
    | nil => exact absurd h.flow.pipe.long (by simp)
    | cons a l => exact ⟨a, l, rfl⟩
  refine ⟨MatchSys.pushed T c a s.sys (s.matchTick i), ⟨h.flow.step, ?_, ?_, ?_, ?_, ?_, ?_⟩⟩
  · intro hi
    cases hp : s.sys.m.paf.state with
    | idle => exact (congrArg FpSource.cur (MatchSys.step_of_idle hp).2.2).trans (h.idle hp)
    | send =>
      have hst := MatchSys.state_of_taken (T := T) (c := c) (i := s.matchTick i) hp
      have he : (s.sys.src.word c (s.matchTick i)).ends = true := by
        by_contra hne
        rw [if_neg hne] at hst
        exact absurd (hi.symm.trans hst) (by simp)
      exact (congrArg FpSource.cur (MatchSys.src_of_taken hp (Bool.and_eq_true_iff.1 he).1)).trans (taken_cur he)
  · intro he
    cases hp : s.sys.m.paf.state with
    | idle =>
      have hv := (MatchSys.step_of_idle (T := T) (c := c) (i := s.matchTick i) hp).1
      exact absurd he (by simp [LaneSys.step, BusWord.ends_of_not_valid hv])
    | send =>
      have ht : (s.step T c i).sys.m.paf.temp = s.sys.src.word c (s.matchTick i) := MatchSys.temp_of_send T hp
      rw [ht] at he
      exact (MatchSys.state_of_taken hp).trans (if_pos he)
  · intro q hq
    simp only [LaneSys.step, MatchSys.step] at hq
    split_ifs at hq
    · exact h.short q (taken_pkts _ q hq)
    · exact h.short q hq
  · intro k j hf
    have hl : s.fill k j ≤ 39 := by
      simp only [LaneSys.step, lanes_get, laneFullLevel] at hf
      have := of_decide_eq_false hf
      omega
    have := fill_step (T := T) (c := c) (s := s) i k j
    split_ifs at this <;> omega
  · intro hp k j
    have ha : s.almostFull k j = false := by
      simp only [LaneSys.step, List.any_eq_false, List.mem_finRange, true_implies, Bool.not_eq_true] at hp
      exact hp k j
    have := fill_step (T := T) (c := c) (s := s) i k j
    have := h.almostFull k j ha
    split_ifs at * <;> omega
  · intro b m hb k j
    obtain ⟨rfl, rfl⟩ := List.cons.inj hb
    have hlen := h.flow.pipe.long
    obtain ⟨y, hy⟩ : ∃ y, (a :: l)[20]? = some y := ⟨_, List.getElem?_eq_getElem (by omega)⟩
    have hw := h.flow.pipe.written_eq hy k j
    have h1 := fill_step (T := T) (c := c) (s := s) i k j
    rw [hw] at h1
    have h2 := inFlight_cons (T := T) (MatchSys.pushed T c a s.sys (s.matchTick i)) hy k j
    have h3 := entry_le (T := T) (c := c) (a := a) (s := s.sys) (i := s.matchTick i) k j
    have hends : a.next.ends = true → s.sys.m.paf.state = .idle := by
      intro he
      exact h.ends (h.flow.pipe.head.1 ▸ he)
    have h4 := toCome_step (T := T) (c := c) (i := s.matchTick i) hends h.short
    have h5 := h.bound_step (c := c) rfl i k j
    have h6 : (s.step T c i).sys = s.sys.step T c (s.matchTick i) := rfl
    rw [h6]
    omega

theorem Inv.noOverflow (h : Inv T s hist) : s.NoOverflow := by
  intro k j hw
  have hlen := h.flow.pipe.long
  obtain ⟨y, hy⟩ : ∃ y, hist[20]? = some y := ⟨_, List.getElem?_eq_getElem (by omega)⟩
  obtain ⟨a, l, hal⟩ : ∃ a l, hist = a :: l := List.exists_cons_of_ne_nil (by rintro rfl; cases hy)
  rw [h.flow.pipe.written_eq hy k j] at hw
  have hpos : 0 < inFlight T hist k j := by
    refine List.countP_pos_iff.2 ⟨y, ?_, hw⟩
    exact List.mem_of_getElem? ((List.getElem?_take_of_lt (by omega)).trans hy)
  have := h.bound a l hal k j
  refine decide_eq_true ?_
  rw [laneFifoDepth]
  omega

end LaneSys

/-- Whatever the tables hold and the reader does, with packets of at most 63 beats no entry is presented to a lane
FIFO that is full. -/
theorem laneFifos_noOverflow (T : FpTables) (c : Bool) (p : Matcher) (ps : List FpPacket)
    (h : ∀ q ∈ ps, q.beats.length ≤ 63) (is : List LaneTick) :
    (run (LaneSys.step T c) (.start p ps) is).NoOverflow := by
  have hstep (s : LaneSys) (i : LaneTick) (hs : ∃ hist, LaneSys.Inv T s hist) (_ : True) :
      ∃ hist, LaneSys.Inv T (s.step T c i) hist := by
    obtain ⟨_, hi⟩ := hs
    obtain ⟨_, h'⟩ := hi.step (c := c) i
    exact ⟨_, h'⟩
  obtain ⟨_, hr⟩ := run_inv (LaneSys.step T c) hstep is _ ⟨_, .start p h⟩
    (allSteps_of_forall _ (fun _ _ => trivial) is _)
  exact hr.noOverflow

/-- Every window is an index. -/
def everyIndex : FpTables := ⟨fun _ => 0, fun _ _ => 0xff⟩

def zeroBeat : FpBeat := ⟨vec fun _ => 0, 0⟩

/-- A packet of the greatest length is offered all the time, to lanes that are never read. -/
theorem laneFifos_noOverflow_longest :
    (∀ q ∈ List.replicate 9 (⟨zeroBeat, List.replicate 62 zeroBeat⟩ : FpPacket), q.beats.length ≤ 63) ∧
      (run (LaneSys.step everyIndex true)
        (.start default (List.replicate 9 ⟨zeroBeat, List.replicate 62 zeroBeat⟩))
        (List.replicate 600 ⟨true, ⟨false, false, 0, zeroBeat.data⟩, lanes fun _ _ => 0⟩)).NoOverflow := by
  have h : ∀ q ∈ List.replicate 9 (⟨zeroBeat, List.replicate 62 zeroBeat⟩ : FpPacket), q.beats.length ≤ 63 := by
    intro q hq
    obtain rfl := List.eq_of_mem_replicate hq
    simp [FpPacket.beats]
  exact ⟨h, laneFifos_noOverflow everyIndex true default _ h _⟩

end Pigasus
