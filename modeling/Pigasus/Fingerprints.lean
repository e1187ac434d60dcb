import Pigasus.Windows

/-!
# The fingerprint of a packet from its bytes

What `cal_fp` gathers for a packet is read off its bytes, but for one thing: the end of
the last beat is masked with the `in_empty` of the cycle behind it.
-/

namespace Pigasus

open Hdl

/-! ## The bits of a packet -/

/-- The index bits of the buckets; the windows of bucket `i` have `8 - i` bytes. -/
def nfIndexBits (i : Fin 8) : Nat := [17, 13, 13, 13, 13, 12, 11, 10].getD i.val 0

def nfIndex (i : Fin 8) (l : List Byte) (n : Nat) : Nat := windowIndex (8 - i.val) (nfIndexBits i) l n

/-- The table has words for a byte and the low six bits of the next one. -/
def nfTableWord (T : NfTables) (l : List Byte) (n : Nat) : BitVec 64 :=
  T.matchTable ((l.getD (n + 1) 0).extractLsb' 0 6 ++ l.getD n 0)

/-- A match of bucket `i` ends at byte `n` of a packet with the bytes `l` that is cut at `stop`: the window lies in the
packet and the bitmap has its index; a window of more than one byte ends before `stop`, and no byte rules it out. -/
def NfMatches (T : NfTables) (l : List Byte) (stop : Nat) (i : Fin 8) (n : Nat) : Prop :=
  8 - i.val ≤ n + 1 ∧ (T.bitmap i (BitVec.ofNat 14 (nfIndex i l n / 8))).getLsbD (nfIndex i l n % 8) = true ∧
    (i.val < 7 → n < stop ∧ ShiftOr.serial 0x000103070f1f3f7f#64 (nfTableWord T l) n i.val = false)

def NfBit (T : NfTables) (l : List Byte) (stop : Nat) (i : Fin 8) (b : Nat) : Prop :=
  ∃ n < l.length, NfMatches T l stop i n ∧ nfIndex i l n % 16 = b

instance (T : NfTables) (l : List Byte) (stop : Nat) (i : Fin 8) (n : Nat) : Decidable (NfMatches T l stop i n) := by
  unfold NfMatches
  infer_instance

instance (T : NfTables) (l : List Byte) (stop : Nat) (i : Fin 8) (b : Nat) : Decidable (NfBit T l stop i b) := by
  unfold NfBit
  infer_instance

namespace NfPacket

def bytes (p : NfPacket) : List Byte := Pigasus.bytes (p.beats.map NfBeat.data)

/-- The bit that a match sets, when the packet is cut off by `e` bytes. -/
def Sets (T : NfTables) (p : NfPacket) (e : BitVec 4) (i : Fin 8) (b : Nat) : Prop :=
  NfBit T p.bytes (p.bytes.length - e.toNat) i b

/-- `f` has the bits of the matches, in field `i` those of bucket `i`. -/
def Gives (T : NfTables) (p : NfPacket) (e : BitVec 4) (f : Fingerprint) : Prop :=
  ∀ i b, (f i).getLsbD b = true ↔ p.Sets T e i b

instance (T : NfTables) (p : NfPacket) (e : BitVec 4) (i : Fin 8) (b : Nat) : Decidable (p.Sets T e i b) :=
  inferInstanceAs (Decidable (NfBit ..))

end NfPacket

/-- The packets, each with the `in_empty` of the cycle behind its last beat. -/
def followed (tail : List NfIdle) : List NfPacket → List (NfPacket × BitVec 4)
  | [] => []
  | p :: ps => (p, ((ps.flatMap NfPacket.words ++ tail.map NfIdle.word).headD .idle).empty) :: followed tail ps

/-! ## One beat -/

theorem length_nf : ∀ i : Fin 8, nfIndexBits i = nfBits i ∧ nfBits i ≤ 17 := by decide

theorem initState_blocks : ∀ n < 7, ∀ i < 7, n + i < 7 → NfFilter.initState.getLsbD (8 * n + i) = true := by decide

section
variable {T : NfTables} {i : Fin 8} {j : Fin 16} {st : BitVec 64} {pre : List (Vec Byte 16)} {b : NfBeat} {l : List NfBeat}
variable {prev next : NfWord}

def nfEntry (T : NfTables) (l : List Byte) (stop : Nat) (i : Fin 8) (n : Nat) : Option (BitVec 17) :=
  if NfMatches T l stop i n then some (BitVec.ofNat 17 (nfIndex i l n)) else none

/-- The last one of the beats before is on the bus in front of the next. -/
def Behind (pre : List (Vec Byte 16)) (prev : NfWord) : Prop := ∀ c, pre.getLast? = some c → prev.valid = true ∧ prev.data = c

theorem nfIndex_lt (i : Fin 8) (l : List Byte) (n : Nat) : nfIndex i l n < 2 ^ 17 := by
  obtain ⟨hb, hn⟩ := length_nf i
  rw [nfIndex, windowIndex, Nat.div_lt_iff_lt_mul (Nat.two_pow_pos _), ← Nat.pow_add]
  refine Nat.lt_of_lt_of_le (Nat.mod_lt _ (Nat.two_pow_pos 64)) (Nat.pow_le_pow_right (by omega) (by omega))

theorem hash_eq (hp : Behind pre prev) (h : 8 - i.val ≤ 16 * pre.length + j.val + 1) (eop : Bool) (ds : List (Vec Byte 16)) :
    NfSlot.hash ⟨prev, b.word eop, next, st⟩ i j =
      BitVec.ofNat 17 (nfIndex i (bytes (pre ++ b.data :: ds)) (16 * pre.length + j.val)) := by
  obtain ⟨hb, hn⟩ := length_nf i
  have hbyte : ∀ k : Fin 8, i.val ≤ k.val → nfPadded prev.data b.data (NfHash.windowAt j k) =
      (bytes (pre ++ b.data :: ds)).getD (16 * pre.length + j.val - (7 - k.val)) 0 := by
    intro k hk
    rw [getD_window (by omega) (fun c hc => (hp c hc).2) j k (by omega), nfPadded, NfHash.padded, NfHash.lastBytes]
    refine dite_congr rfl (fun _ => ?_) fun _ => rfl
    rw [vec_get]
    congr 1
    exact Fin.ext (by simp only [NfHash.windowAt]; omega)
  have hs := toNat_sumOf i.val (nfBits i) (by omega) (by omega)
    (fun k => nfPadded prev.data b.data (NfHash.windowAt j k)) _ _ hbyte
  rw [nfIndex, hb, ← hs, NfSlot.hash, AccHash.select]
  apply BitVec.eq_of_toNat_eq
  rw [BitVec.toNat_setWidth, BitVec.toNat_ofNat]
  rfl

theorem words_eq (hn : ∀ c m, l = c :: m → next.data = c.data) :
    BusSlot.words (NfFilter.design T) ⟨prev, b.word l.isEmpty, next, st⟩ =
      (NfFilter.design T).beatWords b.data (l.map NfBeat.data) := by
  refine vec_ext fun k => ?_
  rw [BusSlot.words, FilterDesign.beatWords, vec_get, vec_get]
  cases l with
  | nil => exact (NfFilter.sound T).read_end ..
  | cons c m => exact congrArg ((NfFilter.design T).read b.data false · k) (hn c m rfl)

theorem filterOut_bit (hst : (NfFilter.design T).Carries (NfFilter.look T) st pre ((b :: l).map NfBeat.data))
    (hn : ∀ c m, l = c :: m → next.data = c.data) :
    (NfSlot.filterOut T ⟨prev, b.word l.isEmpty, next, st⟩).getLsbD (i.val + 8 * j.val) =
      (ShiftOr.serial NfFilter.initState (nfTableWord T (bytes (pre ++ (b :: l).map NfBeat.data)))
        (16 * pre.length + j.val) i.val || l.isEmpty && decide (16 - next.empty.toNat ≤ j.val)) := by
  have hs := NfFilter.sound T
  have hm : (BusSlot.mask (NfFilter.design T) ⟨prev, b.word l.isEmpty, next, st⟩).getLsbD (8 * j.val + i.val) =
      (l.isEmpty && decide (16 - next.empty.toNat ≤ j.val)) := by
    cases l with
    | nil => exact hs.mask next.empty j.val i.val j.isLt i.isLt
    | cons c m => exact BitVec.getLsbD_zero
  have ho := hs.out_carries hst (BusSlot.mask (NfFilter.design T) ⟨prev, b.word l.isEmpty, next, st⟩) j.isLt i.isLt
  rw [← words_eq hn, hm] at ho
  rw [Nat.add_comm]
  exact ho

theorem bitmap_eq (T : NfTables) (i : Fin 8) (h : Nat) (hh : h < 2 ^ 17) :
    HashPort.bit (T.bitmap i (HashPort.bmAddr (BitVec.ofNat 17 h))) (HashPort.bmBit (BitVec.ofNat 17 h)) =
      (T.bitmap i (BitVec.ofNat 14 (h / 8))).getLsbD (h % 8) := by
  have ht : (BitVec.ofNat 17 h).toNat = h := Nat.mod_eq_of_lt hh
  rw [HashPort.bit_eq, ht]

theorem filtered_eq (hst : (NfFilter.design T).Carries (NfFilter.look T) st pre ((b :: l).map NfBeat.data))
    (hn : ∀ c m, l = c :: m → next.data = c.data) {e : BitVec 4} (he : l = [] → next.empty = e) :
    NfSm.filtered i j (NfSlot.filterOut T ⟨prev, b.word l.isEmpty, next, st⟩) =
      !decide (i.val < 7 → 16 * pre.length + j.val < 16 * (pre.length + (l.length + 1)) - e.toNat ∧
        ShiftOr.serial NfFilter.initState (nfTableWord T (bytes (pre ++ (b :: l).map NfBeat.data)))
          (16 * pre.length + j.val) i.val = false) := by
  have hlt : e.toNat < 16 := e.isLt
  have hcut : (l.isEmpty && decide (16 - next.empty.toNat ≤ j.val)) =
      decide (¬ 16 * pre.length + j.val < 16 * (pre.length + (l.length + 1)) - e.toNat) := by
    cases l with
    | nil =>
      rw [he rfl, List.isEmpty_nil, Bool.true_and, decide_eq_decide, List.length_nil]
      omega
    | cons c m =>
      rw [List.isEmpty_cons, Bool.false_and, eq_comm, decide_eq_false_iff_not, List.length_cons]
      omega
  have hbool : ∀ (x : Bool) (P Q : Prop) [Decidable P] [Decidable Q],
      (decide P && (x || decide (¬ Q))) = !decide (P → Q ∧ x = false) := by
    intro x P Q _ _
    cases x <;> by_cases hP : P <;> by_cases hQ : Q <;> simp [hP, hQ]
  rw [NfSm.filtered, filterOut_bit hst hn, hcut]
  exact hbool ..

theorem found_eq (hp : Behind pre prev) (hst : (NfFilter.design T).Carries (NfFilter.look T) st pre ((b :: l).map NfBeat.data))
    (hn : ∀ c m, l = c :: m → next.data = c.data) (e : BitVec 4) (he : l = [] → next.empty = e) :
    NfSlot.found T ⟨prev, b.word l.isEmpty, next, st⟩ i j =
      nfEntry T (bytes (pre ++ (b :: l).map NfBeat.data)) (16 * (pre.length + (l.length + 1)) - e.toNat) i
        (16 * pre.length + j.val) := by
  rw [NfSlot.found, filtered_eq hst hn he, nfEntry, Bool.not_not]
  by_cases hin : 8 - i.val ≤ 16 * pre.length + j.val + 1
  · have hl : NfSlot.laneValid ⟨prev, b.word l.isEmpty, next, st⟩ i j = true := by
      rw [NfSlot.laneValid, NfHash.laneValid]
      split
      · rcases List.eq_nil_or_concat pre with rfl | ⟨q, c, rfl⟩
        · simp only [List.length_nil] at hin
          omega
        · have := (hp c (by simp)).1
          simp [NfBeat.word, this]
      · rfl
    rw [hash_eq hp hin _ (l.map NfBeat.data), hl, bitmap_eq T i _ (nfIndex_lt ..)]
    simp only [NfMatches, hin, Bool.true_and, true_and, Bool.and_eq_true, decide_eq_true_eq]
    rfl
  · -- such a window would start before the packet: the first state rules it out
    have hb : ShiftOr.serial NfFilter.initState (nfTableWord T (bytes (pre ++ (b :: l).map NfBeat.data)))
        (16 * pre.length + j.val) i.val = true :=
      ShiftOr.serial_eq_true.2 (.inl ⟨by omega, initState_blocks _ (by omega) _ (by omega) (by omega)⟩)
    have hno : ¬ (i.val < 7 → 16 * pre.length + j.val < 16 * (pre.length + (l.length + 1)) - e.toNat ∧
        ShiftOr.serial NfFilter.initState (nfTableWord T (bytes (pre ++ (b :: l).map NfBeat.data)))
          (16 * pre.length + j.val) i.val = false) := fun h => Bool.noConfusion (hb.symm.trans (h (by omega)).2)
    rw [decide_eq_false hno, Bool.and_false, if_neg (by simp), if_neg fun h => hin h.1]

end

/-! ## The packets on the bus -/

section
variable {T : NfTables}

def Finds (T : NfTables) (l : List Byte) (stop first : Nat) (as : List NfSlot) : Prop :=
  ∀ k a, as[k]? = some a → ∀ i j, a.found T i j = nfEntry T l stop i (16 * (first + k) + j.val)

theorem packetBeats_rest (l : List NfBeat) (pre : List (Vec Byte 16)) (hl : l ≠ []) (prev : NfWord) (st : BitVec 64)
    (rest : List NfWord) (cur : List NfSlot) (hp : Behind pre prev)
    (hst : (NfFilter.design T).Carries (NfFilter.look T) st pre (l.map NfBeat.data)) :
    ∃ as prev', as.length = l.length ∧
      packetBeats cur (nfSlots T prev st (beatWords16 l ++ rest)) =
        (cur ++ as) :: packetBeats [] (nfSlots T prev' NfFilter.initState rest) ∧
      Finds T (bytes (pre ++ l.map NfBeat.data)) (16 * (pre.length + l.length) - (rest.headD .idle).empty.toNat) pre.length as := by
  induction l generalizing pre prev st cur with
  | nil => exact absurd rfl hl
  | cons b l ih =>
    let a : NfSlot := ⟨prev, b.word l.isEmpty, (beatWords16 l ++ rest).headD .idle, st⟩
    have hn : ∀ c m, l = c :: m → a.next.data = c.data := by
      rintro c m rfl
      rfl
    have he : l = [] → a.next.empty = (rest.headD .idle).empty := by
      rintro rfl
      rfl
    have hfound := fun i j => found_eq (i := i) (j := j) hp hst hn _ he
    have hstep : packetBeats cur (nfSlots T prev st (beatWords16 (b :: l) ++ rest)) =
        packetBeats cur (a :: nfSlots T (b.word l.isEmpty) (a.after T) (beatWords16 l ++ rest)) := rfl
    have hv : a.word.valid = true := rfl
    rw [hstep, packetBeats, if_pos hv]
    cases l with
    | nil =>
      have hends : a.word.ends = true := rfl
      refine ⟨[a], b.word true, rfl, ?_, ?_⟩
      · rw [if_pos hends]
        rfl
      · intro k x hk
        cases k with
        | zero =>
          cases hk
          exact hfound
        | succ k => cases hk
    | cons c l =>
      have hends : a.word.ends = false := rfl
      have hb : Behind (pre ++ [b.data]) (b.word false) := by
        intro x hx
        rw [List.getLast?_concat] at hx
        cases hx
        exact ⟨rfl, rfl⟩
      have hnext : (NfFilter.design T).Carries (NfFilter.look T) (a.after T) (pre ++ [b.data]) ((c :: l).map NfBeat.data) := by
        have hafter : a.after T = (NfFilter.design T).nextState (BusSlot.words (NfFilter.design T) a) st := rfl
        rw [hafter, words_eq hn]
        exact (NfFilter.sound T).carries_next hst
      obtain ⟨as, prev', has, hpk, hf⟩ := ih (pre ++ [b.data]) (List.cons_ne_nil _ _) (b.word false) (a.after T) (cur ++ [a]) hb hnext
      have hlen : (pre ++ [b.data]).length = pre.length + 1 := by simp
      rw [List.append_assoc, hlen, Nat.add_assoc, Nat.add_comm 1] at hf
      refine ⟨a :: as, prev', congrArg (· + 1) has, ?_, ?_⟩
      · rw [if_neg (by simp [hends])]
        exact hpk.trans (by rw [List.append_assoc]; rfl)
      · intro k x hk
        cases k with
        | zero =>
          cases hk
          exact hfound
        | succ k =>
          have hk1 : pre.length + 1 + k = pre.length + (k + 1) := by omega
          exact hk1 ▸ hf k x hk

theorem packetBeats_idles (xs : List NfIdle) (prev : NfWord) (st : BitVec 64) (rest : List NfWord) :
    ∃ prev', packetBeats [] (nfSlots T prev st (xs.map NfIdle.word ++ rest)) = packetBeats [] (nfSlots T prev' st rest) := by
  induction xs generalizing prev with
  | nil => exact ⟨prev, rfl⟩
  | cons x xs ih => exact ih x.word

theorem getLsbD_orBits (l : List (BitVec 17)) (b : Nat) : (orBits l).getLsbD b = true ↔ ∃ x ∈ l, x.toNat % 16 = b := by
  induction l with
  | nil => simp [orBits]
  | cons x l ih =>
    have hx : (CalFp.bitOf x).getLsbD b = true ↔ x.toNat % 16 = b := by
      have hs : (x.extractLsb' 0 4).toNat = x.toNat % 16 := by rw [BitVec.extractLsb'_toNat, Nat.shiftRight_zero]
      rw [CalFp.bitOf, BitVec.shiftLeft_eq', hs, BitVec.getLsbD_shiftLeft]
      simp
      omega
    show (CalFp.bitOf x ||| orBits l).getLsbD b = true ↔ _
    rw [BitVec.getLsbD_or, Bool.or_eq_true, hx, ih]
    simp

theorem gives_of_finds {p : NfPacket} {e : BitVec 4} {as : List NfSlot} (hlen : as.length = p.beats.length)
    (h : Finds T p.bytes (16 * p.beats.length - e.toNat) 0 as) : p.Gives T e (fingerprint T as) := by
  have hbytes : p.bytes.length = 16 * p.beats.length := by rw [NfPacket.bytes, length_bytes, List.length_map]
  intro i b
  rw [fingerprint, vec_get, getLsbD_orBits, NfPacket.Sets, NfBit, hbytes]
  constructor
  · rintro ⟨x, hx, rfl⟩
    obtain ⟨a, ha, hx⟩ := List.mem_flatMap.1 hx
    obtain ⟨j, -, hx⟩ := List.mem_filterMap.1 hx
    obtain ⟨k, hk, rfl⟩ := List.mem_iff_getElem.1 ha
    rw [h k _ (List.getElem?_eq_getElem hk), Nat.zero_add, nfEntry] at hx
    split_ifs at hx with hm
    cases hx
    refine ⟨16 * k + j.val, by omega, hm, ?_⟩
    rw [BitVec.toNat_ofNat, Nat.mod_eq_of_lt (nfIndex_lt ..)]
  · rintro ⟨n, hn, hm, rfl⟩
    have hk : n / 16 < as.length := by omega
    have hj : n % 16 < 16 := Nat.mod_lt _ (by omega)
    have hx := h (n / 16) _ (List.getElem?_eq_getElem hk) i ⟨n % 16, hj⟩
    rw [Nat.zero_add, Nat.div_add_mod, nfEntry, if_pos hm] at hx
    refine ⟨_, List.mem_flatMap.2 ⟨_, List.getElem_mem hk, List.mem_filterMap.2 ⟨⟨n % 16, hj⟩, List.mem_finRange _, hx⟩⟩, ?_⟩
    rw [BitVec.toNat_ofNat, Nat.mod_eq_of_lt (nfIndex_lt ..)]

theorem fingerprints_followed (ps : List NfPacket) (tail : List NfIdle) (prev : NfWord) :
    List.Forall₂ (fun f x => x.1.Gives T x.2 f)
      ((packetBeats [] (nfSlots T prev NfFilter.initState (ps.flatMap NfPacket.words ++ tail.map NfIdle.word))).map (fingerprint T))
      (followed tail ps) := by
  induction ps generalizing prev with
  | nil =>
    obtain ⟨prev', h⟩ := packetBeats_idles (T := T) tail prev NfFilter.initState []
    rw [List.append_nil] at h
    rw [List.flatMap_nil, List.nil_append, h]
    exact .nil
  | cons p ps ih =>
    rw [List.flatMap_cons, NfPacket.words, List.append_assoc, List.append_assoc]
    obtain ⟨prev1, h1⟩ := packetBeats_idles (T := T) p.gap prev NfFilter.initState
      (beatWords16 p.beats ++ (ps.flatMap NfPacket.words ++ tail.map NfIdle.word))
    obtain ⟨as, prev2, has, h2, hf⟩ := packetBeats_rest (T := T) p.beats [] (by simp [NfPacket.beats]) prev1 NfFilter.initState
      (ps.flatMap NfPacket.words ++ tail.map NfIdle.word) [] (fun c hc => by cases hc) (FilterDesign.carries_start _)
    rw [List.length_nil, Nat.zero_add] at hf
    rw [h1, h2]
    exact .cons (gives_of_finds has hf) (ih prev2)

end

theorem fingerprints_out (T : NfTables) (ps : List NfPacket) (tail : List NfIdle) (h : 24 ≤ tail.length) :
    List.Forall₂ (fun f x => x.1.Gives T x.2 f)
      (Hdl.run (NfRun.step T) ⟨NfSm.reset, []⟩ (ps.flatMap NfPacket.words ++ tail.map NfIdle.word)).out (followed tail ps) := by
  have hsplit : ps.flatMap NfPacket.words ++ tail.map NfIdle.word =
      (ps.flatMap NfPacket.words ++ (tail.take (tail.length - 24)).map NfIdle.word) ++
        (tail.drop (tail.length - 24)).map NfIdle.word := by
    rw [List.append_assoc, ← List.map_append, List.take_append_drop]
  have hrun := fingerprints_run T (ps.flatMap NfPacket.words ++ (tail.take (tail.length - 24)).map NfIdle.word)
    ((tail.drop (tail.length - 24)).map NfIdle.word) (fun v hv => by obtain ⟨x, -, rfl⟩ := List.mem_map.1 hv; rfl)
    (by rw [List.length_map, List.length_drop]; omega)
  rw [← hsplit] at hrun
  rw [hrun]
  exact fingerprints_followed ps tail .idle

/-- Packets with any idle words between them, or none. Each gives one fingerprint, in order: the bits of the matches in
its own bytes, cut at the `in_empty` of the cycle behind its last beat. This is the fingerprint of the packet alone exactly
if cutting it there sets the same bits as cutting it at its own end, as it does when `in_empty` is held. -/
theorem nfMatcher_fingerprints (T : NfTables) (ps : List NfPacket) (tail : List NfIdle) (h : 24 ≤ tail.length) :
    List.Forall₂ (fun f x => x.1.Gives T x.2 f ∧
        (x.1.Gives T x.1.last.empty f ↔ ∀ i b, x.1.Sets T x.2 i b ↔ x.1.Sets T x.1.last.empty i b))
      (Hdl.run (NfRun.step T) ⟨NfSm.reset, []⟩ (ps.flatMap NfPacket.words ++ tail.map NfIdle.word)).out (followed tail ps) := by
  refine (fingerprints_out T ps tail h).imp fun f x hf => ⟨hf, fun hown i b => ?_, fun hsame i b => ?_⟩
  · exact (hf i b).symm.trans (hown i b)
  · exact (hf i b).trans (hsame i b)

/-! ## Two packets of one beat -/

def NfTables.lowIndex : NfTables := ⟨fun _ => 0, fun _ a => if a = 0 then 1 else 0⟩

def NfPacket.zeros (empty : BitVec 4) : NfPacket := ⟨[], [], ⟨vec fun _ => 0, empty⟩⟩

def NfIdle.zeros (empty : BitVec 4) : NfIdle := ⟨false, empty, vec fun _ => 0⟩

theorem nfMatcher_fingerprints_held :
    24 ≤ (List.replicate 24 (NfIdle.zeros 5)).length ∧
      ∃ f g, (Hdl.run (NfRun.step .lowIndex) ⟨NfSm.reset, []⟩ ([NfPacket.zeros 5, .zeros 5].flatMap NfPacket.words ++
          (List.replicate 24 (NfIdle.zeros 5)).map NfIdle.word)).out = [f, g] ∧
        (NfPacket.zeros 5).Gives .lowIndex 5 f ∧ (NfPacket.zeros 5).Gives .lowIndex 5 g := by
  have h24 : 24 ≤ (List.replicate 24 (NfIdle.zeros 5)).length := by simp
  obtain ⟨f, fs, hf, h, hout⟩ := List.forall₂_cons_right_iff.1 (nfMatcher_fingerprints .lowIndex [.zeros 5, .zeros 5] _ h24)
  obtain ⟨g, gs, hg, ht, rfl⟩ := List.forall₂_cons_right_iff.1 h
  obtain rfl := List.forall₂_nil_right_iff.1 ht
  exact ⟨h24, f, g, hout, hf.2.2 fun _ _ => Iff.rfl, hg.2.2 fun _ _ => Iff.rfl⟩

/-- A packet of 16 bytes directly followed by one of a single byte: the first is cut at its first byte and loses the bit of
the windows of eight bytes; the second is not cut at all and has it. -/
theorem nfMatcher_cuts_late :
    ∃ f g, (Hdl.run (NfRun.step .lowIndex) ⟨NfSm.reset, []⟩ ([NfPacket.zeros 0, .zeros 15].flatMap NfPacket.words ++
        (List.replicate 24 (NfIdle.zeros 0)).map NfIdle.word)).out = [f, g] ∧
      (f 0).getLsbD 0 = false ∧ (NfPacket.zeros 0).Sets .lowIndex 0 0 0 ∧
      (g 0).getLsbD 0 = true ∧ ¬ (NfPacket.zeros 15).Sets .lowIndex 15 0 0 := by
  have h24 : 24 ≤ (List.replicate 24 (NfIdle.zeros 0)).length := by simp
  obtain ⟨f, fs, hf, h, hout⟩ := List.forall₂_cons_right_iff.1 (fingerprints_out .lowIndex [.zeros 0, .zeros 15] _ h24)
  obtain ⟨g, gs, hg, ht, rfl⟩ := List.forall₂_cons_right_iff.1 h
  obtain rfl := List.forall₂_nil_right_iff.1 ht
  have hcut : ¬ (NfPacket.zeros 0).Sets .lowIndex 15 0 0 := by decide +kernel
  have hlate : (NfPacket.zeros 15).Sets .lowIndex 0 0 0 := by decide +kernel
  refine ⟨f, g, hout, ?_, by decide +kernel, (hg 0 0).2 hlate, by decide +kernel⟩
  exact Bool.eq_false_iff.2 fun hb => hcut ((hf 0 0).1 hb)

end Pigasus
