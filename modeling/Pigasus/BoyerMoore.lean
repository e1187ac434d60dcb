import Pigasus.Hdl
import Pigasus.Occurrence
import Pigasus.RuleEval

/-!
# The string search of the content option

`make_skip`, `make_shift`, `mSearch` and `mSearchCI`. A pointer that a loop may move
one place before the pattern is kept as the number of bytes in front of and at it,
so `0` is the place before the first byte.
-/

namespace Pigasus

open Hdl Occurrence

/-! ## The tables -/

-- `skip[*ptrn++] = plen--`
def makeSkipFrom : List UInt8 → (UInt8 → Nat) → UInt8 → Nat
  | [], skip => skip
  | c :: ptrn, skip => makeSkipFrom ptrn (upd skip c (ptrn.length + 1))

def makeSkip (ptrn : List UInt8) : UInt8 → Nat := makeSkipFrom ptrn fun _ => ptrn.length + 1

section Shift

variable (ptrn : List UInt8) (pptr : Nat)

/-- `while (p1 >= ptrn && *p1-- != c)`: `p1` stops behind an earlier place of the last byte. -/
def prevLast : Nat → Nat
  | 0 => 0
  | q + 1 => if ptrn[q]? ≠ ptrn[ptrn.length - 1]? then prevLast q else q

/-- `while (p3 >= ptrn && *p3-- == *p2-- && p2 >= pptr)`. -/
def agreeBack : Nat → Nat → Nat × Nat
  | 0, p2 => (0, p2)
  | p3 + 1, p2 => if ptrn[p3]? = ptrn[p2 - 1]? ∧ pptr < p2 - 1 then agreeBack p3 (p2 - 1) else (p3, p2 - 1)

theorem prevLast_le : ∀ q, prevLast ptrn q ≤ q - 1
  | 0 => Nat.le_refl 0
  | q + 1 => by
    rw [prevLast]
    split
    · exact (prevLast_le q).trans (by omega)
    · omega

theorem agreeBack_fst_le (q r : Nat) : (agreeBack ptrn pptr q r).1 ≤ q := by
  induction q generalizing r with
  | zero => exact Nat.le_refl 0
  | succ q ih =>
    rw [agreeBack]
    split
    · exact (ih _).trans (by omega)
    · exact Nat.le_succ q

/-- The `do` loop of `make_shift`, with `p1` at `q`: what `p3` and `p2` are left at. -/
def shiftLoop (q : Nat) : Nat × Nat :=
  let p1 := prevLast ptrn q
  let r := agreeBack ptrn pptr p1 (ptrn.length - 1)
  if 0 < r.1 ∧ pptr < r.2 then shiftLoop p1 else r
termination_by q
decreasing_by
  rename_i hr
  have hle : r.1 ≤ p1 := agreeBack_fst_le ptrn pptr p1 (ptrn.length - 1)
  have hlt : p1 ≤ q - 1 := prevLast_le ptrn q
  omega

end Shift

def shiftAt (ptrn : List UInt8) (p : Nat) : Nat :=
  let r := shiftLoop ptrn (p + 1) (ptrn.length - 1)
  ptrn.length - p + (r.2 - r.1)

def makeShift (ptrn : List UInt8) : List Nat := (List.range (ptrn.length - 1)).map (shiftAt ptrn) ++ [1]

/-! ## The search -/

inductive Compared
  | found (bIdx : Nat)
  | differs (bIdx pIdx : Nat)

section Search

variable (f : UInt8 → UInt8) (buf ptrn : List UInt8) (skip : UInt8 → Nat) (shift : List Nat)

/-- The inner loop, from the last byte of the window back; `none` is a read outside of a buffer. -/
def compareBack : Nat → Nat → Option Compared
  | p + 1, b + 1 =>
    match buf[b]?, ptrn[p]? with
    | some x, some y => if f x = y then (if p = 0 then some (.found b) else compareBack p b) else some (.differs b p)
    | _, _ => none
  | _, _ => none

def searchFrom : Nat → Nat → Option Int
  | 0, _ => none
  | fuel + 1, bIdx =>
    if bIdx ≤ buf.length then
      match compareBack f buf ptrn ptrn.length bIdx with
      | none => none
      | some (.found b) => some b
      | some (.differs b p) =>
        match buf[b]?, shift[p]? with
        | some x, some stride => searchFrom fuel (b + max (skip (f x)) stride)
        | _, _ => none
    else some (-1)

def searchWith : Option Int :=
  if ptrn.length = 0 then some (-1) else searchFrom f buf ptrn skip shift (buf.length + 1) ptrn.length

end Search

def mSearch : List UInt8 → List UInt8 → (UInt8 → Nat) → List Nat → Option Int := searchWith id

def mSearchCI : List UInt8 → List UInt8 → (UInt8 → Nat) → List Nat → Option Int := searchWith upper

namespace Content

variable (o : Content)

-- a pattern without case is stored in capitals before the tables are made
def stored : List UInt8 := if o.noCase then o.pattern.map upper else o.pattern

/-- The search that `uniSearchReal` calls, with the tables of `setup_bm`; `-1` stands for no occurrence. -/
def bmSearch (text : List UInt8) : Option Int :=
  if o.noCase then mSearchCI text o.stored (makeSkip o.stored) (makeShift o.stored)
  else mSearch text o.stored (makeSkip o.stored) (makeShift o.stored)

end Content

/-! ## The skip table is the last place of a byte -/

/-- Behind the place that `skip` tells of, the byte is not in the pattern. -/
structure SkipOk (ptrn : List UInt8) (c : UInt8) (n : Nat) : Prop where
  pos : 0 < n
  le : n ≤ ptrn.length + 1
  there : n ≤ ptrn.length → ptrn[ptrn.length - n]? = some c
  absent : ∀ i, ptrn.length < i + n → ptrn[i]? ≠ some c

theorem makeSkipFrom_of_not_mem {c : UInt8} {ptrn : List UInt8} (hc : c ∉ ptrn) (skip : UInt8 → Nat) :
    makeSkipFrom ptrn skip c = skip c := by
  induction ptrn generalizing skip with
  | nil => rfl
  | cons d ptrn ih =>
    rw [List.mem_cons, not_or] at hc
    rw [makeSkipFrom, ih hc.2, upd, if_neg hc.1]

theorem makeSkipFrom_of_mem {c : UInt8} {ptrn : List UInt8} (hc : c ∈ ptrn) (skip : UInt8 → Nat) :
    SkipOk ptrn c (makeSkipFrom ptrn skip c) := by
  induction ptrn generalizing skip with
  | nil => exact absurd hc (by simp)
  | cons d ptrn ih =>
    by_cases hm : c ∈ ptrn
    · obtain ⟨hp, hl, ht, ha⟩ := ih hm (upd skip d (ptrn.length + 1))
      rw [makeSkipFrom]
      generalize makeSkipFrom ptrn (upd skip d (ptrn.length + 1)) c = n at hp hl ht ha ⊢
      have hn : n ≤ ptrn.length := by
        by_contra hgt
        obtain ⟨i, hi⟩ := List.mem_iff_getElem?.1 hm
        exact ha i (by omega) hi
      refine ⟨hp, hl.trans (by simp), ?_, ?_⟩
      · intro _
        rw [List.length_cons, show ptrn.length + 1 - n = ptrn.length - n + 1 by omega, List.getElem?_cons_succ]
        exact ht hn
      · intro i hi
        rw [List.length_cons] at hi
        cases i with
        | zero => omega
        | succ i => exact ha i (by omega)
    · obtain rfl : c = d := by simpa [hm] using hc
      have hv : makeSkipFrom (c :: ptrn) skip c = ptrn.length + 1 := by
        rw [makeSkipFrom, makeSkipFrom_of_not_mem hm, upd, if_pos rfl]
      rw [hv]
      refine ⟨by omega, by simp, by simp, ?_⟩
      intro i hi
      rw [List.length_cons] at hi
      cases i with
      | zero => omega
      | succ i => exact fun h => hm (List.mem_of_getElem? h)

theorem makeSkip_ok (ptrn : List UInt8) (c : UInt8) : SkipOk ptrn c (makeSkip ptrn c) := by
  by_cases hc : c ∈ ptrn
  · exact makeSkipFrom_of_mem hc _
  · rw [makeSkip, makeSkipFrom_of_not_mem hc]
    exact ⟨by omega, Nat.le_refl _, by omega, fun i _ h => hc (List.mem_of_getElem? h)⟩

/-! ## The shift table skips no self-agreement -/

section ShiftSound

variable {ptrn : List UInt8} {pptr : Nat}

/-- Moved by `d`, the pattern differs from itself at a place behind `pptr` or at it. -/
def Clash (ptrn : List UInt8) (pptr d : Nat) : Prop := ∃ i, pptr ≤ i ∧ i < ptrn.length ∧ d ≤ i ∧ ptrn[i - d]? ≠ ptrn[i]?

theorem prevLast_between {q j : Nat} (hj : prevLast ptrn q < j) (hq : j < q) : ptrn[j]? ≠ ptrn[ptrn.length - 1]? := by
  induction q with
  | zero => omega
  | succ q ih =>
    rw [prevLast] at hj
    split at hj
    · rename_i hne
      by_cases hjq : j = q
      · exact hjq ▸ hne
      · exact ih hj (by omega)
    · omega

theorem agreeBack_spec (ptrn : List UInt8) (pptr : Nat) {q r d : Nat} (hd : q + d = r) (hpos : 0 < d) :
    (agreeBack ptrn pptr q r).1 + d = (agreeBack ptrn pptr q r).2 ∧
      (0 < (agreeBack ptrn pptr q r).1 → pptr < (agreeBack ptrn pptr q r).2 →
        ptrn[(agreeBack ptrn pptr q r).1]? ≠ ptrn[(agreeBack ptrn pptr q r).2]?) ∧ (agreeBack ptrn pptr q r).2 ≤ r := by
  induction q generalizing r with
  | zero => exact ⟨hd, fun h => absurd h (by simp [agreeBack]), Nat.le_refl _⟩
  | succ q ih =>
    rw [agreeBack]
    split
    · obtain ⟨he, hne, hle⟩ := ih (r := r - 1) (by omega)
      exact ⟨he, hne, hle.trans (by omega)⟩
    · rename_i hstop
      refine ⟨by dsimp only; omega, ?_, by dsimp only; omega⟩
      intro _ hp heq
      exact hstop ⟨heq, hp⟩

theorem clash_of_between {q d : Nat} (hp : pptr < ptrn.length) (hq : q < ptrn.length) (hd : ptrn.length - 1 - q < d)
    (hlt : d < ptrn.length - 1 - prevLast ptrn q) : Clash ptrn pptr d := by
  have hj : prevLast ptrn q < ptrn.length - 1 - d := by omega
  exact ⟨ptrn.length - 1, by omega, by omega, by omega, prevLast_between hj (by omega)⟩

theorem shiftLoop_spec (hp : pptr < ptrn.length) (h0 : 0 < pptr) (q : Nat) (hq : q < ptrn.length) :
    ∃ e, 0 < e ∧ (shiftLoop ptrn pptr q).1 + e = (shiftLoop ptrn pptr q).2 ∧
      ∀ d, ptrn.length - 1 - q < d → d < e → Clash ptrn pptr d := by
  induction q using Nat.strong_induction_on with
  | _ q ih =>
    have hp1 := prevLast_le ptrn q
    have hgap : prevLast ptrn q + (ptrn.length - 1 - prevLast ptrn q) = ptrn.length - 1 := by omega
    obtain ⟨hdist, hdiff, hle⟩ := agreeBack_spec ptrn pptr hgap (by omega)
    have hfst := agreeBack_fst_le ptrn pptr (prevLast ptrn q) (ptrn.length - 1)
    rw [shiftLoop]
    split
    · rename_i hgo
      obtain ⟨e, he, hsum, hall⟩ := ih (prevLast ptrn q) (by omega) (by omega)
      refine ⟨e, he, hsum, ?_⟩
      intro d hd hlt
      rcases Nat.lt_trichotomy d (ptrn.length - 1 - prevLast ptrn q) with h | h | h
      · exact clash_of_between hp hq hd h
      · -- the place that was found and given up
        refine ⟨_, hgo.2.le, by omega, by omega, ?_⟩
        rw [h, ← hdist, Nat.add_sub_cancel, hdist]
        exact hdiff hgo.1 hgo.2
      · exact hall d h hlt
    · exact ⟨_, by omega, hdist, fun d hd hlt => clash_of_between hp hq hd hlt⟩

theorem shiftAt_spec {p : Nat} (hp : p + 1 < ptrn.length) :
    ∃ e, 0 < e ∧ shiftAt ptrn p = ptrn.length - p + e ∧ ∀ d, 0 < d → d < e → Clash ptrn (p + 1) d := by
  obtain ⟨e, he, hsum, hall⟩ := shiftLoop_spec hp p.succ_pos (ptrn.length - 1) (by omega)
  refine ⟨e, he, ?_, fun d hd => hall d (by omega)⟩
  rw [shiftAt]
  omega

theorem makeShift_last : (makeShift ptrn)[ptrn.length - 1]? = some 1 := by
  rw [makeShift, List.getElem?_append_right (by simp)]
  simp

theorem makeShift_get {p : Nat} (hp : p + 1 < ptrn.length) : (makeShift ptrn)[p]? = some (shiftAt ptrn p) := by
  have hr : p < ptrn.length - 1 := by omega
  rw [makeShift, List.getElem?_append_left (by simpa using hr), List.getElem?_map, List.getElem?_range hr]
  rfl

end ShiftSound

/-! ## The search finds the first occurrence -/

section SearchSound

variable {f : UInt8 → UInt8} {buf ptrn : List UInt8}

/-- The window at `w` agrees with the pattern at every place from `p` on. -/
def AgreesFrom (f : UInt8 → UInt8) (buf ptrn : List UInt8) (w p : Nat) : Prop :=
  ∀ i, p ≤ i → i < ptrn.length → (buf[w + i]?).map f = ptrn[i]?

theorem AgreesFrom.pred {w p : Nat} (h : AgreesFrom f buf ptrn w (p + 1)) (hp : (buf[w + p]?).map f = ptrn[p]?) :
    AgreesFrom f buf ptrn w p := by
  intro i hi hlt
  by_cases he : i = p
  · exact he ▸ hp
  · exact h i (by omega) hlt

theorem compareBack_spec {w : Nat} (hw : w + ptrn.length ≤ buf.length) (p : Nat) (h0 : 0 < p) (hp : p ≤ ptrn.length)
    (ha : AgreesFrom f buf ptrn w p) :
    (compareBack f buf ptrn p (w + p) = some (.found w) ∧ OccursAt f ptrn buf w) ∨
      ∃ p', p' < ptrn.length ∧ compareBack f buf ptrn p (w + p) = some (.differs (w + p') p') ∧
        (buf[w + p']?).map f ≠ ptrn[p']? ∧ AgreesFrom f buf ptrn w (p' + 1) := by
  induction p with
  | zero => omega
  | succ p ih =>
    have hb : w + p < buf.length := by omega
    have hq : p < ptrn.length := by omega
    have hx := List.getElem?_eq_getElem hb
    have hy := List.getElem?_eq_getElem hq
    have hstep : compareBack f buf ptrn (p + 1) (w + (p + 1)) = if f buf[w + p] = ptrn[p] then
        (if p = 0 then some (.found (w + p)) else compareBack f buf ptrn p (w + p)) else some (.differs (w + p) p) := by
      rw [← Nat.add_assoc, compareBack, hx, hy]
    rw [hstep]
    by_cases he : f buf[w + p] = ptrn[p]
    · have hpred : AgreesFrom f buf ptrn w p := ha.pred (by rw [hx, hy, Option.map_some, he])
      rw [if_pos he]
      by_cases hz : p = 0
      · subst hz
        exact .inl ⟨if_pos rfl, fun i hi => hpred i (Nat.zero_le i) hi⟩
      · rw [if_neg hz]
        exact ih (by omega) (by omega) hpred
    · rw [if_neg he]
      refine .inr ⟨p, hq, rfl, ?_, ha⟩
      rw [hx, hy, Option.map_some]
      simpa using he

theorem stride_safe {w p : Nat} {x : UInt8} (hp : p < ptrn.length) (hx : buf[w + p]? = some x)
    (hne : (buf[w + p]?).map f ≠ ptrn[p]?) (ha : AgreesFrom f buf ptrn w (p + 1)) :
    ∃ stride w', (makeShift ptrn)[p]? = some stride ∧ w < w' ∧
      w + p + max (makeSkip ptrn (f x)) stride = w' + ptrn.length ∧ ∀ s, w ≤ s → s < w' → ¬ OccursAt f ptrn buf s := by
  obtain ⟨hpos, hle, hthere, habs⟩ := makeSkip_ok ptrn (f x)
  rw [hx, Option.map_some] at hne
  have hskip : ∀ s, w ≤ s → s + ptrn.length < w + p + makeSkip ptrn (f x) → ¬ OccursAt f ptrn buf s := by
    intro s hs hlt
    refine not_occursAt_of_letter (b := w + p) ?_ (by omega) (by omega) hlt
    intro i hi
    rw [hx, Option.map_some]
    exact (habs i hi).symm
  by_cases hlast : p + 1 = ptrn.length
  · -- the last byte differs, so its skip is at least two
    have htwo : makeSkip ptrn (f x) ≠ 1 := by
      intro h1
      rw [h1] at hthere
      exact hne (by rw [show p = ptrn.length - 1 by omega, hthere (by omega)])
    refine ⟨1, w + p + makeSkip ptrn (f x) - ptrn.length, ?_, by omega, by omega, fun s hs hlt => hskip s hs (by omega)⟩
    rw [show p = ptrn.length - 1 by omega]
    exact makeShift_last
  · have hfront : p + 1 < ptrn.length := by omega
    obtain ⟨e, he, hval, hclash⟩ := shiftAt_spec hfront
    refine ⟨_, w + p + max (makeSkip ptrn (f x)) (shiftAt ptrn p) - ptrn.length, makeShift_get hfront, by omega, by omega, ?_⟩
    intro s hs hlt
    by_cases hby : s + ptrn.length < w + p + makeSkip ptrn (f x)
    · exact hskip s hs hby
    · by_cases hsw : s = w
      · intro h
        exact hne (by rw [← h p hp, hsw, hx, Option.map_some])
      · obtain ⟨i, hpi, hi, hdi, hc⟩ := hclash (s - w) (by omega) (by omega)
        rw [show s = w + (s - w) by omega]
        exact not_occursAt_of_agree hi hdi (ha i hpi hi) hc

/-- `r` is the place of the first occurrence, or `-1` and there is none. -/
def IsFirst (f : UInt8 → UInt8) (ptrn buf : List UInt8) (r : Int) : Prop :=
  (∃ s : Nat, r = s ∧ OccursAt f ptrn buf s ∧ ∀ s' < s, ¬ OccursAt f ptrn buf s') ∨
    (r = -1 ∧ ∀ s, ¬ OccursAt f ptrn buf s)

theorem searchFrom_spec (f : UInt8 → UInt8) (buf : List UInt8) (hne : ptrn ≠ []) (fuel w : Nat) (hfuel : buf.length + 2 ≤ w + ptrn.length + fuel)
    (hw : ∀ s < w, ¬ OccursAt f ptrn buf s) (hf : 0 < fuel) :
    ∃ r, searchFrom f buf ptrn (makeSkip ptrn) (makeShift ptrn) fuel (w + ptrn.length) = some r ∧ IsFirst f ptrn buf r := by
  induction fuel generalizing w with
  | zero => omega
  | succ fuel ih =>
    have hlen := List.length_pos_of_ne_nil hne
    rw [searchFrom]
    by_cases hin : w + ptrn.length ≤ buf.length
    · rw [if_pos hin]
      rcases compareBack_spec hin ptrn.length hlen (Nat.le_refl _) (fun i hi hlt => absurd hi (by omega)) with
        ⟨hc, hocc⟩ | ⟨p, hp, hc, hdiff, ha⟩
      · rw [hc]
        exact ⟨w, rfl, .inl ⟨w, rfl, hocc, hw⟩⟩
      · have hx : buf[w + p]? = some buf[w + p] := List.getElem?_eq_getElem (by omega)
        obtain ⟨stride, w', hs, hlt, hnext, hsafe⟩ := stride_safe hp hx hdiff ha
        rw [hc]
        simp only [hx, hs, hnext]
        refine ih w' (by omega) ?_ (by omega)
        intro s hsw
        by_cases h : s < w
        · exact hw s h
        · exact hsafe s (by omega) hsw
    · rw [if_neg hin]
      refine ⟨-1, rfl, .inr ⟨rfl, ?_⟩⟩
      intro s hocc
      have hfits := hocc.fits hne
      exact hw s (by omega) hocc

theorem searchWith_spec (f : UInt8 → UInt8) (buf : List UInt8) (hne : ptrn ≠ []) :
    ∃ r, searchWith f buf ptrn (makeSkip ptrn) (makeShift ptrn) = some r ∧ IsFirst f ptrn buf r := by
  have hlen := List.length_pos_of_ne_nil hne
  rw [searchWith, if_neg (by omega)]
  have h := searchFrom_spec f buf hne (buf.length + 1) 0 (by omega) (by omega) (by omega)
  rwa [Nat.zero_add] at h

end SearchSound

/-! ## The content option -/

namespace Content

variable (o : Content) (text : List UInt8)

/-- The byte as `mSearchCI` or `mSearch` sees it. -/
def seen : UInt8 → UInt8 := if o.noCase then upper else id

theorem stored_eq : o.stored = o.pattern.map o.seen := by
  rw [stored, seen]
  split
  · rfl
  · exact (List.map_id _).symm

theorem stored_ne_nil : o.stored ≠ [] := by
  rw [stored_eq, Ne, List.map_eq_nil_iff]
  exact o.nonempty

theorem sameByte_iff (a b : UInt8) : o.sameByte a b = true ↔ o.seen a = o.seen b := by
  rw [sameByte, seen]
  split <;> exact beq_iff_eq

theorem bmSearch_eq : o.bmSearch text = searchWith o.seen text o.stored (makeSkip o.stored) (makeShift o.stored) := by
  rw [bmSearch, seen, mSearchCI, mSearch]
  split <;> rfl

theorem standsAt_drop_iff (k : Nat) : o.standsAt (text.drop k) = true ↔ OccursAt o.seen o.stored text k := by
  rw [← occursAt_drop, stored_eq, occursAt_zero_iff, standsAt, size]
  simp only [Bool.and_eq_true, decide_eq_true_eq, List.all_eq_true, sameByte_iff]

theorem search_of_first {s : Nat} (h : OccursAt o.seen o.stored text s) (hs : ∀ s' < s, ¬ OccursAt o.seen o.stored text s') :
    o.search text = some s := by
  have hfits := h.fits o.stored_ne_nil
  rw [search, List.find?_range_eq_some]
  refine ⟨(o.standsAt_drop_iff text s).2 h, List.mem_range.2 (by omega), ?_⟩
  intro k hk
  rw [Bool.not_eq_true', Bool.eq_false_iff]
  exact fun hst => hs k hk ((o.standsAt_drop_iff text k).1 hst)

theorem search_of_none (h : ∀ s, ¬ OccursAt o.seen o.stored text s) : o.search text = none := by
  rw [search, List.find?_eq_none]
  intro k _ hk
  exact h k ((o.standsAt_drop_iff text k).1 hk)

/-- The search with the two tables reads no byte outside of its buffers, comes to an end, and answers with the first place
where the pattern stands, or `-1` when it stands nowhere. -/
theorem bmSearch_first_occurrence : o.bmSearch text = some ((o.search text).elim (-1) fun k => (k : Int)) := by
  obtain ⟨r, hr, ⟨s, rfl, hs, hlt⟩ | ⟨rfl, hnone⟩⟩ := searchWith_spec o.seen text o.stored_ne_nil
  · rw [bmSearch_eq, hr, search_of_first o text hs hlt]
    rfl
  · rw [bmSearch_eq, hr, search_of_none o text hnone]
    rfl

end Content

end Pigasus
