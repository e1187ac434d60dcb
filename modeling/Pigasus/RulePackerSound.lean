import Mathlib.Data.List.GetD
import Mathlib.Data.Vector.Mem
import Pigasus.RulePacker

/-!
# Packing and unpacking rules

The flits of a packer spell the packets at its input, framed by `sop` and
`eop`, and a depacker gives them back.
-/

namespace Pigasus

open Hdl

/-! ## Packets and flits -/

structure RulePacket (w : Nat) where
  words : List (BitVec w)
  ne_zero : ∀ d ∈ words, d ≠ 0

section
variable {w n : Nat}

def wordBeat (d : BitVec w) : RuleBeat w := ⟨false, d⟩

def eopBeat : RuleBeat w := ⟨true, 0⟩

def RulePacket.beats (p : RulePacket w) : List (RuleBeat w) := p.words.map wordBeat ++ [eopBeat]

def beatsOf (ps : List (RulePacket w)) : List (RuleBeat w) := ps.flatMap RulePacket.beats

def wordBeats (l : List (BitVec w)) : List (RuleBeat w) := (l.filter (· != 0)).map wordBeat

def Flit.depack (f : Flit w n) : List (RuleBeat w) := if f.eop then [eopBeat] else wordBeats f.data.toList

def Flit.split (f : Flit w n) : List (RuleBeat w) := wordBeats f.data.toList ++ if f.eop then [eopBeat] else []

def lastEop (b : Bool) : List (Flit w n) → Bool
  | [] => b
  | f :: l => lastEop f.eop l

/-- `sop` is set on a flit if and only if the one before it has `eop` (`b` for the first). -/
def Framed (b : Bool) : List (Flit w n) → Prop
  | [] => True
  | f :: l => f.sop = b ∧ Framed f.eop l

instance Framed.decidable : ∀ (b : Bool) (l : List (Flit w n)), Decidable (Framed b l)
  | _, [] => isTrue trivial
  | _, f :: l =>
    have := Framed.decidable f.eop l
    inferInstanceAs (Decidable (_ ∧ _))

theorem framed_append (b : Bool) (l l' : List (Flit w n)) :
    Framed b (l ++ l') ↔ Framed b l ∧ Framed (lastEop b l) l' := by
  induction l generalizing b with
  | nil => simp [Framed, lastEop]
  | cons f l ih => simp [Framed, lastEop, ih, and_assoc]

theorem lastEop_append (b : Bool) (l l' : List (Flit w n)) : lastEop b (l ++ l') = lastEop (lastEop b l) l' := by
  induction l generalizing b with
  | nil => rfl
  | cons f l ih => simp [lastEop, ih]

theorem wordBeats_append (l l' : List (BitVec w)) : wordBeats (l ++ l') = wordBeats l ++ wordBeats l' := by
  simp [wordBeats]

theorem wordBeats_of_ne_zero {l : List (BitVec w)} (h : ∀ d ∈ l, d ≠ 0) : wordBeats l = l.map wordBeat := by
  rw [wordBeats, List.filter_eq_self.2 fun d hd => by simpa using h d hd]

theorem wordBeats_of_zero {l : List (BitVec w)} (h : ∀ d ∈ l, d = 0) : wordBeats l = [] := by
  rw [wordBeats, List.filter_eq_nil_iff.2 fun d hd => by simp [h d hd], List.map_nil]

theorem wordBeats_vec {v : Vec (BitVec w) n} {c : List (BitVec w)} (hc : ∀ d ∈ c, d ≠ 0)
    (hle : c.length ≤ n) (hv : ∀ j : Fin n, v j = c.getD j.val 0) : wordBeats v.toList = c.map wordBeat := by
  have hl : v.toList = c ++ List.replicate (n - c.length) 0 := by
    refine List.ext_getElem (by simp; omega) fun k h1 h2 => ?_
    have hk : k < n := by simpa using h1
    have := hv ⟨k, hk⟩
    rw [List.Vector.get_eq_get_toList] at this
    simp only [List.get_eq_getElem, Fin.val_cast] at this
    rw [this, List.getD_eq_getElem?_getD, List.getElem_append]
    split
    · next h => simp [h]
    · next h => simp [List.getElem?_eq_none (Nat.le_of_not_lt h)]
  rw [hl, wordBeats_append, wordBeats_of_ne_zero hc, wordBeats_of_zero (by simp [List.mem_replicate]), List.append_nil]

theorem eq_nil_of_beatsOf {ps : List (RulePacket w)} {l : List (RuleBeat w)} {c : List (BitVec w)}
    (h : l ++ c.map wordBeat = beatsOf ps) : c = [] := by
  rcases List.eq_nil_or_concat c with hc | ⟨c', d, rfl⟩
  · exact hc
  · rcases List.eq_nil_or_concat ps with rfl | ⟨ps', p, rfl⟩
    · simp [beatsOf] at h
    · have := congrArg List.getLast? h
      simp [beatsOf, RulePacket.beats, wordBeat, eopBeat] at this

end

/-! ## The packer -/

/-- What the part-selects of a packer write. -/
structure PackerKind.Lawful {w n : Nat} (κ : PackerKind w n) : Prop where
  two : 2 ≤ n
  lt : ∀ (v : Vec (BitVec w) n) (k : Nat) (d : BitVec w) (j : Fin n), j.val < k → κ.write v k d j = v j
  self : ∀ (v : Vec (BitVec w) n) (d : BitVec w) (j : Fin n), κ.write v j.val d j = d
  gt : ∀ (v : Vec (BitVec w) n) (k : Nat) (d : BitVec w) (j : Fin n), k < j.val → v j = 0 → κ.write v k d j = 0

theorem Vec.set_apply {w n : Nat} (v : Vec (BitVec w) n) (k : Nat) (d : BitVec w) (j : Fin n) :
    Vec.set v k d j = if j.val = k then d else v j := by
  simp only [Vec.set, vec_get]

theorem lawful_set {w n : Nat} (hn : 2 ≤ n) : PackerKind.Lawful (⟨Vec.set⟩ : PackerKind w n) where
  two := hn
  lt v k d j h := by rw [Vec.set_apply, if_neg (by omega)]
  self v d j := by rw [Vec.set_apply, if_pos rfl]
  gt v k d j h hz := by rw [Vec.set_apply, if_neg (by omega), hz]

theorem packer128_lawful : packer128.Lawful := lawful_set (by omega)

theorem packer256_lawful : packer256.Lawful := lawful_set (by omega)

theorem packer32_lawful : packer32.Lawful where
  two := by omega
  lt v k d j h := by
    simp only [packer32]
    split
    · rw [Vec.set_apply, Vec.set_apply, if_neg (by omega), if_neg (by omega)]
    · rw [Vec.set_apply, if_neg (by omega)]
  self v d j := by
    simp only [packer32]
    split
    · next h => rw [Vec.set_apply, Vec.set_apply, if_neg (by omega), if_pos h]
    · rw [Vec.set_apply, if_pos rfl]
  gt v k d j h hz := by
    simp only [packer32]
    split
    · next hk =>
      rw [Vec.set_apply, Vec.set_apply, if_neg (by omega : ¬ j.val = 4), hz]
      split
      · next h5 => rw [show (5 : Fin 16) = j from Fin.ext h5.symm, hz]; rfl
      · rfl
    · rw [Vec.set_apply, if_neg (by omega), hz]

namespace PackSys

variable {w n : Nat}

/-- A waiting flit is not changed by the beat that is offered, no `eop` beat is
offered while an `eop` flit is accepted, and a packet has at most 256 flits.
What is written to a waiting `eop` flit counts only where its words are used. -/
def Open (κ : PackerKind w n) (strict : Bool) (s : PackSys w n) (i : PackTick) : Prop :=
  s.pk.outValid = true →
    (i.ready = false → (s.packIn i).valid = true →
      (strict = false ∧ s.pk.outEop = true) ∨ s.pk.outData = κ.write (vec fun _ => 0) 0 (s.packIn i).beat.data) ∧
    (i.ready = true → if s.pk.outEop then ((s.packIn i).valid && (s.packIn i).beat.eop) = false else s.pk.flitCnt ≠ 255)

instance (κ : PackerKind w n) (strict : Bool) (s : PackSys w n) (i : PackTick) : Decidable (s.Open κ strict i) := by
  unfold Open
  infer_instance

def waiting (s : PackSys w n) : List (Flit w n) := if s.pk.outValid then [s.pk.flit] else []

structure Gathers (strict : Bool) (ps : List (RulePacket w)) (c : List (BitVec w)) (s : PackSys w n) : Prop where
  stream : s.taken ++ s.pend = beatsOf ps
  cnt : s.pk.intCnt = c.length
  lt : c.length < n
  ne_zero : ∀ d ∈ c, d ≠ 0
  spelt : (s.flits ++ s.waiting).flatMap Flit.depack ++ c.map wordBeat = s.taken
  framed : Framed true (s.flits ++ s.waiting)
  clean : strict = true → ∀ f ∈ s.flits ++ s.waiting, f.eop = true → ∀ j, f.data j = 0
  data : ∀ j : Fin n, j.val ≠ c.length → c ≠ [] → s.pk.outData j = c.getD j.val 0
  idle : s.pk.outValid = true → c = []
  low : s.pk.outValid = false → s.pk.outSop = false ∧ s.pk.outEop = false
  first : s.pk.flitCnt = 0 ↔ lastEop true s.flits = true

def Inv (strict : Bool) (ps : List (RulePacket w)) (s : PackSys w n) : Prop := ∃ c, Gathers strict ps c s

variable {κ : PackerKind w n} {strict : Bool} {ps : List (RulePacket w)} {c : List (BitVec w)} {s : PackSys w n} {i : PackTick}

theorem Inv.reset (hn : 2 ≤ n) (strict : Bool) (ps : List (RulePacket w)) :
    Inv strict ps (reset (beatsOf ps) : PackSys w n) :=
  ⟨[], by
    constructor <;> simp [PackSys.reset, Packer.reset, waiting, Framed, lastEop]
    omega⟩

theorem beat_of_mem {b : RuleBeat w} (h : b ∈ beatsOf ps) : b = eopBeat ∨ ∃ d, d ≠ 0 ∧ b = wordBeat d := by
  simp only [beatsOf, RulePacket.beats, List.mem_flatMap, List.mem_append, List.mem_map, List.mem_singleton] at h
  obtain ⟨p, _, ⟨d, hd, rfl⟩ | rfl⟩ := h
  · exact .inr ⟨d, p.ne_zero d hd, rfl⟩
  · exact .inl rfl

theorem pend_of_valid (h : (s.packIn i).valid = true) : s.pend = (s.packIn i).beat :: s.pend.tail := by
  unfold packIn at *
  cases hp : s.pend with
  | nil => simp [hp] at h
  | cons b l => rfl

theorem Gathers.beat (h : Gathers strict ps c s) (hv : (s.packIn i).valid = true) :
    (s.packIn i).beat = eopBeat ∨ ∃ d, d ≠ 0 ∧ (s.packIn i).beat = wordBeat d := by
  have hm : (s.packIn i).beat ∈ beatsOf ps := by
    rw [← h.stream, pend_of_valid hv]
    simp
  exact beat_of_mem hm

theorem Gathers.nextData (hκ : κ.Lawful) (h : Gathers strict ps c s) (hv : (s.packIn i).valid = true) (j : Fin n) :
    s.pk.nextData κ (s.packIn i) j = (c ++ [(s.packIn i).beat.data]).getD j.val 0 := by
  rw [Packer.nextData, if_pos hv, h.cnt]
  rcases Nat.lt_trichotomy j.val c.length with hj | hj | hj
  · have hc : c ≠ [] := List.ne_nil_of_length_pos (by omega)
    rw [if_neg (by omega), hκ.lt _ _ _ _ hj, h.data j (by omega) hc, List.getD_append _ _ _ _ hj]
  · rw [← hj, hκ.self, List.getD_append_right _ _ _ _ (by omega), hj, Nat.sub_self]
    rfl
  · rw [hκ.gt _ _ _ _ hj, List.getD_eq_default _ _ (by simp; omega)]
    split
    · exact vec_get _ _
    · next hc =>
      rw [h.data j (by omega) (by simpa using hc), List.getD_eq_default _ _ (by omega)]

theorem Gathers.nextSop (h : Gathers strict ps c s) (hr : i.ready = true) (ho : s.Open κ strict i) (hn : 2 ≤ n)
    (hf : s.pk.forms (s.packIn i) = true) : s.pk.nextSop = lastEop true (s.flits ++ s.waiting) := by
  have hfirst : (s.pk.flitCnt == 0) = lastEop true s.flits := by
    rw [Bool.eq_iff_iff, beq_iff_eq]
    exact h.first
  cases hov : s.pk.outValid with
  | false =>
    rw [Packer.nextSop, (h.low hov).1, hfirst]
    simp [waiting, hov]
  | true =>
    have hfr := h.framed
    rw [framed_append] at hfr
    have hsop : s.pk.outSop = lastEop true s.flits := by
      simpa [waiting, hov, Framed, Packer.flit] using hfr.2
    have heop : s.pk.outEop = false := by
      refine Bool.eq_false_iff.2 fun he => ?_
      have ha := (ho hov).2 hr
      have hc : s.pk.intCnt = 0 := by rw [h.cnt, h.idle hov]; rfl
      simp only [Packer.forms, hc, Bool.and_eq_true, Bool.or_eq_true, beq_iff_eq] at hf
      simp only [he, if_true, hf.1, Bool.true_and] at ha
      rcases hf.2 with hb | hb
      · rw [ha] at hb
        cases hb
      · omega
    rw [Packer.nextSop, hsop, hfirst]
    simp [lastEop_append, waiting, hov, lastEop, Packer.flit, heop]

theorem Gathers.write (h : Gathers strict ps c s) {d : Vec (BitVec w) n}
    (hd : ∀ j : Fin n, j.val ≠ c.length → c ≠ [] → d j = c.getD j.val 0)
    (hk : s.pk.outValid = true → d = s.pk.outData ∨ (strict = false ∧ s.pk.outEop = true)) :
    Gathers strict ps c { s with pk := { s.pk with outData := d } } := by
  cases hov : s.pk.outValid with
  | false =>
    have hw : waiting { s with pk := { s.pk with outData := d } } = s.waiting := by simp [waiting, hov]
    exact { h with spelt := hw ▸ h.spelt, framed := hw ▸ h.framed, clean := hw ▸ h.clean, data := hd }
  | true =>
    rcases hk hov with rfl | ⟨hs, he⟩
    · exact h
    · have hdep : (waiting { s with pk := { s.pk with outData := d } }).flatMap Flit.depack = s.waiting.flatMap Flit.depack := by
        simp [waiting, hov, Flit.depack, Packer.flit, he]
      have hfr : ∀ b, Framed b (waiting { s with pk := { s.pk with outData := d } }) ↔ Framed b s.waiting := by
        simp [waiting, hov, Framed, Packer.flit]
      refine { h with spelt := ?_, framed := ?_, clean := by simp [hs], data := hd }
      · rw [List.flatMap_append, hdep, ← List.flatMap_append]
        exact h.spelt
      · rw [framed_append, hfr, ← framed_append]
        exact h.framed

theorem Gathers.step_of_not_ready (hκ : κ.Lawful) (h : Gathers strict ps c s) (hr : i.ready = false)
    (ho : s.Open κ strict i) : Gathers strict ps c (s.step κ i) := by
  have ht : s.takes i = false := by simp [takes, Packer.inReady, packIn, hr]
  have hpk : s.pk.step κ (s.packIn i) = { s.pk with outData := s.pk.nextData κ (s.packIn i) } := by
    simp [Packer.step, packIn, hr]
  have hstep : s.step κ i = { s with pk := { s.pk with outData := s.pk.nextData κ (s.packIn i) } } := by
    simp [PackSys.step, ht, accepted, hr, hpk]
  rw [hstep]
  cases hv : (s.packIn i).valid with
  | false =>
    rw [show s.pk.nextData κ (s.packIn i) = s.pk.outData by simp [Packer.nextData, hv]]
    exact h
  | true =>
    refine h.write (fun j hj hc => ?_) fun hov => ?_
    · rw [h.nextData hκ hv]
      rcases Nat.lt_or_gt_of_ne hj with hj | hj
      · exact List.getD_append _ _ _ _ hj
      · rw [List.getD_eq_default _ _ (by simp; omega), List.getD_eq_default _ _ (by omega)]
    · rcases (ho hov).1 hr hv with hw | hw
      · exact .inr hw
      · have hc : s.pk.intCnt = 0 := by rw [h.cnt, h.idle hov]; rfl
        left
        rw [Packer.nextData, if_pos hv, hc, if_pos rfl, hw]

theorem Gathers.move (h : Gathers strict ps c s) (hr : i.ready = true) (ho : s.Open κ strict i)
    {c' : List (BitVec w)} {f : List (Flit w n)} {b : List (RuleBeat w)}
    (hb : (if s.takes i then s.pend.take 1 else []) = b) (hf : (s.step κ i).waiting = f)
    (hbf : c.map wordBeat ++ b = f.flatMap Flit.depack ++ c'.map wordBeat)
    (hfr : Framed (lastEop true (s.flits ++ s.waiting)) f)
    (hclean : strict = true → ∀ g ∈ f, g.eop = true → ∀ j, g.data j = 0)
    (hcnt : (s.step κ i).pk.intCnt = c'.length) (hlt : c'.length < n) (hnz : ∀ d ∈ c', d ≠ 0)
    (hdata : ∀ j : Fin n, j.val ≠ c'.length → c' ≠ [] → (s.step κ i).pk.outData j = c'.getD j.val 0)
    (hidle : f ≠ [] → c' = []) : Gathers strict ps c' (s.step κ i) := by
  have hacc : s.accepted i = s.waiting := by simp [accepted, waiting, hr]
  have hfl : (s.step κ i).flits = s.flits ++ s.waiting := by simp [PackSys.step, hacc]
  have htk : (s.step κ i).taken = s.taken ++ b := by
    rw [← hb]
    unfold PackSys.step
    cases s.takes i <;> simp
  constructor
  case stream =>
    rw [htk, ← hb, ← h.stream]
    unfold PackSys.step
    cases s.takes i with
    | false => simp
    | true => cases s.pend <;> simp
  case cnt => exact hcnt
  case lt => exact hlt
  case ne_zero => exact hnz
  case spelt =>
    rw [hfl, hf, htk, ← h.spelt, List.flatMap_append, List.append_assoc, List.append_assoc, hbf]
  case framed =>
    rw [hfl, hf, framed_append]
    exact ⟨h.framed, hfr⟩
  case clean =>
    rw [hfl, hf]
    intro hs g hg
    rcases List.mem_append.1 hg with hg | hg
    · exact h.clean hs g hg
    · exact hclean hs g hg
  case data => exact hdata
  case idle =>
    intro hov
    refine hidle ?_
    rw [← hf]
    simp [waiting, hov]
  case low =>
    intro hov
    have hform : s.pk.forms (s.packIn i) = false := by simpa [PackSys.step, Packer.step, packIn, hr] using hov
    have hpk : (s.step κ i).pk.outSop = (s.pk.forms (s.packIn i) && s.pk.nextSop) ∧
        (s.step κ i).pk.outEop = ((s.packIn i).valid && (s.packIn i).beat.eop && s.pk.intCnt == 0) := by
      simp [PackSys.step, Packer.step, packIn, hr]
    rw [hpk.1, hpk.2, hform]
    refine ⟨rfl, ?_⟩
    cases hv : (s.packIn i).valid <;> cases he : (s.packIn i).beat.eop <;> simp_all [Packer.forms]
  case first =>
    rw [hfl]
    have hcnt : (s.step κ i).pk.flitCnt = s.pk.nextFlitCnt (s.packIn i) := by
      simp [PackSys.step, Packer.step, packIn, hr]
    rw [hcnt, Packer.nextFlitCnt]
    cases hov : s.pk.outValid with
    | false => simpa [waiting, hov] using h.first
    | true =>
      have hs := (ho hov).2 hr
      have hi : (s.packIn i).outReady = true := hr
      simp only [hi, waiting, hov, lastEop_append, lastEop, Packer.flit, Bool.and_self, if_true]
      cases he : s.pk.outEop with
      | true => simp
      | false =>
        simp only [he, Bool.false_eq_true, if_false, iff_false] at hs ⊢
        intro h0
        exact hs (by bv_omega)

theorem waiting_step (hr : i.ready = true) (s : PackSys w n) :
    (s.step κ i).waiting = if s.pk.forms (s.packIn i) then
      [⟨s.pk.nextSop, (s.packIn i).beat.eop && s.pk.intCnt == 0, s.pk.nextData κ (s.packIn i)⟩] else [] := by
  have hi : (s.packIn i).outReady = true := hr
  simp only [waiting, PackSys.step, Packer.step, hi, if_true, Packer.flit]
  cases hf : s.pk.forms (s.packIn i) with
  | false => simp
  | true =>
    have hv : (s.packIn i).valid = true := by simp only [Packer.forms, Bool.and_eq_true] at hf; exact hf.1
    simp [hv]

theorem pk_step (hr : i.ready = true) (s : PackSys w n) :
    (s.step κ i).pk.intCnt =
        (if (s.packIn i).valid then if s.pk.forms (s.packIn i) then 0 else s.pk.intCnt + 1 else s.pk.intCnt) ∧
      (s.step κ i).pk.outData = s.pk.nextData κ (s.packIn i) := by
  have hi : (s.packIn i).outReady = true := hr
  simp [PackSys.step, Packer.step, hi]

theorem Gathers.step_idle (h : Gathers strict ps c s) (hr : i.ready = true) (ho : s.Open κ strict i)
    (hv : (s.packIn i).valid = false) : Gathers strict ps c (s.step κ i) := by
  have hf : s.pk.forms (s.packIn i) = false := by simp [Packer.forms, hv]
  refine h.move (b := []) (f := []) hr ho (by simp [takes, hv]) (by simp [waiting_step hr, hf]) (by simp) trivial (by simp)
    ?_ h.lt h.ne_zero (fun j hj hc => ?_) (by simp)
  · rw [(pk_step hr s).1, hv]
    exact h.cnt
  · rw [(pk_step hr s).2, Packer.nextData, hv]
    exact h.data j hj hc

theorem Gathers.step_eop (hκ : κ.Lawful) (h : Gathers strict ps [] s) (hr : i.ready = true) (ho : s.Open κ strict i)
    (hv : (s.packIn i).valid = true) (hb : (s.packIn i).beat = eopBeat) : Gathers strict ps [] (s.step κ i) := by
  have hc : s.pk.intCnt = 0 := h.cnt
  have hf : s.pk.forms (s.packIn i) = true := by simp [Packer.forms, hv, hb, eopBeat]
  have hi : (s.packIn i).outReady = true := hr
  have ht : s.takes i = true := by simp [takes, hv, Packer.inReady, hc, hi]
  refine h.move hr ho (b := [eopBeat]) (f := [_]) ?_ ((waiting_step hr s).trans (if_pos hf)) ?_ ?_ ?_ ?_ ?_ ?_ ?_ ?_
  · rw [if_pos ht, pend_of_valid hv, hb]
    rfl
  · simp [Flit.depack, hb, hc, eopBeat]
  · exact ⟨h.nextSop hr ho hκ.two hf, trivial⟩
  · intro _ g hg _ j
    rw [List.mem_singleton.1 hg]
    have := h.nextData hκ hv j
    rw [this, hb]
    cases j.val <;> rfl
  · rw [(pk_step hr s).1, hv, hf]
    rfl
  · exact h.lt
  · exact h.ne_zero
  · simp
  · simp

theorem Gathers.step_flush (hκ : κ.Lawful) (h : Gathers strict ps c s) (hr : i.ready = true) (ho : s.Open κ strict i)
    (hv : (s.packIn i).valid = true) (hb : (s.packIn i).beat = eopBeat) (hc : c ≠ []) :
    Gathers strict ps [] (s.step κ i) := by
  have hcnt : (s.pk.intCnt == 0) = false := by
    rw [h.cnt, beq_eq_false_iff_ne]
    exact fun h0 => hc (List.length_eq_zero_iff.1 h0)
  have hf : s.pk.forms (s.packIn i) = true := by simp [Packer.forms, hv, hb, eopBeat]
  have ht : s.takes i = false := by
    simp [takes, Packer.inReady, hb, eopBeat, hcnt, bne]
  have hw : wordBeats (s.pk.nextData κ (s.packIn i)).toList = c.map wordBeat := by
    refine wordBeats_vec h.ne_zero (Nat.le_of_lt h.lt) fun j => ?_
    rw [h.nextData hκ hv, hb]
    rcases Nat.lt_or_ge j.val c.length with hj | hj
    · exact List.getD_append _ _ _ _ hj
    · rw [List.getD_append_right _ _ _ _ hj, List.getD_eq_default _ _ hj]
      cases j.val - c.length <;> rfl
  refine h.move hr ho (b := []) (f := [_]) ?_ ((waiting_step hr s).trans (if_pos hf)) ?_ ?_ ?_ ?_ ?_ ?_ ?_ ?_
  · simp [ht]
  · simp [Flit.depack, hcnt, hw]
  · exact ⟨h.nextSop hr ho hκ.two hf, trivial⟩
  · intro _ g hg he
    rw [List.mem_singleton.1 hg] at he
    simp [hcnt] at he
  · rw [(pk_step hr s).1, hv, hf]
    rfl
  · exact Nat.zero_lt_of_lt h.lt
  · simp
  · simp
  · simp

theorem Gathers.step_word (hκ : κ.Lawful) (h : Gathers strict ps c s) (hr : i.ready = true) (ho : s.Open κ strict i)
    (hv : (s.packIn i).valid = true) {d : BitVec w} (hd : d ≠ 0) (hb : (s.packIn i).beat = wordBeat d) :
    Gathers strict ps (if c.length + 1 = n then [] else c ++ [d]) (s.step κ i) := by
  have hi : (s.packIn i).outReady = true := hr
  have ht : s.takes i = true := by simp [takes, hv, Packer.inReady, hi, hb, wordBeat]
  have htake : (if s.takes i then s.pend.take 1 else []) = [wordBeat d] := by
    rw [if_pos ht, pend_of_valid hv, hb]
    rfl
  have hnz : ∀ e ∈ c ++ [d], e ≠ 0 := by
    intro e he
    rcases List.mem_append.1 he with he | he
    · exact h.ne_zero e he
    · rwa [List.mem_singleton.1 he]
  have hdata : ∀ j, s.pk.nextData κ (s.packIn i) j = (c ++ [d]).getD j.val 0 := by
    intro j
    rw [h.nextData hκ hv, hb]
    rfl
  split
  · next hn =>
    have hf : s.pk.forms (s.packIn i) = true := by simp [Packer.forms, hv, h.cnt, hn]
    refine h.move hr ho (f := [_]) htake ((waiting_step hr s).trans (if_pos hf)) ?_ ?_ ?_ ?_ ?_ ?_ ?_ ?_
    · have := wordBeats_vec hnz (by simp; omega) hdata
      simp [Flit.depack, hb, wordBeat, this]
    · exact ⟨h.nextSop hr ho hκ.two hf, trivial⟩
    · intro _ g hg he
      rw [List.mem_singleton.1 hg] at he
      simp [hb, wordBeat] at he
    · rw [(pk_step hr s).1, hv, hf]
      rfl
    · exact Nat.zero_lt_of_lt h.lt
    · simp
    · simp
    · simp
  · next hn =>
    have hf : s.pk.forms (s.packIn i) = false := by simp [Packer.forms, hv, h.cnt, hn, hb, wordBeat]
    refine h.move hr ho (f := []) htake (by simp [waiting_step hr, hf]) ?_ trivial ?_ ?_ ?_ hnz ?_ ?_
    · simp
    · simp
    · rw [(pk_step hr s).1, hv, hf, h.cnt]
      simp
    · have := h.lt
      simp
      omega
    · intro j _ _
      rw [(pk_step hr s).2]
      exact hdata j
    · simp

theorem Inv.step (hκ : κ.Lawful) (strict : Bool) (ps : List (RulePacket w)) (s : PackSys w n) (i : PackTick)
    (h : Inv strict ps s) (ho : s.Open κ strict i) : Inv strict ps (s.step κ i) := by
  obtain ⟨c, h⟩ := h
  cases hr : i.ready with
  | false => exact ⟨c, h.step_of_not_ready hκ hr ho⟩
  | true =>
    cases hv : (s.packIn i).valid with
    | false => exact ⟨c, h.step_idle hr ho hv⟩
    | true =>
      rcases h.beat hv with hb | ⟨d, hd, hb⟩
      · by_cases hc : c = []
        · subst hc
          exact ⟨[], h.step_eop hκ hr ho hv hb⟩
        · exact ⟨[], h.step_flush hκ hr ho hv hb hc⟩
      · exact ⟨_, h.step_word hκ hr ho hv hd hb⟩

/-! ### Delivery -/

/-- A cycle in which a beat is offered and a flit accepted. -/
def served : PackTick := ⟨true, true⟩

/-- The moves before the beats of a packer; a flit has `k` more when it leaves. -/
def work (k : Nat) (s : PackSys w n) : Nat :=
  (k + 3) * s.pend.length + (if s.pk.intCnt = 0 then 0 else k + 2) + (k + 1) * s.waiting.length

theorem work_step (κ : PackerKind w n) (k : Nat) (s : PackSys w n) (hq : s.pend ≠ [] ∨ s.waiting ≠ []) :
    (s.step κ served).work k + k * (s.accepted served).length < s.work k := by
  have hr : served.ready = true := rfl
  have hacc : s.accepted served = s.waiting := by simp [accepted, waiting, served]
  have hpend : (s.step κ served).pend = if s.takes served then s.pend.tail else s.pend := rfl
  have hi : (s.packIn served).outReady = true := rfl
  rw [hacc]
  unfold work
  rw [waiting_step hr, (pk_step hr s).1, hpend]
  cases hp : s.pend with
  | nil =>
    have hv : (s.packIn served).valid = false := by simp [packIn, hp]
    have hw : 0 < s.waiting.length := List.length_pos_iff.2 (hq.resolve_left (· hp))
    simp only [takes, hv, Packer.forms, Bool.false_and, Bool.false_eq_true, if_false, List.length_nil, Nat.add_mul]
    omega
  | cons b l =>
    have hv : (s.packIn served).valid = true := by simp [packIn, hp, served]
    cases hf : s.pk.forms (s.packIn served) with
    | true =>
      cases ht : s.takes served with
      | true =>
        simp only [hv, if_true, List.tail_cons, List.length_cons, List.length_nil, Nat.mul_add, Nat.add_mul]
        omega
      | false =>
        have hc : s.pk.intCnt ≠ 0 := by
          intro hc
          simp [takes, hv, Packer.inReady, hc, hi] at ht
        simp only [hv, hc, if_true, Bool.false_eq_true, if_false, List.length_cons, List.length_nil, Nat.mul_add, Nat.add_mul]
        omega
    | false =>
      have ht : s.takes served = true := by
        have he : (s.packIn served).beat.eop = false := by
          simp only [Packer.forms, hv, Bool.true_and, Bool.or_eq_false_iff] at hf
          exact hf.1
        simp [takes, hv, Packer.inReady, he, hi]
      simp only [hv, ht, if_true, Bool.false_eq_true, if_false, List.tail_cons, List.length_cons, List.length_nil,
        Nat.mul_add, Nat.add_mul, Nat.succ_ne_zero]
      omega

theorem work_rest (κ : PackerKind w n) (k : Nat) (s : PackSys w n) (hp : s.pend = []) (hw : s.waiting = []) :
    (s.step κ served).work k + k * (s.accepted served).length = s.work k := by
  have hr : served.ready = true := rfl
  have hacc : s.accepted served = [] := by simpa [accepted, waiting, served] using hw
  have hv : (s.packIn served).valid = false := by simp [packIn, hp]
  have hpend : (s.step κ served).pend = [] := by simp [PackSys.step, takes, hv, hp]
  unfold work
  rw [hacc, waiting_step hr, (pk_step hr s).1, hpend, hp, hw]
  simp [Packer.forms, hv]

theorem Inv.spelt_of_rest (h : Inv strict ps s) (hp : s.pend = []) (hw : s.waiting = []) :
    s.flits.flatMap Flit.depack = beatsOf ps := by
  obtain ⟨c, h⟩ := h
  have hs := h.spelt
  have ht := h.stream
  rw [hp, List.append_nil] at ht
  rw [hw, List.append_nil, ht] at hs
  rw [eq_nil_of_beatsOf hs] at hs
  simpa using hs

theorem Inv.spelt_prefix (h : Inv strict ps s) : s.flits.flatMap Flit.depack <+: beatsOf ps := by
  obtain ⟨c, h⟩ := h
  refine ⟨s.waiting.flatMap Flit.depack ++ c.map wordBeat ++ s.pend, ?_⟩
  rw [← h.stream, ← h.spelt, List.flatMap_append]
  simp only [List.append_assoc]

theorem Inv.framed (h : Inv strict ps s) : Framed true s.flits := by
  obtain ⟨c, h⟩ := h
  exact ((framed_append _ _ _).1 h.framed).1

theorem Inv.split (h : Inv true ps s) : s.flits.flatMap Flit.split = s.flits.flatMap Flit.depack := by
  obtain ⟨c, h⟩ := h
  refine List.flatMap_congr fun f hf => ?_
  unfold Flit.split Flit.depack
  cases he : f.eop with
  | false => simp
  | true =>
    have hz : wordBeats f.data.toList = [] := by
      refine wordBeats_of_zero fun d hd => ?_
      obtain ⟨j, rfl⟩ := (List.Vector.mem_iff_get d f.data).1 hd
      exact h.clean rfl f (List.mem_append_left _ hf) he j
    simp [hz]

theorem Inv.delivered (hκ : κ.Lawful) (m : Nat) (h : Inv true ps s) (hw : s.work 0 ≤ m)
    (ho : AllSteps (PackSys.step κ) (Open κ true) s (List.replicate m served)) :
    (run (PackSys.step κ) s (List.replicate m served)).flits.flatMap Flit.depack = beatsOf ps := by
  refine run_reaches (PackSys.step κ) (fun s => s.flits.flatMap Flit.depack = beatsOf ps) (work 0)
    (Inv.step hκ true ps) (fun s h => ?_) (fun s h hd => ?_) m h (.inl hw) ho
  · by_cases hq : s.pend ≠ [] ∨ s.waiting ≠ []
    · have := work_step κ 0 s hq
      exact .inl (by omega)
    · simp only [not_or, not_not] at hq
      exact .inr (h.spelt_of_rest hq.1 hq.2)
  · refine h.spelt_prefix.eq_of_length_le ?_
    rw [← hd]
    simp [PackSys.step]

end PackSys

/-! ## The depacker -/

namespace Depacker

variable {w n : Nat} {δ : DepackerKind} {s : Depacker w n} {i : DepIn w n}

def remaining (s : Depacker w n) : List (RuleBeat w) :=
  match s.state with
  | .idle => []
  | .middle => wordBeats (s.latch.toList.drop s.intCnt)
  | .last => [eopBeat]

def pending (s : Depacker w n) : List (RuleBeat w) := if s.intValid then [s.intData.beat] else []

/-- The flits that are still to be taken apart; a flit in work stays at the input for one more cycle. -/
def rest (s : Depacker w n) (queue : List (Flit w n)) : List (Flit w n) := if s.inReady then queue.tail else queue

structure Ok (s : Depacker w n) : Prop where
  taken : s.inReady = true → s.state ≠ .idle
  cnt : s.state = .middle → s.intCnt < n

def Roomy (s : Depacker w n) : Prop := s.intValid = true → s.fifo.length < fifoDepth

instance : Decidable s.Roomy := by unfold Roomy; infer_instance

theorem wordBeats_drop (h : s.intCnt < n) :
    wordBeats (s.latch.toList.drop s.intCnt) =
      (if s.word != 0 then [wordBeat s.word] else []) ++ wordBeats (s.latch.toList.drop (s.intCnt + 1)) := by
  have hl : s.intCnt < s.latch.toList.length := by simpa using h
  have hw : s.word = s.latch.toList[s.intCnt] := by
    rw [word, dif_pos h, List.Vector.get_eq_get_toList]
    rfl
  rw [List.drop_eq_getElem_cons hl, ← List.singleton_append, wordBeats_append, ← hw]
  congr 1
  simp only [wordBeats, List.filter_singleton]
  cases s.word != 0 <;> rfl

theorem Ok.step (h : s.Ok) (hn : 0 < n) : (s.step δ i).Ok := by
  have hst : s.state = .middle → s.intCnt < n := h.cnt
  constructor
  · unfold Depacker.step update
    cases s.state with
    | idle => simp only; split <;> [split <;> simp; simp]
    | middle => simp
    | last => simp
  · unfold Depacker.step update
    cases hs : s.state with
    | idle => simp only; split <;> [split <;> simp [hn]; simp]
    | middle =>
      have := hst hs
      simp only
      split
      · simp
      · intro _
        omega
    | last => simp

theorem Ok.update (h : s.Ok) (δ : DepackerKind) (queue more : List (Flit w n)) (hv : i.valid = !queue.isEmpty)
    (hf : queue ≠ [] → queue.head? = some i.flit) :
    (s.step δ i).pending ++ (s.step δ i).remaining ++ ((s.step δ i).rest (s.rest queue ++ more)).flatMap Flit.depack =
      s.remaining ++ (s.rest queue).flatMap Flit.depack ++ more.flatMap Flit.depack := by
  cases hs : s.state with
  | idle =>
    have hr : s.inReady = false := Bool.eq_false_iff.2 fun hr => h.taken hr hs
    cases ht : !s.almostFull && i.valid with
    | false => simp [Depacker.step, Depacker.update, hs, ht, pending, remaining, rest, hr]
    | true =>
      have hq : queue = i.flit :: queue.tail := by
        cases queue with
        | nil => simp [hv] at ht
        | cons f q => simpa using hf
      rw [hq]
      cases he : i.flit.eop with
      | true => simp [Depacker.step, Depacker.update, hs, ht, pending, remaining, rest, hr, he, Flit.depack]
      | false => simp [Depacker.step, Depacker.update, hs, ht, pending, remaining, rest, hr, he, Flit.depack]
  | middle =>
    have hc := h.cnt hs
    have hwb := wordBeats_drop hc
    have hrem : (s.step δ i).remaining = wordBeats (s.latch.toList.drop (s.intCnt + 1)) := by
      simp only [Depacker.step, Depacker.update, hs, remaining]
      by_cases hn : s.intCnt + 1 = n
      · rw [if_pos hn, List.drop_eq_nil_of_le (by simp [hn])]
        rfl
      · rw [if_neg hn]
    have hpend : (s.step δ i).pending = if s.word != 0 then [wordBeat s.word] else [] := by
      simp only [Depacker.step, Depacker.update, hs, pending]
      split <;> rfl
    have hrest : (s.step δ i).rest (s.rest queue ++ more) = s.rest queue ++ more := by
      simp [Depacker.step, Depacker.update, hs, rest]
    rw [hrem, hpend, hrest, ← hwb]
    simp [remaining, hs]
  | last => simp [Depacker.step, Depacker.update, hs, pending, remaining, rest, eopBeat]

theorem push_of_roomy (h : s.Roomy) : (s.push).toList.map DepBeat.beat = s.pending := by
  unfold push pending
  cases hv : s.intValid with
  | false => rfl
  | true => simp [h hv]

theorem fifo_step (δ : DepackerKind) (s : Depacker w n) (i : DepIn w n) (out : List (DepBeat w)) :
    (if i.outReady then out ++ s.fifo.take 1 else out) ++ (s.step δ i).fifo = out ++ s.fifo ++ s.push.toList := by
  cases hf : s.fifo <;> cases hr : i.outReady <;> simp [step, fifoStep, outValid, hf, hr]

/-! ### The FIFO of `rule_depacker_512_128` -/

/-- How many beats may still come before the depacker looks at `almost_full` again. -/
def ahead (s : Depacker w n) : Nat :=
  match s.state with
  | .idle => 0
  | .middle => n - s.intCnt
  | .last => 1

structure Bounded (s : Depacker w n) : Prop where
  low : s.almostFull = false → s.fifo.length ≤ fullLevel
  room : s.fifo.length + s.pending.length + s.ahead ≤ fullLevel + n + 1

theorem pending_length (s : Depacker w n) : s.pending.length ≤ 1 := by
  unfold pending
  split <;> simp

theorem push_length (s : Depacker w n) : s.push.toList.length ≤ s.pending.length := by
  unfold push pending
  cases s.intValid with
  | false => simp
  | true => split <;> simp

theorem length_fifo_step : (s.step δ i).fifo.length ≤ s.fifo.length + s.pending.length := by
  have hp := push_length s
  simp only [step, fifoStep, List.length_append]
  split
  · rw [List.length_tail]
    omega
  · omega

theorem Bounded.step (h : s.Bounded) (hk : s.Ok) (hδ : δ.useAlmostFull = true) (hn : 0 < n) : (s.step δ i).Bounded := by
  have hlen : (s.step δ i).fifo.length ≤ s.fifo.length + s.pending.length := length_fifo_step
  have hp := pending_length s
  have hp' := pending_length (s.step δ i)
  have hroom := h.room
  constructor
  · intro haf
    have : s.fifo.length < fullLevel := by simpa [Depacker.step, hδ] using haf
    omega
  · cases hs : s.state with
    | idle =>
      have hpend : (s.step δ i).pending = [] := by
        simp only [Depacker.step, Depacker.update, hs, pending]
        split <;> [split <;> simp; simp]
      rw [hpend, List.length_nil]
      cases ht : !s.almostFull && i.valid with
      | false =>
        have : (s.step δ i).ahead = 0 := by simp [Depacker.step, Depacker.update, hs, ht, ahead]
        omega
      | true =>
        have hlow := h.low (by simp only [Bool.and_eq_true, Bool.not_eq_true'] at ht; exact ht.1)
        have : (s.step δ i).ahead ≤ n := by
          cases he : i.flit.eop <;> simp [Depacker.step, Depacker.update, hs, ht, ahead, he]
          omega
        omega
    | middle =>
      have hc := hk.cnt hs
      have ha : s.ahead = n - s.intCnt := by simp [ahead, hs]
      have : (s.step δ i).ahead ≤ n - (s.intCnt + 1) := by
        simp only [Depacker.step, Depacker.update, hs, ahead]
        by_cases hn : s.intCnt + 1 = n
        · simp [hn]
        · simp [hn]
      omega
    | last =>
      have ha : s.ahead = 1 := by simp [ahead, hs]
      have : (s.step δ i).ahead = 0 := by simp [Depacker.step, Depacker.update, hs, ahead]
      omega

/-! ### Delivery -/

/-- The moves before the beats of a depacker. -/
def work (s : Depacker w n) : Nat := 3 * s.ahead + 2 * s.pending.length + s.fifo.length

theorem fifo_length_step (hr : i.outReady = true) :
    (s.step δ i).fifo.length ≤ s.fifo.length - 1 + s.pending.length := by
  have hp := push_length s
  simp only [step, fifoStep, List.length_append, outValid, hr, Bool.and_true]
  cases hf : s.fifo with
  | nil => simpa using hp
  | cons x l => simpa using hp

/-- Nothing is left in a depacker or in front of it. -/
def Rests (s : Depacker w n) (queue : List (Flit w n)) : Prop :=
  s.rest queue = [] ∧ s.remaining = [] ∧ s.pending = [] ∧ s.fifo = []

theorem Ok.work_idle (h : s.Ok) (hs : s.state = .idle) (δ : DepackerKind) (queue more : List (Flit w n))
    (hv : i.valid = !queue.isEmpty) (hr : i.outReady = true) (haf : s.almostFull = true → s.fifo ≠ []) (hn : 0 < n) :
    (s.step δ i).work + (3 * n + 1) * ((s.step δ i).rest (s.rest queue ++ more)).length ≤
        s.work + (3 * n + 1) * (s.rest queue ++ more).length ∧
      (¬ s.Rests queue → (s.step δ i).work + (3 * n + 1) * ((s.step δ i).rest (s.rest queue ++ more)).length <
        s.work + (3 * n + 1) * (s.rest queue ++ more).length) := by
  have hlen : (s.step δ i).fifo.length ≤ s.fifo.length - 1 + s.pending.length := fifo_length_step hr
  have hri : s.inReady = false := Bool.eq_false_iff.2 fun hr => h.taken hr hs
  have hrest : s.rest queue = queue := by simp [rest, hri]
  have hpend : (s.step δ i).pending = [] := by
    simp only [Depacker.step, Depacker.update, hs, pending]
    split <;> [split <;> simp; simp]
  unfold work
  rw [hpend, hrest]
  cases ht : !s.almostFull && i.valid with
  | false =>
    have ha : (s.step δ i).ahead = 0 ∧ (s.step δ i).inReady = false := by
      simp [Depacker.step, Depacker.update, hs, ht, ahead]
    have hrest' : (s.step δ i).rest (queue ++ more) = queue ++ more := by simp [rest, ha.2]
    rw [ha.1, hrest', List.length_nil]
    refine ⟨by omega, fun hq => ?_⟩
    have hpos : 0 < s.pending.length + s.fifo.length := by
      by_contra h0
      have hp0 : s.pending = [] := List.length_eq_zero_iff.1 (by omega)
      have hf0 : s.fifo = [] := List.length_eq_zero_iff.1 (by omega)
      refine hq ⟨hrest.trans ?_, by simp [remaining, hs], hp0, hf0⟩
      have haf' : s.almostFull = false := Bool.eq_false_iff.2 fun h => haf h hf0
      simpa [haf', hv] using ht
    omega
  | true =>
    have ha : (s.step δ i).ahead ≤ n ∧ (s.step δ i).inReady = true := by
      cases he : i.flit.eop <;> simp [Depacker.step, Depacker.update, hs, ht, ahead, he]
      omega
    have hq : 0 < queue.length := by
      simp only [hv, Bool.and_eq_true, Bool.not_eq_true', List.isEmpty_eq_false_iff] at ht
      exact List.length_pos_iff.2 ht.2
    have hlt : ((s.step δ i).rest (queue ++ more)).length + 1 = (queue ++ more).length := by
      simp only [rest, ha.2, if_true, List.length_tail, List.length_append]
      omega
    rw [← hlt, List.length_nil, Nat.mul_add]
    omega

theorem Ok.work_step (h : s.Ok) (δ : DepackerKind) (queue more : List (Flit w n)) (hv : i.valid = !queue.isEmpty)
    (hr : i.outReady = true) (haf : s.almostFull = true → s.fifo ≠ []) (hn : 0 < n) :
    (s.step δ i).work + (3 * n + 1) * ((s.step δ i).rest (s.rest queue ++ more)).length ≤
        s.work + (3 * n + 1) * (s.rest queue ++ more).length ∧
      (¬ s.Rests queue → (s.step δ i).work + (3 * n + 1) * ((s.step δ i).rest (s.rest queue ++ more)).length <
        s.work + (3 * n + 1) * (s.rest queue ++ more).length) := by
  have hlen : (s.step δ i).fifo.length ≤ s.fifo.length - 1 + s.pending.length := fifo_length_step hr
  have hp' := pending_length (s.step δ i)
  cases hs : s.state with
  | idle => exact h.work_idle hs δ queue more hv hr haf hn
  | middle =>
    have hc := h.cnt hs
    have hrest : (s.step δ i).rest (s.rest queue ++ more) = s.rest queue ++ more := by
      simp [Depacker.step, Depacker.update, hs, rest]
    have ha : s.ahead = n - s.intCnt := by simp [ahead, hs]
    have ha' : (s.step δ i).ahead ≤ n - (s.intCnt + 1) := by
      simp only [Depacker.step, Depacker.update, hs, ahead]
      by_cases hn : s.intCnt + 1 = n <;> simp [hn]
    unfold work
    rw [hrest]
    omega
  | last =>
    have hrest : (s.step δ i).rest (s.rest queue ++ more) = s.rest queue ++ more := by
      simp [Depacker.step, Depacker.update, hs, rest]
    have ha : s.ahead = 1 := by simp [ahead, hs]
    have ha' : (s.step δ i).ahead = 0 := by simp [Depacker.step, Depacker.update, hs, ahead]
    unfold work
    rw [hrest]
    omega

end Depacker

/-! ## Packer and depacker -/

namespace LinkSys

variable {w n : Nat} {κ : PackerKind w n} {δ : DepackerKind} {ps : List (RulePacket w)} {s : LinkSys w n} {i : LinkTick}

/-- The packer is open, and a depacker that does not watch its FIFO finds room in it. -/
def Open (κ : PackerKind w n) (δ : DepackerKind) (s : LinkSys w n) (i : LinkTick) : Prop :=
  s.front.Open κ false i.front ∧ (δ.useAlmostFull = false → s.dep.Roomy)

instance (κ : PackerKind w n) (δ : DepackerKind) (s : LinkSys w n) (i : LinkTick) : Decidable (s.Open κ δ i) := by
  unfold Open
  infer_instance

/-- The depacked beats still inside, in front of those of the flits to come. -/
def inside (s : LinkSys w n) : List (RuleBeat w) :=
  s.dep.fifo.map DepBeat.beat ++ s.dep.pending ++ s.dep.remaining ++ (s.dep.rest s.queue).flatMap Flit.depack

structure Inv (δ : DepackerKind) (ps : List (RulePacket w)) (s : LinkSys w n) : Prop where
  front : s.front.Inv false ps
  ok : s.dep.Ok
  bounded : δ.useAlmostFull = true → s.dep.Bounded
  full : s.dep.almostFull = true → Depacker.fullLevel ≤ s.dep.fifo.length + 1
  stream : s.out.map DepBeat.beat ++ s.inside = s.front.flits.flatMap Flit.depack

theorem Inv.reset (hn : 2 ≤ n) (δ : DepackerKind) (ps : List (RulePacket w)) :
    Inv δ ps (reset (beatsOf ps) : LinkSys w n) where
  front := .reset hn false ps
  ok := ⟨by simp [LinkSys.reset, Depacker.reset], by simp [LinkSys.reset, Depacker.reset]⟩
  bounded _ := ⟨by simp [LinkSys.reset, Depacker.reset],
    by simp [LinkSys.reset, Depacker.reset, Depacker.pending, Depacker.ahead]⟩
  full := by simp [LinkSys.reset, Depacker.reset]
  stream := by
    simp [LinkSys.reset, Depacker.reset, PackSys.reset, inside, Depacker.pending, Depacker.remaining, Depacker.rest]

theorem Inv.roomy (h : Inv δ ps s) (hn : n ≤ 100) (ho : s.Open κ δ i) : s.dep.Roomy := by
  intro hv
  cases hδ : δ.useAlmostFull with
  | false => exact ho.2 hδ hv
  | true =>
    have := (h.bounded hδ).room
    simp only [Depacker.pending, hv, if_true, List.length_singleton, Depacker.fullLevel] at this
    simp only [Depacker.fifoDepth]
    omega

theorem Inv.step (hκ : κ.Lawful) (hn : n ≤ 100) (δ : DepackerKind) (ps : List (RulePacket w)) (s : LinkSys w n)
    (i : LinkTick) (h : Inv δ ps s) (ho : s.Open κ δ i) : Inv δ ps (s.step κ δ i) := by
  have hn0 : 0 < n := Nat.zero_lt_of_lt hκ.two
  refine ⟨h.front.step hκ _ _ _ _ ho.1, h.ok.step hn0, fun hδ => (h.bounded hδ).step h.ok hδ hn0, fun haf => ?_, ?_⟩
  · have haf' : Depacker.fullLevel ≤ s.dep.fifo.length := by
      simp only [LinkSys.step, Depacker.step, Bool.and_eq_true, decide_eq_true_eq] at haf
      exact haf.2
    simp only [LinkSys.step, Depacker.step, fifoStep, List.length_append]
    split
    · rw [List.length_tail]
      omega
    · omega
  · have hf := Depacker.fifo_step δ s.dep (s.depIn i) s.out
    have hu := h.ok.update δ (i := s.depIn i) s.queue (s.front.accepted i.front) rfl (by
      intro hq
      cases hs : s.queue with
      | nil => exact absurd hs hq
      | cons f q => simp [depIn, hs])
    have hp := Depacker.push_of_roomy (h.roomy hn ho)
    change List.map _ _ ++ (List.map _ _ ++ _ ++ _ ++ _) = List.flatMap _ (_ ++ _)
    rw [List.flatMap_append, ← h.stream, List.append_assoc _ (Depacker.pending _), List.append_assoc _ (_ ++ _),
      ← List.append_assoc, ← List.map_append]
    refine Eq.trans (congrArg₂ (· ++ ·) (congrArg _ hf) hu) ?_
    simp [inside, hp]

/-! ### Delivery -/

def served : LinkTick := ⟨PackSys.served, true⟩

/-- The moves that the beats in the system have before them. -/
def work (s : LinkSys w n) : Nat :=
  s.front.work (3 * n + 1) + (3 * n + 1) * (s.dep.rest s.queue).length + s.dep.work

theorem Inv.work_step (h : Inv δ ps s) (κ : PackerKind w n) (hn : 0 < n) :
    (s.step κ δ served).work < s.work ∨ (s.front.pend = [] ∧ s.front.waiting = [] ∧ s.dep.Rests s.queue) := by
  have hd := h.ok.work_step δ (i := s.depIn served) s.queue (s.front.accepted served.front) rfl rfl (fun haf hf => by
    have := h.full haf
    simp [hf, Depacker.fullLevel] at this) hn
  rw [List.length_append, Nat.mul_add] at hd
  have hw : (s.step κ δ served).work = (s.front.step κ served.front).work (3 * n + 1) +
      (3 * n + 1) * ((s.dep.step δ (s.depIn served)).rest (s.dep.rest s.queue ++ s.front.accepted served.front)).length +
      (s.dep.step δ (s.depIn served)).work := rfl
  have hw' : s.work = s.front.work (3 * n + 1) + (3 * n + 1) * (s.dep.rest s.queue).length + s.dep.work := rfl
  by_cases hq : s.front.pend = [] ∧ s.front.waiting = []
  · by_cases hr : s.dep.Rests s.queue
    · exact .inr ⟨hq.1, hq.2, hr⟩
    · left
      have hf : (s.front.step κ served.front).work (3 * n + 1) + (3 * n + 1) * (s.front.accepted served.front).length = _ :=
        PackSys.work_rest κ (3 * n + 1) s.front hq.1 hq.2
      have := hd.2 hr
      omega
  · left
    have hf : (s.front.step κ served.front).work (3 * n + 1) + (3 * n + 1) * (s.front.accepted served.front).length < _ :=
      PackSys.work_step κ (3 * n + 1) s.front (by tauto)
    omega

theorem Inv.out_prefix (h : Inv δ ps s) : s.out.map DepBeat.beat <+: beatsOf ps :=
  (List.prefix_append _ _).trans (h.stream ▸ h.front.spelt_prefix)

theorem Inv.out_of_rest (h : Inv δ ps s) (hp : s.front.pend = []) (hw : s.front.waiting = []) (hr : s.dep.Rests s.queue) :
    s.out.map DepBeat.beat = beatsOf ps := by
  have hin : s.inside = [] := by simp [inside, hr.1, hr.2.1, hr.2.2.1, hr.2.2.2]
  rw [← h.front.spelt_of_rest hp hw, ← h.stream, hin, List.append_nil]

theorem Inv.delivered (hκ : κ.Lawful) (hn : n ≤ 100) (m : Nat) (h : Inv δ ps s) (hw : s.work ≤ m)
    (ho : AllSteps (LinkSys.step κ δ) (Open κ δ) s (List.replicate m served)) :
    (run (LinkSys.step κ δ) s (List.replicate m served)).out.map DepBeat.beat = beatsOf ps := by
  refine run_reaches (LinkSys.step κ δ) (fun s => s.out.map DepBeat.beat = beatsOf ps) work
    (Inv.step hκ hn δ ps) (fun s h => ?_) (fun s h hd => ?_) m h (.inl hw) ho
  · exact (h.work_step κ (Nat.zero_lt_of_lt hκ.two)).imp id fun hr => h.out_of_rest hr.1 hr.2.1 hr.2.2
  · refine h.out_prefix.eq_of_length_le ?_
    rw [← hd]
    simp [LinkSys.step, served]

end LinkSys

/-- The flits of a packer are framed and spell its packets word by word; served further, it puts out all of them. -/
structure Splits {w n : Nat} (κ : PackerKind w n) (ps : List (RulePacket w)) (s : PackSys w n) : Prop where
  framed : Framed true s.flits
  spelt : s.flits.flatMap Flit.split <+: beatsOf ps
  delivered : ∀ m, s.work 0 ≤ m → AllSteps (PackSys.step κ) (PackSys.Open κ true) s (List.replicate m PackSys.served) →
    (run (PackSys.step κ) s (List.replicate m PackSys.served)).flits.flatMap Flit.split = beatsOf ps

/-- The flits between packer and depacker are framed and spell the packets, the depacked beats are those
of the packets, and served further, all of them come out. -/
structure Depacks {w n : Nat} (κ : PackerKind w n) (δ : DepackerKind) (ps : List (RulePacket w)) (s : LinkSys w n) : Prop where
  framed : Framed true s.front.flits
  spelt : s.front.flits.flatMap Flit.depack <+: beatsOf ps
  depacked : s.out.map DepBeat.beat <+: beatsOf ps
  delivered : ∀ m, s.work ≤ m → AllSteps (LinkSys.step κ δ) (LinkSys.Open κ δ) s (List.replicate m LinkSys.served) →
    (run (LinkSys.step κ δ) s (List.replicate m LinkSys.served)).out.map DepBeat.beat = beatsOf ps

theorem PackerKind.Lawful.splits {w n : Nat} {κ : PackerKind w n} (hκ : κ.Lawful) (ps : List (RulePacket w)) (is : List PackTick)
    (ho : AllSteps (PackSys.step κ) (PackSys.Open κ true) (.reset (beatsOf ps)) is) :
    Splits κ ps (run (PackSys.step κ) (.reset (beatsOf ps)) is) := by
  have h := run_inv _ (PackSys.Inv.step hκ true ps) is _ (.reset hκ.two true ps) ho
  refine ⟨h.framed, h.split ▸ h.spelt_prefix, fun m hw ho' => ?_⟩
  have h' := run_inv _ (PackSys.Inv.step hκ true ps) _ _ h ho'
  rw [h'.split]
  exact h.delivered hκ m hw ho'

theorem PackerKind.Lawful.depacks {w n : Nat} {κ : PackerKind w n} (hκ : κ.Lawful) (hn : n ≤ 100) (δ : DepackerKind)
    (ps : List (RulePacket w)) (is : List LinkTick) (ho : AllSteps (LinkSys.step κ δ) (LinkSys.Open κ δ) (.reset (beatsOf ps)) is) :
    Depacks κ δ ps (run (LinkSys.step κ δ) (.reset (beatsOf ps)) is) := by
  have h := run_inv _ (LinkSys.Inv.step hκ hn δ ps) is _ (.reset hκ.two δ ps) ho
  exact ⟨h.front.framed, h.front.spelt_prefix, h.out_prefix, fun m hw ho' => h.delivered hκ hn m hw ho'⟩

/-- Packing and unpacking give back the packets in every run whose packers and depackers stay open. -/
theorem rule_pack_roundTrip (ps32 : List (RulePacket 32)) (ps128 : List (RulePacket 128)) (ps256 : List (RulePacket 256))
    (ts : List PackTick) (is : List LinkTick) :
    (AllSteps (PackSys.step packer32) (PackSys.Open packer32 true) (.reset (beatsOf ps32)) ts →
      Splits packer32 ps32 (run (PackSys.step packer32) (.reset (beatsOf ps32)) ts)) ∧
    (AllSteps (LinkSys.step packer128 depacker128) (LinkSys.Open packer128 depacker128) (.reset (beatsOf ps128)) is →
      Depacks packer128 depacker128 ps128 (run (LinkSys.step packer128 depacker128) (.reset (beatsOf ps128)) is)) ∧
    (AllSteps (LinkSys.step packer256 depacker256) (LinkSys.Open packer256 depacker256) (.reset (beatsOf ps256)) is →
      Depacks packer256 depacker256 ps256 (run (LinkSys.step packer256 depacker256) (.reset (beatsOf ps256)) is)) :=
  ⟨packer32_lawful.splits ps32 ts, packer128_lawful.depacks (by omega) depacker128 ps128 is,
    packer256_lawful.depacks (by omega) depacker256 ps256 is⟩

/-! ## A flit overwritten while it waits -/

/-- Two packets, the second without a rule. -/
def wideThenEmpty : List (RulePacket 128) := [⟨[5, 6, 7, 8, 9], by simp⟩, ⟨[], by simp⟩]

/-- A beat in every third cycle, before which the flits are not taken. -/
def slowReader : List LinkTick :=
  (List.range 60).map fun k => ⟨⟨k % 3 == 1, k % 3 != 0⟩, k % 5 != 0⟩

theorem rule_pack_roundTrip_wideThenEmpty :
    Depacks packer128 depacker128 wideThenEmpty (run (LinkSys.step packer128 depacker128) (.reset (beatsOf wideThenEmpty)) slowReader) ∧
      (run (LinkSys.step packer128 depacker128) (.reset (beatsOf wideThenEmpty)) slowReader).out.map DepBeat.beat =
        beatsOf wideThenEmpty :=
  ⟨(rule_pack_roundTrip [] wideThenEmpty [] [] slowReader).2.1 (by decide +kernel), by decide +kernel⟩

def onePacket : List (RulePacket 128) := [⟨[5], by simp⟩]

/-- The flit with the only rule waits for one cycle, in which the `eop` beat is offered. -/
def lateFlit : List LinkTick :=
  List.replicate 2 LinkSys.served ++ [⟨⟨true, false⟩, true⟩] ++ List.replicate 20 LinkSys.served

/-- The rule is lost; and of two packets without a rule, one right behind the other, the second has no `sop`. -/
theorem rule_pack_lateFlit :
    let s := run (LinkSys.step packer128 depacker128) (.reset (beatsOf onePacket)) lateFlit
    let t := run (PackSys.step packer128) (.reset (beatsOf [⟨[], by simp⟩, ⟨[], by simp⟩])) (List.replicate 3 PackSys.served)
    s.out.map DepBeat.beat = [eopBeat] ∧ ¬ Depacks packer128 depacker128 onePacket s ∧
      t.flits.map Flit.sop = [true, false] ∧ ¬ Framed true t.flits := by
  have h : (run (LinkSys.step packer128 depacker128) (.reset (beatsOf onePacket)) lateFlit).out.map DepBeat.beat =
      [eopBeat] := by decide +kernel
  refine ⟨h, fun hd => ?_, by decide +kernel, by decide +kernel⟩
  have := hd.depacked
  rw [h] at this
  revert this
  decide +kernel

end Pigasus
