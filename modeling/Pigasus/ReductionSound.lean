import Pigasus.Reduction

/-!
# Rule reduction loses and invents nothing

What leaves a reduction node is, group by group, the union of what it has
taken from its inputs, and so for a whole tree of nodes.
-/

namespace Pigasus

open Hdl Groups

/-- Entries with the same data are equal, but for `last`. -/
def RuleKind.Lawful {α : Type} (κ : RuleKind α) : Prop := ∀ a b, κ.same a b = true → κ.last a = κ.last b → a = b

theorem reduction2t1_lawful : reduction2t1.Lawful := fun _ _ h _ => eq_of_beq h

theorem nfReduction2t1_lawful : nfReduction2t1.Lawful := by
  rintro ⟨_, _⟩ ⟨_, _⟩ h rfl
  cases eq_of_beq h
  rfl

theorem RrArbiter2.grant_le : ∀ (mask req : BitVec 2),
    ((grant mask req).getLsbD 0 = true → req.getLsbD 0 = true) ∧
      ((grant mask req).getLsbD 1 = true → req.getLsbD 1 = true) ∧
      ((grant mask req).getLsbD 0 = true → (grant mask req).getLsbD 1 = false) := by
  decide

theorem RrArbiter2.grant_ne : ∀ (mask req : BitVec 2), req.getLsbD 0 = true ∨ req.getLsbD 1 = true →
    (grant mask req).getLsbD 0 = true ∨ (grant mask req).getLsbD 1 = true := by
  decide

/-! ## One node -/

namespace Reduction

section
variable {α : Type} [DecidableEq α] (κ : RuleKind α) (s : Reduction α) (i : RedIn α)

/-- No entry is merged while the output is almost full, and none with one that closes a group. -/
def Open : Prop :=
  (s.state κ i = .merge → s.almostFull = false) ∧ (sameData κ i = true → κ.last i.data0 = κ.last i.data1)

instance : Decidable (s.Open κ i) := by unfold Open; infer_instance

def taken0 : List α := if i.valid0 && s.inReady0 κ i then [i.data0] else []

def taken1 : List α := if i.valid1 && s.inReady1 κ i then [i.data1] else []

def pending (s : Reduction α) : List α := if s.intValid then [s.intData] else []

/-- The node has given on `e` for the inputs `c` and `d`, and its caches hold entries of the open group. -/
structure Inv (s : Reduction α) (c d e : List α) : Prop where
  merged : Merged κ.last c d e
  cache0 : s.cacheValid0 = true → κ.last s.cache0 = false ∧ s.cache0 ∈ group κ.last e (lasts κ.last e)
  cache1 : s.cacheValid1 = true → κ.last s.cache1 = false ∧ s.cache1 ∈ group κ.last e (lasts κ.last e)

omit [DecidableEq α] in
theorem Inv.reset : (reset κ).Inv κ [] [] [] := ⟨.nil, by simp [Reduction.reset], by simp [Reduction.reset]⟩

end

section
variable {α : Type} [DecidableEq α] {κ : RuleKind α} {s : Reduction α} {i : RedIn α} {c d e : List α}

theorem req_of_grant0 (h : (s.grant κ i).getLsbD 0 = true) :
    i.valid0 = true ∧ κ.last i.data0 = false ∧ s.cached0 i = false ∧ s.almostFull = false := by
  have hr := (RrArbiter2.grant_le s.mask (s.req κ i)).1 h
  unfold req at hr
  split at hr
  · simpa [BitVec.ofBoolListLE, and_assoc] using hr
  · simp at hr

theorem req_of_grant1 (h : (s.grant κ i).getLsbD 1 = true) :
    i.valid1 = true ∧ κ.last i.data1 = false ∧ s.cached1 i = false ∧ s.almostFull = false := by
  have hr := (RrArbiter2.grant_le s.mask (s.req κ i)).2.1 h
  unfold req at hr
  split at hr
  · simpa [BitVec.ofBoolListLE, and_assoc] using hr
  · simp at hr

theorem of_cached0 (hI : s.Inv κ c d e) (h : s.cached0 i = true) :
    i.valid0 = true ∧ κ.last i.data0 = false ∧ i.data0 ∈ group κ.last e (lasts κ.last e) := by
  simp only [cached0, Bool.and_eq_true, beq_iff_eq] at h
  obtain ⟨⟨hd, hv⟩, hc⟩ := h
  rw [hd]
  exact ⟨hv, hI.cache0 hc⟩

theorem of_cached1 (hI : s.Inv κ c d e) (h : s.cached1 i = true) :
    i.valid1 = true ∧ κ.last i.data1 = false ∧ i.data1 ∈ group κ.last e (lasts κ.last e) := by
  simp only [cached1, Bool.and_eq_true, beq_iff_eq] at h
  obtain ⟨⟨hd, hv⟩, hc⟩ := h
  rw [hd]
  exact ⟨hv, hI.cache1 hc⟩

theorem of_sync (hS : s.state κ i = .sync) :
    κ.last i.data0 = true ∧ κ.last i.data1 = true ∧ i.valid0 = true ∧ i.valid1 = true := by
  unfold state at hS
  split at hS
  · next h => simpa [allLast, and_assoc] using h
  · split at hS
    · split at hS <;> cases hS
    · cases hS

theorem of_same (hκ : κ.Lawful) (ho : s.Open κ i) (hS : s.state κ i = .merge ∨ s.state κ i = .mergeCache) :
    i.valid0 = true ∧ i.valid1 = true ∧ i.data0 = i.data1 ∧ κ.last i.data0 = false := by
  have hsame : allLast κ i = false ∧ sameData κ i = true := by
    unfold state at hS
    split_ifs at hS with h1 h2 <;> simp_all
  obtain ⟨hl, hd⟩ := hsame
  have hlast := ho.2 hd
  simp only [sameData, Bool.and_eq_true] at hd
  refine ⟨hd.1.2, hd.2, hκ _ _ hd.1.1 hlast, ?_⟩
  simpa [allLast, hd, ← hlast] using hl

theorem Inv.sync (hI : s.Inv κ c d e) (hS : s.state κ i = .sync) :
    (s.step κ i).Inv κ (c ++ s.taken0 κ i) (d ++ s.taken1 κ i) (e ++ (s.step κ i).pending) := by
  obtain ⟨h0, h1, hv0, hv1⟩ := of_sync hS
  refine ⟨?_, by simp [step, update, hS], by simp [step, update, hS]⟩
  cases hf : s.almostFull with
  | true => simpa [taken0, taken1, inReady0, inReady1, pending, step, update, hS, hf] using hI.merged
  | false => simpa [taken0, taken1, inReady0, inReady1, pending, step, update, hS, hf, hv0, hv1] using hI.merged.close h0 h1 h0

theorem Inv.merge (hI : s.Inv κ c d e) (hκ : κ.Lawful) (ho : s.Open κ i) (hS : s.state κ i = .merge) :
    (s.step κ i).Inv κ (c ++ s.taken0 κ i) (d ++ s.taken1 κ i) (e ++ (s.step κ i).pending) := by
  obtain ⟨hv0, hv1, hd, hl⟩ := of_same hκ ho (.inl hS)
  have hf := ho.1 hS
  have h0 : s.taken0 κ i = [i.data0] := by simp [taken0, inReady0, hS, hf, hv0]
  have h1 : s.taken1 κ i = [i.data0] := by simp [taken1, inReady1, hS, hf, hv1, hd]
  have he : (s.step κ i).pending = [i.data0] := by simp [pending, step, update, hS, hf]
  rw [h0, h1, he]
  refine ⟨((hI.merged.emit hl).symm.drop hl (mem_snoc_self hl)).symm, fun _ => ?_, fun hc => ?_⟩
  · have : (s.step κ i).cache0 = i.data0 := by simp [step, update, hS]
    rw [this]
    exact ⟨hl, mem_snoc_self hl⟩
  · have hs : (s.step κ i).cache1 = s.cache1 ∧ (s.step κ i).cacheValid1 = s.cacheValid1 := by simp [step, update, hS]
    rw [hs.2] at hc
    rw [hs.1]
    exact ⟨(hI.cache1 hc).1, mem_snoc hl (hI.cache1 hc).2⟩

theorem Inv.mergeCache (hI : s.Inv κ c d e) (hκ : κ.Lawful) (ho : s.Open κ i) (hS : s.state κ i = .mergeCache) :
    (s.step κ i).Inv κ (c ++ s.taken0 κ i) (d ++ s.taken1 κ i) (e ++ (s.step κ i).pending) := by
  obtain ⟨hv0, hv1, hd, hl⟩ := of_same hκ ho (.inr hS)
  have hm : i.data0 ∈ group κ.last e (lasts κ.last e) := by
    have hc : s.cached0 i = true ∨ s.cached1 i = true := by
      unfold state at hS
      split_ifs at hS with h1 h2 h3
      simpa using h3
    rcases hc with hc | hc
    · exact (of_cached0 hI hc).2.2
    · rw [hd]
      exact (of_cached1 hI hc).2.2
  have h0 : s.taken0 κ i = [i.data0] := by simp [taken0, inReady0, hS, hv0]
  have h1 : s.taken1 κ i = [i.data0] := by simp [taken1, inReady1, hS, hv1, hd]
  have he : (s.step κ i).pending = [] := by simp [pending, step, update, hS]
  rw [h0, h1, he, List.append_nil]
  refine ⟨((hI.merged.drop hl hm).symm.drop hl hm).symm, ?_, ?_⟩
  · simpa [step, update, hS] using hI.cache0
  · simpa [step, update, hS] using hI.cache1

theorem Inv.drop0 {c' d' e' : List α} (hI : s.Inv κ c d e) (h : Merged κ.last c' d' e')
    (hsub : ∀ y ∈ group κ.last e (lasts κ.last e), y ∈ group κ.last e' (lasts κ.last e')) :
    Merged κ.last (c' ++ if s.cached0 i then [i.data0] else []) d' e' := by
  split
  · next hc =>
    obtain ⟨_, hl, hm⟩ := of_cached0 hI hc
    exact h.drop hl (hsub _ hm)
  · simpa using h

theorem Inv.drop1 {c' d' e' : List α} (hI : s.Inv κ c d e) (h : Merged κ.last c' d' e')
    (hsub : ∀ y ∈ group κ.last e (lasts κ.last e), y ∈ group κ.last e' (lasts κ.last e')) :
    Merged κ.last c' (d' ++ if s.cached1 i then [i.data1] else []) e' := by
  split
  · next hc =>
    obtain ⟨_, hl, hm⟩ := of_cached1 hI hc
    exact (h.symm.drop hl (hsub _ hm)).symm
  · simpa using h

theorem taken0_arb (hI : s.Inv κ c d e) (hS : s.state κ i = .arb) :
    s.taken0 κ i =
      if (s.grant κ i).getLsbD 0 then [i.data0] else if s.cached0 i then [i.data0] else [] := by
  simp only [taken0, inReady0, hS]
  cases hg : (s.grant κ i).getLsbD 0 with
  | true => simp [(req_of_grant0 hg).1]
  | false =>
    cases hc : s.cached0 i with
    | true => simp [(of_cached0 hI hc).1]
    | false => simp

theorem taken1_arb (hI : s.Inv κ c d e) (hS : s.state κ i = .arb) :
    s.taken1 κ i =
      if (s.grant κ i).getLsbD 1 then [i.data1] else if s.cached1 i then [i.data1] else [] := by
  simp only [taken1, inReady1, hS]
  cases hg : (s.grant κ i).getLsbD 1 with
  | true => simp [(req_of_grant1 hg).1]
  | false =>
    cases hc : s.cached1 i with
    | true => simp [(of_cached1 hI hc).1]
    | false => simp

theorem Inv.arb (hI : s.Inv κ c d e) (hS : s.state κ i = .arb) :
    (s.step κ i).Inv κ (c ++ s.taken0 κ i) (d ++ s.taken1 κ i) (e ++ (s.step κ i).pending) := by
  rw [taken0_arb hI hS, taken1_arb hI hS]
  have h01 := (RrArbiter2.grant_le s.mask (s.req κ i)).2.2
  change (s.grant κ i).getLsbD 0 = true → (s.grant κ i).getLsbD 1 = false at h01
  rcases s with ⟨k0, v0, k1, v1, dt, vd, f, af, mask⟩
  cases hg0 : (grant κ ⟨k0, v0, k1, v1, dt, vd, f, af, mask⟩ i).getLsbD 0 with
  | true =>
    have hl := (req_of_grant0 hg0).2.1
    simp only [pending, step, update, hS, hg0, h01 hg0, Bool.true_or, Bool.false_or, if_true, Bool.false_eq_true, if_false]
    refine ⟨hI.drop1 (hI.merged.emit hl) fun y hy => mem_snoc hl hy, fun _ => ⟨hl, mem_snoc_self hl⟩, fun hc => ?_⟩
    exact ⟨(hI.cache1 hc).1, mem_snoc hl (hI.cache1 hc).2⟩
  | false =>
    cases hg1 : (grant κ ⟨k0, v0, k1, v1, dt, vd, f, af, mask⟩ i).getLsbD 1 with
    | true =>
      have hl := (req_of_grant1 hg1).2.1
      simp only [pending, step, update, hS, hg0, hg1, Bool.true_or, Bool.false_or, if_true, Bool.false_eq_true, if_false]
      refine ⟨hI.drop0 (hI.merged.symm.emit hl).symm fun y hy => mem_snoc hl hy, fun hc => ?_,
        fun _ => ⟨hl, mem_snoc_self hl⟩⟩
      exact ⟨(hI.cache0 hc).1, mem_snoc hl (hI.cache0 hc).2⟩
    | false =>
      simp only [pending, step, update, hS, hg0, hg1, Bool.false_or, Bool.false_eq_true, if_false, List.append_nil]
      exact ⟨hI.drop0 (hI.drop1 hI.merged fun _ hy => hy) fun _ hy => hy, hI.cache0, hI.cache1⟩

theorem Inv.step (hI : s.Inv κ c d e) (hκ : κ.Lawful) (ho : s.Open κ i) :
    (s.step κ i).Inv κ (c ++ s.taken0 κ i) (d ++ s.taken1 κ i) (e ++ (s.step κ i).pending) := by
  cases hS : s.state κ i with
  | sync => exact hI.sync hS
  | merge => exact hI.merge hκ ho hS
  | mergeCache => exact hI.mergeCache hκ ho hS
  | arb => exact hI.arb hS

theorem valid_of_ne_arb (hS : s.state κ i ≠ .arb) : i.valid0 = true ∧ i.valid1 = true := by
  by_cases h1 : allLast κ i = true
  · simp only [allLast, Bool.and_eq_true] at h1
    exact ⟨h1.1.2, h1.2⟩
  · by_cases h2 : sameData κ i = true
    · simp only [sameData, Bool.and_eq_true] at h2
      exact ⟨h2.1.2, h2.2⟩
    · exact absurd (by simp [state, h1, h2]) hS

theorem taken_ne_nil (h0 : i.valid0 = true) (h1 : i.valid1 = true) (hf : s.almostFull = false) :
    s.taken0 κ i ≠ [] ∨ s.taken1 κ i ≠ [] := by
  cases hS : s.state κ i with
  | sync | merge => simp [taken0, inReady0, hS, h0, hf]
  | mergeCache => simp [taken0, inReady0, hS, h0]
  | arb =>
    have hlast : κ.last i.data0 = false ∨ κ.last i.data1 = false := by
      by_contra hl
      have : allLast κ i = true := by
        simp only [not_or, Bool.not_eq_false] at hl
        simp [allLast, hl, h0, h1]
      simp [state, this] at hS
    have hready : s.inReady0 κ i = true ∨ s.inReady1 κ i = true := by
      simp only [inReady0, inReady1, hS, Bool.or_eq_true]
      by_contra hn
      simp only [not_or] at hn
      refine (RrArbiter2.grant_ne s.mask (s.req κ i)).mt (fun h => h.elim hn.1.1 hn.2.1) ?_
      simp only [req, hS, BitVec.ofBoolListLE]
      rcases hlast with hl | hl <;> simp [h0, h1, hl, hf, hn]
    rcases hready with hr | hr
    · simp [taken0, h0, hr]
    · simp [taken1, h1, hr]

theorem pending_of_almostFull (hf : s.almostFull = true) : (s.step κ i).pending = [] := by
  cases hS : s.state κ i with
  | sync | merge => simp [pending, step, update, hS, hf]
  | mergeCache => simp [pending, step, update, hS]
  | arb =>
    have h0 : (s.grant κ i).getLsbD 0 = false := by
      refine Bool.eq_false_iff.2 fun h => ?_
      rw [(req_of_grant0 h).2.2.2] at hf
      cases hf
    have h1 : (s.grant κ i).getLsbD 1 = false := by
      refine Bool.eq_false_iff.2 fun h => ?_
      rw [(req_of_grant1 h).2.2.2] at hf
      cases hf
    simp only [pending, step, update, hS, h0, h1, Bool.or_self, Bool.false_eq_true, if_false]

omit [DecidableEq α] in
theorem pending_length (s : Reduction α) : s.pending.length ≤ 1 := by
  unfold pending
  split <;> simp

theorem taken_of_pending (hp : (s.step κ i).pending ≠ []) : s.taken0 κ i ≠ [] ∨ s.taken1 κ i ≠ [] := by
  have hf : s.almostFull = false := Bool.eq_false_iff.2 fun h => hp (pending_of_almostFull h)
  by_cases hS : s.state κ i = .arb
  · cases hg0 : (s.grant κ i).getLsbD 0 with
    | true =>
      left
      simp only [taken0, inReady0, hS, hg0, (req_of_grant0 hg0).1, Bool.true_or, Bool.and_self, if_true]
      exact List.cons_ne_nil _ _
    | false =>
      cases hg1 : (s.grant κ i).getLsbD 1 with
      | true =>
        right
        simp only [taken1, inReady1, hS, hg1, (req_of_grant1 hg1).1, Bool.true_or, Bool.and_self, if_true]
        exact List.cons_ne_nil _ _
      | false =>
        refine absurd ?_ hp
        simp only [pending, step, update, hS, hg0, hg1, Bool.or_self, Bool.false_eq_true, if_false]
  · obtain ⟨h0, h1⟩ := valid_of_ne_arb hS
    exact taken_ne_nil h0 h1 hf

theorem pending_le_taken (κ : RuleKind α) (s : Reduction α) (i : RedIn α) :
    (s.step κ i).pending.length ≤ (s.taken0 κ i).length + (s.taken1 κ i).length := by
  by_cases hp : (s.step κ i).pending = []
  · simp [hp]
  · have hone := pending_length (s.step κ i)
    rcases taken_of_pending hp with h | h <;> have := List.length_pos_iff.2 h <;> omega

/-- The FIFO has room for what the node gives on after `almost_full` has been raised. -/
structure FifoOk (s : Reduction α) : Prop where
  low : s.almostFull = false → s.fifo.length ≤ fullLevel
  room : s.fifo.length + s.pending.length ≤ fullLevel + 2
  full : s.almostFull = true → fullLevel ≤ s.fifo.length + 1

omit [DecidableEq α] in
theorem FifoOk.reset : (Reduction.reset κ).FifoOk := ⟨by simp [Reduction.reset], by simp [Reduction.reset, pending],
  by simp [Reduction.reset]⟩

theorem fifo_step : (s.step κ i).fifo = (if s.outValid && i.outReady then s.fifo.tail else s.fifo) ++ s.pending := by
  unfold step fifoStep pending
  cases s.intValid <;> rfl

theorem FifoOk.step (h : s.FifoOk) : (s.step κ i).FifoOk := by
  have hlen : (s.step κ i).fifo.length ≤ s.fifo.length + s.pending.length ∧
      s.fifo.length ≤ (s.step κ i).fifo.length + 1 := by
    rw [fifo_step, List.length_append]
    split
    · rw [List.length_tail]
      omega
    · omega
  have hp := pending_length s
  have hp' := pending_length (s.step κ i)
  have haf : (s.step κ i).almostFull = decide (fullLevel ≤ s.fifo.length) := rfl
  refine ⟨fun hf => ?_, ?_, fun hf => ?_⟩
  · rw [haf, decide_eq_false_iff_not] at hf
    omega
  · cases hf : s.almostFull with
    | true =>
      have := h.room
      rw [pending_of_almostFull hf, List.length_nil]
      omega
    | false =>
      have := h.low hf
      omega
  · rw [haf, decide_eq_true_eq] at hf
    omega

end

end Reduction

/-! ## Trees -/

namespace RedTree

variable {α : Type} [DecidableEq α] {κ : RuleKind α}

/-- Every node of the tree is open. -/
def Open (κ : RuleKind α) (offer : List Bool → Bool) : RedTree α → Prop
  | leaf _ _ => True
  | node s _ l r =>
    s.Open κ (input κ offer l r false) ∧ l.Open κ (fun p => offer (false :: p)) ∧ r.Open κ fun p => offer (true :: p)

instance Open.decidable (κ : RuleKind α) : ∀ (offer : List Bool → Bool) (t : RedTree α), Decidable (t.Open κ offer)
  | _, leaf _ _ => isTrue trivial
  | offer, node _ _ l r =>
    have := Open.decidable κ (fun p => offer (false :: p)) l
    have := Open.decidable κ (fun p => offer (true :: p)) r
    inferInstanceAs (Decidable (_ ∧ _ ∧ _))

inductive Inv (κ : RuleKind α) : Shape α → RedTree α → Prop
  | leaf (out pend : List α) : Inv κ (.leaf (out ++ pend)) (.leaf out pend)
  | node {a b : Shape α} {s : Reduction α} {out : List α} {l r : RedTree α} :
    s.Inv κ l.out r.out (out ++ s.fifo ++ s.pending) → s.FifoOk → Inv κ a l → Inv κ b r → Inv κ (.node a b) (.node s out l r)

omit [DecidableEq α] in
theorem out_reset (sh : Shape α) : (reset κ sh).out = [] := by cases sh <;> rfl

omit [DecidableEq α] in
theorem Inv.reset (sh : Shape α) : Inv κ sh (reset κ sh) := by
  induction sh with
  | leaf stream => exact .leaf [] stream
  | node a b iha ihb =>
    refine .node ?_ .reset iha ihb
    rw [out_reset, out_reset]
    exact .reset κ

theorem out_step (offer : List Bool → Bool) (ready : Bool) (t : RedTree α) :
    (t.step κ offer ready).out = t.out ++ if t.valid offer && ready then [t.data κ] else [] := by
  cases t with
  | leaf out pend =>
    cases pend with
    | nil => simp [RedTree.step, RedTree.valid, RedTree.out]
    | cons x pend => cases ho : offer [] <;> cases ready <;> simp [RedTree.step, RedTree.valid, RedTree.out, data, ho]
  | node s out l r =>
    cases hf : s.fifo with
    | nil => simp [RedTree.step, RedTree.valid, RedTree.out, Reduction.outValid, hf]
    | cons x f => cases ready <;> simp [RedTree.step, RedTree.valid, RedTree.out, Reduction.outValid, Reduction.outData, data, hf]

theorem given_step (ready : Bool) (s : Reduction α) (out : List α) (i : RedIn α)
    (hi : i.outReady = ready) :
    (if ready then out ++ s.fifo.take 1 else out) ++ (s.step κ i).fifo = out ++ s.fifo ++ s.pending := by
  rw [Reduction.fifo_step, hi]
  cases hf : s.fifo with
  | nil => cases ready <;> simp [Reduction.outValid, hf]
  | cons x f => cases ready <;> simp [Reduction.outValid, hf]

theorem Inv.step (hκ : κ.Lawful) {sh : Shape α} {t : RedTree α} (h : Inv κ sh t) (offer : List Bool → Bool)
    (ready : Bool) (ho : t.Open κ offer) : Inv κ sh (t.step κ offer ready) := by
  induction h generalizing offer ready with
  | leaf out pend =>
    simp only [RedTree.step]
    split
    · have hl : Inv κ (.leaf (out ++ pend.take 1 ++ pend.tail)) (.leaf (out ++ pend.take 1) pend.tail) := .leaf _ _
      have hp : out ++ pend.take 1 ++ pend.tail = out ++ pend := by cases pend <;> simp
      rwa [hp] at hl
    · exact .leaf out pend
  | @node a b s out l r hs hf _ _ ihl ihr =>
    obtain ⟨hos, hol, hor⟩ := ho
    have hos' : s.Open κ (input κ offer l r ready) := hos
    have hstep := hs.step hκ hos'
    refine .node ?_ hf.step (ihl _ _ hol) (ihr _ _ hor)
    rw [out_step, out_step, given_step ready s out _ rfl]
    exact hstep

structure Reduced (κ : RuleKind α) (sh : Shape α) (t : RedTree α) : Prop where
  /-- A group is closed after all its parts have been taken. -/
  taken : ∀ o ∈ t.taken, lasts κ.last t.out ≤ lasts κ.last o
  closed : ∀ k < lasts κ.last t.out, ∀ x, x ∈ group κ.last t.out k ↔ ∃ st ∈ sh.streams, x ∈ group κ.last st k
  /-- The group still open has entries of the streams only. -/
  sub : ∀ k, ∀ x ∈ group κ.last t.out k, ∃ st ∈ sh.streams, x ∈ group κ.last st k

omit [DecidableEq α] in
theorem mem_group_append {l l' : List α} {k : Nat} {x : α} (h : x ∈ group κ.last l k) : x ∈ group κ.last (l ++ l') k := by
  rw [group_append]
  split
  · exact h
  · exact List.mem_append_left _ h

omit [DecidableEq α] in
theorem Inv.reduced {sh : Shape α} {t : RedTree α} (h : Inv κ sh t) : Reduced κ sh t := by
  induction h with
  | leaf out pend =>
    refine ⟨by simp [RedTree.taken, RedTree.out], fun k hk x => ?_, fun k x hx => ?_⟩
    · simp only [Shape.streams, List.mem_singleton, exists_eq_left, RedTree.out] at hk ⊢
      rw [group_append_of_lt hk]
    · exact ⟨_, List.mem_singleton.2 rfl, mem_group_append hx⟩
  | @node a b s out l r hs _ _ _ ihl ihr =>
    -- what has left the node is the front of what it has given on
    have hm : ∀ k < lasts κ.last out, ∀ x, x ∈ group κ.last out k ↔ x ∈ group κ.last l.out k ∨ x ∈ group κ.last r.out k := by
      intro k hk x
      rw [← hs.merged.mem, List.append_assoc, group_append_of_lt hk]
    have hlast : lasts κ.last out ≤ lasts κ.last (out ++ s.fifo ++ s.pending) := by
      simp only [lasts_append]
      omega
    have hle : lasts κ.last out ≤ lasts κ.last l.out ∧ lasts κ.last out ≤ lasts κ.last r.out := by
      rw [hs.merged.left, hs.merged.right]
      exact ⟨hlast, hlast⟩
    refine ⟨fun o ho => ?_, fun k hk x => ?_, fun k x hx => ?_⟩
    · rcases List.mem_append.1 ho with ho | ho
      · exact hle.1.trans (ihl.taken o ho)
      · exact hle.2.trans (ihr.taken o ho)
    · simp only [RedTree.out] at hk ⊢
      rw [hm k hk, ihl.closed k (by omega), ihr.closed k (by omega)]
      simp only [Shape.streams, List.mem_append, or_and_right, exists_or]
    · have hx' : x ∈ group κ.last (out ++ s.fifo ++ s.pending) k := by
        rw [List.append_assoc]
        exact mem_group_append hx
      rcases (hs.merged.mem k x).1 hx' with hx | hx
      · obtain ⟨st, hst, hx⟩ := ihl.sub k x hx
        exact ⟨st, List.mem_append_left _ hst, hx⟩
      · obtain ⟨st, hst, hx⟩ := ihr.sub k x hx
        exact ⟨st, List.mem_append_right _ hst, hx⟩

/-! ## Delivery -/

/-- The moves that the entries in a sub-tree at depth `d` have before them. -/
def work (d : Nat) : RedTree α → Nat
  | leaf _ pend => (2 * d + 1) * pend.length
  | node s _ l r => (2 * d + 1) * s.fifo.length + (2 * d + 2) * s.pending.length + l.work (d + 1) + r.work (d + 1)

def popped (offer : List Bool → Bool) (ready : Bool) (t : RedTree α) : Nat := if t.valid offer && ready then 1 else 0

theorem taken0_length (offer : List Bool → Bool) (ready : Bool) (s : Reduction α) (l r : RedTree α) :
    (s.taken0 κ (input κ offer l r ready)).length =
      l.popped (fun p => offer (false :: p)) (s.inReady0 κ (input κ offer l r ready)) := by
  unfold Reduction.taken0 popped
  exact apply_ite List.length _ _ _

theorem taken1_length (offer : List Bool → Bool) (ready : Bool) (s : Reduction α) (l r : RedTree α) :
    (s.taken1 κ (input κ offer l r ready)).length =
      r.popped (fun p => offer (true :: p)) (s.inReady1 κ (input κ offer l r ready)) := by
  unfold Reduction.taken1 popped
  exact apply_ite List.length _ _ _

theorem fifo_length_step (κ : RuleKind α) (s : Reduction α) (offer : List Bool → Bool) (out : List α) (l r : RedTree α) (ready : Bool) :
    (s.step κ (input κ offer l r ready)).fifo.length + (node s out l r).popped offer ready =
      s.fifo.length + s.pending.length := by
  rw [Reduction.fifo_step, List.length_append]
  simp only [popped, RedTree.valid, input]
  cases hf : s.fifo with
  | nil => simp [Reduction.outValid, hf]
  | cons x f => cases ready <;> simp [Reduction.outValid, hf]; omega

theorem node_work_step (κ : RuleKind α) (offer : List Bool → Bool) (ready : Bool) (d : Nat) (s : Reduction α)
    (out : List α) (l r l' r' : RedTree α) {t0 t1 : Nat}
    (ht0 : (s.taken0 κ (input κ offer l r ready)).length = t0) (ht1 : (s.taken1 κ (input κ offer l r ready)).length = t1) :
    (node (s.step κ (input κ offer l r ready)) out l' r').work d + (2 * d + 1) * (node s out l r).popped offer ready +
        (s.pending.length + t0 + t1) + l.work (d + 1) + r.work (d + 1) ≤
      (node s out l r).work d + (l'.work (d + 1) + (2 * (d + 1) + 1) * t0) + (r'.work (d + 1) + (2 * (d + 1) + 1) * t1) := by
  have hp := Reduction.pending_le_taken κ s (input κ offer l r ready)
  have hf := fifo_length_step κ s offer out l r ready
  rw [ht0, ht1] at hp
  simp only [work]
  obtain ⟨A, hA⟩ : ∃ A, A = 2 * d + 1 := ⟨_, rfl⟩
  rw [show 2 * (d + 1) + 1 = A + 2 by omega, show 2 * d + 2 = A + 1 by omega, ← hA]
  have hf' := congrArg (A * ·) hf
  have hp' := Nat.mul_le_mul_left A hp
  simp only [Nat.mul_add, Nat.add_mul] at hf' hp' ⊢
  omega

theorem work_step (κ : RuleKind α) (offer : List Bool → Bool) (ready : Bool) (d : Nat) (t : RedTree α) :
    (t.step κ offer ready).work d + (2 * d + 1) * t.popped offer ready ≤ t.work d := by
  induction t generalizing offer ready d with
  | leaf out pend =>
    cases pend with
    | nil => cases ho : offer [] <;> cases ready <;> simp [RedTree.step, work, popped, RedTree.valid, ho]
    | cons x pend =>
      cases ho : offer [] <;> cases ready <;> simp [RedTree.step, work, popped, RedTree.valid, ho, Nat.mul_add]
  | node s out l r ihl ihr =>
    have hl := ihl (fun p => offer (false :: p)) (s.inReady0 κ (input κ offer l r ready)) (d + 1)
    have hr := ihr (fun p => offer (true :: p)) (s.inReady1 κ (input κ offer l r ready)) (d + 1)
    have hn := node_work_step κ offer ready d s out l r
      (step κ (fun p => offer (false :: p)) (s.inReady0 κ (input κ offer l r ready)) l)
      (step κ (fun p => offer (true :: p)) (s.inReady1 κ (input κ offer l r ready)) r)
      (taken0_length offer ready s l r) (taken1_length offer ready s l r)
    change (node (s.step κ (input κ offer l r ready)) _ _ _).work d + _ ≤ _
    simp only [work] at hn ⊢
    omega

def offerAll : List Bool → Bool := fun _ => true

theorem Inv.lasts_of_still {sh : Shape α} {t : RedTree α} (h : Inv κ sh t) {n d : Nat} {ready : Bool}
    (hn : ∀ st ∈ sh.streams, lasts κ.last st = n) (hv : t.valid offerAll = false)
    (hw : t.work d ≤ (t.step κ offerAll ready).work d) : lasts κ.last t.out = n := by
  induction h generalizing d ready with
  | leaf out pend =>
    have hp : pend = [] := by simpa [RedTree.valid, offerAll] using hv
    subst hp
    simpa [Shape.streams, RedTree.out] using hn
  | @node a b s out l r hs hok _ _ ihl ihr =>
    have hf : s.fifo = [] := by simpa [RedTree.valid, Reduction.outValid] using hv
    have hna : ∀ st ∈ a.streams, lasts κ.last st = n := fun st hst => hn st (List.mem_append_left _ hst)
    have hnb : ∀ st ∈ b.streams, lasts κ.last st = n := fun st hst => hn st (List.mem_append_right _ hst)
    have hl := work_step κ offerAll (s.inReady0 κ (input κ offerAll l r ready)) (d + 1) l
    have hr := work_step κ offerAll (s.inReady1 κ (input κ offerAll l r ready)) (d + 1) r
    have hnode := node_work_step κ offerAll ready d s out l r
      (RedTree.step κ offerAll (s.inReady0 κ (input κ offerAll l r ready)) l)
      (RedTree.step κ offerAll (s.inReady1 κ (input κ offerAll l r ready)) r) rfl rfl
    have h0 : (s.taken0 κ (input κ offerAll l r ready)).length = l.popped offerAll _ := taken0_length offerAll ready s l r
    have h1 : (s.taken1 κ (input κ offerAll l r ready)).length = r.popped offerAll _ := taken1_length offerAll ready s l r
    change (RedTree.node s out l r).work d ≤ (RedTree.node (s.step κ (input κ offerAll l r ready)) _
      (RedTree.step κ offerAll (s.inReady0 κ (input κ offerAll l r ready)) l)
      (RedTree.step κ offerAll (s.inReady1 κ (input κ offerAll l r ready)) r)).work d at hw
    rw [← h0] at hl
    rw [← h1] at hr
    simp only [work] at hw hnode
    have hp : s.pending = [] := List.length_eq_zero_iff.1 (by omega)
    have ht0 : s.taken0 κ (input κ offerAll l r ready) = [] := List.length_eq_zero_iff.1 (by omega)
    have ht1 : s.taken1 κ (input κ offerAll l r ready) = [] := List.length_eq_zero_iff.1 (by omega)
    simp only [ht0, ht1, List.length_nil, Nat.mul_zero, Nat.add_zero] at hl hr hnode
    have hwl : l.work (d + 1) ≤ (RedTree.step κ offerAll (s.inReady0 κ (input κ offerAll l r ready)) l).work (d + 1) := by
      omega
    have hwr : r.work (d + 1) ≤ (RedTree.step κ offerAll (s.inReady1 κ (input κ offerAll l r ready)) r).work (d + 1) := by
      omega
    have hgiven : out ++ s.fifo ++ s.pending = out := by simp [hf, hp]
    have hm := hs.merged
    rw [hgiven] at hm
    have haf : s.almostFull = false := by
      refine Bool.eq_false_iff.2 fun haf => ?_
      have := hok.full haf
      simp [hf, Reduction.fullLevel] at this
    -- with an entry on both inputs the node would take one
    cases hvl : l.valid offerAll with
    | false => exact hm.left.symm.trans (ihl hna hvl hwl)
    | true =>
      cases hvr : r.valid offerAll with
      | false => exact hm.right.symm.trans (ihr hnb hvr hwr)
      | true => exact absurd (Reduction.taken_ne_nil hvl hvr haf) (by rw [ht0, ht1]; simp)

omit [DecidableEq α] in
theorem Inv.lasts_out_le {sh : Shape α} {t : RedTree α} (h : Inv κ sh t) {n : Nat}
    (hn : ∀ st ∈ sh.streams, lasts κ.last st = n) : lasts κ.last t.out ≤ n := by
  induction h with
  | leaf out pend =>
    have := hn _ (List.mem_singleton.2 rfl)
    rw [lasts_append] at this
    simp only [RedTree.out]
    omega
  | @node a b s out l r hs _ _ _ ihl _ =>
    have hl := ihl fun st hst => hn st (List.mem_append_left _ hst)
    have hm := hs.merged.left
    simp only [lasts_append] at hm
    simp only [RedTree.out]
    omega

/-- One cycle of a tree: which leaves offer an entry, and whether the reader takes one. -/
structure Tick where
  offer : List Bool → Bool
  ready : Bool

def tick (κ : RuleKind α) (t : RedTree α) (i : Tick) : RedTree α := t.step κ i.offer i.ready

/-- A cycle in which all leaves offer and the reader is ready. -/
def Tick.full : Tick := ⟨offerAll, true⟩

theorem Inv.tick (hκ : κ.Lawful) (sh : Shape α) (t : RedTree α) (i : Tick) (h : Inv κ sh t) (ho : t.Open κ i.offer) :
    Inv κ sh (t.tick κ i) := h.step hκ i.offer i.ready ho

theorem Inv.served {sh : Shape α} {t : RedTree α} (h : Inv κ sh t) {n : Nat} (hn : ∀ st ∈ sh.streams, lasts κ.last st = n) :
    (t.tick κ .full).work 0 < t.work 0 ∨ lasts κ.last t.out = n := by
  by_cases hlt : (t.tick κ .full).work 0 < t.work 0
  · exact .inl hlt
  · right
    have hstep := work_step κ offerAll true 0 t
    change (t.tick κ .full).work 0 + _ ≤ _ at hstep
    have hv : t.valid offerAll = false := by
      refine Bool.eq_false_iff.2 fun hv => ?_
      simp only [popped, hv, Bool.and_true, if_true] at hstep
      omega
    exact h.lasts_of_still hn hv (show t.work 0 ≤ (t.tick κ .full).work 0 by omega)

theorem Inv.delivered (hκ : κ.Lawful) {sh : Shape α} {n : Nat} (hn : ∀ st ∈ sh.streams, lasts κ.last st = n) (m : Nat)
    {t : RedTree α} (h : Inv κ sh t) (hw : t.work 0 ≤ m ∨ lasts κ.last t.out = n)
    (ho : AllSteps (RedTree.tick κ) (fun t i => t.Open κ i.offer) t (List.replicate m .full)) :
    lasts κ.last (run (RedTree.tick κ) t (List.replicate m .full)).out = n := by
  refine run_reaches (RedTree.tick κ) (fun t => lasts κ.last t.out = n) (fun t => t.work 0) (Inv.tick hκ sh)
    (fun t h => h.served hn) (fun t h hdone => ?_) m h hw ho
  -- the ends that have come out stay, and there are no more than `n`
  refine Nat.le_antisymm (h.lasts_out_le hn) ?_
  have hout : (t.tick κ .full).out = _ := out_step offerAll true t
  rw [hout, lasts_append, hdone]
  omega

/-- The run `is` of the tree `sh` is reduced in the state reached, and served further it closes all groups. -/
structure Reduces (κ : RuleKind α) (sh : Shape α) (is : List Tick) : Prop where
  reduced : Reduced κ sh (run (tick κ) (reset κ sh) is)
  delivered : ∀ n m, (∀ st ∈ sh.streams, lasts κ.last st = n) → (run (tick κ) (reset κ sh) is).work 0 ≤ m →
    AllSteps (tick κ) (fun t i => t.Open κ i.offer) (run (tick κ) (reset κ sh) is) (List.replicate m .full) →
    lasts κ.last (run (tick κ) (run (tick κ) (reset κ sh) is) (List.replicate m .full)).out = n

theorem Lawful.reduces (hκ : κ.Lawful) (sh : Shape α) (is : List Tick)
    (ho : AllSteps (tick κ) (fun t i => t.Open κ i.offer) (reset κ sh) is) : Reduces κ sh is := by
  have h := run_inv (tick κ) (Inv.tick hκ sh) is _ (.reset sh) ho
  exact ⟨h.reduced, fun n m hn hw ho' => h.delivered hκ hn m (.inl hw) ho'⟩

end RedTree

open RedTree

/-- A tree of either kind of node, of any shape, reduces its streams in every run whose nodes stay open. -/
theorem reduction_reduces (sh : Shape RuleS) (shNf : Shape RuleNf) (is : List Tick) :
    (AllSteps (tick reduction2t1) (fun t i => t.Open reduction2t1 i.offer) (reset reduction2t1 sh) is →
      Reduces reduction2t1 sh is) ∧
    (AllSteps (tick nfReduction2t1) (fun t i => t.Open nfReduction2t1 i.offer) (reset nfReduction2t1 shNf) is →
      Reduces nfReduction2t1 shNf is) :=
  ⟨Lawful.reduces reduction2t1_lawful sh is, Lawful.reduces nfReduction2t1_lawful shNf is⟩

/-! ## An entry merged while the output is almost full -/

def ruleS (n : Nat) : RuleS := ⟨false, 0, BitVec.ofNat 16 n⟩

def lastS : RuleS := ⟨true, 0, 0⟩

/-- Three streams of one group with a rule in common. -/
def threeStreams : Shape RuleS :=
  .node (.node (.leaf [ruleS 1, ruleS 2, lastS]) (.leaf [ruleS 2, lastS])) (.leaf [ruleS 2, ruleS 3, lastS])

theorem reduction_reduces_threeStreams : Reduces reduction2t1 threeStreams (List.replicate 12 .full) ∧
    lasts RuleS.last (run (tick reduction2t1) (reset reduction2t1 threeStreams) (List.replicate 12 .full)).out = 1 :=
  ⟨(reduction_reduces threeStreams (.leaf []) (List.replicate 12 .full)).1 (by decide +kernel), by decide +kernel⟩

/-- Two streams of one group that end in the same rule, with 22 others in front of it in the first. -/
def twoStreams : Shape RuleS :=
  .node (.leaf ((List.range 22).map (fun n => ruleS (n + 1)) ++ [ruleS 99, lastS])) (.leaf [ruleS 99, lastS])

def lateReader : List Tick :=
  List.replicate 24 ⟨fun p => p == [false], false⟩ ++ List.replicate 3 ⟨offerAll, false⟩ ++ List.replicate 30 .full

/-- The rule that the streams have in common is in no output group. -/
theorem reduction_lateReader :
    let t := run (tick reduction2t1) (reset reduction2t1 twoStreams) lateReader
    lasts RuleS.last t.out = 1 ∧ ruleS 99 ∉ t.out ∧ ¬ Reduced reduction2t1 twoStreams t := by
  have h : lasts RuleS.last (run (tick reduction2t1) (reset reduction2t1 twoStreams) lateReader).out = 1 ∧
      ruleS 99 ∉ (run (tick reduction2t1) (reset reduction2t1 twoStreams) lateReader).out ∧
      ruleS 99 ∉ group RuleS.last (run (tick reduction2t1) (reset reduction2t1 twoStreams) lateReader).out 0 := by
    decide +kernel
  refine ⟨h.1, h.2.1, fun hr => h.2.2 ?_⟩
  refine (hr.closed 0 (h.1.symm ▸ Nat.one_pos) _).2 ⟨[ruleS 99, lastS], by simp [twoStreams, Shape.streams], ?_⟩
  decide

end Pigasus
