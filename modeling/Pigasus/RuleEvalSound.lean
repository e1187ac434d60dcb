import Pigasus.RuleEval

/-!
# The two evaluators of a content rule

`eval_node` looks at the first occurrence of every content. Snort goes on to
the next one when the options behind it fail and the next option is relative. What it
finds in the end is said here without its caches and counters, and so is exactly what
the first occurrences miss.
-/

namespace Pigasus

/-! ## The search moves on -/

namespace Content

variable {o : Content} {data : List UInt8} {c c' : Cursor}

theorem size_pos (o : Content) : 0 < o.size := List.length_pos_of_ne_nil o.nonempty

theorem jumpFrom_bounds (p : List UInt8) (n : Nat) :
    ∀ i j, j < i → i + n = p.length → 0 < p.length →
      0 < jumpFrom p (List.range' i n) j ∧ jumpFrom p (List.range' i n) j ≤ p.length := by
  induction n with
  | zero =>
    intro i j hj hi hp
    exact ⟨hp, Nat.le_refl _⟩
  | succ n ih =>
    intro i j hj hi hp
    rw [List.range'_succ]
    unfold jumpFrom
    split
    · exact ih (i + 1) 0 (by omega) (by omega) hp
    · split
      · omega
      · exact ih (i + 1) (j + 1) (by omega) (by omega) hp

theorem matchDelta_bounds (o : Content) : 0 < o.matchDelta ∧ o.matchDelta ≤ o.size := by
  have hs := o.size_pos
  exact jumpFrom_bounds o.pattern (o.size - 1) 1 0 (by omega) (by unfold size at *; omega) hs

theorem search_le {text : List UInt8} {k : Nat} (h : o.search text = some k) : k + o.size ≤ text.length := by
  have hp := List.find?_some h
  have hm := List.mem_of_find?_eq_some h
  simp only [standsAt, Bool.and_eq_true, decide_eq_true_eq, List.length_drop] at hp
  have hs := o.size_pos
  simp only [List.mem_range] at hm
  omega

theorem uniSearchReal_yes (h : o.uniSearchReal data c = .yes c') : c.delta < c'.delta ∧ c'.delta ≤ data.length := by
  unfold uniSearchReal at h
  dsimp only at h
  split at h
  · split at h <;> cases h
  · split at h
    · rename_i hb k hk
      cases h
      have hle := search_le hk
      obtain ⟨hd0, hd1⟩ := o.matchDelta_bounds
      simp only [List.length_take, List.length_drop] at hle
      have hpos : (c.delta : Int) ≤ o.startPos c := by
        unfold startPos
        split <;> omega
      have h0 : 0 ≤ o.startPos c := by
        unfold startPos
        omega
      constructor
      · show c.delta < (o.startPos c).toNat + k + o.matchDelta
        omega
      · show (o.startPos c).toNat + k + o.matchDelta ≤ data.length
        omega
    · cases h

theorem eval_moves (h : o.eval data c = some c') (hr : o.retry c' = true) : c.delta < c'.delta ∧ c'.delta ≤ data.length := by
  have hn : o.negated = false := by
    by_contra hn
    simp [retry, hn] at hr
  unfold eval at h
  split at h
  · cases h
  · rename_i hy
    rw [hn] at h
    cases h
    exact uniSearchReal_yes hy
  · simp [hn] at h

end Content

/-! ## What is tried -/

/-- The occurrences of `o` from `c` on: each one, and the next behind it while `retry` allows. -/
def tries (data : List UInt8) (o : Content) (c : Cursor) : List Cursor :=
  match _he : o.eval data c with
  | none => []
  | some c' => c' :: if _hr : o.retry c' = true then tries data o c' else []
termination_by data.length - c.delta
decreasing_by
  have hm := Content.eval_moves _he _hr
  omega

-- the next option is relative; and it has a `within`
def Relative (os : List Content) : Prop := ∃ o ∈ os.head?, o.relative = true

def Within (os : List Content) : Prop := ∃ o ∈ os.head?, o.relative = true ∧ o.depth ≠ 0

section
variable (os : List Content) (leads fails : Cursor → Prop)

/-- One of the occurrences leads to the leaf. Behind the first one they are tried only for an option with a `within`. -/
def LeadsFrom : Bool → List Cursor → Prop
  | _, [] => False
  | again, c :: cs => (again = true → Within os) ∧ (leads c ∨ fails c ∧ LeadsFrom true cs)

/-- All occurrences fail, and the content in front may be tried again. It may not when an option that is not relative has
failed, since its result is kept, or when an option without a `within` has failed twice. -/
def FailsFrom : Bool → List Cursor → Prop
  | _, [] => True
  | again, c :: cs => (again = true → Within os) ∧ Relative os ∧ fails c ∧ FailsFrom true cs

end

def Fails (data : List UInt8) : List Content → Cursor → Prop
  | [], _ => False
  | o :: os, c => FailsFrom os (Fails data os) false (tries data o c.copy)

def Leads (data : List UInt8) : List Content → Cursor → Prop
  | [], _ => True
  | o :: os, c => LeadsFrom os (Leads data os) (Fails data os) false (tries data o c.copy)

/-- Along the first occurrences there is a content behind which the options fail, and one of its later occurrences leads
to the leaf. -/
def Missed (data : List UInt8) : List Content → Cursor → Prop
  | [], _ => False
  | o :: os, c => ∃ x xs, tries data o c.copy = x :: xs ∧
      (Missed data os x ∨ Fails data os x ∧ LeadsFrom os (Leads data os) (Fails data os) true xs)

section
variable {data : List UInt8} {o : Content} {os : List Content} {c : Cursor} {sts : List NodeState}

theorem tries_none (h : o.eval data c = none) : tries data o c = [] := by
  rw [tries]
  split
  · rfl
  · rename_i he
    rw [h] at he
    cases he

theorem tries_some {x : Cursor} (h : o.eval data c = some x) :
    tries data o c = x :: if o.retry x = true then tries data o x else [] := by
  rw [tries]
  split
  · rename_i he
    rw [h] at he
    cases he
  · rename_i y he
    obtain rfl := Option.some.inj (h.symm.trans he)
    split <;> rfl

theorem Within.relative (h : Within os) : Relative os := by
  obtain ⟨o, ho, hr, -⟩ := h
  exact ⟨o, ho, hr⟩

theorem LeadsFrom.relative {leads fails : Cursor → Prop} {cs : List Cursor} (h : LeadsFrom os leads fails true cs) : Relative os := by
  cases cs with
  | nil => cases h
  | cons c cs => exact (h.1 rfl).relative

/-! ## What is kept of the nodes -/

def Unvisited : List Content → List NodeState → Prop
  | [], sts => (sts.headD ⟨none, 0⟩).lastCheck = none
  | o :: os, sts => (o.relative = false → (sts.headD ⟨none, 0⟩).lastCheck = none) ∧ Unvisited os sts.tail

def Blocked : List Content → List NodeState → Prop
  | [], _ => False
  | o :: os, sts => (o.relative = false ∧ (sts.headD ⟨none, 0⟩).lastCheck ≠ none) ∨ Blocked os sts.tail

def storeResult (r : Nat) (sts : List NodeState) : List NodeState := sts.modifyHead fun s => { s with result := r }

theorem storeResult_head (r : Nat) (sts : List NodeState) :
    ((storeResult r sts).headD ⟨none, 0⟩).lastCheck = (sts.headD ⟨none, 0⟩).lastCheck ∧ (storeResult r sts).tail = sts.tail := by
  cases sts <;> exact ⟨rfl, rfl⟩

theorem Blocked.store (h : Blocked os sts) (r : Nat) : Blocked os (storeResult r sts) := by
  obtain ⟨hh, ht⟩ := storeResult_head r sts
  cases os with
  | nil => exact h
  | cons o os => rwa [Blocked, hh, ht]

def childOf (data : List UInt8) (os : List Content) : Child := ⟨os, nodeEvaluate data os⟩

theorem goesOn_iff {ch : Child} {r : Nat} : goesOn o ch r c = true ↔ r ≠ 1 ∧ ch.relative = true ∧ o.retry c = true := by
  simp [goesOn, and_assoc]

theorem childOf_relative : (childOf data os).relative = true ↔ Relative os := by
  cases os <;> simp [childOf, Child.relative, Relative]

theorem not_goesOn_one (ch : Child) : goesOn o ch 1 c = false := rfl

theorem added_one : (childOf data os).added 1 = 1 := by
  cases os <;> rfl

theorem nodeLoop_blocked (hch : ∀ sts c, Blocked os sts → (nodeEvaluate data os sts c).1.reached = false ∧
    Blocked os (nodeEvaluate data os sts c).2) (n : Nat) : ∀ k r c sts, Blocked os sts →
    (nodeLoop data o (childOf data os) n k r c sts).1.reached = false ∧ Blocked os (nodeLoop data o (childOf data os) n k r c sts).2 := by
  induction n with
  | zero =>
    intro k r c sts hb
    exact ⟨rfl, hb⟩
  | succ n ih =>
    intro k r c sts hb
    rw [nodeLoop]
    cases o.eval data c with
    | none => exact ⟨rfl, hb⟩
    | some x =>
      dsimp only
      split
      · generalize (if (sts.headD ⟨none, 0⟩).result = 0 ∧ k = 1 then r + 1 else r) = r'
        split
        · exact ih _ _ _ _ hb
        · exact ⟨rfl, hb⟩
      · obtain ⟨hr, hb'⟩ := hch sts x hb
        split
        · obtain ⟨hr', hb''⟩ := ih (k + 1) (r + (childOf data os).added (nodeEvaluate data os sts x).1.result) x _ (hb'.store _)
          exact ⟨(congrArg₂ (· || ·) hr hr').trans rfl, hb''⟩
        · exact ⟨hr, hb'.store _⟩

variable (data) in
theorem nodeEvaluate_blocked (os : List Content) : ∀ sts c, Blocked os sts →
    (nodeEvaluate data os sts c).1.reached = false ∧ Blocked os (nodeEvaluate data os sts c).2 := by
  induction os with
  | nil =>
    intro sts c hb
    cases hb
  | cons o os ih =>
    intro sts c hb
    unfold nodeEvaluate
    dsimp only
    split
    · exact ⟨rfl, hb⟩
    · rename_i hno
      have hb' : Blocked os sts.tail := by
        rcases hb with ⟨hr, hl⟩ | hb
        · obtain ⟨r, hl⟩ := Option.ne_none_iff_exists'.1 hl
          exact absurd hr (hno r hl)
        · exact hb
      obtain ⟨hr, hb''⟩ := nodeLoop_blocked (o := o) ih (data.length + 2) 0 0 c.copy sts.tail hb'
      exact ⟨hr, .inr hb''⟩

/-! ## What an evaluation comes to -/

/-- An evaluation ends at the leaf, or in a failure that lets the content in front be tried again, or otherwise
without the leaf: then the result is 1, or some node is blocked. -/
inductive Outcome.Ends (lead fail kept blocked : Prop) (out : Outcome) : Prop
  | leads (hl : lead) (ho : out = ⟨1, true⟩)
  | fails (hl : ¬ lead) (hf : fail) (ho : out = ⟨0, false⟩) (hk : kept)
  | stops (hl : ¬ lead) (hf : ¬ fail) (ho : out.reached = false) (hb : out.result = 1 ∨ blocked)

def NodeEnds (data : List UInt8) (os : List Content) (c : Cursor) (r : Outcome × List NodeState) : Prop :=
  Outcome.Ends (Leads data os c) (Fails data os c) (Unvisited os.tail r.2.tail ∧ (r.2.headD ⟨none, 0⟩).lastCheck ≠ none) (Blocked os r.2) r.1

def LoopEnds (data : List UInt8) (os : List Content) (again : Bool) (cs : List Cursor) (r : Outcome × List NodeState) : Prop :=
  Outcome.Ends (LeadsFrom os (Leads data os) (Fails data os) again cs) (FailsFrom os (Fails data os) again cs) (Unvisited os r.2) (Blocked os r.2) r.1

/-- In a further round the child is not called again if it has no `within`. -/
theorem settled_iff (hrel : Relative os) (hz : (sts.headD ⟨none, 0⟩).result = 0) :
    (childOf data os).settled (sts.headD ⟨none, 0⟩) = true ↔ ¬ Within os := by
  obtain ⟨o, ho, hr⟩ := hrel
  cases os with
  | nil => cases ho
  | cons o' os =>
    obtain rfl : o' = o := Option.some.inj ho
    have hset : (childOf data (o' :: os)).settled (sts.headD ⟨none, 0⟩) = (!o'.relative || o'.depth == 0) := if_pos hz
    rw [hset, hr]
    simp [Within, hr]

theorem fails_cons {x : Cursor} (h : Fails data os x) : ∃ o os', os = o :: os' := by
  cases os with
  | nil => cases h
  | cons o os' => exact ⟨o, os', rfl⟩

theorem Unvisited.store (hrel : Relative os) (h : Unvisited os.tail sts.tail) : Unvisited os (storeResult 0 sts) := by
  obtain ⟨o, ho, hr⟩ := hrel
  cases os with
  | nil => cases ho
  | cons o' os =>
    obtain rfl : o' = o := Option.some.inj ho
    refine ⟨fun hno => ?_, ?_⟩
    · rw [hr] at hno
      cases hno
    · rw [(storeResult_head 0 sts).2]
      exact h

section
variable {again : Bool} {x : Cursor} {cs : List Cursor} {r : Outcome × List NodeState}

theorem LoopEnds.next (hagain : again = true → Within os) (hrel : Relative os) (hl : ¬ Leads data os x) (hf : Fails data os x)
    (h : LoopEnds data os true cs r) : LoopEnds data os again (x :: cs) r := by
  cases h with
  | leads hl' ho => exact .leads ⟨hagain, .inr ⟨hf, hl'⟩⟩ ho
  | fails hl' hf' ho hk => exact .fails (fun h => h.2.elim hl fun h => hl' h.2) ⟨hagain, hrel, hf, hf'⟩ ho hk
  | stops hl' hf' ho hb => exact .stops (fun h => h.2.elim hl fun h => hl' h.2) (fun h => hf' h.2.2.2) ho hb

theorem LoopEnds.stopped (hl : ¬ Leads data os x) (hf : ¬ Fails data os x) (ho : r.1.reached = false)
    (hb : r.1.result = 1 ∨ Blocked os r.2) : LoopEnds data os again (x :: cs) r :=
  .stops (fun h => h.2.elim hl fun h => hf h.1) (fun h => hf h.2.2.1) ho hb

end

theorem nodeLoop_ends (hch : ∀ sts c, Unvisited os sts → NodeEnds data os c (nodeEvaluate data os sts c)) (n : Nat) :
    ∀ k c sts, c.delta ≤ data.length → data.length < n + c.delta → Unvisited os sts →
      (0 < k → Relative os ∧ (sts.headD ⟨none, 0⟩).result = 0 ∧ (1 < k → Within os)) →
      LoopEnds data os (decide (0 < k)) (tries data o c) (nodeLoop data o (childOf data os) n k 0 c sts) := by
  induction n with
  | zero =>
    intro k c sts hc hn
    omega
  | succ n ih =>
    intro k c sts hc hn hs hk
    rw [nodeLoop]
    cases he : o.eval data c with
    | none =>
      rw [tries_none he]
      exact .fails (fun h => h) trivial rfl hs
    | some x =>
      rw [tries_some he]
      dsimp only
      by_cases hset : 0 < k ∧ (childOf data os).settled (sts.headD ⟨none, 0⟩) = true
      · -- a second occurrence is found and not tried: the child counts as done
        obtain ⟨hrel, hz, hw⟩ := hk hset.1
        have hno := (settled_iff hrel hz).1 hset.2
        obtain rfl : k = 1 := by
          by_contra h1
          exact hno (hw (by omega))
        have hone : (if (sts.headD ⟨none, 0⟩).result = 0 ∧ 1 = 1 then 0 + 1 else 0) = 1 := if_pos ⟨hz, rfl⟩
        rw [if_pos hset, hone, not_goesOn_one]
        exact .stops (fun h => hno (h.1 rfl)) (fun h => hno (h.1 rfl)) rfl (.inl rfl)
      · rw [if_neg hset]
        have hagain : decide (0 < k) = true → Within os := by
          intro h0
          rw [decide_eq_true_eq] at h0
          obtain ⟨hrel, hz, -⟩ := hk h0
          by_contra hno
          exact hset ⟨h0, (settled_iff hrel hz).2 hno⟩
        have hcall : NodeEnds data os x ((childOf data os).call sts x) := hch sts x hs
        generalize (childOf data os).call sts x = r at hcall
        cases hcall with
        | leads hl ho =>
          rw [ho, added_one, Nat.zero_add, not_goesOn_one]
          exact .leads ⟨hagain, .inl hl⟩ rfl
        | fails hl hf ho hk' =>
          obtain ⟨o', os', rfl⟩ := fails_cons hf
          have ha : (childOf data (o' :: os')).added 0 = 0 := rfl
          rw [ho, ha, Nat.add_zero]
          have hgo : goesOn o (childOf data (o' :: os')) 0 x = true ↔ Relative (o' :: os') ∧ o.retry x = true := by
            rw [goesOn_iff, childOf_relative]
            simp
          by_cases hrel : Relative (o' :: os')
          · have hs' : Unvisited (o' :: os') (storeResult 0 r.2) := .store hrel hk'.1
            by_cases hret : o.retry x = true
            · -- the next occurrence
              rw [if_pos (hgo.2 ⟨hrel, hret⟩), if_pos hret]
              obtain ⟨h1, h2⟩ := Content.eval_moves he hret
              have hz : ((storeResult 0 r.2).headD ⟨none, 0⟩).result = 0 := by
                cases r.2 <;> rfl
              have hnext := ih (k + 1) x (storeResult 0 r.2) h2 (by omega) hs'
                fun _ => ⟨hrel, hz, fun h1 => hagain (decide_eq_true (by omega))⟩
              rw [decide_eq_true (Nat.succ_pos k)] at hnext
              rw [Bool.false_or]
              exact hnext.next hagain hrel hl hf
            · rw [if_neg fun h => hret (hgo.1 h).2, if_neg hret]
              exact .fails (fun h => h.2.elim hl fun h => h.2) ⟨hagain, hrel, hf, trivial⟩ rfl hs'
          · rw [if_neg fun h => hrel (hgo.1 h).1]
            have hr' : o'.relative = false := by
              by_contra hr
              exact hrel ⟨o', rfl, by simpa using hr⟩
            exact .stops (fun h => h.2.elim hl fun h => hrel h.2.relative) (fun h => hrel h.2.1) rfl
              (.inr (.inl ⟨hr', fun h => hk'.2 ((storeResult_head 0 r.2).1 ▸ h)⟩))
        | stops hl hf ho hb =>
          rcases hb with h1 | hb
          · rw [h1, added_one, Nat.zero_add, not_goesOn_one]
            exact .stopped hl hf ho (.inl rfl)
          · obtain ⟨hr, hb'⟩ := nodeLoop_blocked (o := o) (nodeEvaluate_blocked data os) n (k + 1)
              (0 + (childOf data os).added r.1.result) x _ (hb.store r.1.result)
            by_cases hgo : goesOn o (childOf data os) (0 + (childOf data os).added r.1.result) x
            · rw [if_pos hgo]
              exact .stopped hl hf ((congrArg₂ (· || ·) ho hr).trans rfl) (.inr hb')
            · rw [if_neg hgo]
              exact .stopped hl hf ho (.inr (hb.store _))

variable (data) in
theorem nodeEvaluate_ends (os : List Content) : ∀ sts c, Unvisited os sts → NodeEnds data os c (nodeEvaluate data os sts c) := by
  induction os with
  | nil =>
    intro sts c hs
    rw [Unvisited] at hs
    refine .leads trivial ?_
    simp only [nodeEvaluate, hs]
  | cons o os ih =>
    intro sts c hs
    have hloop := nodeLoop_ends (o := o) ih (data.length + 2) 0 c.copy sts.tail (Nat.zero_le _) (by simp [Cursor.copy]) hs.2
      (fun h => absurd h (Nat.lt_irrefl 0))
    unfold nodeEvaluate
    dsimp only
    split
    · rename_i r hl hr
      rw [hs.1 hr] at hl
      cases hl
    · cases hloop with
      | leads hl ho => exact .leads hl ho
      | fails hl hf ho hk => exact .fails hl hf ho ⟨hk, Option.some_ne_none _⟩
      | stops hl hf ho hb => exact .stops hl hf ho (hb.imp_right .inr)

theorem unvisited_fresh (os : List Content) : Unvisited os (List.replicate (os.length + 1) ⟨none, 0⟩) := by
  induction os with
  | nil => rfl
  | cons o os ih => exact ⟨fun _ => rfl, ih⟩

/-- Snort's caches, counters and rounds come to this. -/
theorem snortMatches_iff : snortMatches os data c = true ↔ Leads data os c := by
  have h := nodeEvaluate_ends data os _ c (unvisited_fresh os)
  unfold snortMatches
  cases h with
  | leads hl ho => simp [ho, hl]
  | fails hl hf ho hk => simp [ho, hl]
  | stops hl hf ho hb => simp [ho, hl]

/-! ## The evaluators -/

theorem leadsFrom_not_fails {leads fails : Cursor → Prop} (h : ∀ c, leads c → ¬ fails c) (cs : List Cursor) :
    ∀ again, LeadsFrom os leads fails again cs → ¬ FailsFrom os fails again cs := by
  induction cs with
  | nil => exact fun _ hl => False.elim hl
  | cons c cs ih =>
    intro again hl hf
    rcases hl.2 with hl | ⟨-, hl⟩
    · exact h c hl hf.2.2.1
    · exact ih true hl hf.2.2.2

variable (data) in
theorem leads_not_fails (os : List Content) : ∀ c, Leads data os c → ¬ Fails data os c := by
  induction os with
  | nil => exact fun _ _ h => h
  | cons o os ih => exact fun c => leadsFrom_not_fails ih _ false

variable (data) in
theorem evalNode_cases (os : List Content) : ∀ c, (evalNode data os c = .isMatch → Leads data os c ∧ ¬ Missed data os c) ∧
    (evalNode data os c ≠ .isMatch → (Leads data os c ↔ Missed data os c)) := by
  induction os with
  | nil =>
    intro c
    exact ⟨fun _ => ⟨trivial, fun h => h⟩, fun h => absurd rfl h⟩
  | cons o os ih =>
    intro c
    rw [evalNode, Leads, Missed]
    cases he : o.eval data c.copy with
    | none =>
      rw [tries_none he]
      exact ⟨fun h => (by cases h), fun _ => ⟨fun h => (by cases h), fun ⟨x, xs, h, _⟩ => by cases h⟩⟩
    | some x =>
      rw [tries_some he]
      generalize (if o.retry x = true then tries data o x else []) = xs
      have hmiss : (∃ y ys, x :: xs = y :: ys ∧ (Missed data os y ∨ Fails data os y ∧ LeadsFrom os (Leads data os) (Fails data os) true ys)) ↔
          (Missed data os x ∨ Fails data os x ∧ LeadsFrom os (Leads data os) (Fails data os) true xs) := by
        constructor
        · rintro ⟨y, ys, h, hm⟩
          obtain ⟨rfl, rfl⟩ := List.cons.inj h
          exact hm
        · exact fun hm => ⟨x, xs, rfl, hm⟩
      rw [hmiss]
      obtain ⟨h1, h2⟩ := ih x
      refine ⟨fun hm => ?_, fun hm => ?_⟩
      · obtain ⟨hl, hno⟩ := h1 hm
        exact ⟨⟨fun h => (by cases h), .inl hl⟩, fun h => h.elim hno fun h => leads_not_fails data os x hl h.1⟩
      · exact ⟨fun h => h.2.imp_left (h2 hm).1, fun h => ⟨fun h => (by cases h), h.imp_left (h2 hm).2⟩⟩

end

/-- The evaluators agree exactly where no later occurrence is missed. -/
theorem evalTree_agrees (os : List Content) (data : List UInt8) :
    (evalTree os data .start = .isMatch ↔ snortMatches os data .start = true) ↔ ¬ Missed data os .start := by
  obtain ⟨h1, h2⟩ := evalNode_cases data os .start
  have htree : evalTree os data .start = evalNode data os .start := rfl
  rw [snortMatches_iff, htree]
  by_cases hm : evalNode data os .start = .isMatch
  · obtain ⟨hl, hno⟩ := h1 hm
    exact ⟨fun _ => hno, fun _ => ⟨fun _ => hl, fun _ => hm⟩⟩
  · constructor
    · exact fun h hmiss => hm (h.2 ((h2 hm).2 hmiss))
    · exact fun hno => ⟨fun h => absurd h hm, fun h => absurd ((h2 hm).1 h) hno⟩

/-- `content:"a"; content:"b", within 1` -/
def nextByte : List Content :=
  [⟨[97], 0, 0, false, false, false, by simp⟩, ⟨[98], 0, 1, false, false, true, by simp⟩]

/-- Behind the first `a` there is no `b`: `eval_tree` gives up, and Snort finds the second. -/
theorem evalTree_misses :
    evalTree nextByte [97, 120, 97, 98] .start = .noMatch ∧ snortMatches nextByte [97, 120, 97, 98] .start = true := by
  decide

end Pigasus
