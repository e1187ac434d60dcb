import Pigasus.PortGroup

/-!
# The port group filter keeps the matching rules

The rule units are pipelines without feedback: what leaves them depends on the
rule and the ports that went in. The controller presents the rules of a packet
together with the ports of that packet, so every group of rules is filtered with
its own packet, whatever the arrival times are.
-/

namespace Pigasus

open Hdl

/-! ## What the filter is for -/

/-- Port group `g` matches: the first kind of test that its entry names decides. -/
def pgMatches (T : PgTables) (p : Ports) (g : PgId) : Bool :=
  let e := T.pgEntry g
  let port := if e.src then p.srcPort else p.dstPort
  p.tcp == e.tcp &&
    if e.any then true
    else if e.single then T.single g == port
    else if e.range then
      PortUnit.inRange (T.range e.tableIndex) port ||
        ((T.range e.tableIndex).list && PortUnit.inList (T.list (T.range e.tableIndex).listIndex) port)
    else if e.list then PortUnit.inList (T.list e.tableIndex) port
    else
      PortUnit.httpBit
        (if e.src then T.httpSrc ((p.srcPort >>> 5).setWidth 11) else T.httpDst ((p.dstPort >>> 5).setWidth 11)) port

/-- Some port group of the rule matches; rule 0 and port group 0 stand for none. -/
def ruleMatches (T : PgTables) (p : Ports) (r : RuleId) : Bool :=
  r != 0 && (List.finRange 4).any fun j => T.rule2pg (r - 1) j != 0 && pgMatches T p (T.rule2pg (r - 1) j - 1)

/-! ## One port group -/

namespace PortUnit

variable (T : PgTables) (x : PuIn)

def parsed : PgParse := parse x.inPgValid x.ports (T.pgEntry x.inPg)

def rangeAddrOf : BitVec 5 := if (parsed T x).rangeRd then (T.pgEntry x.inPg).tableIndex else 0

def httpSrcAddrOf : BitVec 11 := if (parsed T x).httpSrcRd then (x.ports.srcPort >>> 5).setWidth 11 else 0

def httpDstAddrOf : BitVec 11 := if (parsed T x).httpDstRd then (x.ports.dstPort >>> 5).setWidth 11 else 0

def checked : PgMatch :=
  check (parsed T x) (T.single x.inPg) (T.range (rangeAddrOf T x)) (T.httpSrc (httpSrcAddrOf T x))
    (T.httpDst (httpDstAddrOf T x))

def listIndexOf : BitVec 5 :=
  if (parsed T x).rangeRd && (T.range (rangeAddrOf T x)).list then (T.range (rangeAddrOf T x)).listIndex
  else (parsed T x).listIndex

/-- The registers of cycle `k + 1`, when the group `x` came in that many cycles ago. -/
def Stage : Nat → PortUnit → PuIn → Prop
  | 0, s, x => s.c1 = ⟨x.inPgValid, x.inPg⟩ ∧ s.hpPorts 0 = x.ports
  | 1, s, x => s.c2 = ⟨x.inPgValid, x.inPg⟩ ∧ s.hpPorts 1 = x.ports ∧ s.pgEntry.r1 = T.pgEntry x.inPg
  | 2, s, x => s.c3 = ⟨x.inPgValid, x.inPg⟩ ∧ s.hpPorts 2 = x.ports ∧ s.pgEntry.q = T.pgEntry x.inPg
  | 3, s, x => s.c4 = ⟨x.inPgValid, x.inPg⟩ ∧ s.hpPorts 3 = x.ports ∧ s.pgEntryDataR1 = T.pgEntry x.inPg
  | 4, s, x => s.c5 = parsed T x ∧ s.pgR5 = x.inPg ∧ s.rangeAddr = rangeAddrOf T x ∧
      s.httpSrcAddr = httpSrcAddrOf T x ∧ s.httpDstAddr = httpDstAddrOf T x
  | 5, s, x => s.c6 = parsed T x ∧ s.single.r1 = T.single x.inPg ∧ s.range.r1 = T.range (rangeAddrOf T x) ∧
      s.httpSrc.r1 = T.httpSrc (httpSrcAddrOf T x) ∧ s.httpDst.r1 = T.httpDst (httpDstAddrOf T x)
  | 6, s, x => s.c7 = parsed T x ∧ s.single.q = T.single x.inPg ∧ s.range.q = T.range (rangeAddrOf T x) ∧
      s.httpSrc.q = T.httpSrc (httpSrcAddrOf T x) ∧ s.httpDst.q = T.httpDst (httpDstAddrOf T x)
  | 7, s, x => s.c8 = checked T x ∧ s.listIndexR3 = listIndexOf T x
  | 8, s, x => s.c9 = checked T x ∧ s.list.r1 = T.list (listIndexOf T x)
  | 9, s, x => s.c10 = checked T x ∧ s.list.q = T.list (listIndexOf T x)
  | 10, s, x => (s.c11.any || s.c11.singleMatch || s.c11.rangeMatch || s.c11.httpSrcMatch || s.c11.httpDstMatch ||
      s.c11.listMatch) = (x.inPgValid && pgMatches T x.ports x.inPg)
  | 11, s, x => s.portMatch = (x.inPgValid && pgMatches T x.ports x.inPg)
  | _, _, _ => True

theorem checked_eq :
    ((checked T x).any || (checked T x).singleMatch || (checked T x).rangeMatch || (checked T x).httpSrcMatch ||
        (checked T x).httpDstMatch || ((checked T x).listRd && inList (T.list (listIndexOf T x)) (checked T x).checkPort)) =
      (x.inPgValid && pgMatches T x.ports x.inPg) := by
  unfold checked listIndexOf rangeAddrOf httpSrcAddrOf httpDstAddrOf parsed check parse parses pgMatches
  dsimp only
  cases x.inPgValid
  · simp
  · generalize T.pgEntry x.inPg = e
    cases h : x.ports.tcp == e.tcp
    · simp
    · cases ha : e.any
      · cases hs : e.single
        · cases hr : e.range
          · cases hl : e.list
            · cases hsrc : e.src <;> simp
            · simp
          · cases hrl : (T.range e.tableIndex).list <;> simp [hrl]
        · simp
      · simp

variable {T x}

theorem stage_zero (s : PortUnit) : Stage T 0 (s.step T x) x := ⟨rfl, shiftIn_zero _ _ (by decide)⟩

theorem stage_succ {s : PortUnit} (i : PuIn) (k : Nat) (h : Stage T k s x) : Stage T (k + 1) (s.step T i) x := by
  match k with
  | 0 | 1 | 2 =>
    obtain ⟨h1, h2⟩ := h
    simp [Stage, step, shiftIn, h1, h2]
  | 3 =>
    obtain ⟨h1, h2, h3⟩ := h
    refine ⟨?_, ?_, ?_, ?_, ?_⟩ <;> simp only [step, h1, h2, h3] <;> rfl
  | 4 | 5 =>
    obtain ⟨h1, h2, h3, h4, h5⟩ := h
    simp [Stage, step, h1, h2, h3, h4, h5]
  | 6 =>
    obtain ⟨h1, h2, h3, h4, h5⟩ := h
    simp [Stage, step, h1, h2, h3, h4, h5, checked, listIndexOf]
  | 7 | 8 =>
    obtain ⟨h1, h2⟩ := h
    simp [Stage, step, h1, h2]
  | 9 =>
    obtain ⟨h1, h2⟩ := h
    have := checked_eq T x
    simp only [Stage, step, h1, h2]
    exact this
  | 10 => exact h
  | k + 11 => trivial

end PortUnit

/-! ## One rule -/

namespace RuleUnit

variable (T : PgTables) (x : RuIn)

def reads : Bool := x.inRuleData != 0 && x.inRuleValid

def puIn (j : Fin 4) : PuIn :=
  ⟨T.rule2pg (x.inRuleData - 1) j - 1, reads x && T.rule2pg (x.inRuleData - 1) j != 0, x.ports⟩

def matched : Bool := x.inRuleValid && ruleMatches T x.ports x.inRuleData

/-- The registers of cycle `k + 1`, when the rule `x` came in that many cycles ago. -/
def Stage (k : Nat) (s : RuleUnit) (x : RuIn) : Prop :=
  (∀ h : k < 15, s.hpRule ⟨k, h⟩ = x.inRuleData) ∧
    match k with
    | 0 => s.portsR1 = x.ports ∧ s.ruleRd = reads x ∧ s.rule2pg.r1 = T.rule2pg (x.inRuleData - 1)
    | 1 => s.portsR2 = x.ports ∧ s.rulePgValid = reads x ∧ s.rule2pg.q = T.rule2pg (x.inRuleData - 1)
    | 2 => ∀ j, (⟨s.inPg j, s.inPgValid j, s.portsR3⟩ : PuIn) = puIn T x j
    | 15 => s.rulePgMatch = matched T x ∧ s.outRuleData = if matched T x then x.inRuleData else 0
    | k + 3 => ∀ j, PortUnit.Stage T k (s.pg j) (puIn T x j)

theorem any_puIn : ((List.finRange 4).any fun j => (puIn T x j).inPgValid && pgMatches T x.ports (puIn T x j).inPg) =
    matched T x := by
  unfold matched ruleMatches puIn reads
  dsimp only
  cases x.inRuleData != 0 <;> cases x.inRuleValid <;> simp

variable {T x}

theorem hpRule_succ {s : RuleUnit} {i : RuIn} {k : Nat} (h : ∀ h : k < 15, s.hpRule ⟨k, h⟩ = x.inRuleData)
    (hk : k + 1 < 15) : (s.step T i).hpRule ⟨k + 1, hk⟩ = x.inRuleData :=
  (shiftIn_succ _ _ k hk).trans (h (by omega))

theorem stage_zero (s : RuleUnit) : Stage T 0 (s.step T x) x :=
  ⟨fun _ => shiftIn_zero _ _ (by decide), rfl, rfl, rfl⟩

theorem stage_succ {s : RuleUnit} (i : RuIn) {k : Nat} (hk : k < 15) (h : Stage T k s x) :
    Stage T (k + 1) (s.step T i) x := by
  refine ⟨hpRule_succ h.1, ?_⟩
  obtain ⟨hr, h⟩ := h
  match k with
  | 0 => exact h
  | 1 =>
    obtain ⟨h1, h2, h3⟩ := h
    intro j
    simp [step, puIn, h1, h2, h3]
  | 2 =>
    intro j
    simp only [step, vec_get, h j]
    exact PortUnit.stage_zero _
  | 14 =>
    have hp : s.portMatch = matched T x := by
      rw [← any_puIn]
      exact congrArg (List.any _) (funext fun j => h j)
    have h14 : s.hpRule 14 = x.inRuleData := hr hk
    exact ⟨hp, by simp only [step, hp, h14]⟩
  | 3 | 4 | 5 | 6 | 7 | 8 | 9 | 10 | 11 | 12 | 13 =>
    intro j
    simp only [step, vec_get]
    exact PortUnit.stage_succ _ _ (h j)

end RuleUnit

/-! ## The filter as a pipeline -/

structure Issue where
  valid : Bool
  eop : Bool
  rules : Vec RuleId 8
  ports : Ports

namespace PortGroup

variable (T : PgTables)

def issue (s : PortGroup) : Issue := ⟨s.ruleValid, s.ruleEop, s.inRuleData, s.ports⟩

def keeps (p : Ports) (eop : Bool) (r : Vec RuleId 8) : PgBeat :=
  ⟨eop, vec fun k => if ruleMatches T p (r k) then (r k).setWidth 16 else 0⟩

/-- What is written to the rule FIFO for an issue; a beat without a match is dropped, unless it is the last. -/
def emits (x : Issue) : List PgBeat :=
  if x.valid && (((List.finRange 8).any fun k => ruleMatches T x.ports (x.rules k)) || x.eop) then
    [keeps T x.ports x.eop x.rules]
  else []

def written (s : PortGroup) : List PgBeat := if s.intValid then [⟨s.intEop, s.intData⟩] else []

def ruIn (x : Issue) (k : Fin 8) : RuIn := ⟨x.rules k, x.valid, x.ports⟩

/-- The registers of cycle `k + 1`, when `x` was issued that many cycles ago. Without a rule
there is nothing to say about them. -/
def Stage (k : Nat) (s : PortGroup) (x : Issue) : Prop :=
  (∀ h : k < 16, s.hpRuleValid ⟨k, h⟩ = x.valid ∧ s.hpRuleEop ⟨k, h⟩ = x.eop ∧
    (x.valid = true → ∀ l, RuleUnit.Stage T k (s.unit l) (ruIn x l))) ∧
    (k = 16 → s.written = emits T x)

variable {T}

theorem stage_zero (s : PortGroup) (i : PgIn) : Stage T 0 (s.step T i) s.issue := by
  refine ⟨fun _ => ⟨shiftIn_zero _ _ (by decide), shiftIn_zero _ _ (by decide), fun _ l => ?_⟩, fun h => by omega⟩
  simp only [step, vec_get]
  exact RuleUnit.stage_zero _

theorem stage_succ {s : PortGroup} (i : PgIn) (k : Nat) (x : Issue) (h : Stage T k s x) :
    Stage T (k + 1) (s.step T i) x := by
  refine ⟨fun hk => ?_, fun hk => ?_⟩
  · obtain ⟨hv, he, hu⟩ := h.1 (by omega)
    refine ⟨(shiftIn_succ _ _ k hk).trans hv, (shiftIn_succ _ _ k hk).trans he, fun hx l => ?_⟩
    simp only [step, vec_get]
    exact RuleUnit.stage_succ _ (by omega) (hu hx l)
  · obtain rfl : k = 15 := by omega
    obtain ⟨hv, he, hu⟩ := h.1 (by omega)
    have hv : s.hpRuleValid 15 = x.valid := hv
    have he : s.hpRuleEop 15 = x.eop := he
    cases hx : x.valid
    · simp [written, emits, step, hv, hx]
    · have hm : ∀ l, (s.unit l).rulePgMatch = ruleMatches T x.ports (x.rules l) := fun l => by
        simpa [RuleUnit.matched, ruIn, hx] using (hu hx l).2.1
      have hd : ∀ l, (s.unit l).outRuleData = if ruleMatches T x.ports (x.rules l) then x.rules l else 0 := fun l => by
        simpa [RuleUnit.matched, ruIn, hx] using (hu hx l).2.2
      have hk : (⟨x.eop, vec fun l => (s.unit l).outRuleData.setWidth 16⟩ : PgBeat) = keeps T x.ports x.eop x.rules := by
        refine congrArg (PgBeat.mk x.eop) (congrArg vec (funext fun l => ?_))
        rw [hd]
        split_ifs <;> rfl
      simp only [written, emits, step, hv, he, hx, hm, Bool.true_and, hk]

end PortGroup

/-! ## The filter with its inputs and outputs -/

/-- A packet and its rules: beats of which the last one alone has `eop`. -/
structure PgJob where
  metaData : Metadata
  front : List (RuleBeat 128)
  last : RuleBeat 128
  front_eop : ∀ b ∈ front, b.eop = false
  last_eop : last.eop = true

namespace PgJob

def beats (g : PgJob) : List (RuleBeat 128) := g.front ++ [g.last]

def issueOf (m : Metadata) (b : RuleBeat 128) : Issue :=
  ⟨true, b.eop, vec (PortGroup.ruleAt b), PortGroup.portsOf m⟩

def filtered (T : PgTables) (g : PgJob) : List PgBeat :=
  g.beats.flatMap fun b => PortGroup.emits T (issueOf g.metaData b)

end PgJob

def PgBeat.rules (b : PgBeat) : List (BitVec 16) := ((List.finRange 8).map b.data).filter (· != 0)

def beatIds (b : RuleBeat 128) : List Nat := (List.range 8).map fun k => b.data.toNat / 2 ^ (16 * k) % 2 ^ 13

/-- Entry `g` of the port groups accepts a packet with these metadata: the first kind of test that it names decides. -/
def GroupAccepts (T : PgTables) (m : Metadata) (g : BitVec 9) : Prop :=
  let e := T.pgEntry g
  let r := T.range e.tableIndex
  let port := if e.src then m.tuple.sPort.toNat else m.tuple.dPort.toNat
  (e.tcp = true ↔ m.prot.toNat = 6) ∧
    if e.any then True
    else if e.single then (T.single g).toNat = port
    else if e.range then
      (∃ k : Fin 3, (r.rangeStart k).toNat ≤ port ∧ port ≤ (r.rangeEnd k).toNat) ∨
        r.list = true ∧ ∃ k : Fin 7, (T.list r.listIndex k).toNat = port
    else if e.list then ∃ k : Fin 7, (T.list e.tableIndex k).toNat = port
    else if e.src then (T.httpSrc (BitVec.ofNat 11 (port / 32))).getLsbD (port % 32) = true
    else (T.httpDst (BitVec.ofNat 11 (port / 32))).getLsbD (port % 32) = true

/-- A rule other than 0 one of whose port groups, 0 excepted, accepts the packet. -/
def RuleAccepts (T : PgTables) (m : Metadata) (r : Nat) : Prop :=
  r ≠ 0 ∧ ∃ j : Fin 4, (T.rule2pg (BitVec.ofNat 13 (r - 1)) j).toNat ≠ 0 ∧
    GroupAccepts T m (BitVec.ofNat 9 ((T.rule2pg (BitVec.ofNat 13 (r - 1)) j).toNat - 1))

instance (T : PgTables) (m : Metadata) (g : BitVec 9) : Decidable (GroupAccepts T m g) := by
  unfold GroupAccepts
  infer_instance

instance (T : PgTables) (m : Metadata) (r : Nat) : Decidable (RuleAccepts T m r) := by
  unfold RuleAccepts
  infer_instance

/-- What the group `out` that is written for `g` must be. -/
structure PgJob.Filtered (T : PgTables) (g : PgJob) (out : List PgBeat) : Prop where
  rules : (out.flatMap PgBeat.rules).map BitVec.toNat = (g.beats.flatMap beatIds).filter (RuleAccepts T g.metaData ·)
  -- one `eop` beat at the end, and no beat without a rule before it
  framed : ∃ l b, out = l ++ [b] ∧ b.eop = true ∧ ∀ c ∈ l, c.eop = false ∧ c.rules ≠ []

section
variable (T : PgTables) (m : Metadata)

theorem inRange_eq (r : PgRange) (port : BitVec 16) : PortUnit.inRange r port = true ↔
    ∃ k : Fin 3, (r.rangeStart k).toNat ≤ port.toNat ∧ port.toNat ≤ (r.rangeEnd k).toNat := by
  simp [PortUnit.inRange, BitVec.le_def]

theorem inList_eq (l : PgList) (port : BitVec 16) : PortUnit.inList l port = true ↔ ∃ k : Fin 7, (l k).toNat = port.toNat := by
  simp only [PortUnit.inList, List.any_eq_true, List.mem_finRange, true_and, beq_iff_eq, BitVec.toNat_inj]
  exact exists_congr fun k => eq_comm

theorem httpBit_eq (w : BitVec 32) (port : BitVec 16) : PortUnit.httpBit w port = w.getLsbD (port.toNat % 32) := by
  have hs : (port.extractLsb' 0 5).toNat = port.toNat % 32 := by
    rw [BitVec.extractLsb'_toNat, Nat.shiftRight_zero]
  rw [PortUnit.httpBit, shift_and_one, hs]

theorem httpAddr_eq (port : BitVec 16) : (port >>> 5).setWidth 11 = BitVec.ofNat 11 (port.toNat / 32) := by
  apply BitVec.eq_of_toNat_eq
  simp [Nat.shiftRight_eq_div_pow]

theorem pgMatches_iff (g : PgId) : pgMatches T (PortGroup.portsOf m) g = true ↔ GroupAccepts T m g := by
  have ht : ((PortGroup.portsOf m).tcp == (T.pgEntry g).tcp) = true ↔ ((T.pgEntry g).tcp = true ↔ m.prot.toNat = 6) := by
    have hp : (m.prot == protTcp) = decide (m.prot.toNat = 6) := by
      rw [Bool.eq_iff_iff, beq_iff_eq, decide_eq_true_iff, ← BitVec.toNat_inj]
      rfl
    rw [PortGroup.portsOf, hp]
    cases (T.pgEntry g).tcp <;> simp
  have hport : (if (T.pgEntry g).src then (PortGroup.portsOf m).srcPort else (PortGroup.portsOf m).dstPort).toNat =
      if (T.pgEntry g).src then m.tuple.sPort.toNat else m.tuple.dPort.toNat := apply_ite ..
  rw [pgMatches, GroupAccepts, Bool.and_eq_true, ht]
  refine and_congr_right fun _ => ?_
  -- the tests in the order of their priority
  by_cases hany : (T.pgEntry g).any = true
  · simp [hany]
  by_cases hsingle : (T.pgEntry g).single = true
  · simp only [hany, hsingle, if_true, Bool.false_eq_true, if_false, beq_iff_eq, ← BitVec.toNat_inj, hport]
  by_cases hrange : (T.pgEntry g).range = true
  · simp only [hany, hsingle, hrange, if_true, Bool.false_eq_true, if_false, Bool.or_eq_true, Bool.and_eq_true, inRange_eq,
      inList_eq, hport]
  by_cases hlist : (T.pgEntry g).list = true
  · simp only [hany, hsingle, hrange, hlist, if_true, Bool.false_eq_true, if_false, inList_eq, hport]
  · simp only [hany, hsingle, hrange, hlist, Bool.false_eq_true, if_false, httpBit_eq, httpAddr_eq, hport]
    by_cases hsrc : (T.pgEntry g).src = true
    · simp only [hsrc, if_true]
      rfl
    · simp only [hsrc, Bool.false_eq_true, if_false]
      rfl

theorem ruleMatches_iff (r : RuleId) : ruleMatches T (PortGroup.portsOf m) r = true ↔ RuleAccepts T m r.toNat := by
  have hsub : ∀ {w : Nat} (x : BitVec w), x ≠ 0 → x - 1 = BitVec.ofNat w (x.toNat - 1) := by
    intro w x hx
    have h0 : x.toNat ≠ 0 := fun h => hx (BitVec.eq_of_toNat_eq (h.trans (by simp)))
    have hlt := x.isLt
    have hw : 1 < 2 ^ w := by omega
    apply BitVec.eq_of_toNat_eq
    rw [BitVec.toNat_sub_of_le (by simp [BitVec.le_def, Nat.mod_eq_of_lt hw]; omega), BitVec.toNat_ofNat,
      Nat.mod_eq_of_lt (by omega)]
    simp [Nat.mod_eq_of_lt hw]
  have hne : ∀ {w : Nat} (x : BitVec w), (x != 0) = true ↔ x.toNat ≠ 0 := by
    intro w x
    rw [bne_iff_ne, ne_eq, ne_eq, not_iff_not, ← BitVec.toNat_inj]
    simp
  rw [ruleMatches, RuleAccepts, Bool.and_eq_true, hne]
  refine and_congr_right fun hr => ?_
  rw [← hsub r (by simpa using (hne r).2 hr)]
  simp only [List.any_eq_true, List.mem_finRange, true_and, Bool.and_eq_true, hne, pgMatches_iff]
  refine exists_congr fun j => and_congr_right fun hj => ?_
  rw [hsub _ (by simpa using (hne _).2 hj)]

theorem beatIds_eq (b : RuleBeat 128) : beatIds b = ((List.finRange 8).map (PortGroup.ruleAt b)).map BitVec.toNat := by
  rw [beatIds, ← List.map_coe_finRange_eq_range, List.map_map, List.map_map]
  refine List.map_congr_left fun k _ => ?_
  simp [PortGroup.ruleAt, Nat.shiftRight_eq_div_pow]

end

section
variable {T : PgTables} {m : Metadata} {b : RuleBeat 128}

theorem ne_zero_of_ruleMatches {p : Ports} {r : RuleId} (h : ruleMatches T p r = true) : r.setWidth 16 ≠ 0 := by
  have hr : r ≠ 0 := by
    simp only [ruleMatches, Bool.and_eq_true, bne_iff_ne] at h
    exact h.1
  intro h0
  apply hr
  have := congrArg BitVec.toNat h0
  apply BitVec.eq_of_toNat_eq
  simp at this ⊢
  omega

theorem keeps_rules (p : Ports) (eop : Bool) (r : Vec RuleId 8) : (PortGroup.keeps T p eop r).rules =
    (((List.finRange 8).map r).filter (ruleMatches T p)).map (BitVec.setWidth 16) := by
  have hd (k : Fin 8) : (PortGroup.keeps T p eop r).data k =
      if ruleMatches T p (r k) then (r k).setWidth 16 else 0 := vec_get _ k
  have h (l : List (Fin 8)) : (l.map (PortGroup.keeps T p eop r).data).filter (· != 0) =
      ((l.map r).filter (ruleMatches T p)).map (BitVec.setWidth 16) := by
    induction l with
    | nil => rfl
    | cons k l ih =>
      rw [List.map_cons, List.map_cons, hd]
      cases hm : ruleMatches T p (r k)
      · rw [List.filter_cons_of_neg (by simp), List.filter_cons_of_neg (by simp [hm]), ih]
      · rw [if_pos rfl, List.filter_cons_of_pos (by simpa using ne_zero_of_ruleMatches hm),
          List.filter_cons_of_pos hm, List.map_cons, ih]
  exact h _

theorem emits_rules (x : Issue) (hv : x.valid = true) : (PortGroup.emits T x).flatMap PgBeat.rules =
    (((List.finRange 8).map x.rules).filter (ruleMatches T x.ports)).map (BitVec.setWidth 16) := by
  unfold PortGroup.emits
  split_ifs with h
  · simp [keeps_rules]
  · have hn : ∀ k, ruleMatches T x.ports (x.rules k) = false := by
      intro k
      simp only [hv, Bool.true_and, Bool.or_eq_true, List.any_eq_true, not_or, not_exists] at h
      simpa using h.1 k
    have : ((List.finRange 8).map x.rules).filter (ruleMatches T x.ports) = [] := by
      refine List.filter_eq_nil_iff.2 fun r hr => ?_
      obtain ⟨k, _, rfl⟩ := List.mem_map.1 hr
      simp [hn k]
    rw [this]
    rfl

theorem PgJob.filtered_filtered (T : PgTables) (g : PgJob) : g.Filtered T (g.filtered T) where
  rules := by
    have h (l : List (RuleBeat 128)) :
        (l.flatMap fun b => PortGroup.emits T (PgJob.issueOf g.metaData b)).flatMap PgBeat.rules =
          ((l.flatMap fun b => (List.finRange 8).map (PortGroup.ruleAt b)).filter
            (ruleMatches T (PortGroup.portsOf g.metaData))).map (BitVec.setWidth 16) := by
      induction l with
      | nil => rfl
      | cons b l ih =>
        have hb : (List.finRange 8).map (vec (PortGroup.ruleAt b)) = (List.finRange 8).map (PortGroup.ruleAt b) :=
          List.map_congr_left fun k _ => vec_get _ k
        rw [List.flatMap_cons, List.flatMap_append, ih, emits_rules _ rfl, List.flatMap_cons, List.filter_append,
          List.map_append, PgJob.issueOf, hb]
    rw [PgJob.filtered, h]
    have hw : ∀ l : List RuleId, (l.map (BitVec.setWidth 16)).map BitVec.toNat = l.map BitVec.toNat := by
      intro l
      rw [List.map_map]
      refine List.map_congr_left fun r _ => ?_
      exact BitVec.toNat_setWidth_of_le (by omega)
    have hf : ruleMatches T (PortGroup.portsOf g.metaData) = (fun r => decide (RuleAccepts T g.metaData r)) ∘ BitVec.toNat := by
      funext r
      rw [Bool.eq_iff_iff, ruleMatches_iff]
      simp
    rw [hw, hf, ← List.filter_map, List.map_flatMap]
    simp only [← beatIds_eq]
  framed := by
    refine ⟨g.front.flatMap fun b => PortGroup.emits T (PgJob.issueOf g.metaData b),
      PortGroup.keeps T (PortGroup.portsOf g.metaData) true (vec (PortGroup.ruleAt g.last)), ?_, rfl, fun c hc => ?_⟩
    · simp [PgJob.filtered, PgJob.beats, PgJob.issueOf, PortGroup.emits, g.last_eop]
    · obtain ⟨b, hb, hc⟩ := List.mem_flatMap.1 hc
      have he := g.front_eop b hb
      simp only [PortGroup.emits, PgJob.issueOf, he] at hc
      split_ifs at hc with h
      · obtain rfl := List.mem_singleton.1 hc
        refine ⟨rfl, ?_⟩
        rw [keeps_rules]
        simp only [Bool.true_and, Bool.or_false, List.any_eq_true] at h
        obtain ⟨k, _, hk⟩ := h
        refine List.ne_nil_of_mem (a := ((vec (PortGroup.ruleAt b) : Vec RuleId 8) k).setWidth 16) ?_
        exact List.mem_map_of_mem (List.mem_filter.2 ⟨List.mem_map_of_mem (List.mem_finRange k), hk⟩)
      · cases hc

end


/-! ## The controller -/

/-- Where the controller is: between two packets, at the end of `g`, or in its rules, of which `todo` are left. -/
inductive PgPhase
  | wait
  | pop (g : PgJob)
  | rules (g : PgJob) (done todo : List (RuleBeat 128))

def PgPhase.jobs : PgPhase → List PgJob
  | .wait => []
  | .pop g => [g]
  | .rules g _ _ => [g]

namespace PgSys

variable (T : PgTables) (gs : List PgJob)

/-- A packet that waits in front of the filter. -/
def start (p : PortGroup) (gs : List PgJob) : PgSys where
  pg := p.reset
  metas := gs.map PgJob.metaData
  shown := false
  beats := gs.flatMap PgJob.beats
  out := []
  metaOut := []

def served : PgTick := ⟨true, true, false⟩

/-- The controller in phase `ph`, with the jobs `fin` behind it, `rest` in front and `E` given for what was issued. -/
def At (fin rest : List PgJob) (E : List PgBeat) (s : PgSys) : PgPhase → Prop
  | .wait => s.pg.state = .idle ∧ s.pg.inMetaReady = false ∧ s.metas = rest.map PgJob.metaData ∧
      s.beats = rest.flatMap PgJob.beats ∧ E = fin.flatMap (PgJob.filtered T)
  | .pop g => s.pg.state = .idle ∧ s.pg.inMetaReady = true ∧ s.shown = true ∧
      s.metas = g.metaData :: rest.map PgJob.metaData ∧ s.beats = rest.flatMap PgJob.beats ∧
      E = fin.flatMap (PgJob.filtered T) ++ g.filtered T
  | .rules g done todo => s.pg.state = .rule ∧ s.pg.inMetaReady = false ∧ s.pg.ruleEop = false ∧ s.shown = true ∧
      s.pg.ports = PortGroup.portsOf g.metaData ∧ s.metas = g.metaData :: rest.map PgJob.metaData ∧
      done ++ todo = g.beats ∧ todo ≠ [] ∧ s.beats = todo ++ rest.flatMap PgJob.beats ∧
      E = fin.flatMap (PgJob.filtered T) ++ done.flatMap fun b => PortGroup.emits T (PgJob.issueOf g.metaData b)

def given (hist : List Issue) (s : PgSys) : List PgBeat :=
  hist.reverse.flatMap (PortGroup.emits T) ++ PortGroup.emits T s.pg.issue

structure Inv (hist : List Issue) (s : PgSys) : Prop where
  pipe : Delayed (PortGroup.Stage T) hist s.pg
  long : 17 ≤ hist.length
  out : s.out = (hist.drop 17).reverse.flatMap (PortGroup.emits T)
  ctl : ∃ fin ph rest, gs = fin ++ ph.jobs ++ rest ∧ At T fin rest (given T hist s) s ph
  metas : s.metaOut ++ (if s.pg.intMetaValid then [s.pg.intMetaData] else []) ++ s.metas = gs.map PgJob.metaData

def Issue.none : Issue := ⟨false, false, vec fun _ => 0, ⟨false, 0, 0⟩⟩

theorem emits_of_not_valid {x : Issue} (h : x.valid = false) : PortGroup.emits T x = [] := by
  simp [PortGroup.emits, h]

theorem Inv.start (p : PortGroup) : Inv T gs (List.replicate 17 Issue.none) (start p gs) where
  pipe := by
    intro k x hk
    rw [List.getElem?_replicate] at hk
    split_ifs at hk
    obtain rfl := Option.some.inj hk
    refine ⟨fun h => ⟨?_, ?_, fun hv => by cases hv⟩, fun _ => ?_⟩
    · simp [PgSys.start, PortGroup.reset, Issue.none]
    · simp [PgSys.start, PortGroup.reset, Issue.none]
    · simp [PgSys.start, PortGroup.reset, Issue.none, PortGroup.written, PortGroup.emits]
  long := by simp
  out := by simp [PgSys.start]
  ctl := ⟨[], .wait, gs, by simp [PgPhase.jobs], rfl, rfl, rfl, rfl, by
    have h0 : PortGroup.emits T (PgSys.start p gs).pg.issue = [] := emits_of_not_valid T rfl
    rw [given, h0, List.append_nil, List.reverse_replicate]
    refine List.flatMap_eq_nil_iff.2 fun x hx => ?_
    obtain rfl := List.eq_of_mem_replicate hx
    exact emits_of_not_valid T rfl⟩
  metas := by simp [PgSys.start, PortGroup.reset]

variable {T gs} {hist : List Issue} {s : PgSys} {i : PgTick}

theorem given_step : given T (s.pg.issue :: hist) (s.step T i) =
    given T hist s ++ PortGroup.emits T (s.step T i).pg.issue := by
  simp [given]

theorem issue_of_not_takes (h : s.pg.takesBeat (s.pgIn i) = false) :
    PortGroup.emits T (s.step T i).pg.issue = [] :=
  emits_of_not_valid T h

theorem At.wait {fin rest : List PgJob} {E : List PgBeat} (h : At T fin rest E s .wait) :
    ∃ ph rest', rest = ph.jobs ++ rest' ∧
      At T fin rest' (E ++ PortGroup.emits T (s.step T i).pg.issue) (s.step T i) ph := by
  obtain ⟨hst, hrd, hm, hb, hE⟩ := h
  have ht : s.pg.takesBeat (s.pgIn i) = false := by simp [PortGroup.takesBeat, PortGroup.ruleDepackerReady, hst]
  have hp : s.pops i = false := by simp [pops, hrd]
  rw [issue_of_not_takes ht, List.append_nil]
  cases hk : s.pg.takesMeta (s.pgIn i)
  · refine ⟨.wait, rest, rfl, ?_, ?_, ?_, ?_, hE⟩
    · simp [PgSys.step, PortGroup.step, PortGroup.nextState, hk, PortGroup.takesLast, ht, hst]
    · simp [PgSys.step, PortGroup.step, hst]
    · simp [PgSys.step, hp, hm]
    · simp [PgSys.step, ht, hb]
  · cases rest with
    | nil => simp [PortGroup.takesMeta, pgIn, hm] at hk
    | cons g rest =>
      have hv : (s.pgIn i).inMetaValid = true := by
        simp only [PortGroup.takesMeta, Bool.and_eq_true] at hk
        exact hk.1.1.2
      refine ⟨.rules g [] g.beats, rest, rfl, ?_, ?_, ?_, ?_, ?_, ?_, rfl, by simp [PgJob.beats], ?_, by simpa using hE⟩
      · simp [PgSys.step, PortGroup.step, PortGroup.nextState, hk]
      · simp [PgSys.step, PortGroup.step, hst]
      · simp [PgSys.step, PortGroup.step, hst]
      · simp [PgSys.step, hv, hrd]
      · have hmd : (s.pgIn i).inMetaData = g.metaData := by simp [pgIn, hm]
        simp [PgSys.step, PortGroup.step, hk, hmd]
      · simp [PgSys.step, hp, hm]
      · simp [PgSys.step, ht, hb]

theorem At.pop {fin rest : List PgJob} {E : List PgBeat} {g : PgJob} (h : At T fin rest E s (.pop g)) :
    At T (fin ++ [g]) rest (E ++ PortGroup.emits T (s.step T i).pg.issue) (s.step T i) .wait := by
  obtain ⟨hst, hrd, hs, hm, hb, hE⟩ := h
  have ht : s.pg.takesBeat (s.pgIn i) = false := by simp [PortGroup.takesBeat, PortGroup.ruleDepackerReady, hst]
  have hk : s.pg.takesMeta (s.pgIn i) = false := by simp [PortGroup.takesMeta, hrd]
  have hp : s.pops i = true := by simp [pops, hrd, pgIn, hs, hm]
  rw [issue_of_not_takes ht, List.append_nil]
  refine ⟨?_, ?_, ?_, ?_, by simpa using hE⟩
  · simp [PgSys.step, PortGroup.step, PortGroup.nextState, hk, PortGroup.takesLast, ht, hst]
  · simp [PgSys.step, PortGroup.step, hst]
  · simp [PgSys.step, hp, hm]
  · simp [PgSys.step, ht, hb]

theorem At.rules {fin rest : List PgJob} {E : List PgBeat} {g : PgJob} {done todo : List (RuleBeat 128)}
    (h : At T fin rest E s (.rules g done todo)) :
    ∃ ph, ph.jobs = [g] ∧ At T fin rest (E ++ PortGroup.emits T (s.step T i).pg.issue) (s.step T i) ph := by
  obtain ⟨hst, hrd, heop, hs, hpt, hm, hg, hne, hb, hE⟩ := h
  have hk : s.pg.takesMeta (s.pgIn i) = false := by simp [PortGroup.takesMeta, hst]
  have hp : s.pops i = false := by simp [pops, hrd]
  have hsh : (s.step T i).shown = true := by simp [PgSys.step, pgIn, hs, hm, hrd]
  have hpt' : (s.step T i).pg.ports = PortGroup.portsOf g.metaData := by simp [PgSys.step, PortGroup.step, hk, hpt]
  have hm' : (s.step T i).metas = g.metaData :: rest.map PgJob.metaData := by simp [PgSys.step, hp, hm]
  cases ht : s.pg.takesBeat (s.pgIn i)
  · refine ⟨.rules g done todo, rfl, ?_⟩
    rw [issue_of_not_takes ht, List.append_nil]
    refine ⟨?_, ?_, ?_, hsh, hpt', hm', hg, hne, ?_, hE⟩
    · simp [PgSys.step, PortGroup.step, PortGroup.nextState, hk, PortGroup.takesLast, ht, hst]
    · simp [PgSys.step, PortGroup.step, PortGroup.takesLast, ht, hst, hrd]
    · simp [PgSys.step, PortGroup.step, PortGroup.takesLast, ht, hst, heop]
    · simp [PgSys.step, ht, hb]
  · obtain ⟨b, todo, rfl⟩ := List.exists_cons_of_ne_nil hne
    have hbt : (s.pgIn i).ruleBeat = b := by simp [pgIn, hb]
    have hbs : (s.step T i).beats = todo ++ rest.flatMap PgJob.beats := by simp [PgSys.step, ht, hb]
    have hi : (s.step T i).pg.issue = PgJob.issueOf g.metaData b := by
      have he : (s.step T i).pg.ruleEop = b.eop := by
        cases hbe : b.eop <;> simp [PgSys.step, PortGroup.step, PortGroup.takesLast, hbt, ht, hst, heop, hbe]
      have hr : (s.step T i).pg.inRuleData = vec (PortGroup.ruleAt b) := by
        simp [PgSys.step, PortGroup.step, ht, hbt]
      have hv : (s.step T i).pg.ruleValid = true := ht
      simp only [PortGroup.issue, PgJob.issueOf, hpt', he, hr, hv]
    rw [hi]
    rcases List.eq_nil_or_concat todo with rfl | ⟨todo', c, htd⟩
    · -- the last beat ends the packet
      obtain ⟨rfl, hl⟩ : done = g.front ∧ [b] = [g.last] := List.append_inj' hg rfl
      obtain rfl : b = g.last := by simpa using hl
      have htl : s.pg.takesLast (s.pgIn i) = true := by simp [PortGroup.takesLast, ht, hbt, g.last_eop]
      refine ⟨.pop g, rfl, ?_, ?_, hsh, hm', by simpa using hbs, ?_⟩
      · simp [PgSys.step, PortGroup.step, PortGroup.nextState, hk, htl]
      · simp [PgSys.step, PortGroup.step, hst, htl]
      · simp [hE, PgJob.filtered, PgJob.beats]
    · rw [List.concat_eq_append] at htd
      subst htd
      have hf : done ++ b :: todo' = g.front := by
        rw [← List.cons_append, ← List.append_assoc] at hg
        exact (List.append_inj' hg rfl).1
      have he : b.eop = false := g.front_eop b (by simp [← hf])
      have htl : s.pg.takesLast (s.pgIn i) = false := by simp [PortGroup.takesLast, hbt, he]
      refine ⟨.rules g (done ++ [b]) (todo' ++ [c]), rfl, ?_, ?_, ?_, hsh, hpt', hm', by simpa using hg, by simp, hbs, ?_⟩
      · simp [PgSys.step, PortGroup.step, PortGroup.nextState, hk, htl, hst]
      · simp [PgSys.step, PortGroup.step, hst, htl, hrd]
      · simp [PgSys.step, PortGroup.step, hst, htl, heop]
      · simp [hE]

theorem Inv.step (h : Inv T gs hist s) : Inv T gs (s.pg.issue :: hist) (s.step T i) where
  pipe := h.pipe.step (PortGroup.stage_zero _ _) fun k x hk => PortGroup.stage_succ _ k x hk
  long := by
    have := h.long
    simp only [List.length_cons]
    omega
  out := by
    have hl := h.long
    obtain ⟨y, hy⟩ : ∃ y, hist[16]? = some y := ⟨hist[16], List.getElem?_eq_getElem (by omega)⟩
    have hw : s.pg.written = PortGroup.emits T y := (h.pipe 16 y hy).2 rfl
    rw [flatMap_drop_cons _ _ hy, ← h.out, ← hw]
    rfl
  ctl := by
    obtain ⟨fin, ph, rest, hgs, hat⟩ := h.ctl
    rw [given_step]
    cases ph with
    | wait =>
      obtain ⟨ph, rest', hr, hat'⟩ := hat.wait (i := i)
      exact ⟨fin, ph, rest', by simpa [hr, PgPhase.jobs] using hgs, hat'⟩
    | pop g => exact ⟨fin ++ [g], .wait, rest, by simpa [PgPhase.jobs] using hgs, hat.pop⟩
    | rules g done todo =>
      obtain ⟨ph, hj, hat'⟩ := hat.rules (i := i)
      exact ⟨fin, ph, rest, hj ▸ hgs, hat'⟩
  metas := by
    rw [← h.metas]
    cases hp : s.pops i
    · have hv : (s.pg.step T (s.pgIn i)).intMetaValid = false := hp
      simp [hv, PgSys.step, hp]
    · have hv : (s.pg.step T (s.pgIn i)).intMetaValid = true := hp
      have hne : s.metas ≠ [] := by
        intro hn
        simp [pops, pgIn, hn] at hp
      obtain ⟨m, l, hm⟩ := List.exists_cons_of_ne_nil hne
      have hd : (s.pg.step T (s.pgIn i)).intMetaData = m := by simp [PortGroup.step, pgIn, hm]
      simp [hv, hd, PgSys.step, hp, hm]

theorem Inv.after (js : List PgTick) (h : Inv T gs hist s) :
    ∃ l : List Issue, l.length = js.length ∧ Inv T gs (l ++ hist) (run (PgSys.step T) s js) := by
  induction js generalizing s hist with
  | nil => exact ⟨[], rfl, h⟩
  | cons j js ih =>
    obtain ⟨l, hl, h'⟩ := ih (h.step (i := j))
    exact ⟨l ++ [s.pg.issue], by simp [hl], by simpa using h'⟩

theorem Inv.out_later (h : Inv T gs hist s) (js : List PgTick) (hj : js.length = 18) :
    (run (PgSys.step T) s js).out = given T hist s := by
  obtain ⟨j, js, rfl⟩ := List.exists_cons_of_length_eq_add_one hj
  obtain ⟨l, hl, h'⟩ := Inv.after js (h.step (i := j))
  have hl : l.length = 17 := by simpa [hl] using hj
  rw [run_cons, h'.out, List.drop_left' hl]
  simp [given]

theorem At.given_prefix {fin rest : List PgJob} {E : List PgBeat} {ph : PgPhase} (h : At T fin rest E s ph) :
    E <+: (fin ++ ph.jobs ++ rest).flatMap (PgJob.filtered T) := by
  cases ph with
  | wait =>
    obtain ⟨_, _, _, _, rfl⟩ := h
    simp [PgPhase.jobs]
  | pop g =>
    obtain ⟨_, _, _, _, _, rfl⟩ := h
    simp [PgPhase.jobs]
  | rules g done todo =>
    obtain ⟨_, _, _, _, _, _, hg, _, _, rfl⟩ := h
    simp [PgPhase.jobs, PgJob.filtered, ← hg]

theorem Inv.out_prefix (h : Inv T gs hist s) : s.out <+: gs.flatMap (PgJob.filtered T) := by
  obtain ⟨fin, ph, rest, rfl, hat⟩ := h.ctl
  refine List.IsPrefix.trans ?_ hat.given_prefix
  rw [h.out, given]
  refine List.IsPrefix.trans ?_ (List.prefix_append _ _)
  conv_rhs => rw [← List.take_append_drop 17 hist, List.reverse_append, List.flatMap_append]
  exact List.prefix_append _ _

theorem Inv.metas_prefix (h : Inv T gs hist s) : s.metaOut <+: gs.map PgJob.metaData := by
  rw [← h.metas, List.append_assoc]
  exact List.prefix_append _ _

/-! ## Everything comes out -/

def Done (s : PgSys) : Prop :=
  s.pg.state = .idle ∧ s.pg.inMetaReady = false ∧ s.metas = [] ∧ s.beats = []

def work (s : PgSys) : Nat :=
  2 * s.metas.length + s.beats.length + if s.pg.state = .idle ∧ s.pg.inMetaReady = false then 1 else 0

theorem Done.step (h : s.Done) : (s.step T i).Done ∧ (s.step T i).pg.intMetaValid = false := by
  obtain ⟨hst, hrd, hm, hb⟩ := h
  have hk : s.pg.takesMeta (s.pgIn i) = false := by simp [PortGroup.takesMeta, pgIn, hm]
  have ht : s.pg.takesBeat (s.pgIn i) = false := by simp [PortGroup.takesBeat, PortGroup.ruleDepackerReady, hst]
  refine ⟨⟨?_, ?_, ?_, ?_⟩, ?_⟩
  · simp [PgSys.step, PortGroup.step, PortGroup.nextState, hk, PortGroup.takesLast, ht, hst]
  · simp [PgSys.step, PortGroup.step, hst]
  · simp [PgSys.step, hm]
  · simp [PgSys.step, hb]
  · simp [PgSys.step, PortGroup.step, hrd]

theorem Done.run (h : s.Done) (j : PgTick) (js : List PgTick) :
    (run (PgSys.step T) s (j :: js)).Done ∧ (Hdl.run (PgSys.step T) s (j :: js)).pg.intMetaValid = false := by
  rw [run_cons]
  induction js generalizing s j with
  | nil => exact h.step
  | cons k js ih => exact ih h.step.1 k

theorem At.work_step {fin rest : List PgJob} {E : List PgBeat} {ph : PgPhase} (h : At T fin rest E s ph) :
    (s.step T served).work < s.work ∨ s.Done := by
  cases ph with
  | wait =>
    cases rest with
    | nil =>
      obtain ⟨hst, hrd, hm, hb, _⟩ := h
      exact .inr ⟨hst, hrd, hm, hb⟩
    | cons g rest =>
      left
      obtain ⟨hst, hrd, hm, hb, _⟩ := h
      have hk : s.pg.takesMeta (s.pgIn served) = true := by
        simp [PortGroup.takesMeta, pgIn, served, hst, hrd, hm]
      have ht : s.pg.takesBeat (s.pgIn served) = false := by
        simp [PortGroup.takesBeat, PortGroup.ruleDepackerReady, hst]
      have hst' : (s.step T served).pg.state = .rule := by
        simp [PgSys.step, PortGroup.step, PortGroup.nextState, hk]
      have hm' : (s.step T served).metas = s.metas := by simp [PgSys.step, pops, hrd]
      have hb' : (s.step T served).beats = s.beats := by simp [PgSys.step, ht]
      simp [work, hst', hm', hb', hst, hrd]
  | pop g =>
    left
    have hw := h.pop (i := served)
    obtain ⟨hst, hrd, hs, hm, hb, _⟩ := h
    obtain ⟨hst', hrd', hm', hb', _⟩ := hw
    simp only [work, hst, hrd, hst', hrd', hm, hm', hb, hb', List.length_cons]
    simp
    omega
  | rules g done todo =>
    left
    have hm0 := h
    obtain ⟨ph, hj, hat⟩ := h.rules (i := served)
    obtain ⟨hst, hrd, _, hs, _, hm, _, hne, hb, _⟩ := hm0
    obtain ⟨b, todo, rfl⟩ := List.exists_cons_of_ne_nil hne
    have ht : s.pg.takesBeat (s.pgIn served) = true := by
      simp [PortGroup.takesBeat, PortGroup.ruleDepackerReady, hst, pgIn, served, hb]
    have hb' : (s.step T served).beats = todo ++ rest.flatMap PgJob.beats := by simp [PgSys.step, ht, hb]
    have hm' : (s.step T served).metas = s.metas := by simp [PgSys.step, pops, hrd]
    have hn : ¬ ((s.step T served).pg.state = .idle ∧ (s.step T served).pg.inMetaReady = false) := by
      intro hn
      cases ph with
      | wait => cases hj
      | pop g =>
        obtain ⟨_, hrd', _⟩ := hat
        rw [hn.2] at hrd'
        cases hrd'
      | rules g _ _ =>
        obtain ⟨hst', _⟩ := hat
        rw [hn.1] at hst'
        cases hst'
    simp only [work, hm', hb', hb, if_neg hn, hst]
    simp

theorem Inv.given_of_done (h : Inv T gs hist s) (hd : s.Done) : given T hist s = gs.flatMap (PgJob.filtered T) := by
  obtain ⟨fin, ph, rest, rfl, hat⟩ := h.ctl
  obtain ⟨hst, hrd, hm, _⟩ := hd
  cases ph with
  | wait =>
    obtain ⟨_, _, hm', _, hE⟩ := hat
    obtain rfl : rest = [] := by simpa [hm] using hm'
    simpa [PgPhase.jobs] using hE
  | pop g =>
    obtain ⟨_, hrd', _⟩ := hat
    rw [hrd] at hrd'
    cases hrd'
  | rules g done todo =>
    obtain ⟨hst', _⟩ := hat
    rw [hst] at hst'
    cases hst'

/-- The groups `outs` are written and the metadata of the packets are passed on in order, and served for long
enough, all of them come. -/
structure Filters (T : PgTables) (gs : List PgJob) (outs : List (List PgBeat)) (s : PgSys) : Prop where
  out : s.out <+: outs.flatten
  metas : s.metaOut <+: gs.map PgJob.metaData
  delivered : ∀ n js, s.work ≤ n → js.length = 18 →
    (run (PgSys.step T) s (List.replicate n served ++ js)).out = outs.flatten ∧
      (run (PgSys.step T) s (List.replicate n served ++ js)).metaOut = gs.map PgJob.metaData

theorem Inv.delivered (h : Inv T gs hist s) {n : Nat} (hn : s.work ≤ n) {js : List PgTick} (hj : js.length = 18) :
    (run (PgSys.step T) s (List.replicate n served ++ js)).out = gs.flatMap (PgJob.filtered T) ∧
      (run (PgSys.step T) s (List.replicate n served ++ js)).metaOut = gs.map PgJob.metaData := by
  have hd : (run (PgSys.step T) s (List.replicate n served)).Done :=
    run_reaches (PgSys.step T) Done work
      (fun s i (h : ∃ hist, Inv T gs hist s) (_ : True) => h.elim fun _ h => ⟨_, h.step⟩)
      (fun s h => by
        obtain ⟨_, h⟩ := h
        obtain ⟨fin, ph, rest, _, hat⟩ := h.ctl
        exact hat.work_step)
      (fun s _ hd => hd.step.1) n ⟨hist, h⟩ (.inl hn) (allSteps_of_forall _ (fun _ _ => trivial) _ _)
  obtain ⟨l, _, h1⟩ := h.after (List.replicate n served)
  rw [run_append]
  refine ⟨(h1.out_later js hj).trans (h1.given_of_done hd), ?_⟩
  obtain ⟨l', _, h2⟩ := h1.after js
  obtain ⟨j, js, rfl⟩ := List.exists_cons_of_length_eq_add_one hj
  obtain ⟨hd', hv⟩ := hd.run (T := T) j js
  have := h2.metas
  rw [hd'.2.2.1, hv] at this
  simpa using this

end PgSys

/-- For every contents of the tables, every sequence of packets with their rules and every arrival times
the filter writes the matching rules of each packet as one group, and passes its metadata on once. -/
theorem portGroup_filters (T : PgTables) (p : PortGroup) (gs : List PgJob) (is : List PgTick) :
    ∃ outs, List.Forall₂ (PgJob.Filtered T) gs outs ∧ PgSys.Filters T gs outs (run (PgSys.step T) (.start p gs) is) := by
  refine ⟨gs.map (PgJob.filtered T), ?_, ?_⟩
  · rw [List.forall₂_map_right_iff, List.forall₂_same]
    exact fun g _ => g.filtered_filtered T
  · obtain ⟨_, _, h⟩ := (PgSys.Inv.start T gs p).after is
    have hf : (gs.map (PgJob.filtered T)).flatten = gs.flatMap (PgJob.filtered T) := List.flatMap_def.symm
    exact ⟨hf ▸ h.out_prefix, h.metas_prefix, fun n js hn hj => hf ▸ h.delivered hn hj⟩

end Pigasus
