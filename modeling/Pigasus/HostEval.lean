import Pigasus.PduGen
import Pigasus.RuleEval

/-!
# The host's verdict on a PDU

`process_pdu` of `pigasus.cc`: the rule ids that the FPGA has reported for a PDU are
collected, looked up in the groups of the PDU's ports, and the trees of their rules
are evaluated on the payload until one matches. The FPGA knows a rule by the number of
its line in the file of sids (the compressed sid); `populate_sid_compressed_sid_map` and
`update_compressed_sid_id_map` lead back from it to a pattern of the group.
-/

namespace Pigasus.Host

open Hdl

/-! ## The sids -/

/-- A `Pattern` of the Hyperscan engine: the sid of its rule and its `user_tree`, which no negated pattern has. -/
structure Pattern where
  sid : Nat
  userTree : Option (List Content)

/-- The loop of `populate_sid_compressed_sid_map` over the sids of the lines that are left, `c` the next number. -/
def populateFrom (m : Nat → Option Nat) (c : Nat) : List Nat → Nat → Option Nat
  | [] => m
  | sid :: sids => populateFrom (upd m sid (some c)) (c + 1) sids

def populateSidCompressedSidMap (sids : List Nat) : Nat → Option Nat := populateFrom (fun _ => none) 1 sids

/-- The loop of `update_compressed_sid_id_map` over the patterns that are left, `i` the index of the next one. -/
def updateFrom (sidMap : Nat → Option Nat) (m : Nat → Option Nat) (i : Nat) : List Pattern → Nat → Option Nat
  | [] => m
  | p :: ps =>
    match sidMap p.sid with
    | some c => updateFrom sidMap (upd m c (some i)) (i + 1) ps
    -- `out_of_range`: the rule is not in the file
    | none => updateFrom sidMap m (i + 1) ps

structure HyperscanMpse where
  pvector : List Pattern

namespace HyperscanMpse

variable (so : HyperscanMpse) (sidMap : Nat → Option Nat)

def compressedSidIdMap : Nat → Option Nat := updateFrom sidMap (fun _ => none) 0 so.pvector

def getPatternFromCompressedSid (c : Nat) : Option Pattern :=
  match so.compressedSidIdMap sidMap c with
  | none => none
  | some i => so.pvector[i]?

end HyperscanMpse

/-- `mpse[PM_TYPE_PKT]` is a null pointer if no rule of the group has a fast pattern. -/
structure PortGroup where
  mpse : Option HyperscanMpse
  ruleCount : Nat

/-! ## The groups of a pair of ports -/

structure RuleGroups where
  src : Option PortGroup
  dst : Option PortGroup
  gen : Option PortGroup

/-- What the host was started with: the tables of `PORT_RULE_MAP` for TCP, `split_any_any`, and the sids of the lines
of the file. -/
structure Config where
  prmDstPort : Nat → Option PortGroup
  prmSrcPort : Nat → Option PortGroup
  prmGeneric : Option PortGroup
  splitAnyAny : Bool
  sids : List Nat

def anyPort : Int := -1

def maxPorts : Int := 65536

def groupAt (table : Nat → Option PortGroup) (port : Int) : Option PortGroup :=
  if port ≠ anyPort ∧ port < maxPorts then table port.toNat else none

namespace Config

variable (cfg : Config)

/-- The generic group, beside the groups of the ports or only in their place. -/
def genericGroup (src dst : Option PortGroup) : Option PortGroup :=
  match cfg.prmGeneric with
  | none => none
  | some g => if g.ruleCount > 0 ∧ (cfg.splitAnyAny = true ∨ src = none ∧ dst = none) then some g else none

def prmFindRuleGroup (dport sport : Int) : Option RuleGroups :=
  let dst := groupAt cfg.prmDstPort dport
  let src := groupAt cfg.prmSrcPort sport
  let gen := cfg.genericGroup src dst
  if src.isSome || dst.isSome || gen.isSome then some ⟨src, dst, gen⟩ else none

def sidMap : Nat → Option Nat := populateSidCompressedSidMap cfg.sids

/-! ## `process_pdu` -/

def processPduPayload (g : PortGroup) (data : List UInt8) : List (BitVec 16) → Option EvalStatus
  | [] => some .noMatch
  | sid :: sids =>
    match g.mpse with
    | none => none
    | some so =>
      match so.getPatternFromCompressedSid cfg.sidMap sid.toNat with
      | none => processPduPayload g data sids
      | some p =>
        match p.userTree with
        | none => none
        | some root =>
          if evalTree root data .start ≠ .noMatch then some (evalTree root data .start) else processPduPayload g data sids

def processGroup (g : Option PortGroup) (data : List UInt8) (sids : List (BitVec 16)) : Option EvalStatus :=
  match g with
  | none => some .noMatch
  | some g => cfg.processPduPayload g data sids

def orNext (this next : Option EvalStatus) : Option EvalStatus :=
  match this with
  | some .noMatch => next
  | r => r

def processGroups (gs : Option RuleGroups) (data : List UInt8) (sids : List (BitVec 16)) : Option EvalStatus :=
  match gs with
  | none => some .noMatch
  | some gs =>
    orNext (cfg.processGroup gs.dst data sids) (orNext (cfg.processGroup gs.src data sids) (cfg.processGroup gs.gen data sids))

def processPdu (data : List UInt8) (sPort dPort : BitVec 16) (sids : List (BitVec 16)) : Option EvalStatus :=
  cfg.processGroups (cfg.prmFindRuleGroup dPort.toNat sPort.toNat) data sids

end Config

/-- `rule_sids_vector` takes an id that is not zero and not there yet. -/
def pushNew (sids : List (BitVec 16)) (id : BitVec 16) : List (BitVec 16) :=
  if id ≠ 0 then if id ∈ sids then sids else sids ++ [id] else sids

/-- The loop of `process_pdu` over the reported ids from `i` on, a `uint16_t`; `fuel` bounds the rounds. -/
def collect (raw : Nat → BitVec 16) (bound : Nat) : (fuel i : Nat) → List (BitVec 16) → Option (List (BitVec 16))
  | 0, _, _ => none
  | fuel + 1, i, sids => if i < bound then collect raw bound fuel ((i + 1) % 2 ^ 16) (pushNew sids (raw i)) else some sids

/-- `num_rule_id * NB_RULES_IN_LINE`, an `uint32_t`. -/
def rawBound (b : Block) : Nat := b.numRuleId.toNat * 32 % 2 ^ 32

def payload (b : Block) : List UInt8 := (List.range b.pduSize.toNat).map fun k => UInt8.ofBitVec (b.pduPayload k)

structure HostEval where
  ruleSids : List (BitVec 16)
  matchCntr : BitVec 64
  noMatchCntr : BitVec 64

namespace HostEval

def reset : HostEval := ⟨[], 0, 0⟩

def count (s : HostEval) : EvalStatus → HostEval
  | .noMatch => { s with noMatchCntr := s.noMatchCntr + 1 }
  | .isMatch => { s with matchCntr := s.matchCntr + 1 }

def processPdu (cfg : Config) (fuel : Nat) (s : HostEval) (b : Block) : Option HostEval :=
  match collect b.ruleId (rawBound b) fuel 0 s.ruleSids with
  | none => none
  | some sids => (cfg.processPdu (payload b) b.srcPort b.dstPort sids).map (count { s with ruleSids := [] })

def processPdus (cfg : Config) (fuel : Nat) (s : HostEval) : List Block → Option HostEval
  | [] => some s
  | b :: bs =>
    match processPdu cfg fuel s b with
    | none => none
    | some s => processPdus cfg fuel s bs

end HostEval

/-! ## What a verdict should be -/

namespace Config

variable (cfg : Config)

def Consulted (sPort dPort : BitVec 16) (g : PortGroup) : Prop :=
  cfg.prmDstPort dPort.toNat = some g ∨ cfg.prmSrcPort sPort.toNat = some g ∨
    cfg.prmGeneric = some g ∧ 0 < g.ruleCount ∧
      (cfg.splitAnyAny = true ∨ cfg.prmSrcPort sPort.toNat = none ∧ cfg.prmDstPort dPort.toNat = none)

/-- A rule of a consulted group matches the payload, and the FPGA has reported the number of its line. -/
def Matches (b : Block) : Prop :=
  ∃ i < b.numRuleId.toNat * 32, ∃ k, (b.ruleId i).toNat = k + 1 ∧
    ∃ g, cfg.Consulted b.srcPort b.dstPort g ∧ ∃ so, g.mpse = some so ∧
      ∃ p ∈ so.pvector, cfg.sids[k]? = some p.sid ∧ ∃ root, p.userTree = some root ∧ evalTree root (payload b) .start = .isMatch

/-- There is an engine, and a tree for every pattern. -/
def Loaded (g : PortGroup) : Prop := ∃ so, g.mpse = some so ∧ ∀ p ∈ so.pvector, p.userTree ≠ none

/-- Every rule is on one line of the file, and has one tree in a group, whichever of its patterns is found. -/
structure Ready : Prop where
  sids : cfg.sids.Nodup
  loaded : ∀ sPort dPort g, cfg.Consulted sPort dPort g → Loaded g
  trees : ∀ sPort dPort g, cfg.Consulted sPort dPort g → ∀ so, g.mpse = some so → ∀ p ∈ so.pvector, ∀ q ∈ so.pvector,
    p.sid = q.sid → p.userTree = q.userTree

end Config

/-! ## The maps -/

theorem populateFrom_eq {sids : List Nat} (h : sids.Nodup) (m : Nat → Option Nat) (c sid : Nat) :
    populateFrom m c sids sid = if sid ∈ sids then some (c + sids.idxOf sid) else m sid := by
  induction sids generalizing m c with
  | nil => rfl
  | cons x xs ih =>
    obtain ⟨hx, hxs⟩ := List.nodup_cons.1 h
    rw [populateFrom, ih hxs]
    by_cases hs : sid = x
    · subst hs
      rw [if_neg hx, if_pos List.mem_cons_self, List.idxOf_cons_self]
      exact if_pos rfl
    · have hupd : upd m x (some c) sid = m sid := if_neg hs
      have hidx : (x :: xs).idxOf sid = xs.idxOf sid + 1 := List.idxOf_cons_ne xs (Ne.symm hs)
      rw [hupd, hidx]
      by_cases hm : sid ∈ xs
      · rw [if_pos hm, if_pos (List.mem_cons_of_mem x hm)]
        congr 1
        omega
      · rw [if_neg hm, if_neg (by simp [hs, hm])]

theorem Config.sidMap_iff {cfg : Config} (h : cfg.sids.Nodup) {sid c : Nat} :
    cfg.sidMap sid = some c ↔ ∃ k, c = k + 1 ∧ cfg.sids[k]? = some sid := by
  unfold sidMap populateSidCompressedSidMap
  rw [populateFrom_eq h]
  constructor
  · intro hc
    split at hc
    · rename_i hm
      have hlt := List.idxOf_lt_length_of_mem hm
      refine ⟨cfg.sids.idxOf sid, ?_, ?_⟩
      · rw [← Option.some.inj hc, Nat.add_comm]
      · rw [List.getElem?_eq_getElem hlt, List.getElem_idxOf hlt]
    · cases hc
  · rintro ⟨k, rfl, hk⟩
    obtain ⟨hlt, rfl⟩ := List.getElem?_eq_some_iff.1 hk
    rw [if_pos (List.getElem_mem hlt), h.idxOf_getElem, Nat.add_comm]

theorem updateFrom_cases (sidMap m : Nat → Option Nat) (i : Nat) (ps : List Pattern) (c : Nat) :
    (∃ k p, ps[k]? = some p ∧ sidMap p.sid = some c ∧ updateFrom sidMap m i ps c = some (i + k)) ∨
      (∀ p ∈ ps, sidMap p.sid ≠ some c) ∧ updateFrom sidMap m i ps c = m c := by
  induction ps generalizing m i with
  | nil => exact .inr ⟨by simp, rfl⟩
  | cons p ps ih =>
    -- the pattern `p` alone decides the map that the rest begins with
    obtain ⟨m', hm', hp⟩ : ∃ m' : Nat → Option Nat, updateFrom sidMap m i (p :: ps) = updateFrom sidMap m' (i + 1) ps ∧
        m' c = if sidMap p.sid = some c then some i else m c := by
      cases hs : sidMap p.sid with
      | none => exact ⟨m, by rw [updateFrom, hs], by simp⟩
      | some d =>
        refine ⟨upd m d (some i), by rw [updateFrom, hs], ?_⟩
        by_cases hd : c = d
        · subst hd
          simp [upd]
        · have hd' : ¬ some d = some c := fun h => hd (Option.some.inj h).symm
          rw [if_neg hd']
          exact if_neg hd
    rw [hm']
    rcases ih m' (i + 1) with ⟨k, q, hk, hq, hr⟩ | ⟨hnone, hr⟩
    · exact .inl ⟨k + 1, q, hk, hq, by rw [hr]; congr 1; omega⟩
    · by_cases hs : sidMap p.sid = some c
      · exact .inl ⟨0, p, rfl, hs, by rw [hr, hp, if_pos hs]; rfl⟩
      · refine .inr ⟨?_, by rw [hr, hp, if_neg hs]⟩
        intro q hq
        rcases List.mem_cons.1 hq with rfl | hq
        · exact hs
        · exact hnone q hq

theorem HyperscanMpse.getPattern_cases (so : HyperscanMpse) (sidMap : Nat → Option Nat) (c : Nat) :
    (∃ p ∈ so.pvector, sidMap p.sid = some c ∧ so.getPatternFromCompressedSid sidMap c = some p) ∨
      (∀ p ∈ so.pvector, sidMap p.sid ≠ some c) ∧ so.getPatternFromCompressedSid sidMap c = none := by
  unfold getPatternFromCompressedSid compressedSidIdMap
  rcases updateFrom_cases sidMap (fun _ => none) 0 so.pvector c with ⟨k, p, hk, hp, hr⟩ | ⟨hnone, hr⟩
  · refine .inl ⟨p, List.mem_of_getElem? hk, hp, ?_⟩
    rw [hr, Nat.zero_add]
    exact hk
  · exact .inr ⟨hnone, by rw [hr]⟩

theorem HyperscanMpse.mem_of_getPattern {so : HyperscanMpse} {m : Nat → Option Nat} {c : Nat} {p : Pattern}
    (h : so.getPatternFromCompressedSid m c = some p) : p ∈ so.pvector ∧ m p.sid = some c := by
  rcases so.getPattern_cases m c with ⟨q, hq, hs, hget⟩ | ⟨-, hget⟩
  · obtain rfl : q = p := Option.some.inj (hget.symm.trans h)
    exact ⟨hq, hs⟩
  · rw [hget] at h
    cases h

/-! ## The verdict -/

theorem EvalStatus.ne_noMatch {e : EvalStatus} : e ≠ .noMatch ↔ e = .isMatch := by cases e <;> simp

namespace Config

variable {cfg : Config} {g : PortGroup} {data : List UInt8} {sids : List (BitVec 16)}

/-- The evaluation gives a verdict, and it is a match exactly if `P` holds. -/
def Decides (r : Option EvalStatus) (P : Prop) : Prop := ∃ e, r = some e ∧ (e = .isMatch ↔ P)

theorem decides_noMatch {P : Prop} (h : ¬ P) : Decides (some .noMatch) P :=
  ⟨.noMatch, rfl, (fun he => by cases he), fun hp => absurd hp h⟩

theorem Decides.or {a b : Option EvalStatus} {P Q : Prop} (ha : Decides a P) (hb : Decides b Q) : Decides (orNext a b) (P ∨ Q) := by
  obtain ⟨e, rfl, he⟩ := ha
  cases e with
  | noMatch =>
    have hp : ¬ P := fun hp => by cases he.2 hp
    obtain ⟨f, rfl, hf⟩ := hb
    exact ⟨f, rfl, hf.trans ⟨.inr, fun h => h.resolve_left hp⟩⟩
  | isMatch => exact ⟨.isMatch, rfl, fun _ => .inl (he.1 rfl), fun _ => rfl⟩

def Hits (cfg : Config) (g : PortGroup) (data : List UInt8) (sids : List (BitVec 16)) : Prop :=
  ∃ c ∈ sids, ∃ so, g.mpse = some so ∧ ∃ p, so.getPatternFromCompressedSid cfg.sidMap c.toNat = some p ∧
    ∃ root, p.userTree = some root ∧ evalTree root data .start = .isMatch

variable (cfg data sids) in
theorem payload_decides (hg : Loaded g) : Decides (cfg.processPduPayload g data sids) (cfg.Hits g data sids) := by
  obtain ⟨so, hso, htree⟩ := hg
  induction sids with
  | nil => exact decides_noMatch fun ⟨c, hc, _⟩ => by cases hc
  | cons c cs ih =>
    have hrest : cfg.Hits g data cs → cfg.Hits g data (c :: cs) := fun ⟨d, hd, h⟩ => ⟨d, List.mem_cons_of_mem c hd, h⟩
    obtain ⟨e, he, hiff⟩ := ih
    rw [processPduPayload]
    simp only [hso]
    cases hp : so.getPatternFromCompressedSid cfg.sidMap c.toNat with
    | none =>
      refine ⟨e, he, hiff.trans ⟨hrest, ?_⟩⟩
      rintro ⟨d, hd, so', hso', p, hget, h⟩
      obtain rfl := Option.some.inj (hso.symm.trans hso')
      rcases List.mem_cons.1 hd with rfl | hd
      · rw [hp] at hget
        cases hget
      · exact ⟨d, hd, so, hso, p, hget, h⟩
    | some p =>
      cases hr : p.userTree with
      | none => exact absurd hr (htree p (HyperscanMpse.mem_of_getPattern hp).1)
      | some root =>
        by_cases hm : evalTree root data .start = .isMatch
        · simp only [hr, hm]
          exact ⟨.isMatch, rfl, fun _ => ⟨c, List.mem_cons_self, so, hso, p, hp, root, hr, hm⟩, fun _ => rfl⟩
        · have hno : ¬ evalTree root data .start ≠ .noMatch := fun h => hm (EvalStatus.ne_noMatch.1 h)
          simp only [hr, if_neg hno]
          refine ⟨e, he, hiff.trans ⟨hrest, ?_⟩⟩
          rintro ⟨d, hd, so', hso', q, hget, root', hr', hm'⟩
          obtain rfl := Option.some.inj (hso.symm.trans hso')
          rcases List.mem_cons.1 hd with rfl | hd
          · obtain rfl := Option.some.inj (hp.symm.trans hget)
            obtain rfl := Option.some.inj (hr.symm.trans hr')
            exact absurd hm' hm
          · exact ⟨d, hd, so, hso, q, hget, root', hr', hm'⟩

theorem hits_iff_rule (hsid : cfg.sids.Nodup)
    (htree : ∀ so, g.mpse = some so → ∀ p ∈ so.pvector, ∀ q ∈ so.pvector, p.sid = q.sid → p.userTree = q.userTree) :
    cfg.Hits g data sids ↔ ∃ c ∈ sids, ∃ so, g.mpse = some so ∧ ∃ p ∈ so.pvector, cfg.sidMap p.sid = some c.toNat ∧
      ∃ root, p.userTree = some root ∧ evalTree root data .start = .isMatch := by
  constructor
  · rintro ⟨c, hc, so, hso, p, hp, h⟩
    obtain ⟨hm, hs⟩ := HyperscanMpse.mem_of_getPattern hp
    exact ⟨c, hc, so, hso, p, hm, hs, h⟩
  · rintro ⟨c, hc, so, hso, p, hp, hs, root, hr, he⟩
    rcases so.getPattern_cases cfg.sidMap c.toNat with ⟨q, hq, hs', hget⟩ | ⟨hnone, -⟩
    · refine ⟨c, hc, so, hso, q, hget, root, ?_, he⟩
      -- both patterns have the sid of line `c`
      have hsame : q.sid = p.sid := by
        obtain ⟨k, hk, hline⟩ := (sidMap_iff hsid).1 hs
        obtain ⟨k', hk', hline'⟩ := (sidMap_iff hsid).1 hs'
        obtain rfl : k = k' := by omega
        exact Option.some.inj (hline'.symm.trans hline)
      rw [htree so hso q hq p hp hsame]
      exact hr
    · exact absurd hs (hnone p hp)

variable (cfg data sids) in
theorem group_decides {og : Option PortGroup} (hg : ∀ g, og = some g → Loaded g) :
    Decides (cfg.processGroup og data sids) (∃ g, og = some g ∧ cfg.Hits g data sids) := by
  cases og with
  | none => exact decides_noMatch fun ⟨g, h, _⟩ => by cases h
  | some g =>
    obtain ⟨e, he, hiff⟩ := payload_decides cfg data sids (hg g rfl)
    exact ⟨e, he, hiff.trans ⟨fun h => ⟨g, rfl, h⟩, fun ⟨g', h, hh⟩ => Option.some.inj h ▸ hh⟩⟩

theorem groupAt_port (table : Nat → Option PortGroup) (p : BitVec 16) : groupAt table p.toNat = table p.toNat := by
  have hlt := p.isLt
  have h : (p.toNat : Int) ≠ anyPort ∧ (p.toNat : Int) < maxPorts := by
    unfold anyPort maxPorts
    omega
  unfold groupAt
  rw [if_pos h, Int.toNat_natCast]

theorem prmFindRuleGroup_ports (sPort dPort : BitVec 16) : cfg.prmFindRuleGroup dPort.toNat sPort.toNat =
    (let src := cfg.prmSrcPort sPort.toNat
    let dst := cfg.prmDstPort dPort.toNat
    let gen := cfg.genericGroup src dst
    if src.isSome || dst.isSome || gen.isSome then some ⟨src, dst, gen⟩ else none) := by
  unfold prmFindRuleGroup
  rw [groupAt_port, groupAt_port]

theorem genericGroup_eq_some {src dst : Option PortGroup} : cfg.genericGroup src dst = some g ↔
    cfg.prmGeneric = some g ∧ 0 < g.ruleCount ∧ (cfg.splitAnyAny = true ∨ src = none ∧ dst = none) := by
  unfold genericGroup
  cases hg : cfg.prmGeneric with
  | none => simp
  | some g' =>
    constructor
    · intro h
      dsimp only at h
      split at h
      · rename_i hc
        obtain rfl := Option.some.inj h
        exact ⟨rfl, hc⟩
      · cases h
    · rintro ⟨h, hc⟩
      obtain rfl := Option.some.inj h
      exact if_pos hc

theorem groups_decide {src dst gen : Option PortGroup} (hg : ∀ g, dst = some g ∨ src = some g ∨ gen = some g → Loaded g) :
    Decides (cfg.processGroups (if src.isSome || dst.isSome || gen.isSome then some ⟨src, dst, gen⟩ else none) data sids)
      (∃ g, (dst = some g ∨ src = some g ∨ gen = some g) ∧ cfg.Hits g data sids) := by
  split
  · obtain ⟨e, he, hiff⟩ := (group_decides cfg data sids fun g h => hg g (.inl h)).or
      ((group_decides cfg data sids fun g h => hg g (.inr (.inl h))).or (group_decides cfg data sids fun g h => hg g (.inr (.inr h))))
    refine ⟨e, he, hiff.trans ?_⟩
    simp only [or_and_right, exists_or]
  · rename_i hnone
    refine decides_noMatch ?_
    rintro ⟨g, rfl | rfl | rfl, -⟩ <;> simp at hnone

variable (data sids) in
theorem processPdu_decides {sPort dPort : BitVec 16} (hg : ∀ g, cfg.Consulted sPort dPort g → Loaded g) :
    Decides (cfg.processPdu data sPort dPort sids) (∃ g, cfg.Consulted sPort dPort g ∧ cfg.Hits g data sids) := by
  unfold processPdu Consulted at *
  rw [prmFindRuleGroup_ports]
  simp only [← genericGroup_eq_some] at hg ⊢
  exact groups_decide hg

end Config

/-! ## The reported ids -/

theorem mem_pushNew {sids : List (BitVec 16)} {id c : BitVec 16} : c ∈ pushNew sids id ↔ c ∈ sids ∨ c = id ∧ c ≠ 0 := by
  unfold pushNew
  by_cases h0 : id = 0
  · rw [if_neg (not_not.2 h0), h0]
    simp
  · rw [if_pos h0]
    by_cases hm : id ∈ sids
    · rw [if_pos hm]
      exact ⟨.inl, fun h => h.elim (fun h => h) fun h => h.1 ▸ hm⟩
    · rw [if_neg hm, List.mem_append, List.mem_singleton]
      exact or_congr_right ⟨fun h => ⟨h, h ▸ h0⟩, And.left⟩

theorem collect_spec (raw : Nat → BitVec 16) (bound : Nat) (hb : bound < 2 ^ 16) {fuel i : Nat} (hi : i ≤ bound)
    (hf : bound < i + fuel) (sids : List (BitVec 16)) : ∃ out, collect raw bound fuel i sids = some out ∧
      ∀ c, c ∈ out ↔ c ∈ sids ∨ ∃ k, i ≤ k ∧ k < bound ∧ c = raw k ∧ c ≠ 0 := by
  induction fuel generalizing i sids with
  | zero => omega
  | succ fuel ih =>
    rw [collect]
    by_cases hlt : i < bound
    · rw [if_pos hlt, Nat.mod_eq_of_lt (by omega)]
      obtain ⟨out, hout, hmem⟩ := ih hlt (by omega) (pushNew sids (raw i))
      refine ⟨out, hout, fun c => ?_⟩
      rw [hmem, mem_pushNew]
      constructor
      · rintro ((h | ⟨h, h0⟩) | ⟨k, hk, hkb, h⟩)
        · exact .inl h
        · exact .inr ⟨i, le_rfl, hlt, h, h0⟩
        · exact .inr ⟨k, by omega, hkb, h⟩
      · rintro (h | ⟨k, hk, hkb, h⟩)
        · exact .inl (.inl h)
        · rcases Nat.eq_or_lt_of_le hk with rfl | hk
          · exact .inl (.inr h)
          · exact .inr ⟨k, hk, hkb, h⟩
    · rw [if_neg hlt]
      refine ⟨sids, rfl, fun c => ⟨.inl, ?_⟩⟩
      rintro (h | ⟨k, hk, hkb, -⟩)
      · exact h
      · omega

theorem collect_wraps (raw : Nat → BitVec 16) {bound : Nat} (hb : 2 ^ 16 ≤ bound) (fuel : Nat) {i : Nat} (hi : i < 2 ^ 16)
    (sids : List (BitVec 16)) : collect raw bound fuel i sids = none := by
  induction fuel generalizing i sids with
  | zero => rfl
  | succ fuel ih =>
    rw [collect, if_pos (by omega)]
    exact ih (Nat.mod_lt _ (Nat.two_pow_pos 16)) _

namespace HostEval

variable {cfg : Config}

/-- Where all consulted groups have an engine and trees, `process_pdu` returns exactly when the number of reported ids,
as an `uint32_t`, is below the range of its `uint16_t` counter. -/
theorem processPdu_returns_iff (cfg : Config) (s : HostEval) (b : Block)
    (hg : ∀ g, cfg.Consulted b.srcPort b.dstPort g → Config.Loaded g) :
    (∃ fuel s', processPdu cfg fuel s b = some s') ↔ b.numRuleId.toNat * 32 % 2 ^ 32 < 2 ^ 16 := by
  unfold processPdu
  constructor
  · rintro ⟨fuel, s', h⟩
    by_contra hb
    have hnone : collect b.ruleId (rawBound b) fuel 0 s.ruleSids = none :=
      collect_wraps b.ruleId (Nat.le_of_not_lt hb) fuel (Nat.two_pow_pos 16) s.ruleSids
    rw [hnone] at h
    cases h
  · intro hb
    have hf : rawBound b < 0 + 2 ^ 16 := by
      rw [Nat.zero_add]
      exact hb
    obtain ⟨out, hout, -⟩ := collect_spec b.ruleId (rawBound b) hb (Nat.zero_le _) hf s.ruleSids
    obtain ⟨e, he, -⟩ := Config.processPdu_decides (payload b) out hg
    exact ⟨2 ^ 16, _, by rw [hout]; exact congrArg (Option.map _) he⟩

theorem matches_iff (hd : cfg.Ready) {b : Block} {out : List (BitVec 16)}
    (hout : ∀ c, c ∈ out ↔ ∃ i < b.numRuleId.toNat * 32, c = b.ruleId i ∧ c ≠ 0) :
    (∃ g, cfg.Consulted b.srcPort b.dstPort g ∧ cfg.Hits g (payload b) out) ↔ cfg.Matches b := by
  constructor
  · rintro ⟨g, hg, hm⟩
    obtain ⟨c, hc, so, hso, p, hp, hs, h⟩ := (Config.hits_iff_rule hd.sids (hd.trees _ _ g hg)).1 hm
    obtain ⟨i, hi, rfl, -⟩ := (hout c).1 hc
    obtain ⟨k, hk, hline⟩ := (Config.sidMap_iff hd.sids).1 hs
    exact ⟨i, hi, k, hk, g, hg, so, hso, p, hp, hline, h⟩
  · rintro ⟨i, hi, k, hk, g, hg, so, hso, p, hp, hs, h⟩
    refine ⟨g, hg, (Config.hits_iff_rule hd.sids (hd.trees _ _ g hg)).2 ⟨b.ruleId i, ?_, so, hso, p, hp, ?_, h⟩⟩
    · refine (hout _).2 ⟨i, hi, rfl, fun h0 => ?_⟩
      rw [h0] at hk
      exact absurd hk (Nat.succ_ne_zero k).symm
    · exact (Config.sidMap_iff hd.sids).2 ⟨k, hk, hs⟩

theorem processPdu_eq (hd : cfg.Ready) {fuel : Nat} (hf : 2 ^ 16 ≤ fuel) {s : HostEval} (hs : s.ruleSids = []) {b : Block}
    (hb : b.numRuleId.toNat < 2048) : ∃ e, (e = .isMatch ↔ cfg.Matches b) ∧ processPdu cfg fuel s b = some (s.count e) := by
  have hbound : rawBound b = b.numRuleId.toNat * 32 := Nat.mod_eq_of_lt (by omega)
  have hfuel : rawBound b < 0 + fuel := by omega
  obtain ⟨out, hout, hmem⟩ := collect_spec b.ruleId (rawBound b) (by omega) (Nat.zero_le _) hfuel s.ruleSids
  obtain ⟨e, he, hiff⟩ := Config.processPdu_decides (payload b) out (hd.loaded b.srcPort b.dstPort)
  refine ⟨e, hiff.trans (matches_iff hd fun c => ?_), ?_⟩
  · rw [hmem, hs, hbound]
    simp
  · unfold processPdu
    rw [hout, ← hs]
    exact congrArg (Option.map _) he

noncomputable instance (b : Block) : Decidable (cfg.Matches b) := Classical.propDecidable _

theorem processPdus_eq (hd : cfg.Ready) {fuel : Nat} (hf : 2 ^ 16 ≤ fuel) (bs : List Block) (hb : ∀ b ∈ bs, b.numRuleId.toNat < 2048)
    (s : HostEval) (hs : s.ruleSids = []) : processPdus cfg fuel s bs =
      some ⟨[], s.matchCntr + .ofNat 64 (bs.countP (cfg.Matches ·)), s.noMatchCntr + .ofNat 64 (bs.countP (¬ cfg.Matches ·))⟩ := by
  induction bs generalizing s with
  | nil =>
    cases s
    cases hs
    simp [processPdus]
  | cons b bs ih =>
    obtain ⟨e, he, hstep⟩ := processPdu_eq hd hf hs (hb b List.mem_cons_self)
    have hs' : (s.count e).ruleSids = [] := by
      cases e <;> exact hs
    rw [processPdus, hstep]
    dsimp only
    rw [ih (fun b hb' => hb b (List.mem_cons_of_mem _ hb')) _ hs']
    cases e with
    | isMatch =>
      have hm : cfg.Matches b := he.1 rfl
      simp [count, hm, BitVec.ofNat_add, BitVec.add_assoc, BitVec.add_comm]
    | noMatch =>
      have hm : ¬ cfg.Matches b := fun h => by cases he.2 h
      simp [count, hm, BitVec.ofNat_add, BitVec.add_assoc, BitVec.add_comm]

/-- Every PDU is judged by the rules that were reported with it and by no others, and each verdict is counted. -/
theorem verdicts_counted (cfg : Config) (hd : cfg.Ready) (bs : List Block) (hb : ∀ b ∈ bs, b.numRuleId.toNat < 2048)
    (fuel : Nat) (hf : 2 ^ 16 ≤ fuel) : processPdus cfg fuel reset bs =
      some ⟨[], .ofNat 64 (bs.countP (cfg.Matches ·)), .ofNat 64 (bs.countP (¬ cfg.Matches ·))⟩ := by
  have h := processPdus_eq hd hf bs hb reset rfl
  rw [h]
  simp [reset]

/-- Rule 1001, on the second line of the file, for the destination port 80. -/
def webRules : PortGroup := ⟨some ⟨[⟨1001, some [⟨[97, 98], 0, 0, false, false, false, List.cons_ne_nil _ _⟩]⟩]⟩, 1⟩

def webConfig : Config where
  prmDstPort := fun p => if p = 80 then some webRules else none
  prmSrcPort := fun _ => none
  prmGeneric := none
  splitAnyAny := false
  sids := [1000, 1001]

/-- A PDU of two bytes with the ids `id`, 0, 0, …. -/
def webPdu (id : BitVec 16) : Block :=
  ⟨0, 80, 4000, 0, 0, 6, 1, 2, 1, fun k => if k = 0 then 97 else 98, fun i => if i = 0 then id else 0⟩

theorem webConfig_consulted {sPort dPort : BitVec 16} {g : PortGroup} (hg : webConfig.Consulted sPort dPort g) : g = webRules := by
  rcases hg with hg | hg | ⟨hg, -⟩
  · have hif : (if dPort.toNat = 80 then some webRules else none) = some g := hg
    split at hif
    · exact (Option.some.inj hif).symm
    · cases hif
  · cases hg
  · cases hg

theorem webRules_loaded : Config.Loaded webRules := by
  refine ⟨_, rfl, fun p hp => ?_⟩
  rw [List.mem_singleton.1 hp]
  exact Option.some_ne_none _

theorem webConfig_ready : webConfig.Ready where
  sids := by decide
  loaded sPort dPort g hg := webConfig_consulted hg ▸ webRules_loaded
  trees sPort dPort g hg so hso p hp q hq _ := by
    obtain rfl := webConfig_consulted hg
    obtain rfl := Option.some.inj hso
    rw [List.mem_singleton.1 hp, List.mem_singleton.1 hq]

/-- With 2048 lines of ids there is no return. -/
theorem processPdu_returns_iff_web : Config.Loaded webRules ∧
    ((∃ fuel s', processPdu webConfig fuel reset { webPdu 2 with numRuleId := 2048 } = some s') ↔ 2048 * 32 % 2 ^ 32 < 2 ^ 16) :=
  ⟨webRules_loaded, processPdu_returns_iff webConfig reset { webPdu 2 with numRuleId := 2048 }
    fun _ hg => webConfig_consulted hg ▸ webRules_loaded⟩

/-- The second PDU has the same payload, but rule 1001 is not reported with it. -/
theorem verdicts_counted_webPdus : webConfig.Ready ∧
    (processPdus webConfig (2 ^ 16) reset [webPdu 2, webPdu 1]).map (fun s => (s.matchCntr, s.noMatchCntr)) = some (1, 1) ∧
    processPdus webConfig (2 ^ 16) reset [webPdu 2, webPdu 1] =
      some ⟨[], .ofNat 64 ([webPdu 2, webPdu 1].countP (webConfig.Matches ·)),
        .ofNat 64 ([webPdu 2, webPdu 1].countP (¬ webConfig.Matches ·))⟩ :=
  ⟨webConfig_ready, by decide +kernel,
    verdicts_counted webConfig webConfig_ready [webPdu 2, webPdu 1]
      (by intro b hb; rcases List.mem_pair.1 hb with rfl | rfl <;> exact Nat.lt_of_lt_of_le Nat.one_lt_two (by decide)) (2 ^ 16) le_rfl⟩

end HostEval

end Pigasus.Host
