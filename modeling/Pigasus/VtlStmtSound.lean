import Pigasus.VerilogStmt
import Pigasus.VtlSound
import Pigasus.VtlStmt

/-!
# What the compiled statements do

The text of a compiled process is read back as a Verilog process, and its body has the
effect of the Python statements on every machine that gives both languages a meaning. A
`for` stands for its body once for each number, with the number put into the names. The
compiler keeps one loop variable only, so loops are not nested here.
-/

namespace Pigasus

open Verilog

/-- A machine for both languages: the values in a state, and what an assignment does to it. -/
structure VtlMachine (S V : Type) where
  mean : S → VtlMeaning V
  assign : Bool → S → String → V → S
  truth : V → Bool

def VtlMachine.verilog {S V : Type} (M : VtlMachine S V) : Machine S V := ⟨fun s => (M.mean s).tree, M.assign, M.truth⟩

namespace VtlScope

def inLoop (sc : VtlScope) (target : String) (i : Int) : VtlScope :=
  { sc with insideFor := true, forVar := target, forValue := toString i }

section
variable (ints : String → Option Int)

/-- The effect of the statements where they stand; `later` tells an assignment of a clocked process. -/
def pyExec {S V : Type} (M : VtlMachine S V) (later : Bool) : PyBlock → VtlScope → S → S
  | .nil, _, s => s
  | .assign target value rest, sc, s =>
    pyExec M later rest sc (M.assign later s (sc.nameText target) (sc.pyEval (M.mean s) value))
  | .ite test body orelse rest, sc, s =>
    pyExec M later rest sc
      (if M.truth (sc.pyEval (M.mean s) test) then pyExec M later body sc s else pyExec M later orelse sc s)
  | .for_ target iter body rest, sc, s =>
    pyExec M later rest sc
      (((iterations ints iter).getD []).foldl (fun s i => pyExec M later body (sc.inLoop target i) s) s)

/-- Supported expressions, names that are words, and no loop inside a loop. -/
def SupportedBlock : PyBlock → VtlScope → Prop
  | .nil, _ => True
  | .assign target value rest, sc =>
    IsWord (sc.nameText target) ∧ sc.nameText target ∉ keywords ∧ sc.Supported value ∧ SupportedBlock rest sc
  | .ite test body orelse rest, sc =>
    sc.Supported test ∧ SupportedBlock body sc ∧ SupportedBlock orelse sc ∧ SupportedBlock rest sc
  | .for_ target iter body rest, sc =>
    sc.insideFor = false ∧ (∃ is, iterations ints iter = some is ∧ ∀ i ∈ is, SupportedBlock body (sc.inLoop target i)) ∧
      SupportedBlock rest sc

/-! ## The scope of the compiler -/

/-- The compiler's fields `cs` where the statements stand in the scope `sc`. Outside of a
loop the fields of the last loop are left. -/
structure Agree (sc cs : VtlScope) : Prop where
  callerGlobal : cs.callerGlobal = sc.callerGlobal
  insideFor : cs.insideFor = sc.insideFor
  inside : sc.insideFor = true → cs = sc

theorem Agree.refl (sc : VtlScope) : Agree sc sc := ⟨rfl, rfl, fun _ => rfl⟩

theorem Agree.nameText {sc cs : VtlScope} (h : Agree sc cs) : cs.nameText = sc.nameText := by
  by_cases hin : sc.insideFor = true
  · rw [h.inside hin]
  · have hcs : ¬ cs.insideFor = true := by rwa [h.insideFor]
    funext id
    unfold VtlScope.nameText
    rw [h.callerGlobal, if_neg hin, if_neg hcs]

section
variable {sc cs : VtlScope}

mutual

theorem compileExpr_congr (h : cs.nameText = sc.nameText) : ∀ e : PyExpr, cs.compileExpr e = sc.compileExpr e
  | .num n => by simp only [compileExpr]
  | .compare left op comparator _ => by
    simp only [compileExpr]
    rw [compileExpr_congr h left, compileExpr_congr h comparator]
  | .boolOp op first second more => by
    simp only [compileExpr]
    rw [compileExpr_congr h first, compileExpr_congr h second, compileList_congr h more]
  | .binOp left op right => by
    simp only [compileExpr]
    rw [compileExpr_congr h left, compileExpr_congr h right]
  | .unaryOp op operand => by
    simp only [compileExpr]
    rw [compileExpr_congr h operand]
  | .name id => by simp only [compileExpr, h]

theorem compileList_congr (h : cs.nameText = sc.nameText) : ∀ l : PyList, cs.compileList l = sc.compileList l
  | .nil => by simp only [compileList]
  | .cons e more => by
    simp only [compileList]
    rw [compileExpr_congr h e, compileList_congr h more]

end

end

/-! ## The text of the statements -/

def Emits (out : VtlBlock) (t : Verilog.Block) : Prop := t.Words ∧ ∀ k, ∃ ls, out.lines k = some ls ∧ ls.map String.toList = t.lines k

theorem toList_indentStr (k : Nat) : (indentStr k).toList = indent k := String.toList_ofList

theorem joinLines_intercalate (ls : List (List Char)) : ['\n'].intercalate ls = joinLines ls := by
  induction ls with
  | nil => rfl
  | cons l ls ih =>
    cases ls with
    | nil => simp [joinLines, behind]
    | cons l' ls =>
      rw [List.intercalate_cons_cons, ih]
      simp [joinLines, behind]

theorem toList_lines {ls : List String} {ts : List (List Char)} (h : ls.map String.toList = ts) :
    ("\n".intercalate ls).toList = joinLines ts := by
  rw [String.toList_intercalate, h]
  exact joinLines_intercalate ts

theorem Emits.nil : Emits .nil .nil := ⟨trivial, fun _ => ⟨[], rfl, rfl⟩⟩

def processType (later : Bool) : AssignmentType := if later then .ff else .comb

theorem toList_assignText (later : Bool) (a b : String) :
    (assignText a b (processType later)).toList = a.toList ++ (arrow later ++ (b.toList ++ [';'])) := by
  cases later <;> simp [processType, assignText, arrow]

section
variable {out out1 out2 : VtlBlock} {t t1 t2 : Verilog.Block} {n : VtlNode} {e : Expr}

theorem Emits.assign (later : Bool) {lhs : String} (hw : IsWord lhs) (hk : lhs ∉ keywords) (he : Writes n e) (h : Emits out t) :
    Emits (.assign (processType later) (.name lhs) n out) (.assign later lhs e t) := by
  refine ⟨⟨hw, hk, he.2, h.1⟩, fun k => ?_⟩
  obtain ⟨ls, hls, hmap⟩ := h.2 k
  simp only [VtlBlock.lines, VtlNode.compile, he.1, hls, Option.bind_some, Option.map_some, Option.some.injEq, exists_eq_left']
  rw [List.map_cons, hmap, String.toList_append, toList_indentStr, toList_assignText, Verilog.Block.lines]

theorem Emits.ifThen (he : Writes n e) (ht : Emits out1 t1) (h : Emits out t) :
    Emits (.ifThen n out1 out) (.ifThen e t1 t) := by
  refine ⟨⟨he.2, ht.1, h.1⟩, fun k => ?_⟩
  obtain ⟨ls, hls, hmap⟩ := h.2 k
  obtain ⟨ts, hts, htmap⟩ := ht.2 (k + 1)
  simp only [VtlBlock.lines, he.1, hls, hts, Option.bind_some, Option.map_some, Option.some.injEq, exists_eq_left']
  rw [List.map_cons, hmap, Verilog.Block.lines]
  simp only [String.toList_append, toList_indentStr, toList_lines htmap, enclosed, newLine, List.append_assoc]

theorem Emits.ifElse (he : Writes n e) (ht : Emits out1 t1) (hf : Emits out2 t2) (h : Emits out t) :
    Emits (.ifElse n out1 out2 out) (.ifElse e t1 t2 t) := by
  refine ⟨⟨he.2, ht.1, hf.1, h.1⟩, fun k => ?_⟩
  obtain ⟨ls, hls, hmap⟩ := h.2 k
  obtain ⟨ts, hts, htmap⟩ := ht.2 (k + 1)
  obtain ⟨fs, hfs, hfmap⟩ := hf.2 (k + 1)
  simp only [VtlBlock.lines, he.1, hls, hts, hfs, Option.bind_some, Option.map_some, Option.some.injEq, exists_eq_left']
  rw [List.map_cons, hmap, Verilog.Block.lines]
  simp only [String.toList_append, toList_indentStr, toList_lines htmap, toList_lines hfmap, enclosed, newLine, List.append_assoc]

theorem lines_append {k : Nat} {ms : List String} (h2 : out2.lines k = some ms) :
    ∀ {out1 : VtlBlock} {ls : List String}, out1.lines k = some ls → (out1.append out2).lines k = some (ls ++ ms) := by
  intro out1
  induction out1 with
  | nil =>
    intro ls h1
    obtain rfl := Option.some.inj h1
    exact h2
  | assign type lhs rhs rest ih =>
    intro ls h1
    simp only [VtlBlock.lines, Option.bind_eq_some_iff, Option.map_eq_some_iff] at h1
    obtain ⟨a, ha, b, hb, rs, hrs, rfl⟩ := h1
    simp only [VtlBlock.append, VtlBlock.lines, ha, hb, ih hrs, Option.bind_some, Option.map_some, List.cons_append]
  | ifThen c t rest _ ih =>
    intro ls h1
    simp only [VtlBlock.lines, Option.bind_eq_some_iff, Option.map_eq_some_iff] at h1
    obtain ⟨a, ha, ts, hts, rs, hrs, rfl⟩ := h1
    simp only [VtlBlock.append, VtlBlock.lines, ha, hts, ih hrs, Option.bind_some, Option.map_some, List.cons_append]
  | ifElse c t e rest _ _ ih =>
    intro ls h1
    simp only [VtlBlock.lines, Option.bind_eq_some_iff, Option.map_eq_some_iff] at h1
    obtain ⟨a, ha, ts, hts, es, hes, rs, hrs, rfl⟩ := h1
    simp only [VtlBlock.append, VtlBlock.lines, ha, hts, hes, ih hrs, Option.bind_some, Option.map_some, List.cons_append]

theorem Emits.append (h1 : Emits out1 t1) (h2 : Emits out2 t2) : Emits (out1.append out2) (t1.append t2) := by
  refine ⟨h1.1.append h2.1, fun k => ?_⟩
  obtain ⟨ls, hls, hmap⟩ := h1.2 k
  obtain ⟨ms, hms, hmap'⟩ := h2.2 k
  exact ⟨ls ++ ms, lines_append hms hls, by rw [List.map_append, hmap, hmap', Verilog.Block.lines_append]⟩

theorem Emits.compile (h : Emits out t) (k : Nat) : ∃ text, out.compile k = some text ∧ text.toList = t.chars k := by
  obtain ⟨ls, hls, hmap⟩ := h.2 k
  exact ⟨_, by rw [VtlBlock.compile, hls, Option.map_some], toList_lines hmap⟩

end

/-! ## The statements keep their meaning -/

/-- The visit from `cs` gives statements with the effect of `b`, and leaves the compiler in the scope `sc`. -/
def Visits (later : Bool) (b : PyBlock) (sc cs : VtlScope) : Prop :=
  ∃ out cs' t, visitBlock ints (processType later) b cs = some (out, cs') ∧ Agree sc cs' ∧ Emits out t ∧
    ∀ {S V : Type} (M : VtlMachine S V) (s : S), pyExec ints M later b sc s = t.exec M.verilog s

section
variable (later : Bool)

theorem compile_value {sc cs : VtlScope} (ha : Agree sc cs) {e : PyExpr} (h : sc.Supported e) :
    ∃ t, Writes (cs.compileExpr e) t ∧ ∀ {V : Type} (M : VtlMeaning V), sc.pyEval M e = M.tree t := by
  refine ⟨sc.written e, ?_, fun M => Renders.eval sc M e _ (Listed.renders sc e h.2)⟩
  rw [compileExpr_congr ha.nameText e]
  exact sc.compileExpr_writes e h.1

/-- One pass of the body for each number. Between two passes the compiler's fields are
those of the loop, and a body without loops leaves them. -/
theorem visitEach_visits (sc : VtlScope) {target : String} {body : PyBlock} : ∀ (is : List Int) (cs : VtlScope),
    (∀ i ∈ is, ∀ cs, Agree (sc.inLoop target i) cs → Visits ints later body (sc.inLoop target i) cs) →
    cs.callerGlobal = sc.callerGlobal → cs.insideFor = true → cs.forVar = target →
    ∃ out cs' t, visitEach (visitBlock ints (processType later) body) is cs = some (out, cs') ∧
      cs'.callerGlobal = sc.callerGlobal ∧ Emits out t ∧ ∀ {S V : Type} (M : VtlMachine S V) (s : S),
        is.foldl (fun s i => pyExec ints M later body (sc.inLoop target i) s) s = t.exec M.verilog s := by
  intro is
  induction is with
  | nil =>
    intro cs _ hg _ _
    exact ⟨.nil, cs, .nil, rfl, hg, .nil, fun _ _ => rfl⟩
  | cons i is ih =>
    intro cs hbody hg hin hvar
    have hscope : { cs with forValue := toString i } = sc.inLoop target i := by
      rw [inLoop, ← hg, ← hin, ← hvar]
    obtain ⟨out, cs1, t, hv, ha, he, hx⟩ := hbody i (by simp) _ (.refl _)
    obtain rfl : cs1 = sc.inLoop target i := ha.inside rfl
    obtain ⟨outs, cs2, ts, hvs, hgs, hes, hxs⟩ := ih (sc.inLoop target i) (fun j hj => hbody j (by simp [hj])) rfl rfl rfl
    refine ⟨out.append outs, cs2, t.append ts, ?_, hgs, he.append hes, ?_⟩
    · rw [visitEach, hscope, hv, Option.bind_some, hvs, Option.map_some]
    · intro S V M s
      rw [List.foldl_cons, hxs, hx, Verilog.Block.exec_append]

theorem visitBlock_visits (b : PyBlock) : ∀ sc cs : VtlScope, Agree sc cs → SupportedBlock ints b sc →
    Visits ints later b sc cs := by
  induction b with
  | nil =>
    intro sc cs ha _
    exact ⟨.nil, cs, .nil, rfl, ha, .nil, fun _ _ => rfl⟩
  | assign target value rest ih =>
    intro sc cs ha hb
    obtain ⟨hw, hk, hvalue, hrest⟩ := hb
    obtain ⟨e, he, hev⟩ := compile_value ha hvalue
    obtain ⟨out, cs1, t, hv, ha1, ht, hx⟩ := ih sc cs ha hrest
    refine ⟨_, cs1, .assign later (sc.nameText target) e t, by rw [visitBlock, hv, Option.map_some], ha1, ?_, ?_⟩
    · rw [ha.nameText]
      exact .assign later hw hk he ht
    · intro S V M s
      rw [pyExec, hx, hev]
      rfl
  | ite test body orelse rest ihb iho ihr =>
    intro sc cs ha hb
    obtain ⟨htest, hbody, horelse, hrest⟩ := hb
    obtain ⟨e, he, hev⟩ := compile_value ha htest
    obtain ⟨out1, cs1, t1, hv1, ha1, ht1, hx1⟩ := ihb sc cs ha hbody
    by_cases hemp : orelse.isEmpty = true
    · obtain rfl : orelse = .nil := by
        cases orelse with
        | nil => rfl
        | _ => exact absurd hemp Bool.false_ne_true
      obtain ⟨out, cs2, t, hv, ha2, ht, hx⟩ := ihr sc cs1 ha1 hrest
      refine ⟨_, cs2, .ifThen e t1 t, ?_, ha2, .ifThen he ht1 ht, ?_⟩
      · rw [visitBlock, hv1, Option.bind_some, if_pos hemp, hv, Option.map_some]
      · intro S V M s
        rw [pyExec, hx, hx1, hev]
        rfl
    · obtain ⟨out2, cs2, t2, hv2, ha2, ht2, hx2⟩ := iho sc cs1 ha1 horelse
      obtain ⟨out, cs3, t, hv, ha3, ht, hx⟩ := ihr sc cs2 ha2 hrest
      refine ⟨_, cs3, .ifElse e t1 t2 t, ?_, ha3, .ifElse he ht1 ht2 ht, ?_⟩
      · rw [visitBlock, hv1, Option.bind_some, if_neg hemp, hv2, Option.bind_some, hv, Option.map_some]
      · intro S V M s
        rw [pyExec, hx, hx1, hx2, hev]
        rfl
  | for_ target iter body rest ihb ihr =>
    intro sc cs ha hb
    obtain ⟨hout, ⟨is, his, hbody⟩, hrest⟩ := hb
    obtain ⟨out1, cs1, t1, hv1, hg1, ht1, hx1⟩ := visitEach_visits ints later sc is
      { cs with forVar := target, insideFor := true } (fun i hi cs hcs => ihb _ cs hcs (hbody i hi)) ha.callerGlobal rfl rfl
    -- the loop is over: its variable is left in the fields, and no name is changed any more
    have ha1 : Agree sc { cs1 with insideFor := false } := ⟨hg1, hout.symm, fun h => absurd (hout.symm.trans h) Bool.false_ne_true⟩
    obtain ⟨out, cs2, t, hv, ha2, ht, hx⟩ := ihr sc _ ha1 hrest
    refine ⟨out1.append out, cs2, t1.append t, ?_, ha2, ht1.append ht, ?_⟩
    · rw [visitBlock, his, Option.bind_some, hv1, Option.bind_some, hv, Option.map_some]
    · intro S V M s
      rw [pyExec, hx, his, Option.getD_some, hx1, Verilog.Block.exec_append]

end

/-! ## Processes -/

def triggerOf (sc : VtlScope) : PyWith → Trigger
  | .alwaysComb _ => .comb
  | .alwaysFF edge signal _ => .edge (edge == "negedge") (sc.nameText signal)

def pyRun (sc : VtlScope) {S V : Type} (M : VtlMachine S V) : PyWith → S → S
  | .alwaysComb body => pyExec ints M false body sc
  | .alwaysFF _ _ body => pyExec ints M true body sc

def SupportedWith (sc : VtlScope) : PyWith → Prop
  | .alwaysComb body => SupportedBlock ints body sc
  | .alwaysFF _ signal body => IsWord (sc.nameText signal) ∧ SupportedBlock ints body sc

theorem toText_fromString (edge : String) : ((TriggerType.fromString edge).toText ++ " ").toList = edgeText (edge == "negedge") := by
  unfold TriggerType.fromString
  by_cases h : edge = "negedge"
  · rw [if_pos h, h]
    rfl
  · rw [if_neg h, beq_false_of_ne h]
    rfl

theorem compile_comb {out : VtlBlock} {t : Verilog.Block} (h : Emits out t) (k : Nat) :
    ∃ text, (VtlProcess.alwaysComb out).compile k = some text ∧ text.toList = Process.chars k ⟨.comb, t⟩ := by
  obtain ⟨text, hc, htext⟩ := h.compile (k + 1)
  simp only [VtlProcess.compile, hc, Option.map_some, Option.some.injEq, exists_eq_left', String.toList_append, toList_indentStr,
    htext, Process.chars, Trigger.chars, enclosed, Verilog.Block.chars, newLine, List.append_assoc]
  rfl

theorem compile_ff {out : VtlBlock} {t : Verilog.Block} (h : Emits out t) (edge signal : String) (k : Nat) :
    ∃ text, (VtlProcess.alwaysFF (TriggerType.fromString edge) (.name signal) out).compile k = some text ∧
      text.toList = Process.chars k ⟨.edge (edge == "negedge") signal, t⟩ := by
  obtain ⟨text, hc, htext⟩ := h.compile (k + 1)
  simp only [VtlProcess.compile, VtlNode.compile, hc, Option.bind_some, Option.map_some, Option.some.injEq, exists_eq_left',
    Process.chars, Trigger.chars, ← toText_fromString edge, String.toList_append, toList_indentStr, htext, enclosed, Verilog.Block.chars,
    newLine, List.append_assoc]
  rfl

/-- The text of a process is read back with the trigger and the effect of the Python text. -/
theorem visitWith_preserves (sc : VtlScope) (w : PyWith) (h : SupportedWith ints sc w) (k : Nat) :
    ∃ text p, ((visitWith ints sc w).bind fun r => r.1.compile k) = some text ∧ parseProcess text = some p ∧
      p.trigger = sc.triggerOf w ∧
      ∀ (S V : Type) (M : VtlMachine S V) (s : S), pyRun ints sc M w s = p.body.exec M.verilog s := by
  cases w with
  | alwaysComb body =>
    obtain ⟨out, cs, t, hv, -, he, hx⟩ := visitBlock_visits ints false body sc sc (.refl sc) h
    obtain ⟨text, hc, htext⟩ := compile_comb he k
    have hvisit : visitWith ints sc (.alwaysComb body) = some (.alwaysComb out, cs) := by
      rw [visitWith, show visitBlock ints .comb body sc = some (out, cs) from hv, Option.map_some]
    refine ⟨text, ⟨.comb, t⟩, ?_, parseProcess_text (p := ⟨.comb, t⟩) trivial he.1 htext, rfl, fun S V M s => hx M s⟩
    rw [hvisit, Option.bind_some, hc]
  | alwaysFF edge signal body =>
    obtain ⟨hw, hb⟩ := h
    obtain ⟨out, cs, t, hv, -, he, hx⟩ := visitBlock_visits ints true body sc sc (.refl sc) hb
    obtain ⟨text, hc, htext⟩ := compile_ff he edge (sc.nameText signal) k
    have hvisit : visitWith ints sc (.alwaysFF edge signal body) =
        some (.alwaysFF (TriggerType.fromString edge) (.name (sc.nameText signal)) out, cs) := by
      rw [visitWith, show visitBlock ints .ff body sc = some (out, cs) from hv, Option.map_some]
    have hread := parseProcess_text (p := ⟨.edge (edge == "negedge") (sc.nameText signal), t⟩) hw he.1 htext
    refine ⟨text, ⟨.edge (edge == "negedge") (sc.nameText signal), t⟩, ?_, hread, rfl, fun S V M s => hx M s⟩
    rw [hvisit, Option.bind_some, hc]

end

/-- Two ports of a register file, cleared together:
`for p in range(2): if wr_p_: q_p_ = d_p_`, then `if rst: q0 = 0 else: n = n + 1`. -/
def twoPorts : PyWith :=
  .alwaysFF "posedge" "clk"
    (.for_ "p" (.one (.num 2)) (.ite (.name "wr_p_") (.assign "q_p_" (.name "d_p_") .nil) .nil .nil)
      (.ite (.name "rst") (.assign "q0" (.num 0) .nil) (.assign "n" (.binOp (.name "n") .add (.num 1)) .nil) .nil))

theorem twoPorts_supported : SupportedWith (fun _ => none) plain twoPorts := by
  refine ⟨by decide, rfl, ⟨[0, 1], by decide, ?_⟩, ?_⟩
  · intro i hi
    simp only [List.mem_cons, List.not_mem_nil, or_false] at hi
    rcases hi with rfl | rfl
    · simp only [SupportedBlock, Supported, Operands, Listed, and_true]
      decide
    · simp only [SupportedBlock, Supported, Operands, Listed, and_true]
      decide
  · simp only [SupportedBlock, Supported, Operands, Listed, and_true]
    decide

theorem visitWith_preserves_twoPorts : SupportedWith (fun _ => none) plain twoPorts ∧
    ∃ text p, ((visitWith (fun _ => none) plain twoPorts).bind fun r => r.1.compile 1) = some text ∧
      parseProcess text = some p ∧ p.trigger = plain.triggerOf twoPorts ∧
      ∀ (S V : Type) (M : VtlMachine S V) (s : S),
        pyRun (fun _ => none) plain M twoPorts s = p.body.exec M.verilog s :=
  ⟨twoPorts_supported, visitWith_preserves (fun _ => none) plain twoPorts twoPorts_supported 1⟩

end VtlScope

end Pigasus
