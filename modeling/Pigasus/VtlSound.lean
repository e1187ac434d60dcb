import Pigasus.VerilogExpr
import Pigasus.Vtl
import Mathlib.Data.Nat.Digits.Defs

/-!
# What the compiled expressions mean

The text of a compiled expression is read back as a Verilog tree and compared with the
Python tree, operator by operator. The operators that `compile_expr` does not list,
and all of a chained comparison but its beginning, are lost.
-/

namespace Pigasus

open Verilog

/-! ## Operators of the same meaning -/

/-- The Verilog operator of the same meaning, if there is one. -/
def PyCmpOp.verilog : PyCmpOp → Option BinOp
  | .eq => some .eq
  | .notEq => some .ne
  | .lt => some .lt
  | .ltE => some .le
  | .gt => some .gt
  | .gtE => some .ge
  | .is | .isNot | .in | .notIn => none

def PyBoolOp.verilog : PyBoolOp → BinOp
  | .and => .land
  | .or => .lor

def PyOperator.verilog : PyOperator → Option BinOp
  | .add => some .add
  | .sub => some .sub
  | .mult => some .mul
  | .div => some .div
  | .mod => some .mod
  | .pow => some .pow
  | .lShift => some .shl
  | .rShift => some .shr
  | .bitOr => some .bor
  | .bitXor => some .bxor
  | .bitAnd => some .band
  | .matMult | .floorDiv => none

def PyUnaryOp.verilog : PyUnaryOp → UnOp
  | .invert => .complement
  | .not => .not
  | .uAdd => .plus
  | .uSub => .minus

/-- A meaning of both languages over one type of values, with a valuation of the words. -/
structure VtlMeaning (V : Type) where
  word : String → V
  un : UnOp → V → V
  bin : BinOp → V → V → V
  num : Nat → V
  cmp : PyCmpOp → V → V → V
  bool : PyBoolOp → V → V → V
  arith : PyOperator → V → V → V
  unary : PyUnaryOp → V → V
  num_word : ∀ n, word (toString n) = num n
  cmp_same : ∀ o b, o.verilog = some b → cmp o = bin b
  bool_same : ∀ o, bool o = bin o.verilog
  arith_same : ∀ o b, o.verilog = some b → arith o = bin b
  unary_same : ∀ o, unary o = un o.verilog
  bool_assoc : ∀ o a b c, bool o (bool o a b) c = bool o a (bool o b c)

def VtlMeaning.tree {V : Type} (M : VtlMeaning V) : Expr → V := Expr.eval M.word M.un M.bin

namespace VtlScope

variable (sc : VtlScope)

section
variable {V : Type} (M : VtlMeaning V)

mutual

/-- The value of a Python expression. In a chain each comparison takes the operand of the one before. -/
def pyEval : PyExpr → V
  | .name id => M.word (sc.nameText id)
  | .num n => M.num n
  | .compare left op comparator more =>
    joinAll (M.bool .and) (M.cmp op (pyEval left) (pyEval comparator)) (pyEvalChain (pyEval comparator) more)
  | .boolOp op first second more => joinAll (M.bool op) (pyEval first) (pyEval second :: pyEvalList more)
  | .binOp left op right => M.arith op (pyEval left) (pyEval right)
  | .unaryOp op operand => M.unary op (pyEval operand)

def pyEvalChain : V → PyChain → List V
  | _, .nil => []
  | v, .cons op comparator more => M.cmp op v (pyEval comparator) :: pyEvalChain (pyEval comparator) more

def pyEvalList : PyList → List V
  | .nil => []
  | .cons e more => pyEval e :: pyEvalList more

end

end

mutual

/-- The tree has the operators and the operands of the expression, up to associativity of `&&` and `||`. -/
def Renders : PyExpr → Expr → Prop
  | .name id, t => t = .word (sc.nameText id)
  | .num n, t => t = .word (toString n)
  | .compare left op comparator more, t => ∃ o l r cs, op.verilog = some o ∧ Renders left l ∧ Renders comparator r ∧
      RendersChain more r cs ∧ Joined .land (.bin o l r) cs t
  | .boolOp op first second more, t => ∃ a b cs, Renders first a ∧ Renders second b ∧ RendersList more cs ∧
      Joined op.verilog a (b :: cs) t
  | .binOp left op right, t => ∃ o l r, op.verilog = some o ∧ Renders left l ∧ Renders right r ∧ t = .bin o l r
  | .unaryOp op operand, t => ∃ e, Renders operand e ∧ t = .un op.verilog e

def RendersChain : PyChain → Expr → List Expr → Prop
  | .nil, _, cs => cs = []
  | .cons op comparator more, v, cs => ∃ o r rest, op.verilog = some o ∧ Renders comparator r ∧
      RendersChain more r rest ∧ cs = .bin o v r :: rest

def RendersList : PyList → List Expr → Prop
  | .nil, cs => cs = []
  | .cons e more, cs => ∃ t rest, Renders e t ∧ RendersList more rest ∧ cs = t :: rest

end

/-- What is promised of an expression that is not rejected. -/
def Preserved (e : PyExpr) : Prop := ∃ text t, (sc.compileExpr e).compile = some text ∧ parse text = some t ∧
  sc.Renders e t ∧ ∀ (V : Type) (M : VtlMeaning V), sc.pyEval M e = M.tree t

/-! ## A rendered tree has the same value -/

section
variable {V : Type} (M : VtlMeaning V)

theorem tree_bin (o : BinOp) (l r : Expr) : M.tree (.bin o l r) = M.bin o (M.tree l) (M.tree r) := rfl

theorem tree_joined {o : PyBoolOp} {x t : Expr} {xs : List Expr} (h : Joined o.verilog x xs t) :
    M.tree t = joinAll (M.bool o) (M.tree x) (xs.map M.tree) := by
  rw [M.bool_same o]
  apply h.eval
  rw [← M.bool_same o]
  exact M.bool_assoc o

mutual

theorem Renders.eval : ∀ (e : PyExpr) (t : Expr), sc.Renders e t → sc.pyEval M e = M.tree t
  | .name id, t, h => by
    obtain rfl := h
    rfl
  | .num n, t, h => by
    obtain rfl := h
    exact (M.num_word n).symm
  | .compare left op comparator more, t, h => by
    obtain ⟨o, l, r, cs, ho, hl, hr, hcs, ht⟩ := h
    rw [tree_joined M (o := .and) ht, pyEval, Renders.eval left l hl, Renders.eval comparator r hr, M.cmp_same op o ho,
      RendersChain.eval more r cs hcs, tree_bin]
  | .boolOp op first second more, t, h => by
    obtain ⟨a, b, cs, ha, hb, hcs, ht⟩ := h
    rw [tree_joined M ht, pyEval, Renders.eval first a ha, Renders.eval second b hb, RendersList.eval more cs hcs]
    rfl
  | .binOp left op right, t, h => by
    obtain ⟨o, l, r, ho, hl, hr, rfl⟩ := h
    rw [pyEval, Renders.eval left l hl, Renders.eval right r hr, M.arith_same op o ho, tree_bin]
  | .unaryOp op operand, t, h => by
    obtain ⟨e, he, rfl⟩ := h
    rw [pyEval, Renders.eval operand e he, M.unary_same op]
    rfl

theorem RendersChain.eval : ∀ (c : PyChain) (v : Expr) (cs : List Expr), sc.RendersChain c v cs →
    sc.pyEvalChain M (M.tree v) c = cs.map M.tree
  | .nil, v, cs, h => by
    obtain rfl := h
    rfl
  | .cons op comparator more, v, cs, h => by
    obtain ⟨o, r, rest, ho, hr, hrest, rfl⟩ := h
    rw [pyEvalChain, Renders.eval comparator r hr, RendersChain.eval more r rest hrest, M.cmp_same op o ho, List.map_cons,
      tree_bin]

theorem RendersList.eval : ∀ (l : PyList) (cs : List Expr), sc.RendersList l cs → sc.pyEvalList M l = cs.map M.tree
  | .nil, cs, h => by
    obtain rfl := h
    rfl
  | .cons e more, cs, h => by
    obtain ⟨t, rest, ht, hrest, rfl⟩ := h
    rw [pyEvalList, Renders.eval e t ht, RendersList.eval more rest hrest, List.map_cons]

end

end

/-! ## The tree that is written -/

def Writes (n : VtlNode) (t : Expr) : Prop := n.compile = some t.text ∧ t.Words

theorem Writes.binary {s : String} {o : BinOp} {l r : VtlNode} {a b : Expr} (hl : Writes l a) (hr : Writes r b)
    (hs : (BinOpType.fromString s).map BinOpType.toText = some o.text) : Writes (mkBinary s l r) (.bin o a b) := by
  obtain ⟨ty, hty, ho⟩ := Option.map_eq_some_iff.mp hs
  refine ⟨?_, hl.2, hr.2⟩
  simp only [mkBinary, VtlNode.compile, hl.1, hr.1, hty, Option.bind_some, Option.map_some, ho, Expr.text]

theorem Writes.unary {s : String} {o : UnOp} {n : VtlNode} {a : Expr} (h : Writes n a)
    (hs : (UnaryOpType.fromString s).toText = o.text) : Writes (mkUnary s n) (.un o a) := by
  refine ⟨?_, h.2⟩
  simp only [mkUnary, VtlNode.compile, h.1, Option.map_some, hs, Expr.text]

theorem isWord_toString (n : Nat) : IsWord (toString n) := by
  rw [IsWord, Nat.toString_eq_repr, Nat.toList_repr]
  refine ⟨Nat.toDigits_ne_nil, fun c hc => ?_⟩
  have hd := Nat.isDigit_of_mem_toDigits (by decide) (by decide) hc
  simp [isWordChar, Char.isAlphanum, hd]

def cmpWritten : PyCmpOp → BinOp
  | .gt => .gt
  | .lt => .lt
  | .notEq => .ne
  | _ => .eq

def binWritten : PyOperator → BinOp
  | .mult => .mul
  | .sub => .sub
  | .div => .div
  | .lShift => .shl
  | .pow => .pow
  | _ => .add

def unWritten : PyUnaryOp → UnOp
  | .not => .not
  | _ => .complement

theorem compareText_written (op : PyCmpOp) :
    (BinOpType.fromString (compareText op)).map BinOpType.toText = some (cmpWritten op).text := by
  cases op <;> decide

theorem boolText_written (op : PyBoolOp) :
    (BinOpType.fromString (boolText op)).map BinOpType.toText = some op.verilog.text := by
  cases op <;> decide

theorem binText_written (op : PyOperator) :
    (BinOpType.fromString (binText op)).map BinOpType.toText = some (binWritten op).text := by
  cases op <;> decide

theorem unaryText_written (op : PyUnaryOp) : (UnaryOpType.fromString (unaryText op)).toText = (unWritten op).text := by
  cases op <;> decide

mutual

def written : PyExpr → Expr
  | .name id => .word (sc.nameText id)
  | .num n => .word (toString n)
  | .compare left op comparator _ => .bin (cmpWritten op) (written left) (written comparator)
  | .boolOp op first second more => joinAll (.bin op.verilog) (written first) (written second :: writtenList more)
  | .binOp left op right => .bin (binWritten op) (written left) (written right)
  | .unaryOp op operand => .un (unWritten op) (written operand)

def writtenList : PyList → List Expr
  | .nil => []
  | .cons e more => written e :: writtenList more

end

mutual

/-- The text that stands for each name is a Verilog operand. -/
def Operands : PyExpr → Prop
  | .name id => IsOperand (sc.nameText id)
  | .num _ => True
  | .compare left _ comparator _ => Operands left ∧ Operands comparator
  | .boolOp _ first second more => Operands first ∧ Operands second ∧ OperandsList more
  | .binOp left _ right => Operands left ∧ Operands right
  | .unaryOp _ operand => Operands operand

def OperandsList : PyList → Prop
  | .nil => True
  | .cons e more => Operands e ∧ OperandsList more

end

theorem boolNode_two (op : String) (a b : VtlNode) : boolNode op [a, b] = mkBinary op a b := rfl

theorem boolNode_cons (op : String) (a b c : VtlNode) (l : List VtlNode) :
    boolNode op (a :: b :: c :: l) = mkBinary op a (boolNode op (b :: c :: l)) := by
  unfold boolNode
  rw [List.reverse_cons]
  cases h : (b :: c :: l).reverse with
  | nil => simp at h
  | cons x m =>
    cases m with
    | nil =>
      have := congrArg List.length h
      simp at this
    | cons y m => simp

theorem writes_boolNode (op : PyBoolOp) {l : List VtlNode} {cs : List Expr} (hl : List.Forall₂ Writes l cs) :
    ∀ {a b : VtlNode} {x y : Expr}, Writes a x → Writes b y →
    Writes (boolNode (boolText op) (a :: b :: l)) (joinAll (.bin op.verilog) x (y :: cs)) := by
  induction hl with
  | nil =>
    intro a b x y ha hb
    rw [boolNode_two]
    exact ha.binary hb (boolText_written op)
  | cons hc _ ih =>
    intro a b x y ha hb
    rw [boolNode_cons]
    exact ha.binary (ih hb hc) (boolText_written op)

mutual

theorem compileExpr_writes : ∀ e : PyExpr, sc.Operands e → Writes (sc.compileExpr e) (sc.written e)
  | .name _, h => ⟨rfl, h⟩
  | .num n, _ => ⟨rfl, (isWord_toString n).operand⟩
  | .compare left op comparator _, h =>
    (compileExpr_writes left h.1).binary (compileExpr_writes comparator h.2) (compareText_written op)
  | .boolOp op first second more, h =>
    writes_boolNode op (compileList_writes more h.2.2) (compileExpr_writes first h.1) (compileExpr_writes second h.2.1)
  | .binOp left op right, h => (compileExpr_writes left h.1).binary (compileExpr_writes right h.2) (binText_written op)
  | .unaryOp op operand, h => (compileExpr_writes operand h).unary (unaryText_written op)

theorem compileList_writes : ∀ l : PyList, sc.OperandsList l → List.Forall₂ Writes (sc.compileList l) (sc.writtenList l)
  | .nil, _ => .nil
  | .cons e more, h => .cons (compileExpr_writes e h.1) (compileList_writes more h.2)

end

/-! ## What is compiled faithfully -/

mutual

/-- Only operators that are listed, and no chained comparison. -/
def Listed : PyExpr → Prop
  | .name _ => True
  | .num _ => True
  | .compare left op comparator .nil => (op = .eq ∨ op = .notEq ∨ op = .lt ∨ op = .gt) ∧ Listed left ∧ Listed comparator
  | .compare _ _ _ (.cons _ _ _) => False
  | .boolOp _ first second more => Listed first ∧ Listed second ∧ ListedAll more
  | .binOp left op right => (op = .add ∨ op = .sub ∨ op = .mult ∨ op = .div ∨ op = .lShift ∨ op = .pow) ∧
      Listed left ∧ Listed right
  | .unaryOp op operand => (op = .invert ∨ op = .not) ∧ Listed operand

def ListedAll : PyList → Prop
  | .nil => True
  | .cons e more => Listed e ∧ ListedAll more

end

def Supported (e : PyExpr) : Prop := sc.Operands e ∧ Listed e

theorem cmpWritten_iff (op : PyCmpOp) : op.verilog = some (cmpWritten op) ↔ op = .eq ∨ op = .notEq ∨ op = .lt ∨ op = .gt := by
  cases op <;> decide

theorem binWritten_iff (op : PyOperator) : op.verilog = some (binWritten op) ↔
    op = .add ∨ op = .sub ∨ op = .mult ∨ op = .div ∨ op = .lShift ∨ op = .pow := by
  cases op <;> decide

theorem unWritten_iff (op : PyUnaryOp) : op.verilog = unWritten op ↔ op = .invert ∨ op = .not := by
  cases op <;> decide

mutual

theorem Listed.renders : ∀ e : PyExpr, Listed e → sc.Renders e (sc.written e)
  | .name _, _ => rfl
  | .num _, _ => rfl
  | .compare left op comparator .nil, h =>
    ⟨_, _, _, [], (cmpWritten_iff op).2 h.1, Listed.renders left h.2.1, Listed.renders comparator h.2.2, rfl, .one _⟩
  | .compare _ _ _ (.cons _ _ _), h => False.elim h
  | .boolOp op first second more, h =>
    ⟨_, _, _, Listed.renders first h.1, Listed.renders second h.2.1, ListedAll.renders more h.2.2, joined_joinAll ..⟩
  | .binOp left op right, h =>
    ⟨_, _, _, (binWritten_iff op).2 h.1, Listed.renders left h.2.1, Listed.renders right h.2.2, rfl⟩
  | .unaryOp op operand, h => ⟨_, Listed.renders operand h.2, by rw [written, (unWritten_iff op).2 h.1]⟩

theorem ListedAll.renders : ∀ l : PyList, ListedAll l → sc.RendersList l (sc.writtenList l)
  | .nil, _ => rfl
  | .cons e more, h => ⟨_, _, Listed.renders e h.1, ListedAll.renders more h.2, rfl⟩

end

theorem sizeAll_le {xs ys : List Expr} (h : List.Forall₂ (fun a b => b.size ≤ a.size) xs ys) : sizeAll ys ≤ sizeAll xs := by
  induction h with
  | nil => exact Nat.le_refl _
  | cons hx _ ih =>
    rw [sizeAll, sizeAll]
    omega

mutual

theorem Renders.size_le : ∀ (e : PyExpr) (t : Expr), sc.Renders e t → (sc.written e).size ≤ t.size
  | .name _, t, h => Nat.zero_le _
  | .num _, t, h => Nat.zero_le _
  | .compare left op comparator more, t, h => by
    obtain ⟨o, l, r, cs, -, hl, hr, -, ht⟩ := h
    have h1 := Renders.size_le left l hl
    have h2 := Renders.size_le comparator r hr
    rw [ht.size, written, Expr.size, Expr.size]
    omega
  | .boolOp op first second more, t, h => by
    obtain ⟨a, b, cs, ha, hb, hcs, ht⟩ := h
    have h1 := Renders.size_le first a ha
    have h2 := sizeAll_le (.cons (Renders.size_le second b hb) (RendersList.size_le more cs hcs))
    rw [ht.size, written, (joined_joinAll ..).size]
    omega
  | .binOp left op right, t, h => by
    obtain ⟨o, l, r, -, hl, hr, rfl⟩ := h
    have h1 := Renders.size_le left l hl
    have h2 := Renders.size_le right r hr
    rw [written, Expr.size, Expr.size]
    omega
  | .unaryOp op operand, t, h => by
    obtain ⟨e, he, rfl⟩ := h
    exact Nat.succ_le_succ (Renders.size_le operand e he)

theorem RendersList.size_le : ∀ (l : PyList) (cs : List Expr), sc.RendersList l cs →
    List.Forall₂ (fun a b => b.size ≤ a.size) cs (sc.writtenList l)
  | .nil, cs, h => by
    obtain rfl := h
    exact .nil
  | .cons e more, cs, h => by
    obtain ⟨t, rest, ht, hrest, rfl⟩ := h
    exact .cons (Renders.size_le e t ht) (RendersList.size_le more rest hrest)

end

mutual

theorem Renders.listed : ∀ e : PyExpr, sc.Renders e (sc.written e) → Listed e
  | .name _, _ => trivial
  | .num _, _ => trivial
  | .compare left op comparator .nil, h => by
    obtain ⟨o, l, r, cs, ho, hl, hr, rfl, ht⟩ := h
    obtain ⟨rfl, rfl, rfl⟩ := Expr.bin.inj ht.nil
    exact ⟨(cmpWritten_iff op).1 ho, Renders.listed left hl, Renders.listed comparator hr⟩
  | .compare left op comparator (.cons op' comparator' more), h => by
    obtain ⟨o, l, r, cs, -, -, -, ⟨o', r', rest, -, -, -, rfl⟩, ht⟩ := h
    -- a chain is a tree of `&&`, and no comparison is written as that
    obtain ⟨h0, -⟩ | ⟨us, v, vs, a, b, -, hb, -⟩ := ht.inv
    · cases h0
    · have hop := (Expr.bin.inj hb).1
      cases op <;> cases hop
  | .boolOp op first second more, h => by
    obtain ⟨a, b, cs, ha, hb, hcs, ht⟩ := h
    obtain ⟨rfl, he⟩ := Joined.unique (sc.written second :: sc.writtenList more) ht (Renders.size_le sc first a ha)
      (.cons (Renders.size_le sc second b hb) (RendersList.size_le sc more cs hcs))
    obtain ⟨rfl, rfl⟩ := List.cons.inj he
    exact ⟨Renders.listed first ha, Renders.listed second hb, RendersList.listed more hcs⟩
  | .binOp left op right, h => by
    obtain ⟨o, l, r, ho, hl, hr, ht⟩ := h
    obtain ⟨rfl, rfl, rfl⟩ := Expr.bin.inj ht
    exact ⟨(binWritten_iff op).1 ho, Renders.listed left hl, Renders.listed right hr⟩
  | .unaryOp op operand, h => by
    obtain ⟨e, he, ht⟩ := h
    obtain ⟨ho, rfl⟩ := Expr.un.inj ht
    exact ⟨(unWritten_iff op).1 ho.symm, Renders.listed operand he⟩

theorem RendersList.listed : ∀ l : PyList, sc.RendersList l (sc.writtenList l) → ListedAll l
  | .nil, _ => trivial
  | .cons e more, h => by
    obtain ⟨t, rest, ht, hrest, he⟩ := h
    obtain ⟨rfl, rfl⟩ := List.cons.inj he
    exact ⟨Renders.listed e ht, RendersList.listed more hrest⟩

end

/-- An expression over operands keeps its tree and its value exactly if all its operators are listed. -/
theorem compileExpr_preserves (e : PyExpr) (h : sc.Operands e) : sc.Preserved e ↔ Listed e := by
  have hw := sc.compileExpr_writes e h
  constructor
  · rintro ⟨text, t, hc, ht, hr, -⟩
    obtain rfl := Option.some.inj (hc.symm.trans hw.1)
    obtain rfl := Option.some.inj (ht.symm.trans (parse_text hw.2))
    exact Renders.listed sc e hr
  · intro hl
    have hr := Listed.renders sc e hl
    exact ⟨_, _, hw.1, parse_text hw.2, hr, fun V M => Renders.eval sc M e _ hr⟩

/-- No global of the caller, and not inside a loop. -/
def plain : VtlScope := ⟨fun _ => none, false, "", ""⟩

/-- `not a and b < 12 and c << 2 == x`, with the global `x = "s.q[i + 1]"` -/
theorem compileExpr_preserves_and :
    VtlScope.Preserved ⟨fun id => if id = "x" then some "s.q[i + 1]" else none, false, "", ""⟩
      (.boolOp .and (.unaryOp .not (.name "a")) (.compare (.name "b") .lt (.num 12) .nil)
        (.cons (.compare (.binOp (.name "c") .lShift (.num 2)) .eq (.name "x") .nil) .nil)) :=
  (compileExpr_preserves _ _ (by simp only [Operands, OperandsList]; decide)).2 (by simp [Listed, ListedAll])

/-! ## What is lost -/

section
variable (word : String → BitVec 8)

def ofBool8 (b : Bool) : BitVec 8 := if b then 1 else 0

def bin8 : BinOp → BitVec 8 → BitVec 8 → BitVec 8
  | .land, a, b => ofBool8 (a != 0 && b != 0)
  | .lor, a, b => ofBool8 (a != 0 || b != 0)
  | .add, a, b => a + b
  | .sub, a, b => a - b
  | .mul, a, b => a * b
  | .div, a, b => a / b
  | .mod, a, b => a % b
  | .pow, a, b => a ^ b.toNat
  | .eq, a, b => ofBool8 (a == b)
  | .ne, a, b => ofBool8 (a != b)
  | .lt, a, b => ofBool8 (a < b)
  | .le, a, b => ofBool8 (a ≤ b)
  | .gt, a, b => ofBool8 (b < a)
  | .ge, a, b => ofBool8 (b ≤ a)
  | .shl, a, b => a <<< b
  | .shr, a, b => a >>> b
  | .band, a, b => a &&& b
  | .bor, a, b => a ||| b
  | .bxor, a, b => a ^^^ b

def un8 : UnOp → BitVec 8 → BitVec 8
  | .complement, a => ~~~a
  | .not, a => ofBool8 (a == 0)
  | .plus, a => a
  | .minus, a => -a

theorem ofBool8_ne (b : Bool) : (ofBool8 b != 0) = b := by cases b <;> decide

def meaning8 : VtlMeaning (BitVec 8) where
  word := word
  un := un8
  bin := bin8
  num n := word (toString n)
  cmp o a b := (o.verilog.map fun v => bin8 v a b).getD 0
  bool o := bin8 o.verilog
  arith o a b := (o.verilog.map fun v => bin8 v a b).getD 0
  unary o := un8 o.verilog
  num_word _ := rfl
  cmp_same o b h := by simp [h]
  bool_same _ := rfl
  arith_same o b h := by simp [h]
  unary_same _ := rfl
  bool_assoc o a b c := by cases o <;> simp only [PyBoolOp.verilog, bin8, ofBool8_ne, Bool.and_assoc, Bool.or_assoc]

end

theorem not_preserved {sc : VtlScope} {e : PyExpr} {text : String} {t : Expr} (word : String → BitVec 8)
    (hc : (sc.compileExpr e).compile = some text) (ht : parse text = some t)
    (hv : sc.pyEval (meaning8 word) e ≠ (meaning8 word).tree t) : ¬ sc.Preserved e := by
  rintro ⟨text', t', hc', ht', -, heq⟩
  obtain rfl := Option.some.inj (hc.symm.trans hc')
  obtain rfl := Option.some.inj (ht.symm.trans ht')
  exact hv (heq _ _)

/-- `a >= b`, `b < a < c`, `a % c` and `-a` -/
theorem compileExpr_loses :
    ((plain.compileExpr (.compare (.name "a") .gtE (.name "b") .nil)).compile = some "(a == b)" ∧
      ¬ plain.Preserved (.compare (.name "a") .gtE (.name "b") .nil)) ∧
    ((plain.compileExpr (.compare (.name "b") .lt (.name "a") (.cons .lt (.name "c") .nil))).compile = some "(b < a)" ∧
      ¬ plain.Preserved (.compare (.name "b") .lt (.name "a") (.cons .lt (.name "c") .nil))) ∧
    ((plain.compileExpr (.binOp (.name "a") .mod (.name "c"))).compile = some "(a + c)" ∧
      ¬ plain.Preserved (.binOp (.name "a") .mod (.name "c"))) ∧
    ((plain.compileExpr (.unaryOp .uSub (.name "a"))).compile = some "(~a)" ∧
      ¬ plain.Preserved (.unaryOp .uSub (.name "a"))) := by
  -- `b` is 0, all other words are 1
  let word : String → BitVec 8 := fun s => if s = "b" then 0 else 1
  refine ⟨⟨by decide, ?_⟩, ⟨by decide, ?_⟩, ⟨by decide, ?_⟩, ⟨by decide, ?_⟩⟩
  · exact not_preserved word (by decide) (show parse "(a == b)" = some (.bin .eq (.word "a") (.word "b")) by decide) (by decide)
  · exact not_preserved word (by decide) (show parse "(b < a)" = some (.bin .lt (.word "b") (.word "a")) by decide) (by decide)
  · exact not_preserved word (by decide) (show parse "(a + c)" = some (.bin .add (.word "a") (.word "c")) by decide) (by decide)
  · exact not_preserved word (by decide) (show parse "(~a)" = some (.un .complement (.word "a")) by decide) (by decide)

end VtlScope

end Pigasus
