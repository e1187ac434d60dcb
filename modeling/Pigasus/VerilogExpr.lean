import Mathlib.Data.List.Forall2
import Mathlib.Data.List.TakeDrop
import Mathlib.Data.String.Basic

/-!
# Verilog expressions

Operator trees over operands (names with selects, and numbers), the text with every
operator in brackets, and the way back from such a text to its tree.
-/

namespace Verilog

inductive BinOp
  | land | lor | add | sub | mul | div | mod | pow | eq | ne | lt | le | gt | ge | shl | shr | band | bor | bxor
  deriving DecidableEq

inductive UnOp
  | complement | not | plus | minus
  deriving DecidableEq

inductive Expr
  | word (s : String)
  | un (op : UnOp) (e : Expr)
  | bin (op : BinOp) (l r : Expr)
  deriving DecidableEq

def BinOp.text : BinOp → String
  | .land => "&&"
  | .lor => "||"
  | .add => "+"
  | .sub => "-"
  | .mul => "*"
  | .div => "/"
  | .mod => "%"
  | .pow => "**"
  | .eq => "=="
  | .ne => "!="
  | .lt => "<"
  | .le => "<="
  | .gt => ">"
  | .ge => ">="
  | .shl => "<<"
  | .shr => ">>"
  | .band => "&"
  | .bor => "|"
  | .bxor => "^"

def BinOp.all : List BinOp :=
  [.land, .lor, .add, .sub, .mul, .div, .mod, .pow, .eq, .ne, .lt, .le, .gt, .ge, .shl, .shr, .band, .bor, .bxor]

def BinOp.ofText (t : List Char) : Option BinOp := BinOp.all.find? fun o => o.text.toList == t

def UnOp.text : UnOp → String
  | .complement => "~"
  | .not => "!"
  | .plus => "+"
  | .minus => "-"

def UnOp.ofChar : Char → Option UnOp
  | '~' => some .complement
  | '!' => some .not
  | '+' => some .plus
  | '-' => some .minus
  | _ => none

def isWordChar (c : Char) : Bool := c.isAlphanum || c == '_' || c == '$'

def IsWord (s : String) : Prop := s.toList ≠ [] ∧ ∀ c ∈ s.toList, isWordChar c = true

instance (s : String) : Decidable (IsWord s) :=
  decidable_of_iff (s.toList ≠ [] ∧ s.toList.all isWordChar = true) (by simp [IsWord])

/-- How many brackets of a select are open behind the character, if it belongs to an operand: a name, which may be a
path or a macro, or a number, and between the brackets anything. -/
def opened (d : Nat) (c : Char) : Option Nat :=
  if c = '[' then some (d + 1)
  else if d = 0 then if isWordChar c || ".'`".toList.contains c then some 0 else none
  else some (if c = ']' then d - 1 else d)

def closed : Nat → List Char → Bool
  | d, [] => d == 0
  | d, c :: cs =>
    match opened d c with
    | none => false
    | some d => closed d cs

def IsOperand (s : String) : Prop := s.toList ≠ [] ∧ closed 0 s.toList = true

instance (s : String) : Decidable (IsOperand s) := inferInstanceAs (Decidable (_ ∧ _))

theorem opened_word {c : Char} (h : isWordChar c = true) : opened 0 c = some 0 := by
  have hc : c ≠ '[' := by
    rintro rfl
    exact absurd h (by decide)
  rw [opened, if_neg hc, if_pos rfl, h, Bool.true_or, if_pos rfl]

theorem IsWord.operand {s : String} (h : IsWord s) : IsOperand s := by
  obtain ⟨hne, hw⟩ := h
  refine ⟨hne, ?_⟩
  generalize s.toList = w at hw
  induction w with
  | nil => rfl
  | cons c w ih =>
    rw [closed, opened_word (hw c (by simp))]
    exact ih fun x hx => hw x (by simp [hx])

namespace Expr

def Words : Expr → Prop
  | word s => IsOperand s
  | un _ e => e.Words
  | bin _ l r => l.Words ∧ r.Words

def text : Expr → String
  | word s => s
  | un op e => "(" ++ op.text ++ e.text ++ ")"
  | bin op l r => "(" ++ l.text ++ " " ++ op.text ++ " " ++ r.text ++ ")"

def depth : Expr → Nat
  | word _ => 0
  | un _ e => e.depth + 1
  | bin _ l r => max l.depth r.depth + 1

end Expr

/-! ## Reading a text -/

def expect (c : Char) : List Char → Option (List Char)
  | [] => none
  | a :: cs => if a = c then some cs else none

def splitOperand : Nat → List Char → List Char × List Char
  | _, [] => ([], [])
  | d, c :: cs =>
    match opened d c with
    | none => ([], c :: cs)
    | some d => (c :: (splitOperand d cs).1, (splitOperand d cs).2)

def readWord (cs : List Char) : Option (Expr × List Char) :=
  if (splitOperand 0 cs).1 = [] then none
  else some (.word (String.ofList (splitOperand 0 cs).1), (splitOperand 0 cs).2)

def closeUn (op : UnOp) (p : Expr × List Char) : Option (Expr × List Char) :=
  (expect ')' p.2).map fun cs => (.un op p.1, cs)

/-- The operator behind the left operand, and the text behind the operator. -/
def readOp (cs : List Char) : Option (BinOp × List Char) :=
  (expect ' ' cs).bind fun cs =>
    (BinOp.ofText (cs.takeWhile (· != ' '))).bind fun op =>
      (expect ' ' (cs.dropWhile (· != ' '))).map fun cs => (op, cs)

def closeBin (op : BinOp) (l : Expr) (p : Expr × List Char) : Option (Expr × List Char) :=
  (expect ')' p.2).map fun cs => (.bin op l p.1, cs)

/-- An expression from the front of a text; the number bounds the depth. -/
def read : Nat → List Char → Option (Expr × List Char)
  | n + 1, '(' :: c :: cs =>
    match UnOp.ofChar c with
    | some op => (read n cs).bind (closeUn op)
    | none => (read n (c :: cs)).bind fun p => (readOp p.2).bind fun q => (read n q.2).bind (closeBin q.1 p.1)
  | _, cs => readWord cs

def parse (s : String) : Option Expr :=
  match read s.toList.length s.toList with
  | some (e, []) => some e
  | _ => none

/-! ## The text of a tree is read back as that tree -/

@[simp] theorem ofText_text (op : BinOp) : BinOp.ofText op.text.toList = some op := by
  cases op <;> decide

theorem text_no_blank (op : BinOp) : ∀ c ∈ op.text.toList, (c != ' ') = true := by
  have h : op.text.toList.all (· != ' ') = true := by cases op <;> decide
  exact List.all_eq_true.1 h

@[simp] theorem expect_cons (c : Char) (cs : List Char) : expect c (c :: cs) = some cs := if_pos rfl

def Stops (cs : List Char) : Prop := ∀ c ∈ cs.head?, opened 0 c = none

theorem Stops.word {cs : List Char} (h : Stops cs) : ∀ c ∈ cs.head?, isWordChar c = false := by
  intro c hc
  by_contra hw
  rw [Bool.not_eq_false] at hw
  exact absurd ((h c hc).symm.trans (opened_word hw)) (by simp)

theorem splitOperand_append {w cs : List Char} (hcs : Stops cs) : ∀ {d : Nat}, closed d w = true → splitOperand d (w ++ cs) = (w, cs) := by
  induction w with
  | nil =>
    intro d h
    obtain rfl : d = 0 := by simpa [closed] using h
    cases cs with
    | nil => rfl
    | cons c cs => rw [List.nil_append, splitOperand, hcs c rfl]
  | cons c w ih =>
    intro d h
    rw [closed] at h
    rw [List.cons_append, splitOperand]
    cases ho : opened d c with
    | none => simp [ho] at h
    | some k =>
      rw [ho] at h
      dsimp only
      rw [ih h]

theorem takeWhile_stops {p : Char → Bool} {w cs : List Char} (hw : ∀ c ∈ w, p c = true) (hcs : ∀ c ∈ cs.head?, p c = false) :
    (w ++ cs).takeWhile p = w ∧ (w ++ cs).dropWhile p = cs := by
  rw [List.takeWhile_append_of_pos hw, List.dropWhile_append_of_pos hw]
  cases cs with
  | nil => simp
  | cons c cs => simp [hcs c rfl]

theorem readWord_append {s : String} (h : IsOperand s) {cs : List Char} (hcs : Stops cs) :
    readWord (s.toList ++ cs) = some (.word s, cs) := by
  rw [readWord, splitOperand_append hcs h.2, if_neg h.1, String.ofList_toList]

theorem IsOperand.cons {s : String} (h : IsOperand s) : ∃ c cs, s.toList = c :: cs ∧ opened 0 c ≠ none := by
  obtain ⟨hne, hc⟩ := h
  cases hs : s.toList with
  | nil => exact absurd hs hne
  | cons c cs =>
    refine ⟨c, cs, rfl, fun ho => ?_⟩
    rw [hs, closed, ho] at hc
    exact Bool.noConfusion hc

theorem readOp_append (op : BinOp) (cs : List Char) :
    readOp (' ' :: (op.text.toList ++ ' ' :: cs)) = some (op, cs) := by
  have hcs : ∀ c ∈ (' ' :: cs).head?, (c != ' ') = false := by simp
  obtain ⟨ht, hd⟩ := takeWhile_stops (text_no_blank op) hcs
  simp [readOp, ht, hd]

theorem text_cons {e : Expr} (h : e.Words) : ∃ c cs, e.text.toList = c :: cs ∧ UnOp.ofChar c = none := by
  cases e with
  | word s =>
    obtain ⟨c, cs, hs, hc⟩ := IsOperand.cons h
    refine ⟨c, cs, hs, ?_⟩
    unfold UnOp.ofChar
    split
    all_goals first | rfl | exact absurd (by decide) hc
  | un op e => exact ⟨'(', _, by simp only [Expr.text, String.toList_append]; rfl, rfl⟩
  | bin op l r => exact ⟨'(', _, by simp only [Expr.text, String.toList_append]; rfl, rfl⟩

theorem read_un {n : Nat} (op : UnOp) (cs : List Char) :
    read (n + 1) ('(' :: (op.text.toList ++ cs)) = (read n cs).bind (closeUn op) := by
  cases op <;> rfl

theorem read_bin {n : Nat} {c : Char} (h : UnOp.ofChar c = none) (cs : List Char) :
    read (n + 1) ('(' :: c :: cs) =
      (read n (c :: cs)).bind fun p => (readOp p.2).bind fun q => (read n q.2).bind (closeBin q.1 p.1) := by
  simp only [read, h]

theorem read_word {n : Nat} {s : String} (h : IsOperand s) {cs : List Char} (hcs : Stops cs) :
    read n (s.toList ++ cs) = some (.word s, cs) := by
  rw [← readWord_append h hcs]
  obtain ⟨c, w, hs, hc⟩ := h.cons
  rw [hs]
  cases n with
  | zero => rfl
  | succ n =>
    rw [List.cons_append, read]
    rintro n c' cs' - he
    obtain ⟨rfl, -⟩ := List.cons.inj he
    exact hc (by decide)

theorem read_text (e : Expr) (h : e.Words) (n : Nat) (hn : e.depth ≤ n) (cs : List Char) (hcs : Stops cs) :
    read n (e.text.toList ++ cs) = some (e, cs) := by
  induction e generalizing n cs with
  | word s => exact read_word h hcs
  | un op e ih =>
    obtain ⟨n, rfl⟩ : ∃ k, n = k + 1 := ⟨n - 1, by simp only [Expr.depth] at hn; omega⟩
    have he := ih h n (by simp only [Expr.depth] at hn; omega) (')' :: cs) (by simp [Stops, opened, isWordChar])
    have ht : (Expr.un op e).text.toList ++ cs = '(' :: (op.text.toList ++ (e.text.toList ++ ')' :: cs)) := by
      simp [Expr.text, String.toList_append]
    rw [ht, read_un, he]
    simp [closeUn]
  | bin op l r ihl ihr =>
    obtain ⟨n, rfl⟩ : ∃ k, n = k + 1 := ⟨n - 1, by simp only [Expr.depth] at hn; omega⟩
    simp only [Expr.depth] at hn
    -- behind the left operand there is a blank, behind the right one a bracket
    have hl := ihl h.1 n (by omega) (' ' :: (op.text.toList ++ ' ' :: (r.text.toList ++ ')' :: cs))) (by simp [Stops, opened, isWordChar])
    have hr := ihr h.2 n (by omega) (')' :: cs) (by simp [Stops, opened, isWordChar])
    have ht : (Expr.bin op l r).text.toList ++ cs =
        '(' :: (l.text.toList ++ ' ' :: (op.text.toList ++ ' ' :: (r.text.toList ++ ')' :: cs))) := by
      simp [Expr.text, String.toList_append]
    obtain ⟨c, t, hc, hop⟩ := text_cons h.1
    rw [ht]
    rw [hc, List.cons_append] at hl ⊢
    rw [read_bin hop, hl]
    simp only [Option.bind_some, readOp_append, hr]
    simp [closeBin]

theorem depth_le_length (e : Expr) : e.depth ≤ e.text.toList.length := by
  induction e with
  | word s => exact Nat.zero_le _
  | un op e ih =>
    simp only [Expr.depth, Expr.text, String.toList_append, List.length_append]
    have : "(".toList.length = 1 := rfl
    omega
  | bin op l r ihl ihr =>
    simp only [Expr.depth, Expr.text, String.toList_append, List.length_append]
    have : "(".toList.length = 1 := rfl
    omega

theorem parse_text {e : Expr} (h : e.Words) : parse e.text = some e := by
  have := read_text e h _ (depth_le_length e) [] (by simp [Stops])
  rw [List.append_nil] at this
  simp only [parse, this]

/-! ## Meaning -/

section
variable {V : Type} (word : String → V) (un : UnOp → V → V) (bin : BinOp → V → V → V)

def Expr.eval : Expr → V
  | .word s => word s
  | .un op e => un op e.eval
  | .bin op l r => bin op l.eval r.eval

end

def joinAll {V : Type} (f : V → V → V) : V → List V → V
  | v, [] => v
  | v, w :: ws => f v (joinAll f w ws)

inductive Joined (op : BinOp) : Expr → List Expr → Expr → Prop
  | one (x : Expr) : Joined op x [] x
  | node {x y a b : Expr} {xs ys : List Expr} :
    Joined op x xs a → Joined op y ys b → Joined op x (xs ++ y :: ys) (.bin op a b)

def Expr.size : Expr → Nat
  | .word _ => 0
  | .un _ e => e.size + 1
  | .bin _ l r => l.size + r.size + 1

def sizeAll : List Expr → Nat
  | [] => 0
  | x :: xs => x.size + 1 + sizeAll xs

theorem sizeAll_append (xs ys : List Expr) : sizeAll (xs ++ ys) = sizeAll xs + sizeAll ys := by
  induction xs with
  | nil => exact (Nat.zero_add _).symm
  | cons x xs ih =>
    rw [List.cons_append, sizeAll, sizeAll, ih]
    omega

theorem Joined.size {op : BinOp} {x t : Expr} {xs : List Expr} (h : Joined op x xs t) : t.size = x.size + sizeAll xs := by
  induction h with
  | one x => rfl
  | node _ _ ha hb =>
    rw [Expr.size, ha, hb, sizeAll_append, sizeAll]
    omega

theorem Joined.cons {op : BinOp} {x y b : Expr} {ys : List Expr} (h : Joined op y ys b) :
    Joined op x (y :: ys) (.bin op x b) := .node (.one x) h

theorem joined_joinAll (op : BinOp) : ∀ (x : Expr) (xs : List Expr), Joined op x xs (joinAll (.bin op) x xs)
  | x, [] => .one x
  | _, y :: ys => (joined_joinAll op y ys).cons

theorem Joined.inv {op : BinOp} {x t : Expr} {xs : List Expr} (h : Joined op x xs t) : (xs = [] ∧ x = t) ∨
    ∃ us v vs a b, xs = us ++ v :: vs ∧ t = .bin op a b ∧ Joined op x us a ∧ Joined op v vs b := by
  cases h with
  | one => exact .inl ⟨rfl, rfl⟩
  | node ha hb => exact .inr ⟨_, _, _, _, _, rfl, rfl, ha, hb⟩

theorem Joined.nil {op : BinOp} {x t : Expr} (h : Joined op x [] t) : x = t := by
  obtain ⟨-, h⟩ | ⟨us, v, vs, a, b, h, -⟩ := h.inv
  · exact h
  · simp at h

theorem Joined.unique {op : BinOp} (ys : List Expr) : ∀ {x y : Expr} {xs : List Expr}, Joined op x xs (joinAll (.bin op) y ys) →
    y.size ≤ x.size → List.Forall₂ (fun a b => b.size ≤ a.size) xs ys → x = y ∧ xs = ys := by
  induction ys with
  | nil =>
    intro x y xs h _ hxs
    obtain rfl := List.forall₂_nil_right_iff.1 hxs
    exact ⟨h.nil, rfl⟩
  | cons z zs ih =>
    intro x y xs h hx hxs
    obtain ⟨w, ws, hw, hws, rfl⟩ := List.forall₂_cons_right_iff.1 hxs
    obtain ⟨h0, -⟩ | ⟨us, v, vs, a, b, he, ht, ha, hb⟩ := h.inv
    · cases h0
    · obtain ⟨-, rfl, rfl⟩ := Expr.bin.inj ht
      cases us with
      | nil =>
        obtain ⟨rfl, rfl⟩ := List.cons.inj he
        obtain ⟨rfl, rfl⟩ := ih hb hw hws
        exact ⟨ha.nil, rfl⟩
      | cons u us =>
        -- then `x` would be a proper part of `y`
        have hs := ha.size
        rw [sizeAll] at hs
        omega

section
variable {V : Type} {f : V → V → V} (assoc : ∀ a b c, f (f a b) c = f a (f b c))

include assoc in
theorem joinAll_append : ∀ (v : V) (ws : List V) (u : V) (us : List V), joinAll f v (ws ++ u :: us) = f (joinAll f v ws) (joinAll f u us)
  | _, [], _, _ => rfl
  | v, w :: ws, u, us => by
    rw [List.cons_append, joinAll, joinAll_append w ws u us, joinAll, assoc]

end

theorem Joined.eval {V : Type} {word : String → V} {un : UnOp → V → V} {bin : BinOp → V → V → V} {op : BinOp}
    (assoc : ∀ a b c, bin op (bin op a b) c = bin op a (bin op b c)) {x t : Expr} {xs : List Expr} (h : Joined op x xs t) :
    t.eval word un bin = joinAll (bin op) (x.eval word un bin) (xs.map (Expr.eval word un bin)) := by
  induction h with
  | one x => rfl
  | node _ _ ha hb => rw [Expr.eval, ha, hb, List.map_append, List.map_cons, joinAll_append assoc]

end Verilog
