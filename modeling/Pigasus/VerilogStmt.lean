import Pigasus.VerilogExpr

/-!
# Verilog statements

Blocks of assignments and conditionals, their text with one statement to a line, and
the way back from such a text to the block. A reader skips blanks and line ends in
front of a statement and of `end` and `else`.
-/

namespace Verilog

inductive Block
  | nil
  | assign (later : Bool) (lhs : String) (rhs : Expr) (rest : Block)
  | ifThen (c : Expr) (t rest : Block)
  | ifElse (c : Expr) (t e rest : Block)
  deriving DecidableEq

def Block.size : Block → Nat
  | nil => 1
  | assign _ _ _ rest => rest.size + 1
  | ifThen _ t rest => t.size + rest.size + 1
  | ifElse _ t e rest => t.size + e.size + rest.size + 1

def Block.append : Block → Block → Block
  | nil, b => b
  | assign later lhs rhs rest, b => .assign later lhs rhs (rest.append b)
  | ifThen c t rest, b => .ifThen c t (rest.append b)
  | ifElse c t e rest, b => .ifElse c t e (rest.append b)

/-! ## The text -/

def indent (k : Nat) : List Char := List.replicate (4 * k) ' '

def newLine (k : Nat) : List Char := "\n    ".toList ++ indent (k - 1)

def arrow (later : Bool) : List Char := if later then " <= ".toList else " = ".toList

def behind (ls : List (List Char)) : List Char := (ls.map ('\n' :: ·)).flatten

def joinLines : List (List Char) → List Char
  | [] => []
  | l :: ls => l ++ behind ls

def enclosed (k : Nat) (ls : List (List Char)) : List Char := joinLines ls ++ (newLine k ++ "end".toList)

def Block.lines (k : Nat) : Block → List (List Char)
  | .nil => []
  | .assign later lhs rhs rest =>
    (indent k ++ (lhs.toList ++ (arrow later ++ (rhs.text.toList ++ [';'])))) :: rest.lines k
  | .ifThen c t rest =>
    (indent k ++ ("if (".toList ++ (c.text.toList ++ (") begin\n".toList ++ enclosed k (t.lines (k + 1)))))) :: rest.lines k
  | .ifElse c t e rest =>
    (indent k ++ ("if (".toList ++ (c.text.toList ++ (") begin\n".toList ++ (enclosed k (t.lines (k + 1)) ++
      (newLine k ++ ("else begin\n".toList ++ enclosed k (e.lines (k + 1))))))))) :: rest.lines k

def Block.chars (k : Nat) (b : Block) : List Char := joinLines (b.lines k)

/-! ## Reading -/

def isBlank (c : Char) : Bool := c == ' ' || c == '\n'

def skipBlanks (cs : List Char) : List Char := cs.dropWhile isBlank

def expectAll (w cs : List Char) : Option (List Char) := if w.isPrefixOf cs then some (cs.drop w.length) else none

def readCond (cs : List Char) : Option (Expr × List Char) :=
  (expectAll " (".toList cs).bind fun cs => (read cs.length cs).bind fun p =>
    (expectAll ") begin".toList p.2).map fun r => (p.1, r)

def readRhs (later : Bool) (cs : List Char) : Option ((Bool × Expr) × List Char) :=
  (read cs.length cs).bind fun p => (expectAll [';'] p.2).map fun r => ((later, p.1), r)

def readAssign (cs : List Char) : Option ((Bool × Expr) × List Char) :=
  match expectAll " <= ".toList cs with
  | some r => readRhs true r
  | none => (expectAll " = ".toList cs).bind (readRhs false)

def readEnd (cs : List Char) : Option (List Char) := expectAll "end".toList (skipBlanks cs)

def readBody (block : List Char → Option (Block × List Char)) (cs : List Char) : Option (Block × List Char) :=
  (block cs).bind fun p => (readEnd p.2).map fun r => (p.1, r)

/-- The statements up to `end` or to the end of the text; the number bounds the statements. -/
def readBlock : Nat → List Char → Option (Block × List Char)
  | 0, _ => none
  | n + 1, cs =>
    let w := (skipBlanks cs).takeWhile isWordChar
    let r := (skipBlanks cs).dropWhile isWordChar
    if w = [] ∨ w = "end".toList then some (.nil, skipBlanks cs)
    else if w = "if".toList then
      (readCond r).bind fun c => (readBody (readBlock n) c.2).bind fun t =>
        if (skipBlanks t.2).takeWhile isWordChar = "else".toList then
          (expectAll " begin".toList ((skipBlanks t.2).dropWhile isWordChar)).bind fun r =>
            (readBody (readBlock n) r).bind fun e =>
              (readBlock n e.2).map fun rest => (.ifElse c.1 t.1 e.1 rest.1, rest.2)
        else (readBlock n t.2).map fun rest => (.ifThen c.1 t.1 rest.1, rest.2)
    else
      (readAssign r).bind fun a => (readBlock n a.2).map fun rest =>
        (.assign a.1.1 (String.ofList w) a.1.2 rest.1, rest.2)

/-! ## Processes -/

inductive Trigger
  | comb
  | edge (falling : Bool) (signal : String)
  deriving DecidableEq

structure Process where
  trigger : Trigger
  body : Block
  deriving DecidableEq

def combText : List Char := "always_comb".toList

def ffText : List Char := "always_ff @(".toList

def edgeText (falling : Bool) : List Char := if falling then "negedge ".toList else "posedge ".toList

def Trigger.chars : Trigger → List Char
  | .comb => combText
  | .edge falling signal => ffText ++ (edgeText falling ++ (signal.toList ++ [')']))

def Process.chars (k : Nat) (p : Process) : List Char :=
  indent (k - 1) ++ (p.trigger.chars ++ (" begin\n".toList ++ enclosed k (p.body.lines (k + 1))))

def readSignal (falling : Bool) (cs : List Char) : Option (Trigger × List Char) :=
  (expectAll [')'] (cs.dropWhile isWordChar)).map fun r => (.edge falling (String.ofList (cs.takeWhile isWordChar)), r)

def readEdge (cs : List Char) : Option (Trigger × List Char) :=
  match expectAll (edgeText false) cs with
  | some r => readSignal false r
  | none => (expectAll (edgeText true) cs).bind (readSignal true)

def readTrigger (cs : List Char) : Option (Trigger × List Char) :=
  match expectAll combText cs with
  | some r => some (.comb, r)
  | none => (expectAll ffText cs).bind readEdge

def parseProcess (s : String) : Option Process :=
  (readTrigger (skipBlanks s.toList)).bind fun p => (expectAll " begin".toList p.2).bind fun r =>
    (readBody (readBlock (s.toList.length + 1)) r).bind fun q =>
      if skipBlanks q.2 = [] then some ⟨p.1, q.1⟩ else none

/-! ## The text of a block is read back as that block -/

def keywords : List String := ["if", "else", "end"]

def Block.Words : Block → Prop
  | .nil => True
  | .assign _ lhs rhs rest => IsWord lhs ∧ lhs ∉ keywords ∧ rhs.Words ∧ rest.Words
  | .ifThen c t rest => c.Words ∧ t.Words ∧ rest.Words
  | .ifElse c t e rest => c.Words ∧ t.Words ∧ e.Words ∧ rest.Words

theorem isWord_keyword : ∀ s ∈ keywords, IsWord s := by decide

theorem isWord_if : IsWord "if" := isWord_keyword "if" (by decide)

theorem isWord_else : IsWord "else" := isWord_keyword "else" (by decide)

theorem isWord_end : IsWord "end" := isWord_keyword "end" (by decide)

theorem expectAll_append (w cs : List Char) : expectAll w (w ++ cs) = some cs := by
  have h : w.isPrefixOf (w ++ cs) = true := List.isPrefixOf_iff_prefix.2 (List.prefix_append w cs)
  rw [expectAll, if_pos h, List.drop_left]

theorem isBlank_of_word {c : Char} (h : isWordChar c = true) : isBlank c = false := by
  by_contra hb
  simp only [isBlank, Bool.not_eq_false, Bool.or_eq_true, beq_iff_eq] at hb
  rcases hb with rfl | rfl
  · exact absurd h (by decide)
  · exact absurd h (by decide)

theorem blank_one {a : Char} (h : isBlank a = true) : ∀ c ∈ [a], isBlank c = true := by
  intro c hc
  rwa [List.mem_singleton.1 hc]

theorem skipBlanks_append {ws : List Char} (h : ∀ c ∈ ws, isBlank c = true) (cs : List Char) : skipBlanks (ws ++ cs) = skipBlanks cs :=
  List.dropWhile_append_of_pos h

theorem skipBlanks_word {w : List Char} (hne : w ≠ []) (hw : ∀ c ∈ w, isWordChar c = true) (cs : List Char) :
    skipBlanks (w ++ cs) = w ++ cs := by
  obtain ⟨c, w, rfl⟩ := List.exists_cons_of_ne_nil hne
  rw [skipBlanks, List.cons_append, List.dropWhile_cons_of_neg]
  rw [isBlank_of_word (hw c (by simp))]
  exact Bool.false_ne_true

theorem indent_blank (k : Nat) : ∀ c ∈ indent k, isBlank c = true := by
  intro c hc
  rw [indent, List.mem_replicate] at hc
  rw [hc.2]
  decide

theorem newLine_blank (k : Nat) : ∀ c ∈ newLine k, isBlank c = true := by
  intro c hc
  rw [newLine, List.mem_append] at hc
  rcases hc with hc | hc
  · have h : "\n    ".toList.all isBlank = true := by decide
    exact List.all_eq_true.1 h c hc
  · exact indent_blank _ c hc

theorem readBlock_blanks {ws : List Char} (h : ∀ c ∈ ws, isBlank c = true) (n : Nat) (cs : List Char) :
    readBlock n (ws ++ cs) = readBlock n cs := by
  cases n with
  | zero => rfl
  | succ n => rw [readBlock, readBlock, skipBlanks_append h]

def Closes (r : List Char) : Prop := skipBlanks r = [] ∨ ∃ r', skipBlanks r = "end".toList ++ r' ∧ Stops r'

theorem word_end {r : List Char} (h : Stops r) : ("end".toList ++ r).takeWhile isWordChar = "end".toList :=
  (takeWhile_stops isWord_end.2 h.word).1

theorem readBlock_nil {n : Nat} {r : List Char} (h : Closes r) : readBlock (n + 1) r = some (.nil, skipBlanks r) := by
  rw [readBlock]
  refine if_pos ?_
  rcases h with h | ⟨r', h, hs⟩
  · exact .inl (by rw [h]; rfl)
  · exact .inr (by rw [h]; exact word_end hs)

theorem readExpr_append {e : Expr} (h : e.Words) {cs : List Char} (hcs : Stops cs) :
    read (e.text.toList ++ cs).length (e.text.toList ++ cs) = some (e, cs) := by
  refine read_text e h _ ?_ cs hcs
  rw [List.length_append]
  exact (depth_le_length e).trans (Nat.le_add_right _ _)

theorem readCond_append {c : Expr} (h : c.Words) (cs : List Char) :
    readCond (" (".toList ++ (c.text.toList ++ (") begin".toList ++ cs))) = some (c, cs) := by
  have hstop : Stops (") begin".toList ++ cs) := by
    intro x hx
    obtain rfl : x = ')' := by simpa using hx.symm
    decide
  rw [readCond, expectAll_append, Option.bind_some, readExpr_append h hstop, Option.bind_some, expectAll_append]
  rfl

theorem readRhs_append {e : Expr} (h : e.Words) (later : Bool) (cs : List Char) :
    readRhs later (e.text.toList ++ ([';'] ++ cs)) = some ((later, e), cs) := by
  have hstop : Stops ([';'] ++ cs) := by
    intro x hx
    obtain rfl : x = ';' := by simpa using hx.symm
    decide
  rw [readRhs, readExpr_append h hstop, Option.bind_some, expectAll_append]
  rfl

theorem readAssign_append {e : Expr} (h : e.Words) (later : Bool) (cs : List Char) :
    readAssign (arrow later ++ (e.text.toList ++ ([';'] ++ cs))) = some ((later, e), cs) := by
  cases later with
  | true =>
    rw [readAssign, show arrow true = " <= ".toList from rfl, expectAll_append]
    exact readRhs_append h true cs
  | false =>
    rw [readAssign, show arrow false = " = ".toList from rfl]
    have hno : expectAll " <= ".toList (" = ".toList ++ (e.text.toList ++ ([';'] ++ cs))) = none := rfl
    rw [hno]
    show (expectAll _ _).bind _ = _
    rw [expectAll_append]
    exact readRhs_append h false cs

theorem arrow_stops (later : Bool) (cs : List Char) : Stops (arrow later ++ cs) := by
  intro c hc
  cases later <;> (obtain rfl : c = ' ' := by simpa [arrow] using hc.symm) <;> decide

theorem blank_stops {w : List Char} (hne : w ≠ []) (h : ∀ c ∈ w, isBlank c = true) (cs : List Char) : Stops (w ++ cs) := by
  obtain ⟨a, w, rfl⟩ := List.exists_cons_of_ne_nil hne
  intro c hc
  obtain rfl : a = c := by simpa using hc
  have hb := h a (by simp)
  simp only [isBlank, Bool.or_eq_true, beq_iff_eq] at hb
  rcases hb with rfl | rfl <;> decide

theorem newLine_ne (k : Nat) : newLine k ≠ [] := by
  simp [newLine]

theorem readEnd_append {w : List Char} (h : ∀ c ∈ w, isBlank c = true) (cs : List Char) :
    readEnd (w ++ ("end".toList ++ cs)) = some cs := by
  rw [readEnd, skipBlanks_append h, skipBlanks_word isWord_end.1 isWord_end.2, expectAll_append]

theorem readBlock_behind (n : Nat) (ls : List (List Char)) (r : List Char) :
    readBlock n (behind ls ++ r) = readBlock n (joinLines ls ++ r) := by
  cases ls with
  | nil => rfl
  | cons l ls =>
    have h : behind (l :: ls) ++ r = ['\n'] ++ (joinLines (l :: ls) ++ r) := by simp [behind, joinLines]
    rw [h, readBlock_blanks (blank_one (by decide))]

theorem behind_stops (ls : List (List Char)) {r : List Char} (hr : Stops r) : Stops (behind ls ++ r) := by
  cases ls with
  | nil => exact hr
  | cons l ls =>
    have h : behind (l :: ls) ++ r = ['\n'] ++ (l ++ behind ls ++ r) := by simp [behind]
    rw [h]
    exact blank_stops (by simp) (blank_one (by decide)) _

theorem closes_end (k : Nat) {r : List Char} (hr : Stops r) : Closes (newLine k ++ ("end".toList ++ r)) := by
  refine .inr ⟨r, ?_, hr⟩
  rw [skipBlanks_append (newLine_blank k), skipBlanks_word isWord_end.1 isWord_end.2]

theorem word_behind {ws w cs : List Char} (hb : ∀ c ∈ ws, isBlank c = true) (hne : w ≠ []) (hw : ∀ c ∈ w, isWordChar c = true)
    (hcs : Stops cs) : (skipBlanks (ws ++ (w ++ cs))).takeWhile isWordChar = w ∧
      (skipBlanks (ws ++ (w ++ cs))).dropWhile isWordChar = cs := by
  rw [skipBlanks_append hb, skipBlanks_word hne hw]
  exact takeWhile_stops hw hcs.word

theorem behind_no_else {b : Block} (hb : b.Words) (k : Nat) {r : List Char} (hr : Closes r) :
    (skipBlanks (behind (b.lines k) ++ r)).takeWhile isWordChar ≠ "else".toList := by
  have hblank : ∀ c ∈ '\n' :: indent k, isBlank c = true := by
    intro c hc
    rcases List.mem_cons.1 hc with rfl | hc
    · decide
    · exact indent_blank k c hc
  have hif : ∀ cs, (skipBlanks (('\n' :: indent k) ++ ("if".toList ++ (' ' :: cs)))).takeWhile isWordChar ≠ "else".toList := by
    intro cs
    have hstop : Stops (' ' :: cs) := by
      intro c hc
      obtain rfl : ' ' = c := by simpa using hc
      decide
    rw [(word_behind hblank isWord_if.1 isWord_if.2 hstop).1]
    decide
  cases b with
  | nil =>
    rcases hr with h | ⟨r', h, hs⟩
    · rw [show behind (Block.nil.lines k) ++ r = r from rfl, h]
      decide
    · rw [show behind (Block.nil.lines k) ++ r = r from rfl, h, word_end hs]
      decide
  | assign later lhs rhs rest =>
    obtain ⟨hl, hk, -, -⟩ := hb
    have h : behind ((Block.assign later lhs rhs rest).lines k) ++ r =
        ('\n' :: indent k) ++ (lhs.toList ++ (arrow later ++ (rhs.text.toList ++ [';'] ++ behind (rest.lines k) ++ r))) := by
      simp [behind, Block.lines]
    rw [h, (word_behind hblank hl.1 hl.2 (arrow_stops later _)).1]
    intro he
    have hlhs : lhs = "else" := String.toList_injective he
    exact hk (by rw [hlhs]; decide)
  | ifThen c t rest =>
    have h : ∃ cs, behind ((Block.ifThen c t rest).lines k) ++ r = ('\n' :: indent k) ++ ("if".toList ++ (' ' :: cs)) :=
      ⟨_, by simp only [behind, Block.lines, List.map_cons, List.flatten_cons, List.cons_append, List.append_assoc]; rfl⟩
    obtain ⟨cs, h⟩ := h
    rw [h]
    exact hif cs
  | ifElse c t e rest =>
    have h : ∃ cs, behind ((Block.ifElse c t e rest).lines k) ++ r = ('\n' :: indent k) ++ ("if".toList ++ (' ' :: cs)) :=
      ⟨_, by simp only [behind, Block.lines, List.map_cons, List.flatten_cons, List.cons_append, List.append_assoc]; rfl⟩
    obtain ⟨cs, h⟩ := h
    rw [h]
    exact hif cs

section
variable (k n : Nat)

theorem readBlock_assign {lhs : String} (hl : IsWord lhs) (hk : lhs ∉ keywords) {rhs : Expr} (hr : rhs.Words) (later : Bool)
    (cs : List Char) : readBlock (n + 1) (indent k ++ (lhs.toList ++ (arrow later ++ (rhs.text.toList ++ ([';'] ++ cs))))) =
      (readBlock n cs).map fun rest => (.assign later lhs rhs rest.1, rest.2) := by
  obtain ⟨hw, hd⟩ := word_behind (indent_blank k) hl.1 hl.2 (arrow_stops later (rhs.text.toList ++ ([';'] ++ cs)))
  have hne : ∀ s ∈ keywords, lhs.toList ≠ s.toList := by
    intro s hs he
    exact hk (String.toList_injective he ▸ hs)
  have hfree : ¬ (lhs.toList = [] ∨ lhs.toList = "end".toList) := by
    rintro (h | h)
    · exact hl.1 h
    · exact hne "end" (by decide) h
  rw [readBlock]
  simp only [hw, hd]
  rw [if_neg hfree, if_neg (hne "if" (by decide)), readAssign_append hr, Option.bind_some, String.ofList_toList]

theorem readBlock_if {c : Expr} (hc : c.Words) (cs : List Char) :
    readBlock (n + 1) (indent k ++ ("if".toList ++ (" (".toList ++ (c.text.toList ++ (") begin".toList ++ cs))))) =
      (readBody (readBlock n) cs).bind fun t =>
        if (skipBlanks t.2).takeWhile isWordChar = "else".toList then
          (expectAll " begin".toList ((skipBlanks t.2).dropWhile isWordChar)).bind fun r =>
            (readBody (readBlock n) r).bind fun e =>
              (readBlock n e.2).map fun rest => (.ifElse c t.1 e.1 rest.1, rest.2)
        else (readBlock n t.2).map fun rest => (.ifThen c t.1 rest.1, rest.2) := by
  have hstop : Stops (" (".toList ++ (c.text.toList ++ (") begin".toList ++ cs))) :=
    blank_stops (w := [' ']) (by simp) (blank_one (by decide)) ('(' :: (c.text.toList ++ (") begin".toList ++ cs)))
  obtain ⟨hw, hd⟩ := word_behind (indent_blank k) isWord_if.1 isWord_if.2 hstop
  have hfree : ¬ ("if".toList = [] ∨ "if".toList = "end".toList) := by decide
  rw [readBlock, hw, hd]
  show (if _ then _ else if _ then _ else _) = _
  rw [if_neg hfree, if_pos rfl, readCond_append hc, Option.bind_some]

theorem readBody_enclosed {t : Block} {k' : Nat} {r : List Char} (hr : Stops r)
    (ih : ∀ r, Closes r → Stops r → readBlock n (t.chars k' ++ r) = some (t, skipBlanks r)) :
    readBody (readBlock n) (['\n'] ++ (enclosed k (t.lines k') ++ r)) = some (t, r) := by
  have hread := ih (newLine k ++ ("end".toList ++ r)) (closes_end k hr) (blank_stops (newLine_ne k) (newLine_blank k) _)
  have htext : enclosed k (t.lines k') ++ r = t.chars k' ++ (newLine k ++ ("end".toList ++ r)) := by
    simp only [enclosed, Block.chars, List.append_assoc]
  have hend : readEnd ("end".toList ++ r) = some r := readEnd_append (w := []) (by simp) r
  rw [readBody, readBlock_blanks (blank_one (by decide)), htext, hread, Option.bind_some, skipBlanks_append (newLine_blank k),
    skipBlanks_word isWord_end.1 isWord_end.2, hend]
  rfl

end

theorem readBlock_text (b : Block) : ∀ (n k : Nat) (r : List Char), b.Words → b.size ≤ n → Closes r → Stops r →
    readBlock n (b.chars k ++ r) = some (b, skipBlanks r) := by
  induction b with
  | nil =>
    intro n k r _ hn hr _
    obtain ⟨n, rfl⟩ := Nat.exists_eq_add_of_le' hn
    exact readBlock_nil hr
  | assign later lhs rhs rest ih =>
    intro n k r hb hn hr hs
    obtain ⟨n, rfl⟩ : ∃ m, n = m + 1 := Nat.exists_eq_add_of_le' (le_trans (Nat.le_add_left 1 _) hn)
    obtain ⟨hl, hk, he, hrest⟩ := hb
    have htext : (Block.assign later lhs rhs rest).chars k ++ r =
        indent k ++ (lhs.toList ++ (arrow later ++ (rhs.text.toList ++ ([';'] ++ (behind (rest.lines k) ++ r))))) := by
      simp only [Block.chars, Block.lines, joinLines, List.append_assoc]
    rw [htext, readBlock_assign k n hl hk he, readBlock_behind]
    rw [show joinLines (rest.lines k) = rest.chars k from rfl, ih n k r hrest (Nat.le_of_succ_le_succ hn) hr hs]
    rfl
  | ifThen c t rest iht ihr =>
    intro n k r hb hn hr hs
    obtain ⟨n, rfl⟩ : ∃ m, n = m + 1 := Nat.exists_eq_add_of_le' (le_trans (Nat.le_add_left 1 _) hn)
    obtain ⟨hc, ht, hrest⟩ := hb
    have hsize : t.size + rest.size ≤ n := Nat.le_of_succ_le_succ hn
    have htext : (Block.ifThen c t rest).chars k ++ r = indent k ++ ("if".toList ++ (" (".toList ++ (c.text.toList ++
        (") begin".toList ++ (['\n'] ++ (enclosed k (t.lines (k + 1)) ++ (behind (rest.lines k) ++ r))))))) := by
      simp only [Block.chars, Block.lines, joinLines, List.append_assoc]
      rfl
    have hin := fun r => iht n (k + 1) r ht (le_trans (Nat.le_add_right _ _) hsize)
    rw [htext, readBlock_if k n hc, readBody_enclosed k n (behind_stops _ hs) hin, Option.bind_some,
      if_neg (behind_no_else hrest k hr), readBlock_behind]
    rw [show joinLines (rest.lines k) = rest.chars k from rfl, ihr n k r hrest (le_trans (Nat.le_add_left _ _) hsize) hr hs]
    rfl
  | ifElse c t e rest iht ihe ihr =>
    intro n k r hb hn hr hs
    obtain ⟨n, rfl⟩ : ∃ m, n = m + 1 := Nat.exists_eq_add_of_le' (le_trans (Nat.le_add_left 1 _) hn)
    obtain ⟨hc, ht, he, hrest⟩ := hb
    have hsize : t.size + e.size + rest.size ≤ n := Nat.le_of_succ_le_succ hn
    have htext : (Block.ifElse c t e rest).chars k ++ r = indent k ++ ("if".toList ++ (" (".toList ++ (c.text.toList ++
        (") begin".toList ++ (['\n'] ++ (enclosed k (t.lines (k + 1)) ++ (newLine k ++ ("else".toList ++ (" begin".toList ++
          (['\n'] ++ (enclosed k (e.lines (k + 1)) ++ (behind (rest.lines k) ++ r)))))))))))) := by
      simp only [Block.chars, Block.lines, joinLines, List.append_assoc]
      rfl
    have hin := fun r => iht n (k + 1) r ht (by omega)
    have hine := fun r => ihe n (k + 1) r he (by omega)
    have hbegin : Stops (" begin".toList ++ (['\n'] ++ (enclosed k (e.lines (k + 1)) ++ (behind (rest.lines k) ++ r)))) :=
      blank_stops (w := [' ']) (by simp) (blank_one (by decide)) _
    obtain ⟨hw, hd⟩ := word_behind (newLine_blank k) isWord_else.1 isWord_else.2 hbegin
    rw [htext, readBlock_if k n hc, readBody_enclosed k n (blank_stops (newLine_ne k) (newLine_blank k) _) hin,
      Option.bind_some, if_pos hw, hd, expectAll_append, Option.bind_some,
      readBody_enclosed k n (behind_stops _ hs) hine, Option.bind_some, readBlock_behind]
    rw [show joinLines (rest.lines k) = rest.chars k from rfl, ihr n k r hrest (by omega) hr hs]
    rfl

theorem joinLines_le_behind (ls : List (List Char)) : (joinLines ls).length ≤ (behind ls).length := by
  cases ls with
  | nil => exact Nat.le_refl 0
  | cons l ls => simp [joinLines, behind]

theorem size_le_length (b : Block) : ∀ k, b.size ≤ (b.chars k).length + 1 := by
  induction b with
  | nil => exact fun _ => Nat.le_add_left 1 _
  | assign later lhs rhs rest ih =>
    intro k
    have h := ih k
    have hl := joinLines_le_behind (rest.lines k)
    simp only [Block.size, Block.chars, Block.lines, joinLines, List.length_append, List.length_singleton] at h hl ⊢
    omega
  | ifThen c t rest iht ihr =>
    intro k
    have ht := iht (k + 1)
    have h := ihr k
    have hl := joinLines_le_behind (rest.lines k)
    have h4 : "if (".toList.length = 4 := rfl
    simp only [Block.size, Block.chars, Block.lines, joinLines, enclosed, List.length_append, h4] at h ht hl ⊢
    omega
  | ifElse c t e rest iht ihe ihr =>
    intro k
    have ht := iht (k + 1)
    have he := ihe (k + 1)
    have h := ihr k
    have hl := joinLines_le_behind (rest.lines k)
    have h4 : "if (".toList.length = 4 := rfl
    simp only [Block.size, Block.chars, Block.lines, joinLines, enclosed, List.length_append, h4] at h ht he hl ⊢
    omega

def Trigger.Words : Trigger → Prop
  | .comb => True
  | .edge _ signal => IsWord signal

theorem readSignal_append {signal : String} (h : IsWord signal) (falling : Bool) (cs : List Char) :
    readSignal falling (signal.toList ++ ([')'] ++ cs)) = some (.edge falling signal, cs) := by
  have hstop : Stops ([')'] ++ cs) := by
    intro c hc
    obtain rfl : ')' = c := by simpa using hc
    decide
  obtain ⟨ht, hd⟩ := takeWhile_stops h.2 hstop.word
  rw [readSignal, ht, hd, expectAll_append, String.ofList_toList]
  rfl

theorem readTrigger_append {t : Trigger} (h : t.Words) (cs : List Char) : readTrigger (t.chars ++ cs) = some (t, cs) := by
  cases t with
  | comb => simp only [readTrigger, Trigger.chars, expectAll_append]
  | edge falling signal =>
    have hno : ∀ r, expectAll combText (ffText ++ r) = none := fun _ => rfl
    simp only [readTrigger, Trigger.chars, List.append_assoc, hno, expectAll_append, Option.bind_some, readEdge]
    cases falling with
    | false =>
      simp only [expectAll_append]
      exact readSignal_append h false cs
    | true =>
      have hpos : ∀ r, expectAll (edgeText false) (edgeText true ++ r) = none := fun _ => rfl
      simp only [hpos, expectAll_append, Option.bind_some]
      exact readSignal_append h true cs

theorem skipBlanks_trigger (t : Trigger) (cs : List Char) : skipBlanks (t.chars ++ cs) = t.chars ++ cs := by
  cases t <;> rfl

theorem parseProcess_text {p : Process} (ht : p.trigger.Words) (hb : p.body.Words) {k : Nat} {text : String}
    (htext : text.toList = p.chars k) : parseProcess text = some p := by
  have hlen : p.body.size ≤ text.toList.length + 1 := by
    have h := size_le_length p.body (k + 1)
    rw [htext]
    simp only [Process.chars, enclosed, Block.chars, List.length_append] at h ⊢
    omega
  have hstart : skipBlanks text.toList = p.trigger.chars ++ (" begin".toList ++ (['\n'] ++ (enclosed k (p.body.lines (k + 1)) ++ []))) := by
    rw [htext, Process.chars, skipBlanks_append (indent_blank _), skipBlanks_trigger, List.append_nil]
    rfl
  have hnil : Stops [] := by
    intro c hc
    simp at hc
  have hbody := readBody_enclosed k (text.toList.length + 1) hnil (fun r => readBlock_text p.body _ (k + 1) r hb hlen)
  rw [parseProcess, hstart, readTrigger_append ht, Option.bind_some, expectAll_append, Option.bind_some, hbody]
  rfl

/-! ## Execution -/

/-- What the statements of a block do: an assignment, now or later, and the test of a value. -/
structure Machine (S V : Type) where
  value : S → Expr → V
  assign : Bool → S → String → V → S
  truth : V → Bool

def Block.exec {S V : Type} (M : Machine S V) : Block → S → S
  | .nil, s => s
  | .assign later lhs rhs rest, s => rest.exec M (M.assign later s lhs (M.value s rhs))
  | .ifThen c t rest, s => rest.exec M (if M.truth (M.value s c) then t.exec M s else s)
  | .ifElse c t e rest, s => rest.exec M (if M.truth (M.value s c) then t.exec M s else e.exec M s)

theorem Block.exec_append {S V : Type} (M : Machine S V) (a b : Block) : ∀ s, (a.append b).exec M s = b.exec M (a.exec M s) := by
  induction a with
  | nil => exact fun _ => rfl
  | assign later lhs rhs rest ih => exact fun _ => ih _
  | ifThen c t rest _ ih => exact fun _ => ih _
  | ifElse c t e rest _ _ ih => exact fun _ => ih _

theorem Block.lines_append (k : Nat) (a b : Block) : (a.append b).lines k = a.lines k ++ b.lines k := by
  induction a with
  | nil => rfl
  | assign later lhs rhs rest ih => simp only [Block.append, Block.lines, ih, List.cons_append]
  | ifThen c t rest _ ih => simp only [Block.append, Block.lines, ih, List.cons_append]
  | ifElse c t e rest _ _ ih => simp only [Block.append, Block.lines, ih, List.cons_append]

theorem Block.Words.append {a b : Block} (ha : a.Words) (hb : b.Words) : (a.append b).Words := by
  induction a with
  | nil => exact hb
  | assign later lhs rhs rest ih => exact ⟨ha.1, ha.2.1, ha.2.2.1, ih ha.2.2.2⟩
  | ifThen c t rest _ ih => exact ⟨ha.1, ha.2.1, ih ha.2.2⟩
  | ifElse c t e rest _ _ ih => exact ⟨ha.1, ha.2.1, ha.2.2.1, ih ha.2.2.2⟩

end Verilog
