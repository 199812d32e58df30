import Scriptlet.Number.Word
import Scriptlet.Syntax.Canonical
import Scriptlet.Token.Scanner

/-!
The programs whose canonical text is program text, and the shape of that text: what a statement is
without the semicolon at its end, and which characters stand at the ends of an expression.
-/

namespace Scriptlet

/-- A text that is read as a name: a word that is no keyword. -/
def IsName (name : String) : Prop :=
  ∃ c cs, name.toList = c :: cs ∧ isLetter c = true ∧ (∀ d ∈ cs, isWordChar d = true) ∧
    Kind.ofWord name.toList = .ident

/-- An operator of the language. -/
def PrefixOp.Known : PrefixOp → Prop
  | other _ => False
  | _ => True

/-- An operator of the language. -/
def InfixOp.Known : InfixOp → Prop
  | other _ => False
  | _ => True

mutual

/-- Expressions that program text can spell. -/
def Expr.Printable : Expr → Prop
  | .int n => 0 ≤ n ∧ n ≤ Number.maxWord
  | .bool _ => True
  | .string s => '"' ∉ s.toList
  | .ident name => IsName name
  | .unary op right => op.Known ∧ right.Printable
  | .binary op left right => op.Known ∧ left.Printable ∧ right.Printable
  | .ifThen condition consequence none => condition.Printable ∧ PrintableStmts consequence
  | .ifThen condition consequence (some alternative) =>
    condition.Printable ∧ PrintableStmts consequence ∧ PrintableStmts alternative
  | .function params body => (∀ name ∈ params, IsName name) ∧ PrintableStmts body
  | .call callee args => callee.Printable ∧ PrintableExprs args
  | .array elements => PrintableExprs elements
  | .index left index => left.Printable ∧ index.Printable
  | .hashmap pairs => PrintablePairs pairs

/-- Statements that program text can spell. Braces with nothing between them are no block. -/
def Stmt.Printable : Stmt → Prop
  | .assign name value => IsName name ∧ value.Printable
  | .ret value => value.Printable
  | .expr value => value.Printable
  | .block body => body ≠ [] ∧ PrintableStmts body

def PrintableExprs : List Expr → Prop
  | [] => True
  | e :: es => e.Printable ∧ PrintableExprs es

def PrintableStmts : List Stmt → Prop
  | [] => True
  | s :: ss => s.Printable ∧ PrintableStmts ss

def PrintablePairs : List (Expr × Expr) → Prop
  | [] => True
  | (k, v) :: ps => k.Printable ∧ v.Printable ∧ PrintablePairs ps

end

mutual

/-- The number of blocks without statements in an expression that are statements themselves. Bodies
without statements of conditionals and functions are none of them. -/
def Expr.emptyBlocks : Expr → Nat
  | .int _ | .bool _ | .string _ | .ident _ => 0
  | .unary _ right => right.emptyBlocks
  | .binary _ left right => left.emptyBlocks + right.emptyBlocks
  | .ifThen condition consequence none => condition.emptyBlocks + emptyBlocks consequence
  | .ifThen condition consequence (some alternative) =>
    condition.emptyBlocks + emptyBlocks consequence + emptyBlocks alternative
  | .function _ body => emptyBlocks body
  | .call callee args => callee.emptyBlocks + emptyBlocksExprs args
  | .array elements => emptyBlocksExprs elements
  | .index left index => left.emptyBlocks + index.emptyBlocks
  | .hashmap pairs => emptyBlocksPairs pairs

/-- The number of blocks without statements in a statement, itself included. -/
def Stmt.emptyBlocks : Stmt → Nat
  | .assign _ value => value.emptyBlocks
  | .ret value => value.emptyBlocks
  | .expr value => value.emptyBlocks
  | .block body => (if body.isEmpty then 1 else 0) + Scriptlet.emptyBlocks body

def emptyBlocksExprs : List Expr → Nat
  | [] => 0
  | e :: es => e.emptyBlocks + emptyBlocksExprs es

/-- The number of blocks without statements in a program. -/
def emptyBlocks : List Stmt → Nat
  | [] => 0
  | s :: ss => s.emptyBlocks + emptyBlocks ss

def emptyBlocksPairs : List (Expr × Expr) → Nat
  | [] => 0
  | (k, v) :: ps => k.emptyBlocks + v.emptyBlocks + emptyBlocksPairs ps

end

/-- The canonical text of a program with each statement on a line of its own. -/
def sourceText (body : List Stmt) : String := joined "\n" (stmtTexts body)

/-- The text of a statement without the semicolon at its end. -/
def Stmt.core : Stmt → String
  | .assign name value => name ++ " = " ++ value.text
  | .ret value => "return " ++ value.text
  | .expr value => value.text
  | .block body => blockText (stmtTexts body)

/-- Whether a statement is written with a semicolon at its end. -/
def Stmt.closes : Stmt → Bool
  | .assign .. | .ret _ => true
  | _ => false

theorem Stmt.text_eq (st : Stmt) : st.text = st.core ++ if st.closes then ";" else "" := by
  cases st <;> simp [text, core, closes]

/-- There is a last character, and it is no semicolon. -/
def EndsPlain (s : String) : Prop := ∃ cs c, s.toList = cs ++ [c] ∧ c ≠ ';'

variable {s t : String} {e : Expr} {st : Stmt} {ss : List Stmt}

theorem EndsPlain.append (h : EndsPlain t) : EndsPlain (s ++ t) := by
  obtain ⟨cs, c, ht, hc⟩ := h
  exact ⟨s.toList ++ cs, c, by simp [ht], hc⟩

theorem EndsPlain.ne_empty (h : EndsPlain s) : s ≠ "" := by
  rintro rfl
  obtain ⟨cs, c, h, -⟩ := h
  simp at h

theorem dropSemicolons_of_endsPlain (h : EndsPlain s) : dropSemicolons s = s := by
  obtain ⟨cs, c, hs, hc⟩ := h
  have hd : (s.toList.reverse.dropWhile (· = ';')) = s.toList.reverse := by
    simp [hs, hc]
  rw [dropSemicolons, hd, List.reverse_reverse, String.ofList_toList]

theorem dropSemicolons_append (s : String) : dropSemicolons (s ++ ";") = dropSemicolons s := by
  simp [dropSemicolons]

theorem endsPlain_of_mem {p : Char → Bool} (hn : s.toList ≠ []) (hp : ∀ c ∈ s.toList, p c = true)
    (hc : p ';' = false) : EndsPlain s := by
  refine ⟨s.toList.dropLast, s.toList.getLast hn, (List.dropLast_concat_getLast hn).symm, ?_⟩
  intro he
  have := hp _ (he ▸ List.getLast_mem hn)
  simp [hc] at this

theorem endsPlain_blockText (l : List String) : EndsPlain (blockText l) := by
  unfold blockText
  simp only
  split
  · exact ⟨['\x7b', ' '], '\x7d', rfl, by simp⟩
  · exact EndsPlain.append ⟨[' '], '\x7d', rfl, by simp⟩

theorem IsName.endsPlain (h : IsName s) : EndsPlain s := by
  obtain ⟨c, cs, hs, hc, hcs, -⟩ := h
  refine endsPlain_of_mem (p := isWordChar) (by simp [hs]) (fun d hd => ?_) (by decide)
  rw [hs] at hd
  rcases List.mem_cons.mp hd with rfl | hd
  · simp [isWordChar, hc]
  · exact hcs d hd

theorem toList_toString_natCast (n : Nat) : (toString (n : Int)).toList = Nat.toDigits 10 n := by
  exact Nat.toList_repr

theorem isDigit_of_mem_toDigits {c : Char} {n : Nat} (h : c ∈ Nat.toDigits 10 n) :
    isDigit c = true := by
  have hd := Nat.isDigit_of_mem_toDigits (by simp) (by simp) h
  simpa [Char.isDigit, isDigit, Char.le_def] using hd

theorem endsPlain_toString (n : Int) : EndsPlain (toString n) := by
  have hnat (m : Nat) : EndsPlain (toString (m : Int)) := by
    have hl := toList_toString_natCast m
    exact endsPlain_of_mem (p := isDigit) (by rw [hl]; exact Nat.toDigits_ne_nil)
      (fun c hc => isDigit_of_mem_toDigits (hl ▸ hc)) (by decide)
  cases n with
  | ofNat m => exact hnat m
  | negSucc m => exact EndsPlain.append (s := "-") (hnat (m + 1))

/-- No expression ends in a semicolon, unless it is what looks like a name and is none. -/
theorem Expr.endsPlain_of_names (h : ∀ name, e = .ident name → IsName name) :
    EndsPlain e.text := by
  match e with
  | .int n => exact endsPlain_toString n
  | .bool true => exact ⟨['t', 'r', 'u'], 'e', by simp [text], by simp⟩
  | .bool false => exact ⟨['f', 'a', 'l', 's'], 'e', by simp [text], by simp⟩
  | .string s => exact EndsPlain.append ⟨[], '"', rfl, by simp⟩
  | .ident name => simpa [text] using (h name rfl).endsPlain
  | .unary op right => simpa only [text] using EndsPlain.append ⟨[], ')', rfl, by simp⟩
  | .binary op left right => simpa only [text] using EndsPlain.append ⟨[], ')', rfl, by simp⟩
  | .ifThen c a none => simpa only [text] using (endsPlain_blockText _).append
  | .ifThen c a (some b) => simpa only [text] using (endsPlain_blockText _).append
  | .function params body => simpa only [text] using (endsPlain_blockText _).append
  | .call callee args => simpa only [text] using EndsPlain.append ⟨[], ')', rfl, by simp⟩
  | .array es => simpa only [text] using EndsPlain.append ⟨[], ']', rfl, by simp⟩
  | .index left i => simpa only [text] using EndsPlain.append ⟨[']'], ')', rfl, by simp⟩
  | .hashmap ps => simpa only [text] using EndsPlain.append ⟨[], '\x7d', rfl, by simp⟩

theorem Expr.endsPlain_text (h : e.Printable) : EndsPlain e.text := by
  refine endsPlain_of_names ?_
  rintro name rfl
  exact h

theorem Stmt.endsPlain_core (h : st.Printable) : EndsPlain st.core := by
  cases st with
  | assign name value => exact (Expr.endsPlain_text (by simp_all [Printable])).append
  | ret value => exact (Expr.endsPlain_text (by simp_all [Printable])).append
  | expr value => exact Expr.endsPlain_text (by simp_all [Printable])
  | block body => exact endsPlain_blockText _

theorem Stmt.dropSemicolons_text (h : EndsPlain st.core) : dropSemicolons st.text = st.core := by
  rw [text_eq]
  cases st.closes
  · simpa using dropSemicolons_of_endsPlain h
  · simpa [dropSemicolons_append] using dropSemicolons_of_endsPlain h

theorem PrintableStmts.mem (h : PrintableStmts ss) : ∀ st ∈ ss, st.Printable := by
  induction ss with
  | nil => simp
  | cons st ss ih => exact List.forall_mem_cons.mpr ⟨h.1, ih h.2⟩

/-- In a block the semicolons stand between the statements. -/
theorem blockText_stmtTexts (h : ∀ st ∈ ss, EndsPlain st.core) (hn : ss ≠ []) :
    blockText (stmtTexts ss) = "\x7b " ++ joined "; " (ss.map Stmt.core) ++ " \x7d" := by
  have hm : (stmtTexts ss).map dropSemicolons = ss.map Stmt.core := by
    rw [stmtTexts_eq_map, List.map_map]
    exact List.map_congr_left fun st hst => Stmt.dropSemicolons_text (h st hst)
  have hb : joined "; " (ss.map Stmt.core) ≠ "" := by
    obtain ⟨st, ss, rfl⟩ := List.exists_cons_of_ne_nil hn
    have hst := (h st (by simp)).ne_empty
    cases ss <;> simp [joined, hst]
  simp only [blockText, hm, if_neg hb]

end Scriptlet
