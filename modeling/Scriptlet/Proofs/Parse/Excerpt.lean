import Scriptlet.Excerpt
import Scriptlet.Proofs.Number.Numeral
import Scriptlet.Proofs.Parse.Soundness
import Scriptlet.Proofs.Token.Lines

/-!
Errors are shown where they are. Rules record errors at tokens only, and these stand on the lines of
the text; the position in front of a message is read back, and the excerpt for it has the lines
around with a caret under the character.
-/

namespace Scriptlet

variable {depth : Nat} {source : String} {body : List Stmt} {errors : List SyntaxError}

/-! ### Where errors are -/

namespace Parser

/-- A new error is at a token. -/
theorem Steps.exists_token {s t : State} (h : Steps s t) :
    ∀ x ∈ t.errors, x ∈ s.errors ∨ ∃ c ∈ s.tokens, x.pos = c.pos := by
  induction h with
  | refl => exact fun x hx => .inl hx
  | @tail t u hsteps hs ih =>
    have hmem {c : Token} (hc : c ∈ t.tokens) : c ∈ s.tokens :=
      (Steps.tokens_suffix hsteps).subset hc
    intro x hx
    cases hs with
    | advance => exact ih x (by simpa using hx)
    | atCurrent fault =>
      rcases List.mem_append.mp hx with hx | hx
      · exact ih x hx
      · rw [List.mem_singleton.mp hx]
        exact .inr ⟨t.current, hmem (by simp [State.tokens]), rfl⟩
    | atPeek fault =>
      rcases List.mem_append.mp hx with hx | hx
      · exact ih x hx
      · rw [List.mem_singleton.mp hx]
        exact .inr ⟨t.peek, hmem t.peek_mem_tokens, rfl⟩

theorem steps_of_run_ok {t : State} {c : Token} {cs : List Token}
    (h : run depth (c :: cs) = .ok body t) : Steps (.ofTokens (c :: cs)) t := by
  have he := ends_run depth c cs
  rw [h] at he
  exact he.1

theorem steps_of_run_error {t : State} {c : Token} {cs : List Token} {stop : Stop}
    (h : run depth (c :: cs) = .error stop t) : Steps (.ofTokens (c :: cs)) t := by
  have he := ends_run depth c cs
  rw [h] at he
  match stop, he with
  | .failed, he => exact he.1
  | .tooDeep, he => exact he
  | .literalTooLong _, he => exact he.1

end Parser

/-- Every error is at a token of the text. -/
theorem exists_token_of_parse (h : parse depth source = .ok ⟨body, errors⟩) :
    ∀ x ∈ errors, ∃ c ∈ tokenize source, x.pos = c.pos := by
  obtain ⟨c, cs, hc⟩ := List.exists_cons_of_ne_nil (lexed_tokenize source).ne_nil
  intro x hx
  rw [parse, hc, parseTokens] at h
  rw [hc]
  have hat {t : Parser.State} (ht : Parser.Steps (.ofTokens (c :: cs)) t) (hx : x ∈ t.errors) :
      ∃ d ∈ c :: cs, x.pos = d.pos :=
    (ht.exists_token x hx).resolve_left (by simp [Parser.State.ofTokens])
  have hlast {t : Parser.State} (ht : Parser.Steps (.ofTokens (c :: cs)) t)
      (hx : x ∈ (t.record t.current.pos .tooDeep).errors) : ∃ d ∈ c :: cs, x.pos = d.pos := by
    rcases List.mem_append.mp hx with hx | hx
    · exact hat ht hx
    · rw [List.mem_singleton.mp hx]
      exact ⟨t.current, ht.tokens_suffix.subset (by simp [Parser.State.tokens]), rfl⟩
  cases hr : Parser.run depth (c :: cs) with
  | ok _ t =>
    cases hr ▸ h
    exact hat (Parser.steps_of_run_ok hr) hx
  | error stop t =>
    cases stop with
    | failed | tooDeep =>
      cases hr ▸ h
      exact hlast (Parser.steps_of_run_error hr) hx
    | literalTooLong n =>
      cases hr ▸ h

/-! ### Reading a position back -/

theorem positionParts_append {line column : List Char} (hl : ':' ∉ line) (hc : ':' ∉ column)
    (rest : List Char) :
    positionParts (line ++ ':' :: (column ++ ':' :: rest)) = some (line, column) := by
  have hspan {cs ds : List Char} (h : ':' ∉ cs) :
      (cs ++ ':' :: ds).span (· ≠ ':') = (cs, ':' :: ds) := by
    have hp : ∀ c ∈ cs, decide (c ≠ ':') = true := fun c hc => by
      exact decide_eq_true fun he => h (he ▸ hc)
    rw [List.span_eq_takeWhile_dropWhile, List.takeWhile_append_of_pos hp,
      List.dropWhile_append_of_pos hp]
    simp
  simp only [positionParts, hspan hl, List.drop_one, List.tail_cons, hspan hc, List.isEmpty_cons,
    Bool.or_self, Bool.false_eq_true, if_false]

theorem allDigits_toDigits (n : Nat) : allDigits (Nat.toDigits 10 n) = true := by
  have hne : Nat.toDigits 10 n ≠ [] := Nat.toDigits_ne_nil
  simp only [allDigits, Bool.and_eq_true, Bool.not_eq_true', List.isEmpty_eq_false_iff, hne,
    ne_eq, not_false_eq_true, List.all_eq_true, true_and]
  intro c hc
  simp [Text.isDigitLike, decimalValue?_of_isDigit (isDigit_of_mem_toDigits hc)]

theorem colon_notMem_toDigits (n : Nat) : ':' ∉ Nat.toDigits 10 n := fun h =>
  absurd (isDigit_of_mem_toDigits h) (by decide)

theorem SyntaxError.toList_text (x : SyntaxError) :
    x.text.toList = Nat.toDigits 10 x.pos.line ++
      ':' :: (Nat.toDigits 10 x.pos.column ++ ':' :: (' ' :: x.fault.message.toList)) := by
  simp [text, Position.text, Nat.toList_repr, toString]

theorem Number.Writable.mono {m n : Nat} (h : Writable n) (hm : m ≤ n) : Writable m := by
  have hlt := (Nat.length_toDigits_le_iff (by decide) (by decide)).mp h
  exact (Nat.length_toDigits_le_iff (by decide) (by decide)).mpr (Nat.lt_of_le_of_lt hm hlt)

/-- The report of some errors has the excerpt around the first one. -/
theorem SyntaxReport.ofErrors_text {first : SyntaxError} {others : List String}
    {name : Option String} (hl : Number.Writable first.pos.line)
    (hc : Number.Writable first.pos.column) :
    ofErrors (first.text :: others) (some source) name = .ok ⟨first.text :: others,
      some (.ofSource source first.pos.line first.pos.column name Excerpt.defaultRadius)⟩ := by
  have hparts := positionParts_append (colon_notMem_toDigits first.pos.line)
    (colon_notMem_toDigits first.pos.column) (' ' :: first.fault.message.toList)
  rw [ofErrors, SyntaxError.toList_text, hparts]
  simp only [allDigits_toDigits, Bool.and_self, if_true, Number.readInteger_toDigits hl,
    Number.readInteger_toDigits hc]
  rfl

/-! ### What an excerpt shows -/

namespace Excerpt

variable {e : Excerpt} {l : String} {ls : List String} {n line column : Nat}

/-- Lines behind their numbers, which start at the given one. -/
def shown (first : Nat) (lines : List String) : List String :=
  (lines.zipIdx first).map fun l => gutter l.2 ++ l.1

/-- A caret in the column of a character of a line that stands behind its number. -/
def caret (line column : Nat) : String :=
  String.ofList (List.replicate ((gutter line).length + (column - 1)) ' ') ++ "^"

theorem shown_cons : shown n (l :: ls) = (gutter n ++ l) :: shown (n + 1) ls := rfl

theorem caretLine_eq (hc : 1 ≤ column) : caretLine line column = caret line column := by
  have hwidth : (((gutter line).length : Int) + column - 1).toNat =
      (gutter line).length + (column - 1) := by omega
  rw [caretLine, caret, hwidth]

/-- Behind the line of the place there is no caret. -/
theorem numbered_of_lt (he : e.line = line) (h : line < n) : e.numbered n ls = shown n ls := by
  induction ls generalizing n with
  | nil => rfl
  | cons l ls ih =>
    rw [numbered, if_neg (by omega), shown_cons]
    exact congrArg _ (ih (Nat.lt_succ_of_lt h))

/-- Among numbered lines there is one caret, behind the line of the place. -/
theorem numbered_append (he : e.line = line) (hcol : e.column = column) (hc : 1 ≤ column)
    (before after : List String) (hn : n + before.length = line) :
    e.numbered n (before ++ l :: after) =
      shown n before ++ (gutter line ++ l) :: caret line column :: shown (line + 1) after := by
  induction before generalizing n with
  | nil =>
    obtain rfl : n = line := hn
    rw [List.nil_append, numbered, if_pos he.symm, hcol, caretLine_eq hc]
    exact congrArg _ (congrArg _ (numbered_of_lt he (Nat.lt_succ_self n)))
  | cons b before ih =>
    rw [List.length_cons] at hn
    rw [List.cons_append, numbered, if_neg (by omega), shown_cons, List.cons_append]
    exact congrArg _ (ih (n := n + 1) (by omega))

/-- The excerpt around a place of a text: its lines are at most two before and two behind the one of
the place, with their numbers, and behind the latter stands the only caret. -/
structure Shows (e : Excerpt) (source : String) (name : Option String) (p : Position) : Prop where
  line : e.line = p.line
  column : e.column = p.column
  location : e.location = match name with
    | none | some "" => p.text
    | some name => name ++ ":" ++ p.text
  exists_lines : ∃ above before l after below,
    Text.lines source = above ++ (before ++ l :: after) ++ below ∧
    (above ++ before).length + 1 = p.line ∧ p.column ≤ l.length + 1 ∧
    above.length + 1 = max 1 (p.line - 2) ∧
    (above ++ (before ++ l :: after)).length = min (Text.lines source).length (p.line + 2) ∧
    e.lines = before ++ l :: after ∧ e.firstLine = (above.length + 1 : Nat) ∧
    e.text = joined "\n" (e.location :: (shown (above.length + 1) before ++
      (gutter p.line ++ l) :: caret p.line p.column :: shown (p.line + 1) after))

/-- The text is cut in front of the first and behind the last line that is shown. -/
theorem slice_eq (lines : List String) {start stop : Nat} (hs : start ≤ stop)
    (hl : stop ≤ lines.length) :
    ∃ above below, lines = above ++ slice lines start stop ++ below ∧ above.length = start ∧
      (above ++ slice lines start stop).length = stop := by
  have hslice : slice lines start stop = (lines.take stop).drop start := by
    have hstop : ¬ (stop : Int) < 0 := by omega
    simp only [slice, if_neg hstop, Int.toNat_natCast]
  have htake : (lines.take stop).take start ++ (lines.take stop).drop start = lines.take stop :=
    List.take_append_drop ..
  refine ⟨(lines.take stop).take start, lines.drop stop, ?_, ?_, ?_⟩
  · rw [hslice, htake, List.take_append_drop]
  · simp only [List.length_take]
    omega
  · rw [hslice, htake, List.length_take]
    omega

theorem shows_ofSource {p : Position} (name : Option String) (hp : p.On (Text.lines source)) :
    (ofSource source p.line p.column name defaultRadius).Shows source name p := by
  have hle := hp.line_le
  obtain ⟨hline, hcolumn, l, hl, hcol⟩ := hp
  generalize hall : Text.lines source = all at hl hle
  obtain ⟨above, below, hcut, habove, hheld⟩ := slice_eq all
    (show max 1 (p.line - 2) - 1 ≤ min all.length (p.line + 2) by omega) (Nat.min_le_left _ _)
  have hfirst : max 1 ((p.line : Int) - 2) = (max 1 (p.line - 2) : Nat) := by omega
  have hlines : (ofSource source p.line p.column name defaultRadius).lines =
      slice all (max 1 (p.line - 2) - 1) (min all.length (p.line + 2) : Nat) := by
    have hlast : min (all.length : Int) (p.line + 2) = (min all.length (p.line + 2) : Nat) := by
      omega
    have hstart : (((max 1 (p.line - 2) : Nat) : Int) - 1).toNat = max 1 (p.line - 2) - 1 := by
      omega
    simp only [ofSource, hall, defaultRadius, hfirst, hlast, hstart]
  generalize slice all _ _ = held at hcut hheld hlines
  have hlen : above.length + held.length = min all.length (p.line + 2) := by simpa using hheld
  -- the line of the place is one of those that are held
  have hget : held[p.line - 1 - above.length]? = some l := by
    rw [hcut, List.append_assoc, List.getElem?_append_right (by omega),
      List.getElem?_append_left (by omega)] at hl
    exact hl
  obtain ⟨before, after, rfl, hbefore⟩ :
      ∃ before after, held = before ++ l :: after ∧ before.length = p.line - 1 - above.length := by
    obtain ⟨hi, rfl⟩ := List.getElem?_eq_some_iff.mp hget
    refine ⟨held.take (p.line - 1 - above.length), held.drop (p.line - 1 - above.length + 1),
      ?_, ?_⟩
    · rw [List.getElem_cons_drop, List.take_append_drop]
    · rw [List.length_take]
      omega
  refine ⟨rfl, rfl, ?_, above, before, l, after, below, hall.trans hcut, ?_, hcol, by omega, ?_,
    hlines, ?_, ?_⟩
  · cases name <;> rfl
  · simp only [List.length_append]
    omega
  · rw [hall]
    exact hheld
  · simp only [ofSource, defaultRadius, hfirst]
    omega
  · rw [text, hlines, show (ofSource source p.line p.column name defaultRadius).firstLine =
      (above.length + 1 : Nat) by simp only [ofSource, defaultRadius, hfirst]; omega,
      numbered_append rfl rfl hcolumn before after (by omega)]

end Excerpt

end Scriptlet
