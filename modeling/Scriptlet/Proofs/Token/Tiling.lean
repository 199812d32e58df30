import Scriptlet.Proofs.Token.Positions
import Scriptlet.Proofs.Token.Respelling

/-!
The tokens of a text cover it. Between two of them stands white space only, each of them has the
characters it was read from, and no name or integer is a part of a longer one.
-/

namespace Scriptlet

open Scanner

/-! ### Places -/

/-- The place behind a character. -/
def Position.advance (p : Position) (c : Char) : Position :=
  if c = '\n' then ⟨p.line + 1, 1⟩ else ⟨p.line, p.column + 1⟩

/-- The place behind the first characters of a text. -/
def Position.behind (before : List Char) : Position := before.foldl advance ⟨1, 1⟩

/-! ### What the characters of a token are -/

/-- A part of a text that cannot be extended on either side to a longer one of the same form. -/
def Maximal (form : List Char → Prop) (before span after : List Char) : Prop :=
  form span ∧ ∀ x y, x <:+ before → y <+: after → form (x ++ span ++ y) → x = [] ∧ y = []

/-- A letter, and letters and digits behind it. -/
def IsWord (cs : List Char) : Prop :=
  (∃ c ∈ cs.head?, isLetter c = true) ∧ ∀ c ∈ cs, isWordChar c = true

/-- Digits. -/
def IsDigits (cs : List Char) : Prop := cs ≠ [] ∧ ∀ c ∈ cs, isDigit c = true

/-- The words that are no names. -/
def keywords : List (List Char × Kind) :=
  [(['i', 'f'], .kwIf), (['e', 'l', 's', 'e'], .kwElse), (['t', 'r', 'u', 'e'], .kwTrue),
    (['f', 'a', 'l', 's', 'e'], .kwFalse), (['f', 'n'], .kwFn),
    (['r', 'e', 't', 'u', 'r', 'n'], .kwReturn)]

/-- A character that stands in no token but in strings. -/
def Foreign (c : Char) : Prop :=
  isBlank c = false ∧ c ≠ '"' ∧ isWordChar c = false ∧ Kind.ofChar? c = none ∧ c ∉ ['&', '|']

/-- The kind and the text of a token that is read from the characters `span`, in a text with the
characters `before` in front of them and `after` behind them. -/
inductive Lexeme (before after : List Char) : List Char → Kind → String → Prop where
  | lineEnd : Lexeme before after ['\n'] .semicolon "\n"
  | string {value closing : List Char} (hq : '"' ∉ value)
    (hc : closing = ['"'] ∨ closing = [] ∧ after = []) :
    Lexeme before after ('"' :: (value ++ closing)) .string (String.ofList value)
  | word {word : List Char} (h : Maximal IsWord before word after) :
    Lexeme before after word ((keywords.lookup word).getD .ident) (String.ofList word)
  | int {digits : List Char} (h : Maximal IsDigits before digits after) :
    Lexeme before after digits .int (String.ofList digits)
  | pair {c d : Char} {k : Kind} (h : Kind.ofPair? c d = some k) :
    Lexeme before after [c, d] k (String.ofList [c, d])
  | symbol {c : Char} {k : Kind} (h : Kind.ofChar? c = some k)
    (ha : c ∈ ['=', '!', '<', '>'] → after.head? ≠ some '=') :
    Lexeme before after [c] k (String.ofList [c])
  | illegal {c : Char} (h : c ∈ ['&', '|'] ∧ after.head? ≠ some c ∨ Foreign c) :
    Lexeme before after [c] .illegal (String.ofList [c])

/-- The characters of a text behind its first ones, cut into the tokens and the white space between
them; the end token stands behind the last character. -/
inductive Tiles : List Char → List Char → List Token → Prop where
  | eof {before gap : List Char} (hg : ∀ c ∈ gap, isBlank c = true) :
    Tiles before gap [⟨.eof, "", .behind (before ++ gap)⟩]
  | token {before gap span after : List Char} {kind : Kind} {text : String} {ts : List Token}
    (hg : ∀ c ∈ gap, isBlank c = true) (hs : span ≠ []) (hk : kind ≠ .eof)
    (hl : Lexeme (before ++ gap) after span kind text)
    (h : Tiles (before ++ gap ++ span) after ts) :
    Tiles before (gap ++ (span ++ after)) (⟨kind, text, .behind (before ++ gap)⟩ :: ts)

variable {before after cs ds gap span : List Char} {c d : Char} {s t : Scanner} {k : Kind}
  {text : String} {p : Char → Bool}

/-! ### Keeping the place -/

namespace Scanner

/-- The scanner has read the given characters. -/
structure Behind (s : Scanner) (before : List Char) : Prop where
  sane : s.Sane
  pos : s.pos = .behind before

theorem behind_ofText (source : String) : (Scanner.ofText source).Behind [] :=
  ⟨Nat.le_refl _, rfl⟩

theorem Behind.newline (h : s.Behind before) (cs : List Char) :
    (s.newline cs).Behind (before ++ ['\n']) := by
  refine ⟨Nat.le_refl _, ?_⟩
  have hp := congrArg Position.line h.pos
  simp only [Position.behind, Scanner.pos] at hp
  simp [Position.behind, Scanner.pos, Position.advance, Scanner.newline, ← hp]

theorem Behind.step (h : s.Behind before) (hc : c ≠ '\n') (cs : List Char) :
    (s.step cs).Behind (before ++ [c]) := by
  have hsane : s.lineStart ≤ s.offset := h.sane
  refine ⟨Nat.le_succ_of_le hsane, ?_⟩
  have hp := h.pos
  simp only [Position.behind, Scanner.pos] at hp
  simp only [Position.behind, List.foldl_append, List.foldl_cons, List.foldl_nil, ← hp, hc,
    Position.advance, Scanner.pos, Scanner.step, if_false, Position.mk.injEq, true_and]
  omega

theorem Behind.read (h : s.Behind before) (cs : List Char) :
    (s.read c cs).Behind (before ++ [c]) := by
  unfold Scanner.read
  split
  · next hc => exact hc ▸ h.newline cs
  · next hc => exact h.step hc cs

theorem Behind.skip (h : s.Behind before) (span : List Char) (hs : '\n' ∉ span) :
    (s.skip span.length cs).Behind (before ++ span) := by
  induction span generalizing s before with
  | nil => simpa [Scanner.skip] using ⟨h.sane, h.pos⟩
  | cons c span ih =>
    simp only [List.mem_cons, not_or] at hs
    have hi := ih (h.step (Ne.symm hs.1) cs) hs.2
    simpa [Scanner.skip, Scanner.step, Nat.add_comm, Nat.add_left_comm] using hi

/-- White space in front of the remaining characters, and the scanner behind it. -/
structure Gap (before cs gap : List Char) (t : Scanner) : Prop where
  rest : cs = gap ++ t.rest
  blank : ∀ c ∈ gap, isBlank c = true
  behind : t.Behind (before ++ gap)
  head : ∀ c ∈ t.rest.head?, isBlank c = true → c = '\n'

theorem Gap.cons (h : Gap (before ++ [c]) cs gap t) (hc : isBlank c = true) :
    Gap before (c :: cs) (c :: gap) t :=
  ⟨congrArg (List.cons c) h.rest, List.forall_mem_cons.mpr ⟨hc, h.blank⟩,
    by simpa using h.behind, h.head⟩

theorem exists_gap_go (cs : List Char) (hs : s.rest = cs) (h : s.Behind before) :
    ∃ gap, Gap before cs gap (skipBlank.go cs s) := by
  induction cs generalizing s before with
  | nil => exact ⟨[], hs.symm, by simp, by simpa [skipBlank.go] using h, by simp [skipBlank.go, hs]⟩
  | cons c cs ih =>
    simp only [skipBlank.go]
    split
    · next hc =>
      have hb : isBlank c = true := by rw [isBlank, hc, Bool.true_or]
      have hn : c ≠ '\n' := by
        rintro rfl
        simp at hc
      obtain ⟨gap, hgap⟩ := ih (s := s.step cs) rfl (h.step hn cs)
      exact ⟨c :: gap, hgap.cons hb⟩
    · next hb =>
      split
      · next hc =>
        obtain ⟨rfl, -⟩ : c = '\n' ∧ s.atEnd = false := by simpa using hc
        obtain ⟨gap, hgap⟩ := ih (s := s.newline cs) rfl (h.newline cs)
        exact ⟨'\n' :: gap, hgap.cons rfl⟩
      · refine ⟨[], hs.symm, by simp, by simpa using h, fun d hd hblank => ?_⟩
        obtain rfl : c = d := by simpa [hs] using hd
        simpa [isBlank, or_assoc] using Or.resolve_left (by simpa [isBlank] using hblank) hb

/-- White space is passed over up to the next token. -/
theorem exists_gap (h : s.Behind before) : ∃ gap, Gap before s.rest gap s.skipBlank :=
  exists_gap_go _ rfl h

/-- A string is read up to its closing quote, or to the end of the text. -/
theorem exists_readString_go (cs : List Char) (hs : s.rest = cs) (h : s.Behind before) :
    ∃ closing, cs = (readString.go cs s).1 ++ closing ++ (readString.go cs s).2.rest ∧
      (closing = ['"'] ∨ closing = [] ∧ (readString.go cs s).2.rest = []) ∧
      (readString.go cs s).2.Behind (before ++ ((readString.go cs s).1 ++ closing)) := by
  induction cs generalizing s before with
  | nil => exact ⟨[], by simp [readString.go, hs], .inr ⟨rfl, hs⟩, by simpa [readString.go] using h⟩
  | cons c cs ih =>
    simp only [readString.go]
    split
    · next hc =>
      subst hc
      exact ⟨['"'], rfl, .inl rfl, h.step (by decide) cs⟩
    · have hr : (s.read c cs).rest = cs := by
        unfold Scanner.read
        split <;> rfl
      obtain ⟨closing, hcs, hclosing, hbehind⟩ := ih hr (h.read cs)
      exact ⟨closing, by simpa using hcs, hclosing, by simpa using hbehind⟩

end Scanner

/-! ### Words and integers are not cut -/

/-- Where a character of a word follows, the word characters in front of it are none, or the digits
of an integer in front of a name. -/
def Apart (before after : List Char) : Prop :=
  ∀ c ∈ after.head?, isWordChar c = true → ∀ x, x <:+ before → (∀ d ∈ x, isWordChar d = true) →
    x = [] ∨ isDigit c = false ∧ ∀ d ∈ x, isDigit d = true

theorem apart_nil : Apart [] after :=
  fun _ _ _ _ hx _ => .inl (List.suffix_nil.mp hx)

theorem apart_of_head (h : ∀ c ∈ after.head?, isWordChar c = false) : Apart before after :=
  fun c hc hw => absurd hw (by simp [h c hc])

theorem apart_concat (hc : isWordChar c = false) : Apart (before ++ [c]) after := by
  intro d _ _ x hx hword
  refine .inl (by_contra fun hn => ?_)
  have hlast : x.getLast hn = c := by
    obtain ⟨y, hy⟩ := hx
    have := congrArg List.getLast? hy
    simpa [List.getLast?_append, List.getLast?_eq_some_getLast hn] using this
  have := hword _ (List.getLast_mem hn)
  simp [hlast, hc] at this

theorem apart_append_blank (h : Apart before (gap ++ after)) (hg : ∀ c ∈ gap, isBlank c = true) :
    Apart (before ++ gap) after := by
  rcases List.eq_nil_or_concat gap with rfl | ⟨gap, c, rfl⟩
  · simpa using h
  · have hc : isWordChar c = false := by simpa [endsWord] using endsWord_of_isBlank (hg c (by simp))
    rw [List.concat_eq_append, ← List.append_assoc]
    exact apart_concat hc

theorem apart_append_digits (h : Apart before (span ++ after)) (hs : IsDigits span)
    (ha : ∀ c ∈ after.head?, isDigit c = false) : Apart (before ++ span) after := by
  intro c hc _ x hx hword
  refine .inr ⟨ha c hc, ?_⟩
  rcases List.suffix_or_suffix_of_suffix hx (List.suffix_append before span) with hx | ⟨y, rfl⟩
  · exact fun e he => hs.2 e (hx.subset he)
  · -- nothing of an integer or a name stands in front of its first digit
    obtain ⟨d, ds, rfl⟩ := List.exists_cons_of_ne_nil hs.1
    have hd : isDigit d = true := hs.2 d (by simp)
    have hy : y <:+ before := (List.suffix_append_self_iff).mp hx
    rcases h d rfl (by simp [isWordChar, hd]) y hy fun e he => hword e (by simp [he]) with rfl | hy
    · simpa using hs.2
    · simp [hd] at hy

/-- Characters of one class behind a part of a text are none if the next one is not of the class. -/
theorem eq_nil_of_head (ha : ∀ c ∈ after.head?, p c = false) (hd : ds <+: after)
    (hp : ∀ c ∈ ds, p c = true) : ds = [] := by
  cases ds with
  | nil => rfl
  | cons d ds =>
    obtain ⟨es, rfl⟩ := hd
    simpa [ha d rfl] using hp d (by simp)

theorem maximal_word (h : Apart before (span ++ after)) (hs : IsWord span)
    (ha : ∀ c ∈ after.head?, isWordChar c = false) : Maximal IsWord before span after := by
  refine ⟨hs, fun x y hx hy hxy => ⟨?_, eq_nil_of_head ha hy fun c hc => hxy.2 c (by simp [hc])⟩⟩
  obtain ⟨⟨c, hc, hl⟩, hword⟩ := hs
  obtain ⟨ds, rfl⟩ : ∃ ds, span = c :: ds := by simpa [List.head?_eq_some_iff] using hc
  rcases h c rfl (hword c (by simp)) x hx fun d hd => hxy.2 d (by simp [hd]) with hx | ⟨-, hx⟩
  · exact hx
  · -- digits in front of the word begin no word
    cases x with
    | nil => rfl
    | cons d ds =>
      obtain ⟨e, he, hle⟩ := hxy.1
      obtain rfl : d = e := by simpa using he
      simp [isLetter_of_isDigit (hx d (by simp))] at hle

theorem maximal_digits (h : Apart before (span ++ after)) (hs : IsDigits span)
    (ha : ∀ c ∈ after.head?, isDigit c = false) : Maximal IsDigits before span after := by
  refine ⟨hs, fun x y hx hy hxy => ⟨?_, eq_nil_of_head ha hy fun c hc => hxy.2 c (by simp [hc])⟩⟩
  obtain ⟨c, ds, rfl⟩ := List.exists_cons_of_ne_nil hs.1
  have hc : isDigit c = true := hs.2 c (by simp)
  have hword : ∀ d ∈ x, isWordChar d = true := fun d hd => by
    simp [isWordChar, hxy.2 d (by simp [hd])]
  rcases h c rfl (by simp [isWordChar, hc]) x hx hword with hx | ⟨hn, -⟩
  · exact hx
  · simp [hc] at hn

theorem Maximal.not_concat {form : List Char → Prop} (h : Maximal form before span after)
    (hc : c ∈ after.head?) : ¬ form (span ++ [c]) := by
  intro hlong
  obtain ⟨ds, rfl⟩ : ∃ ds, after = c :: ds := by simpa [List.head?_eq_some_iff] using hc
  simpa using (h.2 [] [c] List.nil_suffix ⟨ds, rfl⟩ hlong).2

theorem Maximal.head_word (h : Maximal IsWord before span after) :
    ∀ c ∈ after.head?, isWordChar c = false := by
  intro c hc
  by_contra hw
  obtain ⟨⟨d, hd, hl⟩, hs⟩ := h.1
  refine h.not_concat hc ⟨⟨d, by simp_all, hl⟩, ?_⟩
  simpa [or_imp, forall_and] using ⟨hs, by simpa using hw⟩

theorem Maximal.head_digits (h : Maximal IsDigits before span after) :
    ∀ c ∈ after.head?, isDigit c = false := by
  intro c hc
  by_contra hd
  refine h.not_concat hc ⟨by simp, ?_⟩
  simpa [or_imp, forall_and] using ⟨h.1.2, by simpa using hd⟩

theorem Kind.isWordChar_of_ofPair? (h : ofPair? c d = some k) : isWordChar d = false := by
  unfold ofPair? at h
  split at h <;> first | rfl | simp at h

/-- Behind a token no word is cut. -/
theorem Lexeme.apart (h : Lexeme before after span k text) (ha : Apart before (span ++ after)) :
    Apart (before ++ span) after := by
  cases h with
  | lineEnd => exact apart_concat rfl
  | string _ hc =>
    rcases hc with rfl | ⟨rfl, rfl⟩
    · rw [← List.cons_append, ← List.append_assoc]
      exact apart_concat rfl
    · exact apart_of_head (by simp)
  | word h => exact apart_of_head h.head_word
  | int h => exact apart_append_digits ha h.1 h.head_digits
  | @pair c d k h =>
    rw [show [c, d] = [c] ++ [d] from rfl, ← List.append_assoc]
    exact apart_concat (Kind.isWordChar_of_ofPair? h)
  | symbol h =>
    obtain ⟨-, -, -, hl, hd, -⟩ := Kind.startsMark_of_ofChar? h
    exact apart_concat (by simp [isWordChar, hl, hd])
  | @illegal c h =>
    refine apart_concat ?_
    rcases h with ⟨hc, -⟩ | ⟨-, -, hc, -⟩
    · simp only [List.mem_cons, List.not_mem_nil, or_false] at hc
      rcases hc with rfl | rfl <;> rfl
    · exact hc

/-! ### One token -/

theorem Kind.ofWord_eq_lookup (word : List Char) :
    ofWord word = (keywords.lookup word).getD .ident := by
  unfold ofWord
  split
  case h_7 =>
    have hnone : keywords.lookup word = none := List.lookup_eq_none_iff.mpr (by simp_all [keywords])
    simp [hnone]
  all_goals rfl

theorem Kind.ofWord_ne_string (word : List Char) : ofWord word ≠ .string := by
  unfold ofWord
  split <;> simp

theorem Kind.ofPair?_ne_ident (h : ofPair? c d = some k) :
    k ≠ .ident ∧ k ≠ .string := by
  unfold ofPair? at h
  split at h <;> simp_all <;> subst h <;> simp

theorem Kind.ofChar?_ne_ident (h : ofChar? c = some k) :
    k ≠ .ident ∧ k ≠ .string := by
  unfold ofChar? at h
  split at h <;> simp_all <;> subst h <;> simp

theorem Kind.text_of_ofPair? (h : ofPair? c d = some k) : k.text = String.ofList [c, d] := by
  unfold ofPair? at h
  split at h <;> simp at h <;> subst h <;> rfl

theorem head_readRun (p : Char → Bool) (s : Scanner) :
    ∀ c ∈ (s.readRun p).2.rest.head?, p c = false := by
  intro c hc
  have := List.head?_dropWhile_not p s.rest
  simp_all [readRun, Scanner.skip]

/-- A run of characters that are no line ends. -/
theorem behind_readRun (h : s.Behind before) (hp : p '\n' = false) :
    (s.readRun p).2.Behind (before ++ (s.readRun p).1) :=
  h.skip _ fun hn => by simpa [hp] using List.mem_takeWhile_imp hn

theorem readRun_rest (p : Char → Bool) (s : Scanner) :
    s.rest = (s.readRun p).1 ++ (s.readRun p).2.rest :=
  (List.takeWhile_append_dropWhile).symm

/-- A token and the characters that it is read from. -/
structure Reads (before span : List Char) (s t : Scanner) (k : Kind) (text : String) : Prop where
  rest : s.rest = span ++ t.rest
  ne_nil : span ≠ []
  behind : t.Behind (before ++ span)
  lexeme : Lexeme before t.rest span k text
  ne_eof : k ≠ .eof

theorem reads_string (hs : s.rest = '"' :: cs) (h : s.Behind before) :
    ∃ span, Reads before span s (s.step cs).readString.2 .string
      (String.ofList (s.step cs).readString.1) := by
  obtain ⟨closing, hcs, hclosing, hbehind⟩ :=
    exists_readString_go cs rfl (h.step (c := '"') (by decide) cs)
  refine ⟨'"' :: ((s.step cs).readString.1 ++ closing), ?_, by simp, ?_, ?_, by simp⟩
  · rw [hs, List.cons_append]
    exact congrArg (List.cons '"') hcs
  · simpa [readString, Scanner.step] using hbehind
  · exact .string (readString_go_no_quote _ _) hclosing

theorem reads_word (hs : s.rest = c :: cs) (h : s.Behind before) (ha : Apart before s.rest)
    (hc : isLetter c = true) :
    ∃ span, Reads before span s (s.readRun isWordChar).2 (.ofWord (s.readRun isWordChar).1)
      (String.ofList (s.readRun isWordChar).1) := by
  have hrun : (s.readRun isWordChar).1 = c :: cs.takeWhile isWordChar := by
    simp [readRun, hs, isWordChar, hc]
  have hword : IsWord (s.readRun isWordChar).1 :=
    ⟨⟨c, by simp [hrun], hc⟩, fun d hd => List.mem_takeWhile_imp hd⟩
  refine ⟨_, readRun_rest _ _, by simp [hrun], behind_readRun h rfl, ?_, (Kind.ofWord_ne _).1⟩
  rw [readRun_rest isWordChar s] at ha
  rw [Kind.ofWord_eq_lookup]
  exact .word (maximal_word ha hword (head_readRun _ _))

theorem reads_digits (hs : s.rest = c :: cs) (h : s.Behind before) (ha : Apart before s.rest)
    (hc : isDigit c = true) :
    ∃ span, Reads before span s (s.readRun isDigit).2 .int
      (String.ofList (s.readRun isDigit).1) := by
  have hrun : (s.readRun isDigit).1 = c :: cs.takeWhile isDigit := by simp [readRun, hs, hc]
  have hdigits : IsDigits (s.readRun isDigit).1 :=
    ⟨by simp [hrun], fun d hd => List.mem_takeWhile_imp hd⟩
  refine ⟨_, readRun_rest _ _, by simp [hrun], behind_readRun h rfl, ?_, by simp⟩
  rw [readRun_rest isDigit s] at ha
  exact .int (maximal_digits ha hdigits (head_readRun _ _))

theorem reads_pair (hs : s.rest = c :: d :: cs) (h : s.Behind before)
    (hk : Kind.ofPair? c d = some k) : Reads before [c, d] s (s.skip 2 cs) k k.text := by
  have hd : d ≠ '\n' := by
    rintro rfl
    simp [Kind.ofPair?_of_second] at hk
  have hc : c ≠ '\n' := (Kind.startsMark_of_ofPair? hk).2.1
  refine ⟨hs, by simp, h.skip [c, d] (by simp [hc.symm, hd.symm]), ?_,
    (Kind.ofPair?_ne hk).1⟩
  rw [Kind.text_of_ofPair? hk]
  exact .pair hk

/-- A single character is an operator, or it is no token. -/
theorem reads_symbol (hs : s.rest = c :: cs) (h : s.Behind before) (hn : c ≠ '\n')
    (hb : isBlank c = false) (hq : c ≠ '"') (hw : isWordChar c = false)
    (hp : cs.head?.bind (Kind.ofPair? c) = none) :
    Reads before [c] s (s.step cs) ((Kind.ofChar? c).getD .illegal) (String.singleton c) := by
  refine ⟨hs, by simp, h.step hn cs, ?_, Kind.ofChar?_ne c⟩
  rw [String.singleton_eq_ofList]
  cases hk : Kind.ofChar? c with
  | some k =>
    refine .symbol hk fun hc hd => ?_
    simp only [Scanner.step] at hd
    simp only [List.mem_cons, List.not_mem_nil, or_false] at hc
    rcases hc with rfl | rfl | rfl | rfl <;> simp [hd, Kind.ofPair?] at hp
  | none =>
    refine .illegal ?_
    by_cases hc : c ∈ ['&', '|']
    · refine .inl ⟨hc, fun hd => ?_⟩
      simp only [Scanner.step] at hd
      simp only [List.mem_cons, List.not_mem_nil, or_false] at hc
      rcases hc with rfl | rfl <;> simp [hd, Kind.ofPair?] at hp
    · exact .inr ⟨hb, hq, hw, hk, hc⟩

/-- A token takes the characters that it stands for. -/
theorem reads_scan (hs : s.rest ≠ []) (h : s.Behind before) (ha : Apart before s.rest)
    (hb : ∀ c ∈ s.rest.head?, isBlank c = true → c = '\n') :
    ∃ span, Reads before span s s.scan.2 s.scan.1.kind s.scan.1.text := by
  obtain ⟨c, cs, hc⟩ := List.exists_cons_of_ne_nil hs
  simp only [scan, hc]
  split
  · next hn =>
    subst hn
    exact ⟨['\n'], hc, by simp, h.newline cs, .lineEnd, by simp⟩
  · next hn =>
    split
    · next hq => exact reads_string (hq ▸ hc) h
    · next hq =>
      split
      · next hl => exact reads_word hc h ha hl
      · next hl =>
        split
        · next hd => exact reads_digits hc h ha hd
        · next hd =>
          split
          · next k hk =>
            obtain ⟨d, hd, hk⟩ := Option.bind_eq_some_iff.mp hk
            obtain ⟨ds, rfl⟩ := List.head?_eq_some_iff.mp hd
            exact ⟨[c, d], reads_pair hc h hk⟩
          · next hp =>
            have hblank : isBlank c = false := by
              simpa using fun hblank => hn (hb c (by simp [hc]) hblank)
            exact ⟨[c], reads_symbol hc h hn hblank hq (by simp [isWordChar, hl, hd]) hp⟩

/-- The next token, behind some white space and read from some characters; the end token is read
from none, at the end of the text. -/
structure Yields (before gap span : List Char) (s : Scanner) : Prop where
  rest : s.rest = gap ++ (span ++ s.next.2.rest)
  blank : ∀ c ∈ gap, isBlank c = true
  pos : s.next.1.pos = .behind (before ++ gap)
  behind : s.next.2.Behind (before ++ gap ++ span)
  apart : Apart (before ++ gap ++ span) s.next.2.rest
  token : s.next.1.kind = .eof ∧ s.next.1.text = "" ∧ span = [] ∧ s.next.2.rest = [] ∨
    s.next.1.kind ≠ .eof ∧ span ≠ [] ∧
      Lexeme (before ++ gap) s.next.2.rest span s.next.1.kind s.next.1.text

theorem exists_yields (h : s.Behind before) (ha : Apart before s.rest) :
    ∃ gap span, Yields before gap span s := by
  obtain ⟨gap, hgap⟩ := exists_gap h
  have hapart : Apart (before ++ gap) s.skipBlank.rest :=
    apart_append_blank (hgap.rest ▸ ha) hgap.blank
  have hpos : s.next.1.pos = .behind (before ++ gap) := (scan_pos _).trans hgap.behind.pos
  by_cases hs : s.skipBlank.rest = []
  · have hscan : s.skipBlank.scan = (⟨.eof, "", s.skipBlank.pos⟩, s.skipBlank) := by
      simp only [scan, hs]
    have hrest : s.next.2.rest = [] := by simp [next, hscan, hs]
    have hbehind : s.next.2.Behind (before ++ gap) := by
      simpa [next, hscan] using ⟨hgap.behind.sane, hgap.behind.pos⟩
    refine ⟨gap, [], by simpa [hs, hrest] using hgap.rest, hgap.blank, hpos, by simpa using hbehind,
      apart_of_head (by simp [hrest]), .inl ⟨?_, ?_, rfl, hrest⟩⟩ <;> simp [next, hscan]
  · obtain ⟨span, hr⟩ := reads_scan hs hgap.behind hapart hgap.head
    exact ⟨gap, span, hgap.rest.trans (by rw [hr.rest]; rfl), hgap.blank, hpos,
      ⟨hr.behind.sane, hr.behind.pos⟩, hr.lexeme.apart (hr.rest ▸ hapart),
      .inr ⟨hr.ne_eof, hr.ne_nil, hr.lexeme⟩⟩

/-! ### All tokens -/

/-- At the end of a text is the end token. -/
theorem Yields.tokens_end (h : Yields before gap span s) (hk : s.next.1.kind = .eof) (n : Nat) :
    s.rest = gap ∧ s.tokens n = [⟨.eof, "", .behind (before ++ gap)⟩] := by
  obtain ⟨-, htext, rfl, hrest⟩ | ⟨hne, -⟩ := h.token
  · have hnext : s.next.1 = ⟨.eof, "", .behind (before ++ gap)⟩ := by
      rw [← hk, ← htext, ← h.pos]
    have htokens : s.tokens n = [s.next.1] := by
      cases n with
      | zero => rfl
      | succ n => simp [tokens, hk]
    refine ⟨?_, hnext ▸ htokens⟩
    rw [h.rest, hrest, List.append_nil, List.append_nil]
  · exact absurd hk hne

theorem Yields.tiles_end (h : Yields before gap span s) (hk : s.next.1.kind = .eof) (n : Nat) :
    Tiles before s.rest (s.tokens n) := by
  obtain ⟨hrest, htokens⟩ := h.tokens_end hk n
  rw [hrest, htokens]
  exact .eof h.blank

theorem tiles_tokens (n : Nat) (hn : s.rest.length ≤ n) (h : s.Behind before)
    (ha : Apart before s.rest) : Tiles before s.rest (s.tokens n) := by
  induction n generalizing s before with
  | zero =>
    obtain ⟨gap, span, hy⟩ := exists_yields h ha
    refine hy.tiles_end (by_contra fun hk => ?_) 0
    have hlt := next_length_lt hk
    omega
  | succ n ih =>
    obtain ⟨gap, span, hy⟩ := exists_yields h ha
    by_cases hk : s.next.1.kind = .eof
    · exact hy.tiles_end hk _
    · obtain ⟨heof, -⟩ | ⟨-, hne, hl⟩ := hy.token
      · exact absurd heof hk
      have hlt := next_length_lt hk
      have htail := ih (s := s.next.2) (by omega) hy.behind hy.apart
      have hnext : s.next.1 = ⟨s.next.1.kind, s.next.1.text, .behind (before ++ gap)⟩ := by
        rw [← hy.pos]
      rw [tokens]
      simp only [hk, if_false]
      rw [hy.rest, hnext]
      exact .token hy.blank hne hk hl htail

/-- The tokens of a text, and the white space between them, are all of it. -/
theorem tiles_tokenize (source : String) : Tiles [] source.toList (tokenize source) :=
  tiles_tokens _ (Nat.le_refl _) (behind_ofText source) apart_nil

end Scriptlet
