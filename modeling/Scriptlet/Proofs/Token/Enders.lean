import Scriptlet.Proofs.Token.Tiling

/-!
How many statements a text can end. Every semicolon token of a text comes from a semicolon or a line
end outside strings, and each of these makes at most one.
-/

namespace Scriptlet

open Scanner

variable {before after cs ds gap span value : List Char} {c d : Char} {k : Kind} {text : String}
  {t : Token} {ts us : List Token}

/-! ### Tokens -/

/-- The number of semicolons, line ends included. -/
def semicolons (ts : List Token) : Nat := ts.countP (·.kind = .semicolon)

@[simp] theorem semicolons_nil : semicolons [] = 0 := rfl

@[simp] theorem semicolons_cons :
    semicolons (t :: ts) = semicolons ts + if t.kind = .semicolon then 1 else 0 := by
  simp [semicolons, List.countP_cons]

@[simp] theorem semicolons_append : semicolons (ts ++ us) = semicolons ts + semicolons us :=
  List.countP_append

/-! ### Characters -/

/-- The number of semicolons and line ends outside strings. The flag says whether the characters
start in a string. -/
def enders : (inString : Bool) → List Char → Nat
  | _, [] => 0
  | inString, c :: cs =>
    if c = '"' then enders (!inString) cs
    else enders inString cs + if inString = false ∧ (c = ';' ∨ c = '\n') then 1 else 0

/-- Characters behind which one is outside strings, if one is in front of them. -/
def EvenQuotes (cs : List Char) : Prop :=
  ∀ ds, enders false (cs ++ ds) = enders false cs + enders false ds

/-- Characters that neither begin a string nor end a statement. -/
def PlainText (cs : List Char) : Prop := ∀ c ∈ cs, c ≠ '"' ∧ c ≠ ';' ∧ c ≠ '\n'

instance (cs : List Char) : Decidable (PlainText cs) :=
  List.decidableBAll (fun c => c ≠ '"' ∧ c ≠ ';' ∧ c ≠ '\n') cs

theorem enders_string (h : '"' ∉ value) (ds : List Char) :
    enders false ('"' :: (value ++ '"' :: ds)) = enders false ds := by
  have hin : enders true (value ++ '"' :: ds) = enders false ds := by
    induction value with
    | nil => simp [enders]
    | cons c value ih =>
      simp only [List.mem_cons, not_or] at h
      simpa [enders, Ne.symm h.1] using ih h.2
  simpa [enders] using hin

theorem enders_open (h : '"' ∉ value) : enders false ('"' :: value) = 0 := by
  have hin : enders true value = 0 := by
    induction value with
    | nil => rfl
    | cons c value ih =>
      simp only [List.mem_cons, not_or] at h
      simpa [enders, Ne.symm h.1] using ih h.2
  simpa [enders] using hin

theorem evenQuotes_of_no_quote (h : '"' ∉ cs) : EvenQuotes cs := by
  intro ds
  induction cs with
  | nil => simp [enders]
  | cons c cs ih =>
    simp only [List.mem_cons, not_or] at h
    simp only [List.cons_append, enders, Ne.symm h.1, if_false, ih h.2]
    omega

theorem evenQuotes_string (h : '"' ∉ value) : EvenQuotes ('"' :: (value ++ ['"'])) := by
  intro ds
  rw [enders_string h]
  simpa [enders] using enders_string h ds

theorem EvenQuotes.append (h : EvenQuotes cs) (h' : EvenQuotes ds) : EvenQuotes (cs ++ ds) := by
  intro es
  rw [List.append_assoc, h, h', h, Nat.add_assoc]

theorem EvenQuotes.enders_append (h : EvenQuotes cs) (ds : List Char) :
    enders false (cs ++ ds) = enders false cs + enders false ds := h ds

theorem EvenQuotes.of_append (h : EvenQuotes (cs ++ ds)) (h' : EvenQuotes cs) : EvenQuotes ds := by
  intro es
  have hl := h es
  rw [List.append_assoc, h', h'] at hl
  omega

theorem PlainText.evenQuotes (h : PlainText cs) : EvenQuotes cs :=
  evenQuotes_of_no_quote fun hq => (h _ hq).1 rfl

theorem PlainText.enders_eq (h : PlainText cs) : enders false cs = 0 := by
  induction cs with
  | nil => rfl
  | cons c cs ih =>
    obtain ⟨hc, hcs⟩ := List.forall_mem_cons.mp h
    simp [enders, hc, ih hcs]

/-! ### Tokens and their characters -/

theorem no_quote_of_isWordChar (h : ∀ c ∈ cs, isWordChar c = true) : '"' ∉ cs :=
  fun hq => absurd (h _ hq) (by decide)

theorem Kind.no_quote_of_ofPair? (h : ofPair? c d = some k) : '"' ∉ [c, d] := by
  unfold ofPair? at h
  split at h <;> simp_all

/-- What ends before the text does has both its quotes. -/
theorem Lexeme.evenQuotes (h : Lexeme before after span k text) (ha : after ≠ []) :
    EvenQuotes span := by
  cases h with
  | lineEnd => exact evenQuotes_of_no_quote (by decide)
  | string hq hc =>
    obtain rfl := hc.resolve_right fun hn => ha hn.2
    exact evenQuotes_string hq
  | word h => exact evenQuotes_of_no_quote (no_quote_of_isWordChar h.1.2)
  | int h =>
    refine evenQuotes_of_no_quote (no_quote_of_isWordChar fun c hc => ?_)
    simp [isWordChar, h.1.2 c hc]
  | pair h => exact evenQuotes_of_no_quote (Kind.no_quote_of_ofPair? h)
  | symbol h =>
    have hq := (Kind.startsMark_of_ofChar? h).2.2.1
    exact evenQuotes_of_no_quote (by simpa using Ne.symm hq)
  | illegal h =>
    refine evenQuotes_of_no_quote ?_
    rcases h with ⟨hc, -⟩ | ⟨-, hq, -⟩
    · rintro hq
      obtain rfl := List.mem_singleton.mp hq
      exact absurd hc (by decide)
    · simpa using Ne.symm hq

theorem Kind.eq_of_ofChar?_semicolon (h : ofChar? c = some .semicolon) : c = ';' := by
  unfold ofChar? at h
  split at h <;> simp_all

theorem Kind.ofWord_ne_semicolon (word : List Char) :
    (keywords.lookup word).getD .ident ≠ .semicolon := by
  rw [← ofWord_eq_lookup]
  exact (ofWord_ne word).2

theorem Lexeme.one_le_enders (h : Lexeme before after span k text) (hk : k = .semicolon) :
    1 ≤ enders false span := by
  cases h with
  | lineEnd => decide
  | string | int | illegal => cases hk
  | word => exact absurd hk (Kind.ofWord_ne_semicolon _)
  | pair h => exact absurd hk (Kind.ofPair?_ne h).2
  | symbol h =>
    subst hk
    obtain rfl := Kind.eq_of_ofChar?_semicolon h
    decide

theorem evenQuotes_of_isBlank (h : ∀ c ∈ gap, isBlank c = true) : EvenQuotes gap :=
  evenQuotes_of_no_quote fun hq => absurd (h _ hq) (by decide)

/-- A text has no more semicolon tokens than it can end statements. -/
theorem Tiles.semicolons_le (h : Tiles before cs ts) : semicolons ts ≤ enders false cs := by
  induction h with
  | eof => simp
  | @token before gap span after kind text ts hg hs hk hl h ih =>
    have hspan : enders false span + enders false after ≤ enders false (span ++ after) := by
      cases after with
      | nil => simp [enders]
      | cons c after => exact ((hl.evenQuotes (by simp)).enders_append _).ge
    rw [(evenQuotes_of_isBlank hg).enders_append, semicolons_cons]
    have hone := hl.one_le_enders
    split
    · next hkind =>
      have := hone hkind
      omega
    · omega

/-- A token of which the characters end in a semicolon, with that one outside strings. -/
theorem Lexeme.kind_eq_semicolon (h : Lexeme before after (span ++ [';']) k text)
    (hb : EvenQuotes span) : k = .semicolon := by
  generalize hs : span ++ [';'] = cs at h
  have hlast : cs.getLast? = some ';' := by simp [← hs]
  have hmem : ';' ∈ cs := List.mem_of_getLast? hlast
  cases h with
  | lineEnd => cases hlast
  | @string value closing hq hc =>
    rcases hc with rfl | ⟨rfl, -⟩
    · rw [← List.cons_append, List.getLast?_concat] at hlast
      simp at hlast
    · -- in a string that is not closed it would not end anything
      have hin := hb.enders_append [';']
      rw [hs, List.append_nil, enders_open hq] at hin
      simp [enders] at hin
  | word h => exact absurd (h.1.2 _ hmem) (by decide)
  | int h => exact absurd (h.1.2 _ hmem) (by decide)
  | @pair c d k h =>
    obtain rfl : d = ';' := by simpa using hlast
    simp [Kind.ofPair?_of_second] at h
  | @symbol c k h =>
    obtain rfl : c = ';' := by simpa using hlast
    exact (Option.some.inj h).symm
  | @illegal c h =>
    obtain rfl : c = ';' := by simpa using hlast
    rcases h with ⟨hc, -⟩ | ⟨-, -, -, hc, -⟩
    · exact absurd hc (by decide)
    · cases hc

theorem Tiles.of_nil (h : Tiles before [] ts) : ∃ e, ts = [e] := by
  generalize hcs : ([] : List Char) = cs at h
  cases h with
  | eof => exact ⟨_, rfl⟩
  | token _ hs => simp [hs] at hcs

/-- A text that ends in a semicolon, outside strings, has one in front of the end token. -/
theorem Tiles.exists_semicolon (h : Tiles before (cs ++ [';']) ts) (hb : EvenQuotes cs) :
    ∃ us t e, ts = us ++ [t, e] ∧ t.kind = .semicolon := by
  generalize hds : cs ++ [';'] = ds at h
  induction h generalizing cs with
  | eof hg => exact absurd (hg ';' (by simp [← hds])) (by decide)
  | @token before gap span after kind text ts hg hs hk hl h ih =>
    rcases List.eq_nil_or_concat after with rfl | ⟨after, c, rfl⟩
    · -- the semicolon is the end of this token
      obtain ⟨e, rfl⟩ := h.of_nil
      obtain ⟨span, c, rfl⟩ := (List.eq_nil_or_concat span).resolve_left hs
      simp only [List.concat_eq_append, List.append_nil, ← List.append_assoc] at hds hl
      obtain ⟨rfl, hc⟩ := List.append_inj' hds rfl
      obtain rfl : ';' = c := by simpa using hc
      have hspan := hb.of_append (evenQuotes_of_isBlank hg)
      exact ⟨[], _, e, rfl, hl.kind_eq_semicolon hspan⟩
    · simp only [List.concat_eq_append, ← List.append_assoc] at hds hl ih
      obtain ⟨rfl, hc⟩ := List.append_inj' hds rfl
      obtain rfl : ';' = c := by simpa using hc
      have hgap := (evenQuotes_of_isBlank hg).append (hl.evenQuotes (by simp))
      obtain ⟨us, t, e, rfl, ht⟩ := ih (hb.of_append hgap) rfl
      exact ⟨_ :: us, t, e, rfl, ht⟩

end Scriptlet
