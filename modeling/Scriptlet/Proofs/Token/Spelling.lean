import Scriptlet.Proofs.Token.Lexed

/-!
Texts that are read as given tokens wherever they stand. What the last token of a text is may depend
on the character behind it, so that each text comes with the characters that leave it alone.
-/

namespace Scriptlet

namespace Scanner

variable {s t u : Scanner} {c d : Char} {cs ds : List Char} {ts us : List Token}

/-- The tokens between two places. -/
inductive Scans : Scanner → List Token → Scanner → Prop where
  | nil (s : Scanner) : Scans s [] s
  | cons {s t : Scanner} {ts : List Token} (hk : s.next.1.kind ≠ .eof) (h : Scans s.next.2 ts t) :
    Scans s (s.next.1 :: ts) t

theorem Scans.append (h : Scans s ts t) (h' : Scans t us u) : Scans s (ts ++ us) u := by
  induction h with
  | nil => exact h'
  | cons hk _ ih => exact .cons hk (ih h')

theorem scans_next (hk : s.next.1.kind ≠ .eof) : Scans s [s.next.1] s.next.2 := .cons hk (.nil _)

/-- Whether a line end is a token depends on the last token. -/
theorem Scans.atEnd (h : Scans s ts t) (hn : ts ≠ []) :
    t.atEnd = (ts.getLast hn).kind.endsStatement := by
  induction h with
  | nil => exact absurd rfl hn
  | @cons s t ts hk h ih =>
    cases h with
    | nil => rfl
    | cons => exact ih (by simp)

/-- All tokens of a text are those up to its end, and the end token. -/
theorem Scans.tokens_eq (h : Scans s ts t) (ht : t.rest = []) {n : Nat} (hn : s.rest.length ≤ n) :
    ∃ e, s.tokens n = ts ++ [e] ∧ e.kind = .eof := by
  induction h generalizing n with
  | nil s =>
    refine ⟨s.next.1, ?_, next_nil ht⟩
    cases n with
    | zero => rfl
    | succ n => simp [tokens, next_nil ht]
  | cons hk h ih =>
    have hl := next_length_lt hk
    obtain ⟨n, rfl⟩ : ∃ m, n = m + 1 := ⟨n - 1, by omega⟩
    obtain ⟨e, he, hk'⟩ := ih ht (n := n) (by omega)
    exact ⟨e, by simp [tokens, hk, he], hk'⟩

/-- The characters that are passed over in front of a token. -/
def isBlank (c : Char) : Bool := c = ' ' || c = '\t' || c = '\r' || c = '\n'

theorem skipBlank_eq (hs : s.rest = c :: cs) (hc : isBlank c = false) : s.skipBlank = s := by
  simp only [isBlank, Bool.or_eq_false_iff, decide_eq_false_iff_not] at hc
  simp [skipBlank, skipBlank.go, hs, hc]

theorem next_space (hs : s.rest = ' ' :: cs) : s.next = (s.step cs).next := by
  have : s.skipBlank = (s.step cs).skipBlank := by
    simp [skipBlank, hs, skipBlank.go, step]
  simp [next, this]

theorem next_newline (hs : s.rest = '\n' :: cs) (he : s.atEnd = false) :
    s.next = (s.newline cs).next := by
  have : s.skipBlank = (s.newline cs).skipBlank := by
    simp [skipBlank, hs, skipBlank.go, newline, he]
  simp [next, this]

/-- A line end behind a token that can end a statement is a token. -/
theorem next_lineEnd (hs : s.rest = '\n' :: cs) (he : s.atEnd = true) :
    s.next.1.kind = .semicolon ∧ s.next.2.rest = cs := by
  have hb : s.skipBlank = s := by simp [skipBlank, hs, skipBlank.go, he]
  simp [next, hb, scan, hs, newline]

theorem Scans.of_next (h : Scans t ts u) (hn : ts ≠ []) (hs : s.next = t.next) : Scans s ts u := by
  cases h with
  | nil => exact absurd rfl hn
  | cons hk h =>
    rw [← hs] at hk h ⊢
    exact .cons hk h

end Scanner

open Scanner

variable {ok ok' : Char → Bool} {cs ds : List Char} {c d : Char} {k : Kind} {text : String}
  {D D' : List Token → Prop}

/-- Characters that are read as tokens with a property, in front of characters that may stand behind
them. -/
def Spelled (ok : Char → Bool) (cs : List Char) (D : List Token → Prop) : Prop :=
  ∀ ⦃s : Scanner⦄ ⦃ds⦄, s.rest = cs ++ ds → (∀ c ∈ ds.head?, ok c = true) →
    ∃ ts t, Scans s ts t ∧ t.rest = ds ∧ ShortLiterals ts ∧ D ts

/-- Tokens with one property and tokens with another one behind them. -/
def Then (D D' : List Token → Prop) (ts : List Token) : Prop :=
  ∃ us vs, ts = us ++ vs ∧ D us ∧ D' vs

/-- A single token. -/
def One (k : Kind) (text : String) (ts : List Token) : Prop :=
  ∃ t, ts = [t] ∧ t.kind = k ∧ t.text = text

/-- The first of some characters, of which there are any. -/
def Starts (ok : Char → Bool) (cs : List Char) : Prop := ∃ c ds, cs = c :: ds ∧ ok c = true

theorem Starts.append (h : Starts ok cs) : Starts ok (cs ++ ds) := by
  obtain ⟨c, cs, rfl, hc⟩ := h
  exact ⟨c, cs ++ ds, rfl, hc⟩

theorem Starts.mono (h : Starts ok cs) (hok : ∀ c, ok c = true → ok' c = true) : Starts ok' cs := by
  obtain ⟨c, cs, rfl, hc⟩ := h
  exact ⟨c, cs, rfl, hok c hc⟩

theorem Spelled.mono (h : Spelled ok cs D) (hD : ∀ ts, D ts → D' ts) : Spelled ok cs D' := by
  intro s ds hs hok
  obtain ⟨ts, t, hts, ht, hl, hd⟩ := h hs hok
  exact ⟨ts, t, hts, ht, hl, hD ts hd⟩

theorem Spelled.weaken (h : Spelled ok cs D) (hok : ∀ c, ok' c = true → ok c = true) :
    Spelled ok' cs D :=
  fun _ _ hs hd => h hs fun c hc => hok c (hd c hc)

theorem Spelled.append (h : Spelled ok cs D) (h' : Spelled ok' ds D') (hd : Starts ok ds) :
    Spelled ok' (cs ++ ds) (Then D D') := by
  intro s es hs hok
  obtain ⟨c, ds, rfl, hc⟩ := hd
  obtain ⟨ts, t, hts, ht, hl, hD⟩ := @h s (c :: ds ++ es) (by simpa using hs)
    fun d hd => by simp_all
  obtain ⟨us, u, hus, hu, hl', hD'⟩ := h' ht hok
  exact ⟨ts ++ us, u, hts.append hus, hu, hl.append hl', ts, us, rfl, hD, hD'⟩

theorem Spelled.space (h : Spelled ok cs D) (hD : ∀ ts, D ts → ts ≠ []) :
    Spelled ok (' ' :: cs) D := by
  intro s ds hs hok
  obtain ⟨ts, t, hts, ht, hl, hd⟩ := h (s := s.step (cs ++ ds)) rfl hok
  exact ⟨ts, t, hts.of_next (hD ts hd) (next_space hs), ht, hl, hd⟩

/-- The next token has the given kind and text, and the given characters are left behind it. -/
structure Scanner.NextIs (s : Scanner) (k : Kind) (text : String) (ds : List Char) : Prop where
  kind : s.next.1.kind = k
  text : s.next.1.text = text
  rest : s.next.2.rest = ds

/-- What is scanned in front of a character that is not passed over is the next token. -/
theorem nextIs_of_scan {s : Scanner} (hs : s.rest = c :: cs) (hc : isBlank c = false)
    (h : s.scan.1.kind = k ∧ s.scan.1.text = text ∧ s.scan.2.rest = ds) : s.NextIs k text ds := by
  have hn : s.next.1 = s.scan.1 ∧ s.next.2.rest = s.scan.2.rest := by
    simp [next, skipBlank_eq hs hc]
  exact ⟨hn.1 ▸ h.1, hn.1 ▸ h.2.1, hn.2.trans h.2.2⟩

/-- Characters that are read as one token. -/
theorem spelled_of_nextIs (hk : k ≠ .eof) (hl : k = .int → text.toList.length ≤ Number.digitLimit)
    (h : ∀ (s : Scanner) ds, s.rest = cs ++ ds → (∀ c ∈ ds.head?, ok c = true) →
      s.NextIs k text ds) : Spelled ok cs (One k text) := by
  intro s ds hs hok
  obtain ⟨hk', ht, hr⟩ := h s ds hs hok
  refine ⟨[s.next.1], s.next.2, scans_next (hk' ▸ hk), hr, ?_, s.next.1, rfl, hk', ht⟩
  intro t hmem hint
  obtain rfl := List.mem_singleton.mp hmem
  rw [ht]
  exact hl (hk'.symm.trans hint)

/-- A character that is no blank and starts no word, number or string, with a kind of token that is
none of these. -/
abbrev StartsMark (c : Char) (k : Kind) : Prop :=
  isBlank c = false ∧ c ≠ '\n' ∧ c ≠ '"' ∧ isLetter c = false ∧ isDigit c = false ∧
    k ≠ .eof ∧ k ≠ .int

theorem Kind.startsMark_of_ofChar? (h : ofChar? c = some k) : StartsMark c k := by
  unfold ofChar? at h
  split at h <;> simp_all <;> subst h <;> decide

theorem nextIs_symbol {s : Scanner} (h : Kind.ofChar? c = some k) (hs : s.rest = c :: ds)
    (hp : ∀ d ∈ ds.head?, Kind.ofPair? c d = none) : s.NextIs k (String.singleton c) ds := by
  obtain ⟨hb, hn, hq, hl, hd, -⟩ := Kind.startsMark_of_ofChar? h
  have hnone : ds.head?.bind (Kind.ofPair? c) = none := Option.bind_eq_none_iff.mpr hp
  exact nextIs_of_scan hs hb (by simp [scan, hs, hn, hq, hl, hd, hnone, h, step])

theorem spelled_symbol (h : Kind.ofChar? c = some k) :
    Spelled (fun d => (Kind.ofPair? c d).isNone) [c] (One k (String.singleton c)) := by
  obtain ⟨-, -, -, -, -, he, hi⟩ := Kind.startsMark_of_ofChar? h
  exact spelled_of_nextIs he (absurd · hi) fun s ds hs hok =>
    nextIs_symbol h hs fun d hd => by simpa using hok d hd

theorem Kind.startsMark_of_ofPair? (h : ofPair? c d = some k) : StartsMark c k := by
  unfold ofPair? at h
  split at h <;> simp_all <;> subst h <;> decide

/-- Whether a character can be the first of two that spell something together. -/
def startsPair (c : Char) : Bool := ['=', '!', '<', '>', '&', '|'].contains c

theorem Kind.ofPair?_of_first (hc : startsPair c = false) (d : Char) : ofPair? c d = none := by
  unfold ofPair?
  split <;> simp_all [startsPair]

/-- The second of a pair is an equality sign or the first once more. -/
theorem Kind.ofPair?_of_second (hd : d ≠ '=') (h : c ∉ ['&', '|'] ∨ d ∉ ['&', '|']) :
    ofPair? c d = none := by
  unfold ofPair?
  split <;> simp_all

theorem nextIs_pair {s : Scanner} (h : Kind.ofPair? c d = some k) (hs : s.rest = c :: d :: ds) :
    s.NextIs k k.text ds := by
  obtain ⟨hb, hn, hq, hl, hd, -⟩ := Kind.startsMark_of_ofPair? h
  exact nextIs_of_scan hs hb (by simp [scan, hs, hn, hq, hl, hd, h, skip])

theorem spelled_pair (h : Kind.ofPair? c d = some k) :
    Spelled (fun _ => true) [c, d] (One k k.text) := by
  obtain ⟨-, -, -, -, -, he, hi⟩ := Kind.startsMark_of_ofPair? h
  exact spelled_of_nextIs he (absurd · hi) fun s ds hs _ => nextIs_pair h hs

theorem readRun_append {p : Char → Bool} {s : Scanner} (hs : s.rest = cs ++ ds)
    (hc : ∀ c ∈ cs, p c = true) (hd : ∀ c ∈ ds.head?, p c = false) :
    (s.readRun p).1 = cs ∧ (s.readRun p).2.rest = ds := by
  have ht : ds.takeWhile p = [] ∧ ds.dropWhile p = ds := by
    cases ds with
    | nil => exact ⟨rfl, rfl⟩
    | cons d ds => simp [List.takeWhile, List.dropWhile, hd d rfl]
  simp [readRun, skip, hs, List.takeWhile_append_of_pos hc, List.dropWhile_append_of_pos hc, ht]

/-- The characters that end a word. -/
def endsWord (c : Char) : Bool := !isWordChar c

theorem Kind.ofWord_ne_int (word : List Char) : ofWord word ≠ .int := by
  unfold ofWord
  split <;> simp

theorem isWordChar_ne (hc : isWordChar c = true) : isBlank c = false ∧ c ≠ '\n' ∧ c ≠ '"' := by
  have hne (d : Char) (hd : isWordChar d = false) : c ≠ d := by
    rintro rfl
    simp [hc] at hd
  refine ⟨?_, hne _ rfl, hne _ rfl⟩
  simp only [isBlank, Bool.or_eq_false_iff, decide_eq_false_iff_not]
  exact ⟨⟨⟨hne _ rfl, hne _ rfl⟩, hne _ rfl⟩, hne _ rfl⟩

theorem isLetter_of_isDigit (hc : isDigit c = true) : isLetter c = false := by
  have hr : 48 ≤ c.toNat ∧ c.toNat ≤ 57 := by
    simpa [isDigit, Char.le_def, UInt32.le_iff_toNat_le] using hc
  have hu : c ≠ '_' := by
    rintro rfl
    simp at hr
  simp only [isLetter, Char.le_def, UInt32.le_iff_toNat_le]
  simp [hu]
  change (97 ≤ c.toNat → 123 ≤ c.toNat) ∧ (65 ≤ c.toNat → 91 ≤ c.toNat)
  omega

theorem nextIs_word {s : Scanner} (hc : isLetter c = true) (hcs : ∀ d ∈ cs, isWordChar d = true)
    (hs : s.rest = c :: cs ++ ds) (hd : ∀ d ∈ ds.head?, isWordChar d = false) :
    s.NextIs (.ofWord (c :: cs)) (String.ofList (c :: cs)) ds := by
  have hcw : isWordChar c = true := by simp [isWordChar, hc]
  obtain ⟨hb, hn, hq⟩ := isWordChar_ne hcw
  have hr := readRun_append hs (List.forall_mem_cons.mpr ⟨hcw, hcs⟩) hd
  rw [List.cons_append] at hs
  exact nextIs_of_scan hs hb (by simp [scan, hs, hn, hq, hc, hr])

theorem spelled_word (hc : isLetter c = true) (hcs : ∀ d ∈ cs, isWordChar d = true) :
    Spelled endsWord (c :: cs) (One (.ofWord (c :: cs)) (String.ofList (c :: cs))) :=
  spelled_of_nextIs (Kind.ofWord_ne _).1 (absurd · (Kind.ofWord_ne_int _)) fun s ds hs hok =>
    nextIs_word hc hcs hs fun d hd => by simpa [endsWord] using hok d hd

theorem nextIs_digits {s : Scanner} (hc : isDigit c = true) (hcs : ∀ d ∈ cs, isDigit d = true)
    (hs : s.rest = c :: cs ++ ds) (hd : ∀ d ∈ ds.head?, isDigit d = false) :
    s.NextIs .int (String.ofList (c :: cs)) ds := by
  obtain ⟨hb, hn, hq⟩ := isWordChar_ne (c := c) (by simp [isWordChar, hc])
  have hlt := isLetter_of_isDigit hc
  have hr := readRun_append hs (List.forall_mem_cons.mpr ⟨hc, hcs⟩) hd
  rw [List.cons_append] at hs
  exact nextIs_of_scan hs hb (by simp [scan, hs, hn, hq, hlt, hc, hr])

theorem spelled_digits (hc : isDigit c = true) (hcs : ∀ d ∈ cs, isDigit d = true)
    (hl : cs.length < Number.digitLimit) :
    Spelled endsWord (c :: cs) (One .int (String.ofList (c :: cs))) := by
  have hlen : (c :: cs).length ≤ Number.digitLimit := Nat.succ_le_of_lt hl
  refine spelled_of_nextIs (by simp) (fun _ => by simpa using hlen) fun s ds hs hok =>
    nextIs_digits hc hcs hs fun d hd => ?_
  have hw := hok d hd
  simp only [endsWord, isWordChar, Bool.not_or, Bool.and_eq_true, Bool.not_eq_true'] at hw
  exact hw.2

theorem readString_go_append (s : Scanner) (ds : List Char) (hq : '"' ∉ cs) :
    (readString.go (cs ++ '"' :: ds) s).1 = cs ∧
      (readString.go (cs ++ '"' :: ds) s).2.rest = ds := by
  induction cs generalizing s with
  | nil => simp [readString.go, step]
  | cons c cs ih =>
    simp only [List.mem_cons, not_or] at hq
    simp [readString.go, Ne.symm hq.1, ih _ hq.2]

theorem nextIs_string {s : Scanner} (hq : '"' ∉ cs) (hs : s.rest = '"' :: (cs ++ '"' :: ds)) :
    s.NextIs .string (String.ofList cs) ds := by
  have hr := readString_go_append (s.step (cs ++ '"' :: ds)) ds hq
  refine nextIs_of_scan hs (by decide) ?_
  simp [scan, hs, readString, step] at hr ⊢
  simpa [hr.1] using hr.2

theorem spelled_string (hq : '"' ∉ cs) :
    Spelled (fun _ => true) ('"' :: (cs ++ ['"'])) (One .string (String.ofList cs)) :=
  spelled_of_nextIs (by simp) (by simp) fun s ds hs _ => nextIs_string hq (by simpa using hs)

/-! ### Symbols between other tokens -/

/-- A character that is a symbol whatever stands behind it. -/
def IsSymbol (c : Char) (k : Kind) : Prop :=
  Kind.ofChar? c = some k ∧ ∀ d, Kind.ofPair? c d = none

theorem isSymbol_of_ofChar? (h : Kind.ofChar? c = some k)
    (hc : startsPair c = false) : IsSymbol c k :=
  ⟨h, Kind.ofPair?_of_first hc⟩

theorem IsSymbol.endsWord (h : IsSymbol c k) : endsWord c = true := by
  obtain ⟨-, -, -, hl, hd, -⟩ := Kind.startsMark_of_ofChar? h.1
  simp [Scriptlet.endsWord, isWordChar, hl, hd]

theorem spelled_nil : Spelled ok [] (· = []) := by
  intro s ds hs _
  exact ⟨[], s, .nil s, hs, by simp [ShortLiterals], rfl⟩

theorem IsSymbol.spelled (h : IsSymbol c k) :
    Spelled (fun _ => true) [c] (fun ts => ∃ t, ts = [t] ∧ t.kind = k) := by
  refine ((spelled_symbol h.1).weaken fun d _ => by simp [h.2]).mono ?_
  rintro ts ⟨t, rfl, hk, -⟩
  exact ⟨t, rfl, hk⟩

/-- A symbol in front. -/
theorem Spelled.cons (h : Spelled ok cs D) (hc : IsSymbol c k) :
    Spelled ok (c :: cs) (fun ts => ∃ t us, ts = t :: us ∧ t.kind = k ∧ D us) := by
  intro s ds hs hok
  obtain ⟨_, t, hts, ht, hl, u, rfl, hk⟩ := @IsSymbol.spelled _ _ hc s (cs ++ ds) hs (by simp)
  obtain ⟨us, v, hus, hv, hl', hD⟩ := h ht hok
  exact ⟨u :: us, v, hts.append hus, hv, hl.append hl', u, us, rfl, hk, hD⟩

/-- A symbol behind. -/
theorem Spelled.concat (h : Spelled endsWord cs D) (hc : IsSymbol c k) :
    Spelled (fun _ => true) (cs ++ [c]) (fun ts => ∃ us t, ts = us ++ [t] ∧ D us ∧ t.kind = k) := by
  refine (h.append hc.spelled ⟨c, [], rfl, hc.endsWord⟩).mono ?_
  rintro _ ⟨us, _, rfl, hD, t, rfl, hk⟩
  exact ⟨us, t, rfl, hD, hk⟩

/-- A symbol and a space between two parts. -/
theorem Spelled.separated (h : Spelled endsWord cs D) (hc : IsSymbol c k) (h' : Spelled ok ds D')
    (hn : ∀ ts, D' ts → ts ≠ []) : Spelled ok (cs ++ c :: ' ' :: ds)
      (fun ts => ∃ us t vs, ts = us ++ t :: vs ∧ D us ∧ t.kind = k ∧ D' vs) := by
  refine (h.append ((h'.space hn).cons hc) ⟨c, _, rfl, hc.endsWord⟩).mono ?_
  rintro _ ⟨us, _, rfl, hD, t, vs, rfl, hk, hD'⟩
  exact ⟨us, t, vs, rfl, hD, hk, hD'⟩

end Scriptlet
