import Mathlib.Tactic.ByContra
import Scriptlet.Number.Numeral
import Scriptlet.Token.Scanner

/-! What the tokens of a text are like, whatever the text: the last one is the only end token, and a
line end stands only behind a token that can end a statement. -/

namespace Scriptlet

/-- Tokens as they come out of a text. -/
inductive Lexed : List Token → Prop where
  | eof {t : Token} (h : t.kind = .eof) : Lexed [t]
  | cons {t u : Token} {ts : List Token} (ht : t.kind ≠ .eof)
    (hu : u.isLineEnd → t.kind.endsStatement) (h : Lexed (u :: ts)) : Lexed (t :: u :: ts)

variable {s : Scanner} {t : Token} {ts : List Token}

theorem Lexed.ne_nil (h : Lexed ts) : ts ≠ [] := by
  cases h <;> simp

theorem Lexed.tail (h : Lexed (t :: ts)) (hs : ts ≠ []) : Lexed ts := by
  cases h with
  | eof => exact absurd rfl hs
  | cons _ _ h => exact h

/-- Only the last token is the end token. -/
theorem Lexed.eq_nil_iff (h : Lexed (t :: ts)) : ts = [] ↔ t.kind = .eof := by
  cases h with
  | eof he => simp [he]
  | cons ht => simp [ht]

theorem Lexed.of_append {us : List Token} (h : Lexed (us ++ ts)) (hts : ts ≠ []) : Lexed ts := by
  induction us with
  | nil => exact h
  | cons u us ih => exact ih (h.tail (by simp [hts]))

/-- What is in front of some tokens can be in front of others that do not start with a line end. -/
theorem Lexed.append_cons {us vs : List Token} (h : Lexed (us ++ vs)) (hvs : vs ≠ [])
    (ht : Lexed (t :: ts)) (hl : t.isLineEnd = false) : Lexed (us ++ t :: ts) := by
  induction us with
  | nil => exact ht
  | cons u us ih =>
    have hu : u.kind ≠ .eof := fun he => by simpa [hvs] using h.eq_nil_iff.mpr he
    have hrest := ih (h.tail (by simp [hvs]))
    cases us with
    | nil => exact .cons hu (by simp [hl]) hrest
    | cons v us =>
      cases h with
      | cons _ hv _ => exact .cons hu hv hrest

/-- Some integer has more digits than can be read. -/
def LongLiteral (ts : List Token) : Prop :=
  ∃ t ∈ ts, t.kind = .int ∧ Number.digitLimit < t.text.toList.length

/-- No integer has more digits than can be read. -/
def ShortLiterals (ts : List Token) : Prop :=
  ∀ t ∈ ts, t.kind = .int → t.text.toList.length ≤ Number.digitLimit

theorem LongLiteral.mono {us : List Token} (h : LongLiteral ts) (hs : ts <:+ us) :
    LongLiteral us := by
  obtain ⟨t, ht, hk⟩ := h
  exact ⟨t, hs.subset ht, hk⟩

theorem ShortLiterals.not_longLiteral (h : ShortLiterals ts) : ¬ LongLiteral ts := by
  rintro ⟨t, ht, hk, hl⟩
  have := h t ht hk
  omega

theorem ShortLiterals.append {us : List Token} (h : ShortLiterals ts) (h' : ShortLiterals us) :
    ShortLiterals (ts ++ us) := by
  intro t ht
  rcases List.mem_append.mp ht with ht | ht
  · exact h t ht
  · exact h' t ht

namespace Scanner

theorem skipBlank_go_length (cs : List Char) (hs : s.rest = cs) :
    (skipBlank.go cs s).rest.length ≤ s.rest.length := by
  induction cs generalizing s with
  | nil => simp [skipBlank.go]
  | cons c cs ih =>
    simp only [skipBlank.go]
    split
    · exact Nat.le_trans (ih rfl) (by simp [hs, step])
    · split
      · exact Nat.le_trans (ih rfl) (by simp [hs, newline])
      · exact Nat.le_refl _

theorem skipBlank_length : s.skipBlank.rest.length ≤ s.rest.length := skipBlank_go_length _ rfl

/-- White space that is passed over ends in front of a line end only where that ends a statement. -/
theorem skipBlank_go_newline (cs : List Char) (hs : s.rest = cs) {ds : List Char}
    (h : (skipBlank.go cs s).rest = '\n' :: ds) : s.atEnd = true := by
  induction cs generalizing s with
  | nil => simp [skipBlank.go, hs] at h
  | cons c cs ih =>
    simp only [skipBlank.go] at h
    split at h
    · exact ih (s := s.step cs) rfl h
    · split at h
      · exact ih (s := s.newline cs) rfl h
      · next _ hn =>
        rw [hs] at h
        simp only [List.cons.injEq] at h
        simpa [h.1] using hn

theorem readString_go_length (cs : List Char) :
    (readString.go cs s).2.rest.length ≤ max cs.length s.rest.length := by
  induction cs generalizing s with
  | nil => simp [readString.go]
  | cons c cs ih =>
    simp only [readString.go]
    split
    · change cs.length ≤ max (cs.length + 1) s.rest.length
      omega
    · have hr : (s.read c cs).rest = cs := by simp only [read]; split <;> rfl
      have := ih (s := s.read c cs)
      simp only [hr] at this
      simp
      omega

theorem readRun_length_lt {p : Char → Bool} {c : Char} {cs : List Char} (hs : s.rest = c :: cs)
    (hc : p c = true) : (s.readRun p).2.rest.length < s.rest.length := by
  simp only [readRun, skip, hs, List.dropWhile_cons_of_pos hc, List.length_cons]
  exact Nat.lt_succ_of_le (List.dropWhile_suffix p).length_le

/-- Every token but the end token takes a character at least. -/
theorem scan_length_lt (hs : s.rest ≠ []) : s.scan.2.rest.length < s.rest.length := by
  obtain ⟨c, cs, hc⟩ := List.exists_cons_of_ne_nil hs
  simp only [scan, hc]
  split
  · simp [newline]
  · split
    · have := readString_go_length (s := s.step cs) cs
      simp only [readString, step] at this ⊢
      simp at this ⊢
      omega
    · split
      · next hl => simpa [hc] using readRun_length_lt hc (by simp [isWordChar, hl])
      · split
        · next hd => simpa [hc] using readRun_length_lt hc hd
        · split
          · change (cs.drop 1).length < (c :: cs).length
            rw [List.length_drop, List.length_cons]
            omega
          · exact Nat.lt_succ_self cs.length

theorem scan_nil (hs : s.rest = []) : s.scan.1.kind = .eof := by
  simp [scan, hs]

end Scanner

theorem Kind.ofWord_ne (word : List Char) : ofWord word ≠ .eof ∧ ofWord word ≠ .semicolon := by
  unfold ofWord
  split <;> simp

theorem Kind.ofPair?_ne {c d : Char} {k : Kind} (h : ofPair? c d = some k) :
    k ≠ .eof ∧ k ≠ .semicolon := by
  unfold ofPair? at h
  split at h <;> simp_all <;> subst h <;> simp

theorem Kind.ofChar?_ne (c : Char) : (ofChar? c).getD .illegal ≠ .eof := by
  unfold ofChar?
  split <;> simp

namespace Scanner

/-- A line end is made from a line end. -/
theorem scan_isLineEnd (h : s.scan.1.isLineEnd = true) : ∃ cs, s.rest = '\n' :: cs := by
  cases hs : s.rest with
  | nil => simp [scan, hs, Token.isLineEnd] at h
  | cons c cs =>
    simp only [scan, hs, Token.isLineEnd, Bool.and_eq_true, beq_iff_eq] at h
    split at h
    · next hc => exact ⟨cs, by simp [hc]⟩
    · split at h
      · simp at h
      · split at h
        · exact absurd h.1 (Kind.ofWord_ne _).2
        · split at h
          · simp at h
          · split at h
            · next hk =>
              obtain ⟨d, -, hd⟩ := Option.bind_eq_some_iff.mp hk
              exact absurd h.1 (Kind.ofPair?_ne hd).2
            · next hc _ _ _ _ _ =>
              have hn := congrArg String.toList h.2
              simp only [String.toList_singleton] at hn
              exact absurd (by simpa using hn) hc

theorem next_length_lt (h : s.next.1.kind ≠ .eof) : s.next.2.rest.length < s.rest.length := by
  have hs : s.skipBlank.rest ≠ [] := fun hs => h (scan_nil hs)
  exact Nat.lt_of_lt_of_le (scan_length_lt hs) skipBlank_length

theorem next_nil (hs : s.rest = []) : s.next.1.kind = .eof := by
  apply scan_nil
  have := skipBlank_length (s := s)
  simpa [hs] using this

theorem next_isLineEnd (h : s.next.1.isLineEnd = true) : s.atEnd = true := by
  obtain ⟨cs, hc⟩ := scan_isLineEnd h
  exact skipBlank_go_newline _ rfl hc

theorem tokens_head (n : Nat) : ∃ ts, s.tokens n = s.next.1 :: ts := by
  cases n with
  | zero => exact ⟨[], rfl⟩
  | succ n =>
    simp only [tokens]
    split <;> exact ⟨_, rfl⟩

theorem lexed_tokens (n : Nat) (hn : s.rest.length ≤ n) : Lexed (s.tokens n) := by
  induction n generalizing s with
  | zero => exact .eof (next_nil (List.eq_nil_of_length_eq_zero (by omega)))
  | succ n ih =>
    simp only [tokens]
    split
    · next h => exact .eof h
    · next h =>
      have hl := next_length_lt h
      have hi := ih (s := s.next.2) (by omega)
      obtain ⟨ts, ht⟩ := tokens_head (s := s.next.2) n
      rw [ht] at hi ⊢
      exact .cons h next_isLineEnd hi

end Scanner

/-- The tokens of any text are lexed. -/
theorem lexed_tokenize (source : String) : Lexed (tokenize source) :=
  Scanner.lexed_tokens _ (Nat.le_refl _)

end Scriptlet
