import Scriptlet.Proofs.Token.Appending
import Scriptlet.Proofs.Token.LineEnds
import Scriptlet.Proofs.Token.Respelling

/-!
The tokens of a text, written one behind the other with a space behind each, make a text whose
tokens look the same.
-/

namespace Scriptlet

open Scanner

/-- The characters that a token of a kind and a text is written with: a string in quotes, and other
tokens as they are. -/
def Kind.written (k : Kind) (text : String) : List Char :=
  if k = .string then '"' :: (text.toList ++ ['"']) else text.toList

/-- Tokens but for the end token, written with a space behind each. -/
def spaced (ts : List Token) : List Char :=
  (ts.filter (·.kind ≠ .eof)).flatMap fun t => t.kind.written t.text ++ [' ']

variable {s : Scanner} {before after cs ds gap span : List Char} {last : Option Kind} {k : Kind}
  {text : String} {p : Position} {ts : List Token} {n : Nat}

/-! ### One token -/

theorem Kind.written_of_ne (hk : k ≠ .string) : k.written text = text.toList := if_neg hk

theorem nextIs_lineEnd (hs : s.rest = '\n' :: ds) (he : s.atEnd = true) :
    s.NextIs .semicolon "\n" ds :=
  ⟨(next_lineEnd hs he).1, next_lineEnd_text hs he, (next_lineEnd hs he).2⟩

/-- No two characters, of which the second is a space, are a token. -/
theorem Kind.ofPair?_space (c : Char) : ofPair? c ' ' = none :=
  ofPair?_of_second (by decide) (.inr (by decide))

theorem nextIs_illegal {c : Char} (h : c ∈ ['&', '|'] ∨ Foreign c) (hs : s.rest = c :: ' ' :: ds) :
    s.NextIs .illegal (String.ofList [c]) (' ' :: ds) := by
  have hc : isBlank c = false ∧ c ≠ '"' ∧ isWordChar c = false ∧ Kind.ofChar? c = none := by
    rcases h with hc | ⟨hb, hq, hw, hk, -⟩
    · simp only [List.mem_cons, List.not_mem_nil, or_false] at hc
      rcases hc with rfl | rfl <;> decide
    · exact ⟨hb, hq, hw, hk⟩
  obtain ⟨hb, hq, hw, hk⟩ := hc
  have hn : c ≠ '\n' := by
    rintro rfl
    cases hb
  simp only [isWordChar, Bool.or_eq_false_iff] at hw
  refine nextIs_of_scan hs hb ?_
  simp [scan, hs, hn, hq, hw, Kind.ofPair?_space, hk, step]

/-- What a token of any text is written with, in front of a space, is read as a token that looks the
same. Only a line end depends on the token in front of it. -/
theorem Lexeme.nextIs_written (h : Lexeme before after span k text)
    (he : k = .semicolon → text = "\n" → s.atEnd = true)
    (hs : s.rest = k.written text ++ ' ' :: ds) : s.NextIs k text (' ' :: ds) := by
  have hspace {p : Char → Bool} (hp : p ' ' = false) : ∀ d ∈ (' ' :: ds).head?, p d = false := by
    simpa using hp
  cases h with
  | lineEnd => exact nextIs_lineEnd hs (he rfl rfl)
  | string hq => exact nextIs_string hq (by simpa [Kind.written] using hs)
  | word h =>
    obtain ⟨⟨c, hc, hl⟩, hword⟩ := h.1
    obtain ⟨cs, rfl⟩ := List.head?_eq_some_iff.mp hc
    rw [← Kind.ofWord_eq_lookup] at hs ⊢
    rw [Kind.written_of_ne (Kind.ofWord_ne_string _), String.toList_ofList] at hs
    exact nextIs_word hl (List.forall_mem_cons.mp hword).2 hs (hspace rfl)
  | int h =>
    obtain ⟨c, cs, rfl⟩ := List.exists_cons_of_ne_nil h.1.1
    obtain ⟨hc, hcs⟩ := List.forall_mem_cons.mp h.1.2
    exact nextIs_digits hc hcs (by simpa [Kind.written] using hs) (hspace rfl)
  | pair h =>
    rw [Kind.written_of_ne (Kind.ofPair?_ne_ident h).2, String.toList_ofList] at hs
    rw [← Kind.text_of_ofPair? h]
    exact nextIs_pair h hs
  | @symbol c k h =>
    rw [Kind.written_of_ne (Kind.ofChar?_ne_ident h).2, String.toList_ofList] at hs
    rw [← String.singleton_eq_ofList]
    exact nextIs_symbol h hs fun d hd => by
      obtain rfl : ' ' = d := by simpa using hd
      exact Kind.ofPair?_space c
  | illegal h => exact nextIs_illegal (h.imp (·.1) id) (by simpa [Kind.written] using hs)

/-! ### Tokens in a row -/

/-- Behind a token of the given kind, the tokens are read back from what they are written with. -/
def Rereads (last : Option Kind) (ts : List Token) : Prop :=
  ∀ (s : Scanner) (n : Nat), s.rest = spaced ts → s.LastIs last → s.rest.length ≤ n →
    Alike (s.tokens n) ts

theorem spaced_cons (hk : k ≠ .eof) :
    spaced (⟨k, text, p⟩ :: ts) = k.written text ++ ' ' :: spaced ts := by
  simp [spaced, hk]

theorem next_end (hs : s.rest = []) : s.next.1 = ⟨.eof, "", s.pos⟩ := by
  simp [next, skipBlank, skipBlank.go, scan, hs]

theorem rereads_eof : Rereads last [⟨.eof, "", p⟩] := by
  intro s n hs _ _
  have htokens : s.tokens n = [⟨.eof, "", s.pos⟩] := by
    cases n <;> simp [tokens, next_end hs]
  rw [htokens]
  rfl

theorem Rereads.cons (h : Rereads (some k) ts) (hl : Lexeme before after span k text)
    (he : k = .semicolon → text = "\n" → ∃ j ∈ last, j ∈ closers) (hk : k ≠ .eof) :
    Rereads last (⟨k, text, p⟩ :: ts) := by
  intro s n hs hlast hn
  rw [spaced_cons hk] at hs
  obtain ⟨hkind, htext, hrest⟩ := hl.nextIs_written (fun hk ht => hlast.mpr (he hk ht)) hs
  obtain ⟨n, rfl⟩ : ∃ m, n = m + 1 := ⟨n - 1, by simp [hs] at hn; omega⟩
  rw [tokens]
  have hlast' : s.next.2.LastIs (some k) := hkind ▸ lastIs_next s
  have htail : Alike (s.next.2.tokens n) ts := by
    rw [tokens_congr (next_space hrest)]
    refine h _ n rfl hlast' ?_
    simp [hs] at hn
    simp [step]
    omega
  simp only [hkind, hk, if_false]
  simpa [Alike, Token.face, hkind, htext] using htail

/-- A line end in front is read back where it is one, behind a token that can end a statement. -/
theorem Rereads.lineEndsIn (h : ∀ last, Rereads last ts) (last : Option Kind)
    (before gap : List Char) : Rereads last (lineEndsIn last before gap ++ ts) := by
  unfold Scriptlet.lineEndsIn
  split
  · next hc =>
    have hl : Lexeme [] [] ['\n'] .semicolon "\n" := .lineEnd
    exact (h (some .semicolon)).cons hl (fun _ _ => hc.1) (by simp)
  · exact h last

theorem Gapped.rereads (h : Gapped last before cs ts) : Rereads last ts := by
  induction h with
  | eof => exact Rereads.lineEndsIn (fun _ => rereads_eof) _ _ _
  | token _ _ hk hn hl _ ih =>
    exact Rereads.lineEndsIn (fun _ => ih.cons hl (fun hs ht => absurd ⟨hs, ht⟩ hn) hk) _ _ _

/-- The tokens of a text are read back from what they are written with, with a space behind each. -/
theorem tokenize_spaced (source : String) :
    (tokenize (String.ofList (spaced (tokenize source)))).map Token.face =
      (tokenize source).map Token.face := by
  have h : Rereads none (tokenize source) :=
    (gapped_tokens _ (Nat.le_refl _) (behind_ofText source) apart_nil
      (lastIs_ofText source)).rereads
  exact h _ _ String.toList_ofList (lastIs_ofText _) (Nat.le_refl _)

end Scriptlet
