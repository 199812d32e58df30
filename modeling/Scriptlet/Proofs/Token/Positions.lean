import Scriptlet.Proofs.Token.Lexed

/-!
The tokens of a text stand one behind the other, so that no two of them are at the same position.
-/

namespace Scriptlet

/-- The order of places in a text. -/
def Position.Precedes (p q : Position) : Prop :=
  p.line < q.line ∨ p.line = q.line ∧ p.column < q.column

theorem Position.Precedes.ne {p q : Position} (h : p.Precedes q) : p ≠ q := by
  rintro rfl
  rcases h with h | ⟨-, h⟩ <;> exact absurd h (Nat.lt_irrefl _)

/-- A token at another place. -/
def Token.moved (f : Position → Position) (t : Token) : Token := { t with pos := f t.pos }

namespace Scanner

variable {s t u : Scanner} {c : Char} {cs : List Char} {p : Char → Bool} {token : Token}

/-- The start of the line is no later than the place. -/
def Sane (s : Scanner) : Prop := s.lineStart ≤ s.offset

/-- A place in a text, and one that is not in front of it. -/
structure Follows (s t : Scanner) : Prop where
  line : s.line < t.line ∨ s.line = t.line ∧ s.lineStart = t.lineStart
  offset : s.offset ≤ t.offset
  sane : s.Sane → t.Sane

theorem Follows.refl (s : Scanner) : Follows s s := ⟨.inr ⟨rfl, rfl⟩, Nat.le_refl _, id⟩

theorem Follows.trans (h : Follows s t) (h' : Follows t u) : Follows s u := by
  refine ⟨?_, Nat.le_trans h.offset h'.offset, h'.sane ∘ h.sane⟩
  have := h.line
  have := h'.line
  omega

theorem follows_skip (n : Nat) (cs : List Char) : Follows s (s.skip n cs) :=
  ⟨.inr ⟨rfl, rfl⟩, Nat.le_add_right _ _, fun h => Nat.le_trans h (Nat.le_add_right _ _)⟩

theorem follows_step (cs : List Char) : Follows s (s.step cs) := follows_skip 1 cs

theorem follows_newline (cs : List Char) : Follows s (s.newline cs) :=
  ⟨.inl (Nat.lt_succ_self _), Nat.le_succ _, fun _ => Nat.le_refl _⟩

theorem follows_skipBlank_go (cs : List Char) (s : Scanner) : Follows s (skipBlank.go cs s) := by
  induction cs generalizing s with
  | nil => exact .refl s
  | cons c cs ih =>
    simp only [skipBlank.go]
    split
    · exact (follows_step cs).trans (ih _)
    · split
      · exact (follows_newline cs).trans (ih _)
      · exact .refl s

theorem follows_readString_go (cs : List Char) (s : Scanner) :
    Follows s (readString.go cs s).2 := by
  induction cs generalizing s with
  | nil => exact .refl s
  | cons c cs ih =>
    simp only [readString.go]
    split
    · exact follows_step cs
    · refine Follows.trans ?_ (ih (s.read c cs))
      unfold read
      split
      · exact follows_newline cs
      · exact follows_step cs

theorem follows_readRun : Follows s (s.readRun p).2 := follows_skip _ _

/-- The token that is scanned stands at the place. -/
theorem scan_pos (s : Scanner) : s.scan.1.pos = s.pos := by
  unfold scan
  split
  · rfl
  · repeat' split
    all_goals rfl

theorem offset_readRun_lt (hs : s.rest = c :: cs) (hc : p c = true) :
    s.offset < (s.readRun p).2.offset := by
  simp [readRun, skip, hs, hc]

/-- Behind a token that is not the end there is another place. -/
theorem follows_scan (s : Scanner) :
    Follows s s.scan.2 ∧ (s.scan.1.kind ≠ .eof → s.offset < s.scan.2.offset) := by
  cases hs : s.rest with
  | nil => simp [scan, hs, Follows.refl]
  | cons c cs =>
    simp only [scan, hs]
    split
    · exact ⟨follows_newline cs, fun _ => Nat.lt_succ_self _⟩
    · split
      · have h := follows_readString_go cs (s.step cs)
        exact ⟨(follows_step cs).trans h, fun _ => Nat.lt_of_lt_of_le (Nat.lt_succ_self _) h.offset⟩
      · split
        · next hl =>
          exact ⟨follows_readRun, fun _ => offset_readRun_lt hs (by simp [isWordChar, hl])⟩
        · split
          · next hd => exact ⟨follows_readRun, fun _ => offset_readRun_lt hs hd⟩
          · split
            · exact ⟨follows_skip 2 _, fun _ => Nat.lt_add_of_pos_right (by decide)⟩
            · exact ⟨follows_step cs, fun _ => Nat.lt_succ_self _⟩

/-- A token that stands at a place or behind it. -/
def Holds (s : Scanner) (token : Token) : Prop := ∃ t, Follows s t ∧ token.pos = t.pos

theorem Holds.of_follows (h : Holds t token) (hs : Follows s t) : Holds s token := by
  obtain ⟨u, hu, hp⟩ := h
  exact ⟨u, hs.trans hu, hp⟩

theorem Holds.precedes (h : Holds t token) (hs : Follows s t) (hlt : s.offset < t.offset)
    (hsane : s.Sane) : s.pos.Precedes token.pos := by
  obtain ⟨u, hu, hp⟩ := h
  have hl := (hs.trans hu).line
  have ho := hu.offset
  simp only [Sane] at hsane
  simp only [Position.Precedes, hp, pos]
  omega

theorem follows_next (s : Scanner) : Follows s.skipBlank s.next.2 :=
  ⟨(follows_scan _).1.line, (follows_scan _).1.offset, (follows_scan _).1.sane⟩

theorem holds_tokens (n : Nat) (s : Scanner) : ∀ t ∈ s.tokens n, s.Holds t := by
  have hnext (s : Scanner) : s.Holds s.next.1 := ⟨_, follows_skipBlank_go _ _, scan_pos _⟩
  induction n generalizing s with
  | zero => simpa [tokens] using hnext s
  | succ n ih =>
    have hs : Follows s s.next.2 := (follows_skipBlank_go _ _).trans (follows_next s)
    simp only [tokens]
    split
    · simpa using hnext s
    · exact List.forall_mem_cons.mpr ⟨hnext s, fun t ht => (ih _ t ht).of_follows hs⟩

theorem pairwise_tokens (n : Nat) (hs : s.Sane) :
    (s.tokens n).Pairwise fun t u => t.pos.Precedes u.pos := by
  induction n generalizing s with
  | zero => exact List.pairwise_singleton _ _
  | succ n ih =>
    have hb : s.skipBlank.Sane := (follows_skipBlank_go _ _).sane hs
    simp only [tokens]
    split
    · exact List.pairwise_singleton _ _
    · next hk =>
      refine List.pairwise_cons.mpr ⟨fun u hu => ?_, ih ((follows_next s).sane hb)⟩
      have hp : s.next.1.pos = s.skipBlank.pos := scan_pos _
      exact hp ▸ (holds_tokens n _ u hu).precedes (follows_next s) ((follows_scan _).2 hk) hb

end Scanner

/-- The positions of the tokens of a text go up. -/
theorem pairwise_tokenize (source : String) :
    (tokenize source).Pairwise fun t u => t.pos.Precedes u.pos :=
  Scanner.pairwise_tokens _ (Nat.le_refl _)

end Scriptlet
