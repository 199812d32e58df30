import Scriptlet.Proofs.Grammar.Face
import Scriptlet.Proofs.Token.Appending

/-!
Scanners in front of the same characters read tokens that look the same, wherever the characters
stand. So what is written into a text between two tokens leaves the others as they are.
-/

namespace Scriptlet

namespace Scanner

variable {s t u : Scanner} {c : Char} {cs : List Char} {ts : List Token} {m n : Nat}

/-- Both scanners have the same characters ahead, and a line end there is for both a token or for
none. -/
structure Level (s t : Scanner) : Prop where
  rest : s.rest = t.rest
  atEnd : s.atEnd = t.atEnd

theorem Level.step (h : Level s t) (cs : List Char) : Level (s.step cs) (t.step cs) :=
  ⟨rfl, h.atEnd⟩

theorem Level.newline (h : Level s t) (cs : List Char) : Level (s.newline cs) (t.newline cs) :=
  ⟨rfl, h.atEnd⟩

theorem Level.skipBlank_go (h : Level s t) (cs : List Char) :
    Level (skipBlank.go cs s) (skipBlank.go cs t) := by
  induction cs generalizing s t with
  | nil => exact h
  | cons c cs ih =>
    simp only [skipBlank.go, h.atEnd]
    split
    · exact ih (h.step cs)
    · split
      · exact ih (h.newline cs)
      · exact h

theorem Level.skipBlank (h : Level s t) : Level s.skipBlank t.skipBlank := by
  rw [Scanner.skipBlank, Scanner.skipBlank, h.rest]
  exact h.skipBlank_go _

theorem readString_go_level (h : s.rest = t.rest) (cs : List Char) :
    (readString.go cs s).1 = (readString.go cs t).1 ∧
      (readString.go cs s).2.rest = (readString.go cs t).2.rest := by
  induction cs generalizing s t with
  | nil => exact ⟨rfl, h⟩
  | cons c cs ih =>
    have hread : (s.read c cs).rest = (t.read c cs).rest := by
      unfold read
      split <;> rfl
    obtain ⟨htext, hrest⟩ := ih hread
    simp only [readString.go]
    split
    · exact ⟨rfl, rfl⟩
    · exact ⟨congrArg (c :: ·) htext, hrest⟩

/-- What a token looks like depends on the characters ahead only. -/
theorem scan_level (h : s.rest = t.rest) :
    s.scan.1.face = t.scan.1.face ∧ s.scan.2.rest = t.scan.2.rest := by
  cases ht : t.rest with
  | nil => simp [scan, h, ht, Token.face]
  | cons c cs =>
    have hstring := readString_go_level (s := s.step cs) (t := t.step cs) rfl cs
    simp only [scan, readRun, skip, h, ht]
    split
    · exact ⟨rfl, rfl⟩
    · split
      · exact ⟨congrArg (fun cs => (Kind.string, String.ofList cs)) hstring.1, hstring.2⟩
      · split
        · exact ⟨rfl, rfl⟩
        · split
          · exact ⟨rfl, rfl⟩
          · split <;> exact ⟨rfl, rfl⟩

/-- The next tokens look the same, and the scanners are level behind them. -/
structure Abreast (s t : Scanner) : Prop where
  face : s.next.1.face = t.next.1.face
  level : Level s.next.2 t.next.2

theorem abreast_of_scan (h : s.skipBlank.rest = t.skipBlank.rest) : Abreast s t := by
  obtain ⟨hface, hrest⟩ := scan_level h
  exact ⟨hface, hrest, congrArg Kind.endsStatement (Token.kind_of_face hface)⟩

theorem Level.abreast (h : Level s t) : Abreast s t := abreast_of_scan h.skipBlank.rest

/-- In front of a character that is no white space it does not matter what is behind. -/
theorem abreast_of_head (hs : s.rest = c :: cs) (ht : t.rest = c :: cs) (hc : isBlank c = false) :
    Abreast s t :=
  abreast_of_scan (by rw [skipBlank_eq hs hc, skipBlank_eq ht hc, hs, ht])

theorem Abreast.of_next (h : Abreast t u) (hs : s.next = t.next) : Abreast s u :=
  ⟨hs ▸ h.face, hs ▸ h.level⟩

theorem Abreast.alike (h : Abreast s t) (n : Nat) : Alike (s.tokens n) (t.tokens n) := by
  induction n generalizing s t with
  | zero => exact alike_cons.mpr ⟨_, _, rfl, h.face, .refl _⟩
  | succ n ih =>
    simp only [tokens, Token.kind_of_face h.face]
    split
    · exact alike_cons.mpr ⟨_, _, rfl, h.face, .refl _⟩
    · exact alike_cons.mpr ⟨_, _, rfl, h.face, ih h.level.abreast⟩

/-- Behind some tokens of one text stand those of another one, if the same characters are left. -/
theorem Scans.tokens_alike (h : Scans s ts t) (ha : Abreast t u) (hn : s.rest.length ≤ n)
    (ht : t.rest.length ≤ m) (hu : u.rest.length ≤ m) :
    ∃ us, s.tokens n = ts ++ us ∧ Alike us (u.tokens u.rest.length) := by
  refine ⟨t.tokens m, h.tokens_append hn ht, ?_⟩
  rw [tokens_eq_tokens (n := u.rest.length) (Nat.le_refl _) hu]
  exact ha.alike m

end Scanner

variable {us ts : List Token}

/-- Tokens at places of their own are brought to the places of others that look the same. -/
theorem Alike.exists_moved (h : Alike us ts) (hp : us.Pairwise fun t u => t.pos ≠ u.pos) :
    ∃ f, ts = us.map (Token.moved f) := by
  induction us generalizing ts with
  | nil => exact ⟨id, by simpa [Alike, eq_comm] using h⟩
  | cons c us ih =>
    obtain ⟨hc, hp⟩ := List.pairwise_cons.mp hp
    obtain ⟨d, vs, rfl, hd, hvs⟩ := alike_cons.mp (Eq.symm h : Alike ts (c :: us))
    obtain ⟨f, rfl⟩ := ih (Eq.symm hvs) hp
    refine ⟨fun p => if p = c.pos then d.pos else f p, ?_⟩
    have hface : d = c.moved fun p => if p = c.pos then d.pos else f p := by
      obtain ⟨kind, text, pos⟩ := d
      simpa [Token.face, Token.moved] using hd
    rw [List.map_cons, ← hface]
    refine congrArg _ (List.map_congr_left fun u hu => ?_)
    simp [Token.moved, (hc u hu).symm]

end Scriptlet
