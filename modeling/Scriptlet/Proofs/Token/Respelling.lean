import Mathlib.Data.List.TakeWhile
import Scriptlet.Proofs.Grammar.Viable
import Scriptlet.Proofs.Grammar.Face
import Scriptlet.Proofs.Token.Spelling

/-!
The first tokens of a text, with tokens behind them that complete a phrase, are the tokens of a text
again. Every token is spelled on its own, behind a space.
-/

namespace Scriptlet

open Scanner

variable {s t : Scanner} {c : Token} {ts us ws : List Token} {b : Bool} {cs : List Char}

/-- A token with a spelling in front of white space. -/
def Token.Spellable (t : Token) : Prop := ∃ cs, Spelled isBlank cs (One t.kind t.text)

/-! ### Tokens of a text -/

theorem endsWord_of_isBlank {c : Char} (h : isBlank c = true) : endsWord c = true := by
  by_contra hc
  simp only [endsWord, Bool.not_eq_true, Bool.not_eq_false'] at hc
  simp [(isWordChar_ne hc).1] at h

theorem readString_go_no_quote (cs : List Char) (s : Scanner) :
    '"' ∉ (readString.go cs s).1 := by
  induction cs generalizing s with
  | nil => simp [readString.go]
  | cons c cs ih =>
    simp only [readString.go]
    split
    · simp
    · next hc => simpa [Ne.symm hc] using ih (s.read c cs)

theorem spellable_symbol {c : Char} {k : Kind} {p : Position} (h : Kind.ofChar? c = some k) :
    Token.Spellable ⟨k, String.singleton c, p⟩ := by
  refine ⟨[c], (spelled_symbol h).weaken fun d hd => ?_⟩
  have hne (e : Char) (he : isBlank e = false) : d ≠ e := by
    rintro rfl
    simp [hd] at he
  simp [Kind.ofPair?_of_second (c := c) (hne '=' rfl) (.inr (by simp [hne '&' rfl, hne '|' rfl]))]

theorem spellable_word {c : Char} {p : Position} (hc : isLetter c = true)
    (hcs : ∀ d ∈ cs, isWordChar d = true) :
    Token.Spellable ⟨.ofWord (c :: cs), String.ofList (c :: cs), p⟩ :=
  ⟨c :: cs, (spelled_word hc hcs).weaken fun _ => endsWord_of_isBlank⟩

/-- Every token of a text has a spelling, but for line ends and what is no token at all. -/
theorem spellable_scan (he : s.scan.1.kind ≠ .eof) (hi : s.scan.1.kind ≠ .illegal)
    (hl : s.scan.1.isLineEnd = false)
    (hs : s.scan.1.kind = .int → s.scan.1.text.toList.length ≤ Number.digitLimit) :
    s.scan.1.Spellable := by
  revert he hi hl hs
  cases hr : s.rest with
  | nil => simp [scan, hr]
  | cons c cs =>
    have htake {p : Char → Bool} : ∀ d ∈ cs.takeWhile p, p d = true :=
      fun d hd => List.mem_takeWhile_imp hd
    simp only [scan, hr]
    split
    · simp [Token.isLineEnd]
    · split
      · intro _ _ _ _
        exact ⟨_, (spelled_string (readString_go_no_quote _ _)).weaken fun _ _ => rfl⟩
      · split
        · next hc =>
          have hw : isWordChar c = true := by simp [isWordChar, hc]
          intro _ _ _ _
          simpa [readRun, hr, hw] using spellable_word hc htake
        · split
          · next hd =>
            intro _ _ _ hs
            simp only [readRun, hr, List.takeWhile_cons_of_pos hd] at hs ⊢
            have hlen : (cs.takeWhile isDigit).length < Number.digitLimit := by
              simpa [Nat.succ_le_iff] using hs
            exact ⟨_, (spelled_digits hd htake hlen).weaken fun _ => endsWord_of_isBlank⟩
          · split
            · next hk =>
              obtain ⟨d, -, hp⟩ := Option.bind_eq_some_iff.mp hk
              intro _ _ _ _
              exact ⟨_, (spelled_pair hp).weaken fun _ _ => rfl⟩
            · intro _ hi _ _
              cases hk : Kind.ofChar? c with
              | none => simp [hk] at hi
              | some k => simpa [hk] using spellable_symbol hk

theorem spellable_filler {z : Token}
    (hz : z ∈ [Kind.ident, .colon, .lparen, .rparen, .lbrace, .rbrace, .rbracket].map filler) :
    z.Spellable := by
  simp only [List.map_cons, List.map_nil, List.mem_cons, List.not_mem_nil, or_false] at hz
  obtain rfl | rfl | rfl | rfl | rfl | rfl | rfl := hz
  · exact spellable_word (c := 'x') rfl (List.forall_mem_nil _)
  · exact spellable_symbol (c := ':') rfl
  · exact spellable_symbol (c := '(') rfl
  · exact spellable_symbol (c := ')') rfl
  · exact spellable_symbol (c := '\x7b') rfl
  · exact spellable_symbol (c := '\x7d') rfl
  · exact spellable_symbol (c := ']') rfl

/-! ### Tokens in a row -/

/-- Tokens with a spelling, and line ends behind those that can end a statement. The flag says
whether the token in front of them can. -/
inductive Respellable : Bool → List Token → Prop where
  | nil (b : Bool) : Respellable b []
  | cons {b : Bool} {t : Token} {ts : List Token} (ht : t.Spellable)
    (h : Respellable t.kind.endsStatement ts) : Respellable b (t :: ts)
  | lineEnd {t : Token} {ts : List Token} (ht : t.isLineEnd = true) (h : Respellable false ts) :
    Respellable true (t :: ts)

theorem Respellable.append (h : Respellable b us) (hz : ∀ z ∈ ws, z.Spellable) :
    Respellable b (us ++ ws) := by
  induction h with
  | nil b =>
    induction ws generalizing b with
    | nil => exact .nil b
    | cons z zs ih =>
      obtain ⟨h, hz⟩ := List.forall_mem_cons.mp hz
      exact .cons h (ih hz _)
  | cons ht _ ih => exact .cons ht ih
  | lineEnd ht _ ih => exact .lineEnd ht ih

/-- The first tokens of a text. -/
theorem respellable_tokens (n : Nat) (h : s.tokens n = us ++ c :: ws)
    (hi : ∀ t ∈ us, t.kind ≠ .illegal) (hs : ShortLiterals us) : Respellable s.atEnd us := by
  induction us generalizing s n with
  | nil => exact .nil _
  | cons u us ih =>
    obtain ⟨hu, hius⟩ := List.forall_mem_cons.mp hi
    obtain ⟨hsu, hsus⟩ := List.forall_mem_cons.mp hs
    cases n with
    | zero => simp [tokens] at h
    | succ n =>
      simp only [tokens] at h
      split at h
      · simp at h
      · next he =>
        simp only [List.cons_append, List.cons.injEq] at h
        obtain ⟨rfl, h⟩ := h
        have ih : Respellable s.next.1.kind.endsStatement us := ih n h hius hsus
        cases hl : s.next.1.isLineEnd with
        | true =>
          have hk : s.next.1.kind.endsStatement = false := by
            simp only [Token.isLineEnd, Bool.and_eq_true, beq_iff_eq] at hl
            simp [hl.1, Kind.endsStatement]
          exact next_isLineEnd hl ▸ .lineEnd hl (hk ▸ ih)
        | false => exact .cons (spellable_scan he hu hl hsu) ih

theorem next_lineEnd_text (hs : s.rest = '\n' :: cs) (he : s.atEnd = true) :
    s.next.1.text = "\n" := by
  have hb : s.skipBlank = s := by simp [skipBlank, hs, skipBlank.go, he]
  simp [next, hb, scan, hs]

/-- There are characters that are read as tokens that look the same. -/
theorem Respellable.exists_scans (h : Respellable b ts) : ∃ cs, (∀ c ∈ cs.head?, isBlank c = true) ∧
    ∀ s : Scanner, s.rest = cs → s.atEnd = b →
      ∃ us t, Scans s us t ∧ t.rest = [] ∧ Alike us ts ∧ ShortLiterals us := by
  induction h with
  | nil b =>
    exact ⟨[], by simp, fun s hs _ => ⟨[], s, .nil s, hs, .refl _, by simp [ShortLiterals]⟩⟩
  | @cons b t ts ht _ ih =>
    obtain ⟨cs, hcs⟩ := ht
    obtain ⟨ds, hds, ih⟩ := ih
    refine ⟨' ' :: (cs ++ ds), by simp [isBlank], fun s hs _ => ?_⟩
    have hspace := hcs.space (by
      rintro _ ⟨d, rfl, -⟩
      simp)
    obtain ⟨_, u, hu, hur, hul, d, rfl, hk, htext⟩ :=
      @hspace s ds (by simpa using hs) hds
    have hend : u.atEnd = t.kind.endsStatement := by simpa [hk] using hu.atEnd (by simp)
    obtain ⟨us, v, hv, hvr, ha, hl⟩ := ih u hur hend
    refine ⟨[d] ++ us, v, hu.append hv, hvr, ?_, hul.append hl⟩
    exact alike_cons.mpr ⟨d, us, rfl, by simp [Token.face, hk, htext], ha⟩
  | @lineEnd t ts ht _ ih =>
    obtain ⟨ds, -, ih⟩ := ih
    refine ⟨'\n' :: ds, by simp [isBlank], fun s hs he => ?_⟩
    obtain ⟨hk, hr⟩ := next_lineEnd hs he
    obtain ⟨us, v, hv, hvr, ha, hl⟩ := ih s.next.2 hr (congrArg Kind.endsStatement hk)
    refine ⟨s.next.1 :: us, v, .cons (by simp [hk]) hv, hvr, ?_, ?_⟩
    · simp only [Token.isLineEnd, Bool.and_eq_true, beq_iff_eq] at ht
      exact alike_cons.mpr ⟨_, us, rfl,
        by simp [Token.face, hk, next_lineEnd_text hs he, ht.1, ht.2], ha⟩
    · exact List.forall_mem_cons.mpr ⟨fun h => by simp [hk] at h, hl⟩

theorem Respellable.exists_source (h : Respellable false ts) : ∃ source us e,
    tokenize source = us ++ [e] ∧ e.kind = .eof ∧ Alike us ts ∧ ShortLiterals us := by
  obtain ⟨cs, -, hcs⟩ := h.exists_scans
  obtain ⟨us, t, hus, ht, ha, hl⟩ := hcs (.ofText (String.ofList cs)) (by simp [Scanner.ofText]) rfl
  obtain ⟨e, he, hk⟩ := hus.tokens_eq ht (Nat.le_refl _)
  exact ⟨String.ofList cs, us, e, he, hk, ha, hl⟩

/-! ### Starts of programs -/

theorem Infix.ne_illegal {l : Nat} {k : Kind} {op : InfixOp} (h : Infix l k op) : k ≠ .illegal := by
  cases h <;> simp

theorem Dropped.kind_ne_illegal (h : Dropped ts) : ∀ t ∈ ts, t.kind ≠ .illegal := by
  intro t ht he
  simpa [Token.isLineEnd, he] using h t ht

/-- No phrase contains what is no token. -/
theorem Derives.kind_ne_illegal {φ : Phrase} (h : Derives φ ts) : ∀ t ∈ ts, t.kind ≠ .illegal := by
  induction h <;> grind [Dropped.kind_ne_illegal, Infix.ne_illegal]

/-- The first tokens of a text are those of a program, if tokens can complete them to one. -/
theorem Completes.exists_source {source : String} (h : Completes IsStmts us)
    (hu : tokenize source = us ++ c :: ws) (hs : ShortLiterals us) :
    ∃ source' body, ShortLiterals (tokenize source') ∧ Spells (tokenize source') body ∧
      ∃ vs ws', tokenize source' = vs ++ ws' ∧ Alike vs us := by
  obtain ⟨zs, hz, body, hd⟩ := h
  have hi : ∀ t ∈ us, t.kind ≠ .illegal :=
    fun t ht => hd.kind_ne_illegal t (List.mem_append_left zs ht)
  have hr : Respellable false us := respellable_tokens (s := .ofText source) _ hu hi hs
  obtain ⟨source', ts, e, hts, he, ha, hl⟩ :=
    (hr.append fun z hm => spellable_filler (hz z hm)).exists_source
  have hd' : Derives (.stmts body) ts := hd.alike ha
  obtain ⟨vs, ws', rfl, hvs, -⟩ := alike_append.mp ha
  refine ⟨source', body, ?_, ⟨_, e, hts, he, hd'⟩, vs, ws' ++ [e], by simp [hts], hvs⟩
  rw [hts]
  exact hl.append fun t ht hk => by simp_all
end Scriptlet
