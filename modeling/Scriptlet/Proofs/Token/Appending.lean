import Scriptlet.Proofs.Token.Tiling

/-!
More text behind a text. If the strings of the text are closed, its tokens stay what they are, and
those of the lines behind it are the ones that the lines have alone, so many lines further down.
-/

namespace Scriptlet

/-- The place so many lines further down. -/
def Position.below (k : Nat) (p : Position) : Position := ⟨p.line + k, p.column⟩

namespace Scanner

variable {s t u : Scanner} {c z : Char} {cs ds : List Char} {p : Char → Bool} {ts : List Token}
  {k o n : Nat}

/-! ### More text -/

/-- More text behind the text that is still to be read. -/
def followedBy (s : Scanner) (ds : List Char) : Scanner := { s with rest := s.rest ++ ds }

theorem read_followedBy :
    (s.followedBy ds).read c (cs ++ ds) = (s.read c cs).followedBy ds := by
  unfold read
  split <;> rfl

/-- Where nothing is left but white space, it goes on in the text behind it. -/
theorem skipBlank_go_followedBy (cs ds : List Char) (hs : s.rest = cs) :
    skipBlank.go (cs ++ ds) (s.followedBy ds) =
      if (skipBlank.go cs s).rest = [] then skipBlank.go ds ((skipBlank.go cs s).followedBy ds)
      else (skipBlank.go cs s).followedBy ds := by
  induction cs generalizing s with
  | nil => simp [skipBlank.go, hs]
  | cons c cs ih =>
    have hend : (s.followedBy ds).atEnd = s.atEnd := rfl
    simp only [List.cons_append, skipBlank.go, hend]
    split
    · exact ih (s := s.step cs) rfl
    · split
      · exact ih (s := s.newline cs) rfl
      · rw [if_neg (by simp [hs])]

theorem skipBlank_followedBy (h : s.skipBlank.rest ≠ []) (ds : List Char) :
    (s.followedBy ds).skipBlank = s.skipBlank.followedBy ds := by
  have hgo := skipBlank_go_followedBy s.rest ds rfl
  rwa [if_neg (show ¬ (skipBlank.go s.rest s).rest = [] from h)] at hgo

theorem readString_go_followedBy (cs ds : List Char) (h : '"' ∈ cs) :
    readString.go (cs ++ ds) (s.followedBy ds) =
      ((readString.go cs s).1, (readString.go cs s).2.followedBy ds) := by
  induction cs generalizing s with
  | nil => cases h
  | cons c cs ih =>
    simp only [List.cons_append, readString.go]
    split
    · rfl
    · next hc =>
      have hq : '"' ∈ cs := (List.mem_cons.mp h).resolve_left (Ne.symm hc)
      rw [read_followedBy, ih hq]

theorem readRun_followedBy (hd : p z = false) :
    (s.followedBy (z :: ds)).readRun p =
      ((s.readRun p).1, (s.readRun p).2.followedBy (z :: ds)) := by
  have hrun : (s.rest ++ z :: ds).takeWhile p = s.rest.takeWhile p ∧
      (s.rest ++ z :: ds).dropWhile p = s.rest.dropWhile p ++ z :: ds := by
    induction s.rest with
    | nil => simp [hd]
    | cons c cs ih =>
      by_cases hc : p c
      · simpa [hc] using ih
      · simp [hc]
  simp only [readRun, followedBy, hrun]
  rfl

/-- A character that no word, no integer and no operator goes on with. -/
structure Parting (z : Char) : Prop where
  word : isWordChar z = false
  digit : isDigit z = false
  second (c : Char) : Kind.ofPair? c z = none

theorem parting_lineEnd : Parting '\n' :=
  ⟨rfl, rfl, fun _ => Kind.ofPair?_of_second (by decide) (.inr (by decide))⟩

theorem parting_semicolon : Parting ';' :=
  ⟨rfl, rfl, fun _ => Kind.ofPair?_of_second (by decide) (.inr (by decide))⟩

/-- A token in front of such a character is what it is in front of the end. -/
theorem scan_followedBy (hz : Parting z) (hs : s.rest ≠ [])
    (hq : s.rest.head? = some '"' → '"' ∈ s.rest.tail) :
    (s.followedBy (z :: ds)).scan = (s.scan.1, s.scan.2.followedBy (z :: ds)) := by
  obtain ⟨c, cs, hc⟩ := List.exists_cons_of_ne_nil hs
  have hrest : (s.followedBy (z :: ds)).rest = c :: (cs ++ z :: ds) := by
    simp [followedBy, hc]
  simp only [scan, hc, hrest]
  split
  · rfl
  · split
    · next hcq =>
      have hclosed : '"' ∈ cs := by simpa [hc, hcq] using hq
      have hgo := readString_go_followedBy (s := s.step cs) cs (z :: ds) hclosed
      simp only [readString, step, followedBy] at hgo ⊢
      rw [hgo]
      rfl
    · split
      · rw [readRun_followedBy hz.word]
        rfl
      · split
        · rw [readRun_followedBy hz.digit]
          rfl
        · have hpair : (cs ++ z :: ds).head?.bind (Kind.ofPair? c) =
              cs.head?.bind (Kind.ofPair? c) := by
            cases cs with
            | nil => exact hz.second c
            | cons d cs => rfl
          rw [hpair]
          split
          · next hk =>
            cases cs with
            | nil => cases hk
            | cons d cs => rfl
          · rfl

/-! ### Closed strings -/

/-- Every string of a text is closed, if the text starts outside of strings. -/
def Paired (cs : List Char) : Prop := cs.count '"' % 2 = 0

theorem count_skipBlank_go (cs : List Char) (hs : s.rest = cs) :
    (skipBlank.go cs s).rest.count '"' = cs.count '"' := by
  induction cs generalizing s with
  | nil => simp [skipBlank.go, hs]
  | cons c cs ih =>
    simp only [skipBlank.go]
    split
    · next hc =>
      have hne : c ≠ '"' := by
        rintro rfl
        simp at hc
      rw [ih rfl, List.count_cons_of_ne hne]
    · split
      · next hc =>
        have hne : c ≠ '"' := by
          rintro rfl
          simp at hc
        rw [ih rfl, List.count_cons_of_ne hne]
      · rw [hs]

theorem count_readString_go (cs : List Char) (h : '"' ∈ cs) :
    (readString.go cs s).2.rest.count '"' + 1 = cs.count '"' := by
  induction cs generalizing s with
  | nil => cases h
  | cons c cs ih =>
    simp only [readString.go]
    split
    · next hc =>
      subst hc
      rw [List.count_cons_self]
      rfl
    · next hc =>
      rw [List.count_cons_of_ne hc]
      exact ih ((List.mem_cons.mp h).resolve_left (Ne.symm hc))

theorem count_dropWhile (hp : p '"' = false) (cs : List Char) :
    (cs.dropWhile p).count '"' = cs.count '"' := by
  induction cs with
  | nil => rfl
  | cons c cs ih =>
    by_cases hc : p c
    · have hne : c ≠ '"' := by
        rintro rfl
        simp [hp] at hc
      rw [List.dropWhile_cons_of_pos hc, ih, List.count_cons_of_ne hne]
    · rw [List.dropWhile_cons_of_neg hc]

/-- Behind the opening quote of a string there is a closing one. -/
theorem Paired.mem_tail (h : Paired cs) (hc : cs.head? = some '"') : '"' ∈ cs.tail := by
  obtain ⟨ds, rfl⟩ := List.head?_eq_some_iff.mp hc
  simp only [Paired, List.count_cons_self] at h
  have hpos : 0 < ds.count '"' := by omega
  exact List.count_pos_iff.mp hpos

theorem paired_scan (h : Paired s.rest) (hs : s.rest ≠ []) : Paired s.scan.2.rest := by
  obtain ⟨c, cs, hc⟩ := List.exists_cons_of_ne_nil hs
  have hother (hq : c ≠ '"') : Paired cs := by
    rwa [hc, Paired, List.count_cons_of_ne hq] at h
  simp only [scan, hc]
  split
  · next hn => exact hother (by simp [hn])
  · split
    · next hq =>
      have hmem := h.mem_tail (by simp [hc, hq])
      rw [hc] at hmem
      have hgo := count_readString_go (s := s.step cs) cs hmem
      rw [hc, hq, Paired, List.count_cons_self] at h
      change (readString.go cs (s.step cs)).2.rest.count '"' % 2 = 0
      omega
    · next hq =>
      split
      · change (s.rest.dropWhile isWordChar).count '"' % 2 = 0
        rwa [count_dropWhile rfl]
      · split
        · change (s.rest.dropWhile isDigit).count '"' % 2 = 0
          rwa [count_dropWhile rfl]
        · split
          · next k hk =>
            obtain ⟨d, hd, hk⟩ := Option.bind_eq_some_iff.mp hk
            obtain ⟨ds, rfl⟩ := List.head?_eq_some_iff.mp hd
            have hne : d ≠ '"' := by
              rintro rfl
              simp [Kind.ofPair?_of_second] at hk
            have hcs := hother hq
            rwa [Paired, List.count_cons_of_ne hne] at hcs
          · exact hother hq

/-- A token of a text, with more text behind it. -/
theorem next_followedBy (hz : Parting z) (h : Paired s.rest) (hk : s.next.1.kind ≠ .eof)
    (ds : List Char) :
    (s.followedBy (z :: ds)).next = (s.next.1, s.next.2.followedBy (z :: ds)) ∧
      Paired s.next.2.rest := by
  have hs : s.skipBlank.rest ≠ [] := fun hs => hk (scan_nil hs)
  have hb : Paired s.skipBlank.rest := by
    rw [Paired, skipBlank, count_skipBlank_go _ rfl]
    exact h
  refine ⟨?_, paired_scan hb hs⟩
  rw [next, skipBlank_followedBy hs, scan_followedBy hz hs hb.mem_tail]
  rfl

theorem Scans.followedBy (h : Scans s ts t) (hz : Parting z) (hq : Paired s.rest)
    (ds : List Char) : Scans (s.followedBy (z :: ds)) ts (t.followedBy (z :: ds)) := by
  induction h with
  | nil s => exact .nil _
  | cons hk _ ih =>
    obtain ⟨hnext, hq⟩ := next_followedBy hz hq hk ds
    have h := Scans.cons (s := (_ : Scanner).followedBy (z :: ds)) (by rwa [hnext]) (by
      rw [hnext]
      exact ih hq)
    rwa [hnext] at h

/-! ### Other lines and offsets -/

/-- The scanner of the same text so many lines further down, where it starts with an offset. -/
def below (k o : Nat) (s : Scanner) : Scanner :=
  { s with offset := s.offset + o, line := s.line + k, lineStart := s.lineStart + o }

theorem pos_below : (s.below k o).pos = s.pos.below k := by
  simp only [pos, below, Position.below, Nat.add_sub_add_right]

theorem step_below : (s.below k o).step cs = (s.step cs).below k o := by
  simp [step, below, Nat.add_right_comm]

theorem newline_below : (s.below k o).newline cs = (s.newline cs).below k o := by
  simp [newline, below, Nat.add_right_comm]

theorem skip_below : (s.below k o).skip n cs = (s.skip n cs).below k o := by
  simp [skip, below, Nat.add_right_comm]

theorem read_below : (s.below k o).read c cs = (s.read c cs).below k o := by
  unfold read
  split
  · exact newline_below
  · exact step_below

theorem skipBlank_go_below (cs : List Char) :
    skipBlank.go cs (s.below k o) = (skipBlank.go cs s).below k o := by
  induction cs generalizing s with
  | nil => rfl
  | cons c cs ih =>
    have hend : (s.below k o).atEnd = s.atEnd := rfl
    simp only [skipBlank.go, hend]
    split
    · rw [step_below, ih]
    · split
      · rw [newline_below, ih]
      · rfl

theorem readString_go_below (cs : List Char) :
    readString.go cs (s.below k o) =
      ((readString.go cs s).1, (readString.go cs s).2.below k o) := by
  induction cs generalizing s with
  | nil => rfl
  | cons c cs ih =>
    simp only [readString.go]
    split
    · rw [step_below]
    · rw [read_below, ih]

theorem readRun_below :
    (s.below k o).readRun p = ((s.readRun p).1, (s.readRun p).2.below k o) := by
  have hrest : (s.below k o).rest = s.rest := rfl
  simp only [readRun, hrest, skip_below]

theorem scan_below :
    (s.below k o).scan = (s.scan.1.moved (Position.below k), s.scan.2.below k o) := by
  have hrest : (s.below k o).rest = s.rest := rfl
  unfold scan
  rw [hrest, pos_below]
  split
  · rfl
  · next c cs hc =>
    split
    · rw [newline_below]
      rfl
    · split
      · have hstring : ((s.below k o).step cs).readString =
            ((s.step cs).readString.1, (s.step cs).readString.2.below k o) := by
          rw [step_below]
          exact readString_go_below cs
        rw [hstring]
        rfl
      · split
        · rw [readRun_below]
          rfl
        · split
          · rw [readRun_below]
            rfl
          · split
            · rw [skip_below]
              rfl
            · rw [step_below]
              rfl

theorem next_below :
    (s.below k o).next = (s.next.1.moved (Position.below k), s.next.2.below k o) := by
  have hblank : (s.below k o).skipBlank = s.skipBlank.below k o := skipBlank_go_below s.rest
  rw [next, hblank, scan_below]
  rfl

theorem tokens_below (n : Nat) :
    (s.below k o).tokens n = (s.tokens n).map (Token.moved (Position.below k)) := by
  induction n generalizing s with
  | zero => simp only [tokens, next_below, List.map_cons, List.map_nil]
  | succ n ih =>
    have hkind : (s.next.1.moved (Position.below k)).kind = s.next.1.kind := rfl
    simp only [tokens, next_below, hkind]
    split
    · rfl
    · rw [ih, List.map_cons]

/-! ### Whole texts -/

/-- No more tokens than there are characters. -/
theorem tokens_eq_tokens {m : Nat} (hn : s.rest.length ≤ n) (hm : s.rest.length ≤ m) :
    s.tokens n = s.tokens m := by
  induction n generalizing s m with
  | zero =>
    have hk : s.next.1.kind = .eof := next_nil (List.eq_nil_of_length_eq_zero (by omega))
    cases m <;> simp [tokens, hk]
  | succ n ih =>
    by_cases hk : s.next.1.kind = .eof
    · cases m <;> simp [tokens, hk]
    · have hl := next_length_lt hk
      obtain ⟨m, rfl⟩ : ∃ m', m = m' + 1 := ⟨m - 1, by omega⟩
      simp only [tokens, hk, if_false]
      rw [ih (m := m) (by omega) (by omega)]

theorem Scans.tokens_append {m : Nat} (h : Scans s ts t) (hn : s.rest.length ≤ n)
    (hm : t.rest.length ≤ m) : s.tokens n = ts ++ t.tokens m := by
  induction h generalizing n with
  | nil => exact tokens_eq_tokens hn hm
  | cons hk _ ih =>
    have hl := next_length_lt hk
    obtain ⟨n, rfl⟩ : ∃ n', n = n' + 1 := ⟨n - 1, by omega⟩
    simp only [tokens, hk, if_false, List.cons_append]
    rw [ih (by omega) hm]

/-- Where nothing but white space is left, there is the end token. -/
theorem Scans.tokens_end (h : Scans s ts t) (ht : t.skipBlank.rest = []) (hn : s.rest.length ≤ n) :
    s.tokens n = ts ++ [t.next.1] := by
  have hk : t.next.1.kind = .eof := scan_nil ht
  rw [h.tokens_append hn (Nat.le_refl _)]
  cases t.rest.length <;> simp [tokens, hk]

/-- The end token is at the end only. -/
theorem scan_kind_ne_eof (hs : s.rest ≠ []) : s.scan.1.kind ≠ .eof := by
  obtain ⟨c, cs, hc⟩ := List.exists_cons_of_ne_nil hs
  simp only [scan, hc]
  split
  · simp
  · split
    · simp
    · split
      · exact (Kind.ofWord_ne _).1
      · split
        · simp
        · split
          · next hk =>
            obtain ⟨d, -, hd⟩ := Option.bind_eq_some_iff.mp hk
            exact (Kind.ofPair?_ne hd).1
          · exact Kind.ofChar?_ne c

/-- A text is read to its end. -/
theorem exists_scans (s : Scanner) : ∃ ts t, Scans s ts t ∧ t.skipBlank.rest = [] := by
  generalize hn : s.rest.length = n
  induction n using Nat.strongRecOn generalizing s with
  | ind n ih =>
    by_cases hs : s.skipBlank.rest = []
    · exact ⟨[], s, .nil s, hs⟩
    · have hk : s.next.1.kind ≠ .eof := scan_kind_ne_eof hs
      obtain ⟨ts, t, hts, ht⟩ := ih _ (hn ▸ next_length_lt hk) s.next.2 rfl
      exact ⟨s.next.1 :: ts, t, .cons hk hts, ht⟩

theorem Scans.endsStatement_iff (h : Scans s ts t) (hs : s.atEnd = false) :
    EndsStatement ts ↔ t.atEnd = true := by
  by_cases hn : ts = []
  · subst hn
    cases h
    simp [EndsStatement, hs]
  · rw [h.atEnd hn]
    constructor
    · rintro ⟨us, c, rfl, hc⟩
      simpa using hc
    · exact fun hc => ⟨ts.dropLast, ts.getLast hn, (List.dropLast_concat_getLast hn).symm, hc⟩

theorem tokens_congr (h : s.next = t.next) (n : Nat) : s.tokens n = t.tokens n := by
  cases n <;> simp only [tokens, h]

theorem skipBlank_go_atEnd (cs : List Char) : (skipBlank.go cs s).atEnd = s.atEnd := by
  induction cs generalizing s with
  | nil => rfl
  | cons c cs ih =>
    simp only [skipBlank.go]
    split
    · exact ih
    · split
      · exact ih
      · rfl

/-- The scanner at the start of the next line. -/
def nextLine (s : Scanner) (ds : List Char) : Scanner := { s.newline ds with atEnd := false }

/-- Nothing but white space is left in front of a line end, which is a token only where it ends a
statement. Behind it a line starts. -/
theorem tokens_lineEnd (ht : t.skipBlank.rest = []) (hn : ds.length < n) :
    ∃ sep, (t.followedBy ('\n' :: ds)).tokens n =
        sep ++ (t.skipBlank.nextLine ds).tokens ds.length ∧
      (t.atEnd = true ∧ (∃ c, sep = [c] ∧ c.kind = .semicolon) ∨ t.atEnd = false ∧ sep = []) := by
  let u : Scanner := t.skipBlank.nextLine ds
  have hgo : (t.followedBy ('\n' :: ds)).skipBlank =
      skipBlank.go ('\n' :: ds) (t.skipBlank.followedBy ('\n' :: ds)) := by
    have h := skipBlank_go_followedBy t.rest ('\n' :: ds) rfl
    rwa [if_pos (show (skipBlank.go t.rest t).rest = [] from ht)] at h
  have hrest : (t.skipBlank.followedBy ('\n' :: ds)).rest = '\n' :: ds := by
    simp [followedBy, ht]
  have hend : (t.skipBlank.followedBy ('\n' :: ds)).atEnd = t.atEnd := skipBlank_go_atEnd _
  obtain ⟨n, rfl⟩ : ∃ m, n = m + 1 := ⟨n - 1, by omega⟩
  cases he : t.atEnd with
  | true =>
    have hnext : (t.followedBy ('\n' :: ds)).next =
        (⟨.semicolon, "\n", (t.skipBlank.followedBy ('\n' :: ds)).pos⟩, u) := by
      have hstop : (t.followedBy ('\n' :: ds)).skipBlank =
          t.skipBlank.followedBy ('\n' :: ds) := by
        rw [hgo]
        simp [skipBlank.go, hend, he]
      rw [next, hstop]
      simp only [scan, hrest]
      rfl
    refine ⟨[⟨.semicolon, "\n", (t.skipBlank.followedBy ('\n' :: ds)).pos⟩], ?_,
      .inl ⟨rfl, _, rfl, rfl⟩⟩
    simp only [tokens, hnext, reduceCtorEq, if_false, List.cons_append, List.nil_append]
    exact congrArg _ (tokens_eq_tokens (s := u) (Nat.le_of_lt_succ hn) (Nat.le_refl _))
  | false =>
    have hnext : (t.followedBy ('\n' :: ds)).next = u.next := by
      have hline : (t.skipBlank.followedBy ('\n' :: ds)).newline ds = u := by
        have hfalse : t.skipBlank.atEnd = false := hend.trans he
        simp only [nextLine, newline, followedBy, u, hfalse]
      have hpass : (t.followedBy ('\n' :: ds)).skipBlank = u.skipBlank := by
        rw [hgo, ← hline]
        simp [skipBlank.go, hend, he]
        rfl
      rw [next, hpass]
      rfl
    refine ⟨[], ?_, .inr ⟨rfl, rfl⟩⟩
    rw [tokens_congr hnext, List.nil_append]
    exact tokens_eq_tokens (s := u) (Nat.le_of_lt hn) (Nat.le_refl _)

/-- Nothing but white space is left in front of a semicolon, behind which the text ends. -/
theorem tokens_semicolon (ht : t.skipBlank.rest = []) (hn : 0 < n) :
    ∃ pos e, (t.followedBy [';']).tokens n = [⟨.semicolon, ";", pos⟩, e] ∧ e.kind = .eof := by
  have hstop : (t.followedBy [';']).skipBlank = t.skipBlank.followedBy [';'] := by
    have h := skipBlank_go_followedBy t.rest [';'] rfl
    rw [if_pos (show (skipBlank.go t.rest t).rest = [] from ht)] at h
    exact h.trans rfl
  have hrest : (t.skipBlank.followedBy [';']).rest = [';'] := by simp [followedBy, ht]
  have hnext : ∃ u pos, (t.followedBy [';']).next = (⟨.semicolon, ";", pos⟩, u) ∧ u.rest = [] := by
    rw [next, hstop]
    simp only [scan, hrest]
    exact ⟨_, _, rfl, rfl⟩
  obtain ⟨u, pos, hnext, hu⟩ := hnext
  have hend : u.next.1.kind = .eof := next_nil hu
  obtain ⟨n, rfl⟩ : ∃ m, n = m + 1 := ⟨n - 1, by omega⟩
  refine ⟨pos, u.next.1, ?_, hend⟩
  simp only [tokens, hnext, reduceCtorEq, if_false]
  cases n <;> simp [tokens, hend]

end Scanner

/-- The last token of a text stands behind all its characters. -/
theorem Tiles.getLast {before rest : List Char} {ts : List Token} (h : Tiles before rest ts) :
    ∃ us, ts = us ++ [⟨.eof, "", .behind (before ++ rest)⟩] := by
  induction h with
  | eof => exact ⟨[], rfl⟩
  | @token before gap span after kind text ts _ _ _ _ _ ih =>
    obtain ⟨us, rfl⟩ := ih
    exact ⟨⟨kind, text, .behind (before ++ gap)⟩ :: us, by simp⟩

theorem Position.foldl_advance_line (cs : List Char) (p : Position) :
    (cs.foldl advance p).line = p.line + cs.count '\n' := by
  induction cs generalizing p with
  | nil => rfl
  | cons c cs ih =>
    rw [List.foldl_cons, ih]
    by_cases hc : c = '\n'
    · simp only [advance, hc, if_true, List.count_cons_self]
      omega
    · simp [advance, hc]

theorem Position.behind_line (cs : List Char) : (behind cs).line = cs.count '\n' + 1 := by
  rw [behind, foldl_advance_line, Nat.add_comm]

open Scanner in
/-- A line end and another text behind a text whose strings are closed. -/
theorem tokenize_append_line {s₁ : String} (hq : s₁.toList.count '"' % 2 = 0) (s₂ : String) :
    ∃ us e sep, tokenize s₁ = us ++ [e] ∧ e.kind = .eof ∧
      tokenize (s₁ ++ "\n" ++ s₂) =
        us ++ (sep ++ (tokenize s₂).map (Token.moved (Position.below (s₁.toList.count '\n' + 1)))) ∧
      (EndsStatement us ∧ (∃ c, sep = [c] ∧ c.kind = .semicolon) ∨
        ¬ EndsStatement us ∧ sep = []) := by
  obtain ⟨us, t, hus, ht⟩ := exists_scans (.ofText s₁)
  have htokens : tokenize s₁ = us ++ [t.next.1] := hus.tokens_end ht (Nat.le_refl _)
  -- the place of its end
  have hline : t.skipBlank.line = s₁.toList.count '\n' + 1 := by
    obtain ⟨vs, hvs⟩ : ∃ vs, tokenize s₁ = vs ++ [⟨.eof, "", .behind s₁.toList⟩] :=
      (tiles_tokens _ (Nat.le_refl _) (behind_ofText s₁) apart_nil).getLast
    rw [htokens] at hvs
    have hlast := (List.append_inj' hvs rfl).2
    simp only [List.cons.injEq, and_true] at hlast
    have hpos : t.next.1.pos = t.skipBlank.pos := scan_pos _
    rw [← Position.behind_line]
    exact congrArg Position.line (hpos.symm.trans (congrArg Token.pos hlast))
  -- both texts
  have hsource : Scanner.ofText (s₁ ++ "\n" ++ s₂) =
      (Scanner.ofText s₁).followedBy ('\n' :: s₂.toList) := by
    simp [Scanner.ofText, followedBy]
  have hboth := hus.followedBy parting_lineEnd hq s₂.toList
  have hlen : s₂.toList.length < (t.followedBy ('\n' :: s₂.toList)).rest.length := by
    simp only [followedBy, List.length_append, List.length_cons]
    omega
  obtain ⟨sep, hsep, hcase⟩ := tokens_lineEnd ht hlen
  have hbelow : t.skipBlank.nextLine s₂.toList =
      (Scanner.ofText s₂).below (s₁.toList.count '\n' + 1) (t.skipBlank.offset + 1) := by
    simp [nextLine, newline, Scanner.ofText, below, hline, Nat.add_comm]
  refine ⟨us, t.next.1, sep, htokens, scan_nil ht, ?_, ?_⟩
  · rw [tokenize, hsource, hboth.tokens_append (Nat.le_refl _) (Nat.le_refl _), hsep, hbelow,
      tokens_below]
    rfl
  · rw [hus.endsStatement_iff rfl]
    rcases hcase with ⟨he, hc⟩ | ⟨he, hc⟩
    · exact .inl ⟨he, hc⟩
    · exact .inr ⟨by simp [he], hc⟩

open Scanner in
/-- A semicolon behind a text whose strings are closed. -/
theorem tokenize_append_semicolon {s : String} (hq : s.toList.count '"' % 2 = 0) :
    ∃ us e pos e', tokenize s = us ++ [e] ∧ e.kind = .eof ∧
      tokenize (s ++ ";") = us ++ [⟨.semicolon, ";", pos⟩, e'] ∧ e'.kind = .eof := by
  obtain ⟨us, t, hus, ht⟩ := exists_scans (.ofText s)
  have hsource : Scanner.ofText (s ++ ";") = (Scanner.ofText s).followedBy [';'] := by
    simp [Scanner.ofText, followedBy]
  have hboth := hus.followedBy parting_semicolon hq []
  have hlen : 0 < (t.followedBy [';']).rest.length := by simp [followedBy]
  obtain ⟨pos, e', hsep, he'⟩ := tokens_semicolon ht hlen
  refine ⟨us, t.next.1, pos, e', hus.tokens_end ht (Nat.le_refl _), scan_nil ht, ?_, he'⟩
  rw [tokenize, hsource, hboth.tokens_append (Nat.le_refl _) (Nat.le_refl _), hsep]

/-- A semicolon, a line end and another text behind a text whose strings are closed. Behind the
semicolon the line end is white space. -/
theorem tokenize_append_semicolon_line {s₁ : String} (hq : s₁.toList.count '"' % 2 = 0)
    (s₂ : String) :
    ∃ us e pos e', tokenize s₁ = us ++ [e] ∧
      tokenize (s₁ ++ ";") = us ++ [⟨.semicolon, ";", pos⟩, e'] ∧ e'.kind = .eof ∧
      tokenize (s₁ ++ ";" ++ "\n" ++ s₂) = us ++ ⟨.semicolon, ";", pos⟩ ::
        (tokenize s₂).map (Token.moved (Position.below (s₁.toList.count '\n' + 1))) := by
  obtain ⟨us, e, pos, e', htok, -, hone, he'⟩ := tokenize_append_semicolon hq
  have hq' : (s₁ ++ ";").toList.count '"' % 2 = 0 := by simpa using hq
  obtain ⟨vs, e'', sep, hvs, -, hboth, hsep⟩ := tokenize_append_line hq' s₂
  have hlist : (us ++ [⟨.semicolon, ";", pos⟩]) ++ [e'] = vs ++ [e''] := by
    simpa using hone.symm.trans hvs
  obtain ⟨rfl, -⟩ := List.append_inj' hlist rfl
  have hno : ¬ EndsStatement (us ++ [⟨.semicolon, ";", pos⟩]) := by
    rintro ⟨ws, x, hx, hk⟩
    obtain ⟨-, hc⟩ := List.append_inj' hx rfl
    obtain rfl := (List.cons.inj hc).1
    simp [Kind.endsStatement] at hk
  obtain rfl : sep = [] := (hsep.resolve_left fun h => hno h.1).2
  refine ⟨us, e, pos, e', htok, hone, he', ?_⟩
  rw [hboth]
  simp

end Scriptlet
