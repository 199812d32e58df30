import Scriptlet.Proofs.Token.Inserting
import Scriptlet.Proofs.Token.Respacing

/-!
What is written into a text next to a character that is a token by itself. An integer is a token in
front of the others. A line end is one behind a token that can end a statement, and elsewhere it is
none.
-/

namespace Scriptlet

namespace Scanner

variable {t : Scanner} {z : Char} {k : Kind} {ds : List Char} {m n : Nat}

theorem parting_of_ofChar? (hk : Kind.ofChar? z = some k) (hz : startsPair z = false) :
    Parting z := by
  obtain ⟨-, -, -, hl, hd, -⟩ := Kind.startsMark_of_ofChar? hk
  simp only [startsPair, List.contains_eq_mem, List.mem_cons, List.not_mem_nil, or_false,
    decide_eq_false_iff_not, not_or] at hz
  refine ⟨by simp [isWordChar, hl, hd], hd, fun c => Kind.ofPair?_of_second hz.1 (.inr ?_)⟩
  simp [hz]

/-- Where nothing but white space is left, what is written behind it comes next. -/
theorem next_followedBy_end (ht : t.skipBlank.rest = []) (ds : List Char) :
    (t.followedBy ds).next = (t.skipBlank.followedBy ds).next := by
  have hgo := skipBlank_go_followedBy t.rest ds rfl
  rw [if_pos (show (skipBlank.go t.rest t).rest = [] from ht)] at hgo
  have hrest : (t.skipBlank.followedBy ds).rest = ds := by simp [followedBy, ht]
  have hblank : (t.followedBy ds).skipBlank = (t.skipBlank.followedBy ds).skipBlank := by
    rw [skipBlank.eq_def (t.skipBlank.followedBy ds), hrest]
    exact hgo
  rw [next, next, hblank]

/-- A character that is a token by itself, behind white space. -/
theorem exists_scans_symbol (ht : t.skipBlank.rest = []) (hk : Kind.ofChar? z = some k)
    (hz : startsPair z = false) (ds : List Char) :
    ∃ c u, Scans (t.followedBy (z :: ds)) [c] u ∧ c.face = (k, String.singleton z) ∧
      u.rest = ds ∧ u.atEnd = k.endsStatement := by
  have hnext : (t.followedBy (z :: ds)).NextIs k (String.singleton z) ds := by
    obtain ⟨hkind, htext, hrest⟩ : (t.skipBlank.followedBy (z :: ds)).NextIs k _ ds :=
      nextIs_symbol hk (by simp [followedBy, ht]) fun d _ => Kind.ofPair?_of_first hz d
    rw [← next_followedBy_end ht] at hkind htext hrest
    exact ⟨hkind, htext, hrest⟩
  have hkind : k ≠ .eof := (Kind.startsMark_of_ofChar? hk).2.2.2.2.2.1
  exact ⟨_, _, scans_next (hnext.kind ▸ hkind), Prod.ext hnext.kind hnext.text, hnext.rest,
    congrArg Kind.endsStatement hnext.kind⟩

theorem exists_head_symbol (ht : t.skipBlank.rest = []) (hk : Kind.ofChar? z = some k)
    (hz : startsPair z = false) :
    ∃ c ∈ ((t.followedBy (z :: ds)).tokens (t.followedBy (z :: ds)).rest.length).head?,
      c.kind = k := by
  obtain ⟨c, u, hc, hface, -, -⟩ := exists_scans_symbol ht hk hz ds
  rw [hc.tokens_append (Nat.le_refl _) (Nat.le_refl _)]
  exact ⟨c, rfl, congrArg Prod.fst hface⟩

theorem parting_space : Parting ' ' := ⟨rfl, rfl, Kind.ofPair?_space⟩

/-- An integer between spaces in front of a token: a token itself, and the others look the same. -/
theorem tokens_integer (ht : t.skipBlank.rest = []) (hz : isBlank z = false)
    (hn : (t.followedBy (z :: ds)).rest.length ≤ n)
    (hm : (t.followedBy (' ' :: '0' :: ' ' :: z :: ds)).rest.length ≤ m) :
    ∃ c us, (t.followedBy (' ' :: '0' :: ' ' :: z :: ds)).tokens m = c :: us ∧
      c.face = (.int, "0") ∧ Alike us ((t.followedBy (z :: ds)).tokens n) := by
  let u := t.skipBlank.followedBy (z :: ds)
  let v := t.skipBlank.followedBy (' ' :: '0' :: ' ' :: z :: ds)
  have hu : u.rest = z :: ds := by simp [u, followedBy, ht]
  have hv : v.rest = ' ' :: '0' :: ' ' :: z :: ds := by simp [v, followedBy, ht]
  have hun : u.rest.length ≤ n := by
    simp only [hu, followedBy, List.length_append] at hn ⊢
    omega
  have hvm : v.rest.length ≤ m := by
    simp only [hv, followedBy, List.length_append] at hm ⊢
    omega
  obtain ⟨hk, htext, hrest⟩ : v.NextIs .int (String.ofList ['0']) (' ' :: z :: ds) := by
    have hstep : (v.step ('0' :: ' ' :: z :: ds)).NextIs .int (String.ofList ['0'])
        (' ' :: z :: ds) := nextIs_digits rfl (by simp) rfl (by simp [isDigit])
    obtain ⟨hk, htext, hrest⟩ := hstep
    rw [← next_space hv] at hk htext hrest
    exact ⟨hk, htext, hrest⟩
  have habreast : Abreast v.next.2 u :=
    (abreast_of_head (s := v.next.2.step (z :: ds)) rfl hu hz).of_next (next_space hrest)
  rw [tokens_congr (next_followedBy_end ht _), tokens_congr (next_followedBy_end ht _)]
  change ∃ c us, v.tokens m = c :: us ∧ _ ∧ Alike us (u.tokens n)
  simp only [hv, List.length_cons] at hvm
  obtain ⟨m, rfl⟩ : ∃ k, m = k + 1 := ⟨m - 1, by omega⟩
  refine ⟨v.next.1, v.next.2.tokens m, by simp [tokens, hk], Prod.ext hk htext, ?_⟩
  rw [tokens_eq_tokens hun (m := m) (by simp only [hu, List.length_cons]; omega)]
  exact habreast.alike m

/-- A line end in front of a token: a token itself, or none, and the others look the same. -/
theorem tokens_break (ht : t.skipBlank.rest = []) (hz : isBlank z = false)
    (hn : (t.followedBy (z :: ds)).rest.length ≤ n)
    (hm : (t.followedBy ('\n' :: z :: ds)).rest.length ≤ m) :
    ∃ sep us, (t.followedBy ('\n' :: z :: ds)).tokens m = sep ++ us ∧
      Alike us ((t.followedBy (z :: ds)).tokens n) ∧
      (t.atEnd = true ∧ (∃ c, sep = [c] ∧ c.isLineEnd = true) ∨ t.atEnd = false ∧ sep = []) := by
  let u := t.skipBlank.followedBy (z :: ds)
  let v := t.skipBlank.followedBy ('\n' :: z :: ds)
  have hu : u.rest = z :: ds := by simp [u, followedBy, ht]
  have hv : v.rest = '\n' :: z :: ds := by simp [v, followedBy, ht]
  have hend : v.atEnd = t.atEnd := skipBlank_go_atEnd _
  have hlen : u.rest.length < v.rest.length := by simp [hu, hv]
  have hvm : v.rest.length ≤ m := by
    simp only [hv, followedBy, List.length_append] at hm ⊢
    omega
  have hun : u.rest.length ≤ n := by
    simp only [hu, followedBy, List.length_append] at hn ⊢
    omega
  rw [tokens_congr (next_followedBy_end ht _), tokens_congr (next_followedBy_end ht _)]
  change ∃ sep us, v.tokens m = sep ++ us ∧ Alike us (u.tokens n) ∧ _
  rw [tokens_eq_tokens hun (Nat.le_trans hlen.le hvm)]
  cases he : t.atEnd with
  | true =>
    obtain ⟨hk, htext, hrest⟩ := nextIs_lineEnd hv (hend.trans he)
    obtain ⟨m, rfl⟩ : ∃ k, m = k + 1 := ⟨m - 1, by omega⟩
    have habreast : Abreast v.next.2 u := abreast_of_head hrest hu hz
    refine ⟨[v.next.1], v.next.2.tokens m, by simp [tokens, hk], ?_,
      .inl ⟨rfl, _, rfl, by simp [Token.isLineEnd, hk, htext]⟩⟩
    rw [tokens_eq_tokens (n := m + 1) (m := m) (by omega) (by omega)]
    exact habreast.alike m
  | false =>
    have habreast : Abreast v u :=
      (abreast_of_head (s := v.newline (z :: ds)) rfl hu hz).of_next
        (next_newline hv (hend.trans he))
    exact ⟨[], _, rfl, habreast.alike m, .inr ⟨rfl, rfl⟩⟩

end Scanner

open Scanner

variable {a b : String} {z : Char} {k : Kind}

/-- What is written in front of a character that is a token by itself leaves the tokens in front of
the place as they are. -/
theorem exists_tokens_at (hq : Paired a.toList) (hb : b.toList.head? = some z)
    (hk : Kind.ofChar? z = some k) (hz : startsPair z = false) :
    ∃ (us : List Token) (e : Token) (t : Scanner), tokenize a = us ++ [e] ∧
      t.skipBlank.rest = [] ∧ (EndsStatement us ↔ t.atEnd = true) ∧
      ∀ source cs, source.toList = a.toList ++ (cs ++ b.toList) → (∀ c ∈ cs.head?, Parting c) →
        tokenize source = us ++
          (t.followedBy (cs ++ b.toList)).tokens (t.followedBy (cs ++ b.toList)).rest.length := by
  obtain ⟨us, t, hus, ht⟩ := exists_scans (.ofText a)
  refine ⟨us, t.next.1, t, hus.tokens_end ht (Nat.le_refl _), ht, hus.endsStatement_iff rfl,
    fun source cs hs hcs => ?_⟩
  have hof : Scanner.ofText source = (Scanner.ofText a).followedBy (cs ++ b.toList) := by
    simp [Scanner.ofText, followedBy, hs]
  obtain ⟨c, ds, hds, hc⟩ : ∃ c ds, cs ++ b.toList = c :: ds ∧ Parting c := by
    cases cs with
    | nil =>
      obtain ⟨ds, hds⟩ := List.head?_eq_some_iff.mp hb
      exact ⟨z, ds, hds, parting_of_ofChar? hk hz⟩
    | cons c cs => exact ⟨c, cs ++ b.toList, rfl, hcs c rfl⟩
  rw [tokenize, hof, hds]
  exact (hus.followedBy hc hq ds).tokens_append (Nat.le_refl _) (Nat.le_refl _)

/-- A line end in front of a character that is a token by itself. -/
theorem tokenize_break (hq : Paired a.toList) (hb : b.toList.head? = some z)
    (hk : Kind.ofChar? z = some k) (hz : startsPair z = false) :
    ∃ us e sep vs ws, tokenize a = us ++ [e] ∧ tokenize (a ++ b) = us ++ vs ∧
      tokenize (a ++ "\n" ++ b) = us ++ (sep ++ ws) ∧ Alike ws vs ∧
      (∃ c ∈ vs.head?, c.kind = k) ∧
      (EndsStatement us ∧ (∃ c, sep = [c] ∧ c.isLineEnd = true) ∨
        ¬ EndsStatement us ∧ sep = []) := by
  obtain ⟨us, e, t, ha, ht, hend, hread⟩ := exists_tokens_at hq hb hk hz
  obtain ⟨ds, hds⟩ := List.head?_eq_some_iff.mp hb
  have hblank : isBlank z = false := (Kind.startsMark_of_ofChar? hk).1
  have hone := hread (a ++ b) [] (by simp) (by simp)
  have htwo := hread (a ++ "\n" ++ b) ['\n'] (by simp) (by simp [parting_lineEnd])
  simp only [hds, List.cons_append, List.nil_append] at hone htwo
  obtain ⟨sep, ws, hws, halike, hsep⟩ :=
    tokens_break ht hblank (Nat.le_refl (t.followedBy (z :: ds)).rest.length) (Nat.le_refl _)
  refine ⟨us, e, sep, _, ws, ha, hone, htwo.trans (congrArg _ hws), halike, ?_, ?_⟩
  · exact exists_head_symbol ht hk hz
  · rw [hend]
    rcases hsep with ⟨he, hc⟩ | ⟨he, hc⟩
    · exact .inl ⟨he, hc⟩
    · exact .inr ⟨by simp [he], hc⟩

/-- An integer in front of a character that is a token by itself. -/
theorem tokenize_integer (hq : Paired a.toList) (hb : b.toList.head? = some z)
    (hk : Kind.ofChar? z = some k) (hz : startsPair z = false) :
    ∃ us e c vs ws, tokenize a = us ++ [e] ∧ tokenize (a ++ b) = us ++ vs ∧
      tokenize (a ++ " 0 " ++ b) = us ++ c :: ws ∧ c.face = (.int, "0") ∧ Alike ws vs ∧
        ∃ x ∈ vs.head?, x.kind = k := by
  obtain ⟨us, e, t, ha, ht, -, hread⟩ := exists_tokens_at hq hb hk hz
  obtain ⟨ds, hds⟩ := List.head?_eq_some_iff.mp hb
  have hblank : isBlank z = false := (Kind.startsMark_of_ofChar? hk).1
  have hone := hread (a ++ b) [] (by simp) (by simp)
  have htwo := hread (a ++ " 0 " ++ b) [' ', '0', ' '] (by simp) (by simp [parting_space])
  simp only [hds, List.cons_append, List.nil_append] at hone htwo
  obtain ⟨c, ws, hws, hface, halike⟩ :=
    tokens_integer ht hblank (Nat.le_refl (t.followedBy (z :: ds)).rest.length) (Nat.le_refl _)
  exact ⟨us, e, c, _, ws, ha, hone, htwo.trans (congrArg _ hws), hface, halike,
    exists_head_symbol ht hk hz⟩

/-- A line end behind a character that is a token by itself and ends no statement is no token. -/
theorem tokenize_break_behind (hq : Paired a.toList) (ha : a.toList.getLast? = some z)
    (hk : Kind.ofChar? z = some k) (hz : startsPair z = false) (he : k.endsStatement = false) :
    Alike (tokenize (a ++ "\n" ++ b)) (tokenize (a ++ b)) := by
  obtain ⟨cs, hcs⟩ := List.getLast?_eq_some_iff.mp ha
  have hquote : z ≠ '"' := (Kind.startsMark_of_ofChar? hk).2.2.1
  have hq' : Paired cs := by
    rw [Paired, hcs, List.count_append] at hq
    simpa [Paired, hquote] using hq
  obtain ⟨us, t, hus, ht⟩ := exists_scans (.ofText (String.ofList cs))
  -- the tokens up to the character, with any text behind it
  have hread (ds : List Char) : ∃ c u, Scans (.ofText (a ++ String.ofList ds)) (us ++ [c]) u ∧
      c.face = (k, String.singleton z) ∧ u.rest = ds ∧ u.atEnd = false := by
    obtain ⟨c, u, hc, hface, hu, hend⟩ := exists_scans_symbol ht hk hz ds
    have hsource : Scanner.ofText (a ++ String.ofList ds) =
        (Scanner.ofText (String.ofList cs)).followedBy (z :: ds) := by
      simp [Scanner.ofText, followedBy, hcs]
    refine ⟨c, u, ?_, hface, hu, hend.trans he⟩
    rw [hsource]
    have hpaired : Paired (Scanner.ofText (String.ofList cs)).rest := by
      simpa [Scanner.ofText] using hq'
    exact (hus.followedBy (parting_of_ofChar? hk hz) hpaired ds).append hc
  obtain ⟨c, u, hu, hc, hrest, hend⟩ := hread b.toList
  obtain ⟨d, v, hv, hd, hrest', hend'⟩ := hread ('\n' :: b.toList)
  have habreast : Abreast v u := by
    have hlevel : Level (v.newline b.toList) u := ⟨hrest.symm, hend'.trans hend.symm⟩
    exact hlevel.abreast.of_next (next_newline hrest' hend')
  have hone : a ++ String.ofList b.toList = a ++ b := by simp
  have htwo : a ++ String.ofList ('\n' :: b.toList) = a ++ "\n" ++ b := by
    simp [← String.toList_inj]
  have hlen : u.rest.length ≤ v.rest.length := by simp [hrest, hrest']
  rw [hone] at hu
  rw [htwo] at hv
  rw [tokenize, tokenize, hv.tokens_append (Nat.le_refl _) (Nat.le_refl _),
    hu.tokens_append (Nat.le_refl _) hlen]
  refine alike_append.mpr ⟨_, _, rfl, alike_append.mpr ⟨us, [d], rfl, .refl _, ?_⟩,
    habreast.alike _⟩
  exact alike_cons.mpr ⟨d, [], rfl, hd.trans hc.symm, .refl _⟩

end Scriptlet
