import Scriptlet.Proofs.Parse.AlongPaths

/-!
Statements that break at a token. The rule for what breaks fails, and so do the rules that have come
to it, up to the innermost statement. From there the reader moves on to where it can start again.
-/

namespace Scriptlet.Parser

variable {α β : Type} {s t v : State} {p : Parser α} {n N : Nat} {c o u z : Token}
  {us ts ws : List Token} {er : List SyntaxError} {ps : List (Expr × Expr)}

/-! ### The failure -/

/-- The error at a token in place of a closing brace. -/
def braceError (z : Token) : SyntaxError := ⟨z.pos, .expected .rbrace z⟩

/-- A run fails with the token ahead in place of a closing brace. -/
abbrev Fails (z : Token) (ts : List Token) (er : List SyntaxError)
    (res : EStateM.Result Stop State α) : Prop :=
  ComesTo (Ahead · (z :: ts) (er ++ [braceError z])) (.error .failed) res

/-- Behind some tokens a rule fails at an integer. -/
def Breaks {α : Type} (p : Parser α) (us : List Token) : Prop :=
  ∀ ⦃s z ts er⦄, z.kind = .int → On s (us ++ z :: ts) er → Fails z ts er (p s)

theorem ascends_breaks : Ascends Breaks where
  tooDeep _ _ _ _ _ _ _ := .inl trivial
  descends := by
    rintro α β p q B xs us ⟨k, -, hcomes⟩ hB hq s z ts er hz hs
    rw [List.append_assoc] at hs
    refine (hcomes (hB _) hs (Nat.le_refl _)).trans fun t ht => ?_
    rcases hq hz ht with h | ⟨v, hv, hfail⟩
    · exact .inl (Rules.stops_bind h)
    · refine .inr ⟨v, hv, ?_⟩
      rw [bind_apply, hfail]

theorem separates_of_int (hz : z.kind = .int) : Rules.Separates (z :: ts) :=
  Rules.separates_cons (by simp [hz, Rules.Follows, Kind.power, Power.lowest]) (by simp [hz])

namespace Rules

theorem arrives_moreEntries_nil (hz : z.kind = .int) (hs : Ahead s (z :: ts) er) (N : Nat) :
    Arrives [] (z :: ts) er ((rules n).moreEntries N s) := by
  cases N with
  | zero => exact arrives_pure hs
  | succ N =>
    rw [moreEntries, peek_bind, hs.peek, if_neg (by simp [hz])]
    exact arrives_pure hs

/-- Behind the first entry of a hashmap the others are read, as far as the integer. -/
theorem arrives_moreEntries (h : Derives (.pairs ps) us) (hne : ps ≠ []) (ho : o.kind = .comma)
    (hz : z.kind = .int) (hs : Ahead s (o :: (us ++ z :: ts)) er)
    (hN : (o :: (us ++ z :: ts)).length ≤ N) :
    Arrives ps (z :: ts) er ((rules n).moreEntries N s) := by
  generalize hφ : Phrase.pairs ps = φ at h
  induction h generalizing ps o s N with
  | @pairsOne c key v ks vs nl hk hc hv hl =>
    cases hφ
    have hread : Reading 1 key ks := complete_of_derives hk
    have hreadv : Reading 1 v vs := complete_of_derives hv
    obtain ⟨e, es, rfl, -, he⟩ := hk.startsExpr.exists_cons (k := .eof) rfl
    simp only [List.cons_append, List.append_assoc, List.length_cons] at hs hN
    obtain ⟨N, rfl⟩ : ∃ m, N = m + 1 := ⟨N - 1, by omega⟩
    rw [moreEntries, peek_bind, hs.peek, if_pos ho]
    refine reaches_comma hs he fun t ht => ?_
    refine (hread.lowest (follows_of_colon hc) ht).bind fun t ht => ?_
    refine (arrives_entry hreadv hc hl (separates_of_int hz) ht).bind fun t ht => ?_
    exact (arrives_moreEntries_nil hz ht N).bind fun t ht => arrives_pure ht
  | @pairsCons c d key v p ps ks us nl vs hk hc hv hl hd _ _ _ ih =>
    cases hφ
    have hread : Reading 1 key ks := complete_of_derives hk
    have hreadv : Reading 1 v us := complete_of_derives hv
    obtain ⟨e, es, rfl, -, he⟩ := hk.startsExpr.exists_cons (k := .eof) rfl
    simp only [List.cons_append, List.append_assoc, List.length_cons, List.length_append] at hs hN
    obtain ⟨N, rfl⟩ : ∃ m, N = m + 1 := ⟨N - 1, by omega⟩
    rw [moreEntries, peek_bind, hs.peek, if_pos ho]
    refine reaches_comma hs he fun t ht => ?_
    refine (hread.lowest (follows_of_colon hc) ht).bind fun t ht => ?_
    refine (arrives_entry hreadv hc hl (separates_of_comma hd) ht).bind fun t ht => ?_
    exact (ih (by simp) hd ht (by simp; omega) rfl).bind fun t ht => arrives_pure ht
  | pairsNil =>
    cases hφ
    exact absurd rfl hne
  | _ => cases hφ

theorem fails_expect {f : Unit → Parser α} (hz : z.kind ≠ .rbrace)
    (hs : Ahead s (z :: ts) er) : Fails z ts er ((Parser.expect .rbrace >>= f) s) := by
  refine .inr ⟨s.record z.pos (.expected .rbrace z), ⟨hs.rest, ?_, hs.good⟩, ?_⟩
  · simp [braceError, hs.errors]
  · rw [bind_apply, expect_apply, hs.peek, if_neg hz]

/-- A hashmap fails at an integer behind its last entry. -/
theorem fails_hashmapFrom (h : Derives (.pairs ps) us) (hne : ps ≠ []) : ∃ key ks c cs,
    us = ks ++ c :: cs ∧ Derives (.expr 1 key) ks ∧ c.kind = .colon ∧
      ∀ n s z ts er, z.kind = .int → Ahead s (c :: (cs ++ z :: ts)) er →
        Fails z ts er ((rules n).hashmapFrom key s) := by
  cases h with
  | pairsNil => exact absurd rfl hne
  | @pairsOne c key v ks vs nl hk hc hv hl =>
    refine ⟨key, ks, c, _, rfl, hk, hc, fun n s z ts er hz hs => ?_⟩
    have hreadv : Reading 1 v vs := complete_of_derives hv
    rw [List.append_assoc] at hs
    refine (arrives_entry hreadv hc hl (separates_of_int hz) hs).comes fun t ht => ?_
    rw [ahead_bind]
    refine (arrives_moreEntries_nil hz ht _).comes fun t ht => ?_
    exact fails_expect (by simp [hz]) ht
  | @pairsCons c d key v p ps ks us nl vs hk hc hv hl hd hp =>
    refine ⟨key, ks, c, _, rfl, hk, hc, fun n s z ts er hz hs => ?_⟩
    have hreadv : Reading 1 v us := complete_of_derives hv
    simp only [List.append_assoc, List.cons_append] at hs
    refine (arrives_entry hreadv hc hl (separates_of_comma hd) hs).comes fun t ht => ?_
    rw [ahead_bind]
    refine (arrives_moreEntries hp (by simp) hd hz ht (by rw [ht.rest])).comes fun t ht => ?_
    exact fails_expect (by simp [hz]) ht

theorem breaks_operand (h : OpenHashmap us) (n : Nat) : Breaks (rules n).operand us := by
  obtain ⟨o, p, ps, ts, rfl, ho, hd⟩ := h
  obtain ⟨key, ks, c, cs, rfl, hk, hc, hfails⟩ := fails_hashmapFrom hd (by simp)
  intro s z ws er hz hs
  simp only [List.cons_append, List.append_assoc] at hs
  rw [operand, current_bind, hs.current, ho]
  exact (comesTo_hashmapFrom hk hc hs).trans fun t ht => hfails n t z ws er hz ht

theorem breaks_braced (h : OpenHashmap us) (n : Nat) : Breaks (rules n).braced us := by
  obtain ⟨o, p, ps, ts, rfl, ho, hd⟩ := h
  obtain ⟨key, ks, c, cs, rfl, hk, hc, hfails⟩ := fails_hashmapFrom hd (by simp)
  intro s z ws er hz hs
  simp only [List.cons_append, List.append_assoc] at hs
  refine (comesTo_braced hk hc hs).trans fun t ht => ?_
  rcases hfails n t z ws er hz ht with h | ⟨v, hv, hfail⟩
  · exact .inl (stops_bind h)
  · refine .inr ⟨v, hv, ?_⟩
    rw [bind_apply, hfail]

theorem heads_openHashmap : Heads OpenHashmap := by
  rintro _ ⟨o, p, ps, ts, rfl, ho, -⟩
  exact ⟨o, ts, rfl, by simp [ho, Kind.startsExpr], by simp [ho]⟩

/-- A statement fails at an integer behind the last entry of a hashmap in it. -/
theorem breaks_statement (h : StmtUpTo OpenHashmap us) (n : Nat) :
    Breaks (rules n).statement us :=
  ascends_statement ascends_breaks heads_openHashmap (fun n _ h => breaks_operand h n)
    (fun n _ h _ => breaks_braced h n) h n

end Rules

/-! ### The recovery -/

/-- Where the tokens start with a semicolon alone or with a statement that fails, reading goes on
with other tokens, with the errors found on the way. -/
inductive GoesOn : List Token → List SyntaxError → List Token → List SyntaxError → Prop where
  | semicolon {c : Token} {ts : List Token} {er : List SyntaxError} (hc : c.kind = .semicolon)
    (hl : c.isLineEnd = false) (hts : ts ≠ []) : GoesOn (c :: ts) er ts er
  | failed {c : Token} {cs ts : List Token} {er er' : List SyntaxError}
    (hc : ¬ Rules.EndsStmt c.kind)
    (h : ∀ n t, On t (c :: cs) er →
      ComesTo (fun v => ∃ w, synchronize v = .ok () w ∧ On w ts er') (.error .failed)
        ((rules n).statement t)) : GoesOn (c :: cs) er ts er'

/-- Where a statement in what a rule reads is one from which reading goes on, the rule goes on from
there in a manner that does not depend on the statement. -/
def Recovers {α : Type} (p : Parser α) (us : List Token) : Prop :=
  ∃ k : Nat → Parser α, (∀ N m, Equivariant m (k N)) ∧
    ∀ ⦃s vs ts er er' N⦄, GoesOn vs er ts er' → On s (us ++ vs) er → (us ++ vs).length ≤ N →
      ComesTo (On · ts er') (k N) (p s)

variable {vs xs : List Token} {er' : List SyntaxError} {q : Parser β} {B : List Token → Prop}

theorem GoesOn.startsItem (h : GoesOn vs er ts er') : Rules.StartsItem vs := by
  cases h with
  | semicolon hc => exact ⟨_, _, rfl, by simp [Rules.EndsStmts, hc]⟩
  | failed hc => exact ⟨_, _, rfl, fun hk => hc (.inr hk)⟩

theorem Recovers.of_descends (hq : Recovers q us) (hd : Descends B p xs q)
    (hB : ∀ {vs er ts er'}, GoesOn vs er ts er' → B (us ++ vs)) : Recovers p (xs ++ us) := by
  obtain ⟨k, hk, hcomes⟩ := hd
  obtain ⟨k', hk', hrec⟩ := hq
  refine ⟨fun N => k' N >>= k N, fun N m => (hk' N m).bind fun a => hk N a m,
    fun s vs ts er er' N hgo hs hN => ?_⟩
  rw [List.append_assoc] at hs hN
  refine (hcomes (hB hgo) hs hN).trans fun t ht => ?_
  exact (hrec hgo ht (by simp only [List.length_append] at hN ⊢; omega)).bind _

theorem ascends_recovers : Ascends Recovers where
  tooDeep _ := ⟨fun _ => throw .tooDeep, fun _ _ => equivariant_tooDeep, fun _ _ _ _ _ _ _ _ _ =>
    .inl trivial⟩
  descends hd hB hq := hq.of_descends hd fun _ => hB _

theorem ComesTo.attempt {R : State → Prop} {p' : Parser α} (h : ComesTo R p' (p s)) :
    ComesTo R (attempt p') (attempt p s) := by
  rcases h with h | ⟨t, ht, hp⟩
  · refine .inl ?_
    unfold Parser.attempt
    generalize p s = res at h
    match res, h with
    | .error .tooDeep _, _ => trivial
    | .error (.literalTooLong _) _, _ => trivial
  · refine .inr ⟨t, ht, ?_⟩
    unfold Parser.attempt
    rw [hp]

theorem ComesTo.attempt_failed {R : State → Prop} (h : ComesTo R (.error .failed) (p s)) :
    ComesTo R (.ok none) (Parser.attempt p s) :=
  ComesTo.attempt (show ComesTo R (fun v => .error .failed v : Parser α) (p s) from h)

namespace Rules

theorem recovers_terminated : Recovers (rules n).terminated [] := by
  refine ⟨fun _ => pure none, fun _ _ => equivariant_pure _, fun s vs ts er er' N hgo hs _ => ?_⟩
  cases hgo with
  | semicolon hc hl hts =>
    rcases eq_ok_or_stops (arrivesOn_terminated_skip (n := n) hc hts hs) with ⟨t, ht, hon⟩ | h
    · exact .inr ⟨t, hon, ht⟩
    · exact .inl h
  | failed hc h =>
    rw [terminated, current_bind, hs.current, if_neg fun hk => hc (.inl hk)]
    rcases (h n s hs).attempt_failed with hstop | ⟨v, ⟨w, hw, hon⟩, hv⟩
    · exact .inl (stops_bind hstop)
    · refine .inr ⟨w, hon, ?_⟩
      rw [bind_apply, hv]
      change (synchronize >>= fun _ => pure none) v = _
      rw [bind_apply, hw]

/-- What a statement that starts with a brace is, once its first item has been read. -/
theorem equivariant_braced_first (first : Option Stmt) (m : Move) : Parser.Equivariant m
    (peek >>= fun t => match first, t.kind with
      | some (.expr key), .colon => do
        let left ← (rules n).hashmapFrom key
        return .expr (← (rules n).expressionFrom Power.lowest left)
      | _, _ => do
        let stmt ← terminate first
        return Stmt.block (stmt.toList ++ (← (rules n).blockRest))) := by
  have hr := equivariant_rules (m := m) n
  refine equivariant_peek (fun t => ?_) fun _ => rfl
  split
  · exact (equivariant_hashmapFrom hr _).bind fun _ =>
      (equivariant_expressionFrom hr _ _).bind fun _ => equivariant_pure _
  · exact (equivariant_terminate _).bind fun _ => (equivariant_blockRest hr.statement).bind
      fun _ => equivariant_pure _

/-- A semicolon alone changes nothing in a block. -/
theorem comesTo_blockRest (hc : c.kind = .semicolon) (hts : ts ≠ []) (hs : On s (c :: ts) er) :
    ComesTo (On · ts er) (rules n).blockRest ((rules n).blockRest s) := by
  obtain ⟨d, ds, rfl⟩ := List.exists_cons_of_ne_nil hts
  rw [blockRest, ahead_bind, hs.rest_length, List.length_cons, bind_apply,
    moreStatements_succ hs ⟨c, _, rfl, by simp [EndsStmts, hc]⟩, ← bind_apply]
  simp only [bind_assoc, pure_bind]
  refine (arrivesOn_terminated_skip hc hts hs).comes fun t ht => .inr ⟨t, ht, ?_⟩
  rw [ahead_bind, ht.rest_length]
  rfl

/-- The braces at the start of a statement recover behind their first item as a block. -/
theorem recovers_braced_first : Recovers (rules n).braced [o] := by
  have hr := fun m => equivariant_rules (m := m) n
  refine ⟨fun _ => (rules n).blockRest >>= fun body => pure (.block body), fun _ m =>
    (equivariant_blockRest (hr m).statement).bind fun _ => equivariant_pure _,
    fun s vs ts er er' N hgo hs _ => ?_⟩
  cases hgo with
  | @semicolon c ts er hc hl hts =>
    rw [Rules.braced]
    refine (arrives_skipLineEnds_none hs.ahead hl).comes fun t ht => ?_
    rw [peek_bind, ht.peek, if_neg (by simp [hc])]
    refine (arrivesOn_advance ht (by simp)).comes fun t ht => ?_
    rw [current_bind, ht.current, if_pos hc]
    exact (comesTo_blockRest hc hts ht).bind _
  | @failed c cs ts er er' hc h =>
    have hl : c.isLineEnd = false := by
      simpa [Token.isLineEnd] using fun hk => absurd (.inl hk) hc
    rw [Rules.braced]
    refine (arrives_skipLineEnds_none hs.ahead hl).comes fun t ht => ?_
    rw [peek_bind, ht.peek, if_neg fun hk => hc (.inr (.inl hk))]
    refine (arrivesOn_advance ht (by simp)).comes fun t ht => ?_
    rw [current_bind, ht.current, if_neg fun hk => hc (.inl hk)]
    rcases (h n t ht).attempt_failed with hstop | ⟨v, ⟨w, hw, hon⟩, hv⟩
    · exact .inl (stops_bind hstop)
    · refine .inr ⟨w, hon, ?_⟩
      rw [bind_apply, hv]
      change ((synchronize >>= fun _ => pure none) >>= _) v = _
      rw [bind_assoc, bind_apply, hw]
      rfl

/-- The braces at the start of a statement recover in their first item. -/
theorem recovers_braced (h : Recovers (rules n).statement us)
    (hus : ∃ c cs, us = c :: cs ∧ ¬ EndsStmt c.kind) : Recovers (rules n).braced (o :: us) := by
  obtain ⟨k, hk, hrec⟩ := h
  refine ⟨fun N => attempt (k N) >>= fun first => peek >>= fun t => match first, t.kind with
    | some (.expr key), .colon => do
      let left ← (rules n).hashmapFrom key
      return .expr (← (rules n).expressionFrom Power.lowest left)
    | _, _ => do
      let stmt ← terminate first
      return Stmt.block (stmt.toList ++ (← (rules n).blockRest)), fun N m =>
    (hk N m).attempt.bind fun first => equivariant_braced_first first m,
    fun s vs ts er er' N hgo hs hN => ?_⟩
  obtain ⟨c, cs, rfl, hc⟩ := hus
  have hl : c.isLineEnd = false := by
    simpa [Token.isLineEnd] using fun hk => absurd (.inl hk) hc
  simp only [List.cons_append] at hs hN
  rw [Rules.braced]
  refine (arrives_skipLineEnds_none hs.ahead hl).comes fun t ht => ?_
  rw [peek_bind, ht.peek, if_neg fun hk => hc (.inr (.inl hk))]
  refine (arrivesOn_advance ht (by simp)).comes fun t ht => ?_
  rw [current_bind, ht.current, if_neg fun hk => hc (.inl hk)]
  exact ((hrec hgo ht (Nat.le_of_succ_le hN)).attempt).bind _

/-- A statement recovers with its end where it recovers. -/
theorem recovers_terminated_statement (h : Recovers (rules n).statement us)
    (hus : ∃ c cs, us = c :: cs ∧ ¬ EndsStmt c.kind) : Recovers (rules n).terminated us := by
  obtain ⟨k, hk, hrec⟩ := h
  obtain ⟨c, cs, rfl, hc⟩ := hus
  refine ⟨fun N => attempt (k N) >>= terminate, fun N m =>
    (hk N m).attempt.bind fun o => equivariant_terminate o, fun s vs ts er er' N hgo hs hN => ?_⟩
  have hcur : s.current = c := hs.current
  rw [terminated, current_bind, hcur, if_neg fun hk => hc (.inl hk)]
  exact ((hrec hgo hs hN).attempt).bind _

theorem heads_bodyUpTo (vs : List Token) : Heads fun us => ∃ xs, BodyUpTo xs ∧ us = xs ++ vs := by
  rintro _ ⟨xs, h, rfl⟩
  cases h with
  | function hf => exact ⟨_, _, rfl, by simp [hf, Kind.startsExpr], by simp [hf]⟩
  | consequence hi => exact ⟨_, _, rfl, by simp [hi, Kind.startsExpr], by simp [hi]⟩
  | alternative hi => exact ⟨_, _, rfl, by simp [hi, Kind.startsExpr], by simp [hi]⟩

end Rules

end Scriptlet.Parser

namespace Scriptlet

open Scriptlet.Parser Scriptlet.Parser.Rules

variable {us vs : List Token} {T : List Token → Prop} {n : Nat}

theorem StmtUpTo.append (h : StmtUpTo T us) (vs : List Token) :
    StmtUpTo (fun ws => ∃ xs, T xs ∧ ws = xs ++ vs) (us ++ vs) := by
  have hexpr {σ : Spot} {us : List Token} (h : UpTo T σ us) :
      UpTo (fun ws => ∃ xs, T xs ∧ ws = xs ++ vs) σ (us ++ vs) := by
    obtain ⟨xs, ys, rfl, hy, hx⟩ := h.exists_front
    rw [List.append_assoc]
    exact hx _ _ ⟨ys, hy, rfl⟩
  cases h with
  | assign ht ha h => exact .assign ht ha (hexpr h)
  | ret ht h => exact .ret ht (hexpr h)
  | expr h => exact .expr (hexpr h)

theorem BodyUpTo.not_startsBrace (h : BodyUpTo us) (vs : List Token) :
    ¬ StartsBrace (us ++ vs) := by
  cases h with
  | function hf => exact fun hb => by simpa [hf] using hb.cons
  | consequence hi => exact fun hb => by simpa [hi] using hb.cons
  | alternative hi => exact fun hb => by simpa [hi] using hb.cons

theorem StmtUpTo.starts (h : StmtUpTo T us) (hT : Heads T) (vs : List Token) :
    ∃ c cs, us ++ vs = c :: cs ∧ ¬ EndsStmt c.kind := by
  cases h with
  | assign ht => exact ⟨_, _, rfl, by simp [EndsStmt, ht]⟩
  | ret ht => exact ⟨_, _, rfl, by simp [EndsStmt, ht]⟩
  | expr h => exact StartsExpr.startsStmt (h.startsExpr hT vs)

theorem Enters.starts (h : Enters us) (vs : List Token) :
    ∃ c cs, us ++ vs = c :: cs ∧ ¬ EndsStmt c.kind := by
  cases h with
  | braces ho => exact ⟨_, _, rfl, by simp [EndsStmt, ho]⟩
  | body h => exact h.starts (by simpa using heads_bodyUpTo []) vs

theorem Nested.startsItem (h : Nested us) {ts ws : List Token} {er er' : List SyntaxError}
    (hgo : GoesOn ws er ts er') : StartsItem (us ++ ws) := by
  cases h with
  | here => exact hgo.startsItem
  | within h hn =>
    rw [List.append_assoc]
    obtain ⟨c, cs, hcs, hc⟩ := h.starts (_ ++ ws)
    exact ⟨c, cs, hcs, fun hk => hc (.inr hk)⟩

/-- A statement recovers from what fails in one of its parts. -/
theorem Enters.recovers (h : Enters us) (hv : Nested vs)
    (ht : ∀ n, Recovers (rules n).terminated vs)
    (hs : ∀ n, vs ≠ [] → Recovers (rules n).statement vs) (n : Nat) :
    Recovers (rules n).statement (us ++ vs) := by
  cases h with
  | body h =>
    refine ascends_statement ascends_recovers (heads_bodyUpTo vs) (fun n ws hw => ?_)
      (fun n ws hw hb => ?_) (h.append vs) n
    · obtain ⟨xs, hx, rfl⟩ := hw
      exact (ht n).of_descends (descends_operand_body hx) hv.startsItem
    · obtain ⟨xs, hx, rfl⟩ := hw
      exact absurd hb (hx.not_startsBrace vs)
  | @braces o ss xs ho hx =>
    cases n with
    | zero => exact ascends_recovers.tooDeep _
    | succ n =>
      have hbraced : Recovers (rules n).braced (o :: (xs ++ vs)) := by
        by_cases hnil : xs = []
        · subst hnil
          cases hv with
          | here => exact recovers_braced_first
          | within h hn =>
            obtain ⟨c, cs, hcs, hc⟩ := h.starts _
            exact recovers_braced (hs n (by simp [hcs])) ⟨c, cs, hcs, hc⟩
        · exact (ht n).of_descends (descends_braced_stmts ho hx hnil) hv.startsItem
      exact ascends_recovers.descends_here descends_statementRule_braced
        (fun _ => ⟨o, _, rfl, ho⟩) hbraced

/-- A statement recovers from what fails in it, at any depth. -/
theorem Nested.recovers (h : Nested us) : (∀ n, Recovers (rules n).terminated us) ∧
    ∀ n, us ≠ [] → Recovers (rules n).statement us := by
  induction h with
  | here => exact ⟨fun n => recovers_terminated, fun n hn => absurd rfl hn⟩
  | within h hn ih =>
    have hs := fun n => h.recovers hn ih.1 ih.2 n
    exact ⟨fun n => recovers_terminated_statement (hs n) (h.starts _), fun n _ => hs n⟩

end Scriptlet
