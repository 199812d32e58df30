import Scriptlet.Proofs.Parse.Fuel
import Scriptlet.Proofs.Parse.Paths

/-!
Rules within rules. On the way to a place in an expression or a statement every rule comes to the
rule for what is next on the way, and goes on with what that rule gives in a manner that does not
depend on what stands there.
-/

namespace Scriptlet.Parser

variable {α β γ : Type} {s t : State} {p : Parser β} {q : Parser α} {f : β → Parser γ} {n N M : Nat}
  {c o : Token} {us vs ts xs nl : List Token} {er fs : List SyntaxError} {r : Rules}
  {k k' : α → Parser β} {res : EStateM.Result Stop State β} {B : List Token → Prop}

/-- A run has come to a state from which it gives what the function says, unless it stops. -/
def ComesTo (R : State → Prop) (g : State → EStateM.Result Stop State β)
    (res : EStateM.Result Stop State β) : Prop :=
  Stops res ∨ ∃ t, R t ∧ res = g t

/-- A run has come to a rule that starts on the first of the tokens, and goes on with what the rule
gives, unless it stops. -/
abbrev Comes (ts : List Token) (er : List SyntaxError) (q : Parser α) (k : α → Parser β)
    (res : EStateM.Result Stop State β) : Prop :=
  ComesTo (On · ts er) (q >>= k) res

theorem comesTo_here {R : State → Prop} {g : State → EStateM.Result Stop State β} (h : R s) :
    ComesTo R g (g s) :=
  .inr ⟨s, h, rfl⟩

theorem comes_here (h : On s ts er) (k : α → Parser β) : Comes ts er q k ((q >>= k) s) :=
  comesTo_here h

theorem ComesTo.bind {R : State → Prop} {p' : Parser β} (h : ComesTo R p' (p s))
    (f : β → Parser γ) : ComesTo R (p' >>= f) ((p >>= f) s) := by
  rcases h with h | ⟨t, ht, hp⟩
  · exact .inl (Rules.stops_bind h)
  · refine .inr ⟨t, ht, ?_⟩
    rw [bind_apply, hp, ← bind_apply]

theorem ComesTo.trans {R R' : State → Prop} {g g' : State → EStateM.Result Stop State β}
    (h : ComesTo R g res) (hg : ∀ t, R t → ComesTo R' g' (g t)) : ComesTo R' g' res := by
  rcases h with h | ⟨t, ht, rfl⟩
  · exact .inl h
  · exact hg t ht

theorem Comes.bind (h : Comes ts er q k (p s)) (f : β → Parser γ) :
    Comes ts er q (fun a => k a >>= f) ((p >>= f) s) := by
  have := ComesTo.bind h f
  rwa [bind_assoc] at this

theorem Reaches.comes {R : β → State → Prop} {R' : State → Prop}
    {g : State → EStateM.Result Stop State γ} {f : β → Parser γ} (h : Reaches R (p s))
    (hf : ∀ b t, R b t → ComesTo R' g (f b t)) : ComesTo R' g ((p >>= f) s) := by
  rw [bind_apply]
  generalize p s = res at h
  match res, h with
  | .ok b t, h => exact hf b t h
  | .error .tooDeep _, _ => exact .inl trivial
  | .error (.literalTooLong _) _, _ => exact .inl trivial

theorem Arrives.comes {b : β} {R : State → Prop} {g : State → EStateM.Result Stop State γ}
    {f : β → Parser γ} (h : Arrives b us fs (p s))
    (hf : ∀ t, Ahead t us fs → ComesTo R g (f b t)) : ComesTo R g ((p >>= f) s) :=
  Reaches.comes h fun _ t h => h.1 ▸ hf t h.2

theorem ArrivesOn.comes {b : β} {R : State → Prop} {g : State → EStateM.Result Stop State γ}
    {f : β → Parser γ} (h : ArrivesOn b us fs (p s))
    (hf : ∀ t, On t us fs → ComesTo R g (f b t)) : ComesTo R g ((p >>= f) s) :=
  Reaches.comes h fun _ t h => h.1 ▸ hf t h.2

theorem On.rest_length (h : On s (c :: ts) er) : s.rest.length = ts.length := by
  rw [h.ahead.rest]

/-- What follows can be replaced by what does the same behind the tokens. -/
theorem Comes.congr {R : State → α → State → Prop} (h : Comes ts er q k res) (hq : Ensures q R)
    (hk : ∀ a, Same (ts.length - 1) (k a) (k' a)) : Comes ts er q k' res := by
  rcases h with h | ⟨t, ht, rfl⟩
  · exact .inl h
  · refine .inr ⟨t, ht, (Same.refl _ q).bind hq hk t ht.good ?_⟩
    simp [← ht.tokens, State.tokens]

/-- Behind some tokens a rule comes to another rule, with any tokens of some form for it. -/
def Descends (B : List Token → Prop) (p : Parser β) (xs : List Token) (q : Parser α) : Prop :=
  ∃ k : Nat → α → Parser β, (∀ N a m, Equivariant m (k N a)) ∧
    ∀ ⦃s ts er N⦄, B ts → On s (xs ++ ts) er → (xs ++ ts).length ≤ N → Comes ts er q (k N) (p s)

/-- The same for a rule that starts in front of the tokens. -/
def DescendsBehind (B : List Token → Prop) (p : Nat → Parser β) (xs : List Token)
    (q : Parser α) : Prop :=
  ∃ k : Nat → α → Parser β, (∀ N a m, Equivariant m (k N a)) ∧
    ∀ ⦃s ts er N M⦄, B ts → Ahead s (xs ++ ts) er → (xs ++ ts).length ≤ M →
      (xs ++ ts).length ≤ N → Comes ts er q (k N) (p M s)

/-- The first token is one that an expression can start with. -/
def StartsOperand (ts : List Token) : Prop := ∃ c cs, ts = c :: cs ∧ c.kind.startsExpr = true

theorem StartsOperand.ne (h : StartsOperand (c :: ts)) {k : Kind} (hk : k.startsExpr = false) :
    c.kind ≠ k := by
  obtain ⟨_, _, he, hc⟩ := h
  obtain ⟨rfl, rfl⟩ := List.cons.inj he
  rintro rfl
  simp [hk] at hc

theorem StartsOperand.isLineEnd (h : StartsOperand (c :: ts)) : c.isLineEnd = false := by
  simpa [Token.isLineEnd] using fun hk => absurd hk (h.ne rfl)

theorem Descends.of_eq {p' : Parser γ} (h : Descends B p (o :: xs) q)
    (hf : ∀ b m, Equivariant m (f b)) (he : ∀ s, s.current = o → p' s = (p >>= f) s) :
    Descends B p' (o :: xs) q := by
  obtain ⟨k, hk, hcomes⟩ := h
  refine ⟨fun N a => k N a >>= f, fun N a m => (hk N a m).bind fun b => hf b m,
    fun s ts er N hts hs hN => ?_⟩
  rw [he s hs.current]
  exact (hcomes hts hs hN).bind f

theorem Descends.of_same {p' : Parser β} (h : Descends B p (o :: xs) q)
    (he : ∀ s, s.current = o → p' s = p s) : Descends B p' (o :: xs) q := by
  refine h.of_eq (f := pure) (fun _ _ => equivariant_pure _) fun s hs => ?_
  rw [he s hs, bind_pure]

/-- A rule that moves on by a token. -/
theorem descends_advance (hk : ∀ a m, Equivariant m (k a))
    (he : ∀ s, s.current = o → p s = (advance >>= fun _ => q >>= k) s) (hB : ∀ ts, B ts → ts ≠ []) :
    Descends B p [o] q := by
  refine ⟨fun _ => k, fun _ => hk, fun s ts er N hts hs _ => ?_⟩
  rw [he s hs.current]
  exact (arrivesOn_advance hs.ahead (hB ts hts)).comes fun t ht => comes_here ht _

theorem StartsOperand.ne_nil (h : StartsOperand ts) : ts ≠ [] := by
  obtain ⟨c, cs, rfl, -⟩ := h
  simp

namespace Rules

/-! ### Lists -/

/-- An expression is read, the line ends behind it are dropped, and the run goes on. -/
theorem comes_item {R : State → Prop} {g : State → EStateM.Result Stop State γ}
    {f : Expr → Parser γ} {e : Expr} (h : Reading 1 e us) (hd : Dropped nl) (hx : Separates vs)
    (hs : On s (us ++ (nl ++ vs)) fs) (hf : ∀ t, Ahead t vs fs → ComesTo R g (f e t)) :
    ComesTo R g
      (((rules n).expression Power.lowest >>= fun e => skipLineEnds >>= fun _ => f e) s) := by
  have hitem : Arrives e vs fs (((rules n).expression Power.lowest >>= fun e =>
      skipLineEnds >>= fun _ => pure e) s) := h.item hd hx hs fun t ht => arrives_pure ht
  simpa [bind_assoc] using hitem.comes hf

/-- A comma and the line ends behind it are passed over. -/
theorem comes_comma {R : State → Prop} {g : State → EStateM.Result Stop State γ} {p : Parser γ}
    (hs : Ahead s (o :: c :: us) fs) (hl : c.isLineEnd = false)
    (hp : ∀ t, On t (c :: us) fs → ComesTo R g (p t)) : ComesTo R g
      ((advance >>= fun _ => skipLineEnds >>= fun _ => advance >>= fun _ => p) s) := by
  refine (arrivesOn_advance hs (by simp)).comes fun t ht => ?_
  refine (arrives_skipLineEnds_none ht.ahead hl).comes fun t ht => ?_
  exact (arrivesOn_advance ht (by simp)).comes hp

theorem separates_of_comma (hc : c.kind = .comma) : Separates (c :: ts) :=
  separates_cons (by simp [hc, Follows, Kind.power, Power.lowest]) (by simp [hc])

/-- Behind a comma a list comes to a further element. -/
theorem descends_moreItems (hx : ItemsUpTo xs) (ho : o.kind = .comma) :
    DescendsBehind StartsOperand (rules n).moreItems (o :: xs)
      ((rules n).expression Power.lowest) := by
  induction hx generalizing o with
  | nil =>
    refine ⟨fun N e => skipLineEnds >>= fun _ => (rules n).moreItems N >>= fun es =>
      pure (e :: es), fun N e m => ?_, fun s ts er N M hts hs hM hN => ?_⟩
    · exact equivariant_skipLineEnds.bind fun _ =>
        (equivariant_moreItems (equivariant_rules n) N).bind fun _ => equivariant_pure _
    · obtain ⟨c, cs, rfl, -⟩ := id hts
      simp only [List.cons_append, List.nil_append, List.length_cons] at hs hM hN
      obtain ⟨M, rfl⟩ : ∃ m, M = m + 1 := ⟨M - 1, by omega⟩
      rw [moreItems, peek_bind, hs.peek, if_pos ho]
      refine comes_comma hs hts.isLineEnd fun t ht => ?_
      refine (comes_here ht _).congr ((sound_rules n).expression _) fun e => ?_
      refine (Same.refl _ _).bind ensures_skipLineEnds fun _ => ?_
      exact (fueled_moreItems (sound_rules n) _ _ _ (by simp; omega) (by simp; omega)).then _
  | @cons c e ws nl us he hl hc _ ih =>
    obtain ⟨k, hk, hcomes⟩ := ih hc
    refine ⟨fun N a => k N a >>= fun es => pure (e :: es), fun N a m => ?_,
      fun s ts er N M hts hs hM hN => ?_⟩
    · exact (hk N a m).bind fun _ => equivariant_pure _
    · have hread : Reading 1 e ws := complete_of_derives he
      obtain ⟨d, ds, rfl, -, hd⟩ := he.startsExpr.exists_cons (k := .eof) rfl
      simp only [List.cons_append, List.append_assoc, List.length_cons, List.length_append]
        at hs hM hN
      obtain ⟨M, rfl⟩ : ∃ m, M = m + 1 := ⟨M - 1, by omega⟩
      rw [moreItems, peek_bind, hs.peek, if_pos ho]
      refine comes_comma hs hd fun t ht => ?_
      refine comes_item hread hl (separates_of_comma hc) ht fun t ht => ?_
      exact (hcomes hts ht (by simp; omega) (by simp; omega)).bind _

/-- A list comes to each of its elements. -/
theorem descends_list {close : Kind} (hx : ItemsUpTo xs) (hclose : close.startsExpr = false) :
    Descends StartsOperand ((rules n).list close) (o :: xs)
      ((rules n).expression Power.lowest) := by
  have hne : ∀ {c ts}, StartsOperand (c :: ts) → c.kind ≠ close := fun h => h.ne hclose
  cases hx with
  | nil =>
    refine ⟨fun _ e => skipLineEnds >>= fun _ => ahead >>= fun N =>
      (rules n).moreItems N >>= fun es => expect close >>= fun _ => pure (e :: es),
      fun _ e m => ?_, fun s ts er N hts hs _ => ?_⟩
    · exact equivariant_skipLineEnds.bind fun _ => equivariant_ahead fun N =>
        (equivariant_moreItems (equivariant_rules n) N).bind fun _ =>
          (equivariant_expect _).bind fun _ => equivariant_pure _
    · obtain ⟨c, cs, rfl, -⟩ := id hts
      rw [Rules.list]
      refine (arrives_skipLineEnds_none hs.ahead hts.isLineEnd).comes fun t ht => ?_
      rw [peek_bind, ht.peek, if_neg (hne hts)]
      exact (arrivesOn_advance ht (by simp)).comes fun t ht => comes_here ht _
  | @cons c e ws nl us he hl hc hx =>
    obtain ⟨k, hk, hcomes⟩ := descends_moreItems (n := n) hx hc
    refine ⟨fun N a => k N a >>= fun es => expect close >>= fun _ => pure (e :: es),
      fun N a m => ?_, fun s ts er N hts hs hN => ?_⟩
    · exact (hk N a m).bind fun _ => (equivariant_expect _).bind fun _ => equivariant_pure _
    · have hread : Reading 1 e ws := complete_of_derives he
      obtain ⟨d, ds, rfl, hd, hdl⟩ := he.startsExpr.exists_cons hclose
      simp only [List.cons_append, List.append_assoc, List.length_append, List.length_cons]
        at hs hN
      rw [Rules.list]
      refine (arrives_skipLineEnds_none hs.ahead hdl).comes fun t ht => ?_
      rw [peek_bind, ht.peek, if_neg hd]
      refine (arrivesOn_advance ht (by simp)).comes fun t ht => ?_
      refine comes_item hread hl (separates_of_comma hc) ht fun t ht => ?_
      rw [ahead_bind]
      exact (hcomes hts ht (Nat.le_of_eq (by rw [ht.rest]; rfl)) (by simp; omega)).bind _

/-! ### Hashmaps -/

theorem follows_of_colon (hc : c.kind = .colon) : Follows 0 c.kind := by
  simp [hc, Follows, Kind.power, Power.lowest]

theorem follows_of_rparen (hc : c.kind = .rparen) : Follows 0 c.kind := by
  simp [hc, Follows, Kind.power, Power.lowest]

/-- Behind its key an entry comes to the value. -/
theorem comes_value {g : Expr × Expr → Parser γ} {key : Expr} (hc : c.kind = .colon)
    (hs : Ahead s (c :: ts) fs) (hts : ts ≠ []) :
    Comes ts fs ((rules n).expression Power.lowest)
      (fun v => skipLineEnds >>= fun _ => g (key, v)) (((rules n).entry key >>= g) s) := by
  simp only [entry, bind_assoc, pure_bind]
  refine (arrivesOn_expect hs hc).comes fun t ht => ?_
  exact (arrivesOn_advance ht.ahead hts).comes fun t ht => comes_here ht _

/-- Behind a comma a hashmap comes to a further key or value. -/
theorem descends_moreEntries (hx : EntriesUpTo xs) (ho : o.kind = .comma) :
    DescendsBehind StartsOperand (rules n).moreEntries (o :: xs)
      ((rules n).expression Power.lowest) := by
  induction hx generalizing o with
  | key =>
    refine ⟨fun N key => (rules n).entry key >>= fun pair => (rules n).moreEntries N >>= fun ps =>
      pure (pair :: ps), fun N e m => ?_, fun s ts er N M hts hs hM hN => ?_⟩
    · exact (equivariant_entry (equivariant_rules n) e).bind fun _ =>
        (equivariant_moreEntries (equivariant_rules n) N).bind fun _ => equivariant_pure _
    · obtain ⟨c, cs, rfl, -⟩ := id hts
      simp only [List.cons_append, List.nil_append, List.length_cons] at hs hM hN
      obtain ⟨M, rfl⟩ : ∃ m, M = m + 1 := ⟨M - 1, by omega⟩
      rw [moreEntries, peek_bind, hs.peek, if_pos ho]
      refine comes_comma hs hts.isLineEnd fun t ht => ?_
      refine (comes_here ht _).congr ((sound_rules n).expression _) fun e => ?_
      refine (Same.refl _ _).bind (ensures_entry (sound_rules n) e) fun _ => ?_
      exact (fueled_moreEntries (sound_rules n) _ _ _ (by simp; omega) (by simp; omega)).then _
  | @value c key ws hk hc =>
    refine ⟨fun N v => skipLineEnds >>= fun _ => (rules n).moreEntries N >>= fun ps =>
      pure ((key, v) :: ps), fun N e m => ?_, fun s ts er N M hts hs hM hN => ?_⟩
    · exact equivariant_skipLineEnds.bind fun _ =>
        (equivariant_moreEntries (equivariant_rules n) N).bind fun _ => equivariant_pure _
    · have hread : Reading 1 key ws := complete_of_derives hk
      obtain ⟨d, ds, rfl, -, hd⟩ := hk.startsExpr.exists_cons (k := .eof) rfl
      simp only [List.cons_append, List.append_assoc, List.length_cons, List.length_append,
        List.nil_append] at hs hM hN
      obtain ⟨M, rfl⟩ : ∃ m, M = m + 1 := ⟨M - 1, by omega⟩
      rw [moreEntries, peek_bind, hs.peek, if_pos ho]
      refine comes_comma hs hd fun t ht => ?_
      refine (hread.lowest (follows_of_colon hc) ht).comes fun t ht => ?_
      obtain ⟨e, es, rfl, -⟩ := id hts
      refine (comes_value hc ht (by simp)).congr ((sound_rules n).expression _) fun e => ?_
      refine (Same.refl _ _).bind ensures_skipLineEnds fun _ => ?_
      exact (fueled_moreEntries (sound_rules n) _ _ _ (by simp at *; omega)
        (by simp at *; omega)).then _
  | @cons c d key v ws us nl vs hk hc hv hl hd _ ih =>
    obtain ⟨k, hk', hcomes⟩ := ih hd
    refine ⟨fun N a => k N a >>= fun ps => pure ((key, v) :: ps), fun N a m => ?_,
      fun s ts er N M hts hs hM hN => ?_⟩
    · exact (hk' N a m).bind fun _ => equivariant_pure _
    · have hread : Reading 1 key ws := complete_of_derives hk
      have hreadv : Reading 1 v us := complete_of_derives hv
      obtain ⟨e, es, rfl, -, he⟩ := hk.startsExpr.exists_cons (k := .eof) rfl
      simp only [List.cons_append, List.append_assoc, List.length_cons, List.length_append]
        at hs hM hN
      obtain ⟨M, rfl⟩ : ∃ m, M = m + 1 := ⟨M - 1, by omega⟩
      rw [moreEntries, peek_bind, hs.peek, if_pos ho]
      refine comes_comma hs he fun t ht => ?_
      refine (hread.lowest (follows_of_colon hc) ht).comes fun t ht => ?_
      refine (arrives_entry hreadv hc hl (separates_of_comma hd) ht).comes fun t ht => ?_
      exact (hcomes hts ht (by simp; omega) (by simp; omega)).bind _

/-- Behind the first key a hashmap comes to each of its other keys and values. -/
theorem descends_hashmapFrom (hx : EntriesUpTo xs) (hn : xs ≠ []) :
    ∃ key ks c cs, xs = ks ++ c :: cs ∧ Derives (.expr 1 key) ks ∧ c.kind = .colon ∧
      DescendsBehind StartsOperand (fun _ => (rules n).hashmapFrom key) (c :: cs)
        ((rules n).expression Power.lowest) := by
  cases hx with
  | key => exact absurd rfl hn
  | @value c key ks hk hc =>
    refine ⟨key, ks, c, [], rfl, hk, hc, fun _ v => skipLineEnds >>= fun _ => ahead >>= fun N =>
      (rules n).moreEntries N >>= fun ps => expect .rbrace >>= fun _ =>
        pure (.hashmap ((key, v) :: ps)), fun _ v m => ?_, fun s ts er N M hts hs _ _ => ?_⟩
    · exact equivariant_skipLineEnds.bind fun _ => equivariant_ahead fun N =>
        (equivariant_moreEntries (equivariant_rules n) N).bind fun _ =>
          (equivariant_expect _).bind fun _ => equivariant_pure _
    · exact comes_value hc hs hts.ne_nil
  | @cons c d key v ks us nl vs hk hc hv hl hd hx =>
    obtain ⟨k, hk', hcomes⟩ := descends_moreEntries (n := n) hx hd
    refine ⟨key, ks, c, _, rfl, hk, hc, fun N a => k N a >>= fun ps => expect .rbrace >>= fun _ =>
      pure (.hashmap ((key, v) :: ps)), fun N a m => ?_, fun s ts er N M hts hs hM hN => ?_⟩
    · exact (hk' N a m).bind fun _ => (equivariant_expect _).bind fun _ => equivariant_pure _
    · have hreadv : Reading 1 v us := complete_of_derives hv
      simp only [List.cons_append, List.append_assoc, List.length_cons, List.length_append]
        at hs hN
      refine (arrives_entry hreadv hc hl (separates_of_comma hd) hs).comes fun t ht => ?_
      rw [ahead_bind]
      exact (hcomes hts ht (Nat.le_of_eq (by rw [ht.rest]; rfl)) (by simp; omega)).bind _

/-- A hashmap comes to the colon behind its first key. -/
theorem comesTo_hashmapFrom {key : Expr} {ks : List Token} (hk : Derives (.expr 1 key) ks)
    (hc : c.kind = .colon) (hs : On s (o :: (ks ++ c :: us)) er) :
    ComesTo (Ahead · (c :: us) er) ((rules n).hashmapFrom key) ((rules n).hashmap s) := by
  have hread : Reading 1 key ks := complete_of_derives hk
  obtain ⟨d, ds, rfl, hd, hdl⟩ := hk.startsExpr.exists_cons (k := .rbrace) rfl
  simp only [List.cons_append] at hs
  rw [Rules.hashmap]
  refine (arrives_skipLineEnds_none hs.ahead hdl).comes fun t ht => ?_
  rw [peek_bind, ht.peek, if_neg hd]
  refine (arrivesOn_advance ht (by simp)).comes fun t ht => ?_
  exact (hread.lowest (follows_of_colon hc) ht).comes fun t ht => comesTo_here ht

/-- A hashmap at the start of a statement comes to the colon behind its first key, which has been
read as a statement. -/
theorem comesTo_braced {key : Expr} {ks : List Token} (hk : Derives (.expr 1 key) ks)
    (hc : c.kind = .colon) (hs : On s (o :: (ks ++ c :: us)) er) :
    ComesTo (Ahead · (c :: us) er) ((rules n).hashmapFrom key >>= fun left =>
      (rules n).expressionFrom Power.lowest left >>= fun e => pure (Stmt.expr e))
        ((rules n).braced s) := by
  have hread : Reading 1 key ks := complete_of_derives hk
  obtain ⟨d, ds, hds, hd, hdl⟩ := hk.startsExpr.exists_cons (k := .rbrace) rfl
  have hsemi : d.kind ≠ .semicolon := by
    obtain ⟨_, _, he, hne, -⟩ := hk.startsExpr.exists_cons (k := .semicolon) rfl
    obtain ⟨rfl, -⟩ := List.cons.inj (hds.symm.trans he)
    exact hne
  have hs' : Ahead s (d :: (ds ++ c :: us)) er := by simpa [hds] using hs.ahead
  rw [Rules.braced]
  refine (arrives_skipLineEnds_none hs' hdl).comes fun t ht => ?_
  rw [peek_bind, ht.peek, if_neg hd]
  refine (arrivesOn_advance ht (by simp)).comes fun t ht => ?_
  rw [current_bind, ht.current, if_neg hsemi]
  have ht' : On t (ks ++ c :: us) er := by rwa [hds]
  refine ((hread.statement hk.startsExpr (follows_of_colon hc) (by simp [hc]) ht').attempt).comes
    fun t ht => ?_
  rw [peek_bind, ht.peek, hc]
  exact comesTo_here ht

/-- A hashmap comes to each of its keys and values. -/
theorem descends_hashmap (hx : EntriesUpTo xs) :
    Descends StartsOperand (rules n).hashmap (o :: xs) ((rules n).expression Power.lowest) := by
  by_cases hnil : xs = []
  · subst hnil
    refine ⟨fun _ => (rules n).hashmapFrom, fun _ key m => equivariant_hashmapFrom
      (equivariant_rules n) key, fun s ts er N hts hs _ => ?_⟩
    obtain ⟨c, cs, rfl, -⟩ := id hts
    rw [Rules.hashmap]
    refine (arrives_skipLineEnds_none hs.ahead hts.isLineEnd).comes fun t ht => ?_
    rw [peek_bind, ht.peek, if_neg (hts.ne rfl)]
    exact (arrivesOn_advance ht (by simp)).comes fun t ht => comes_here ht _
  · obtain ⟨key, ks, c, cs, rfl, hk, hc, k, hk', hcomes⟩ := descends_hashmapFrom (n := n) hx hnil
    refine ⟨k, hk', fun s ts er N hts hs hN => ?_⟩
    simp only [List.cons_append, List.append_assoc, List.length_cons, List.length_append] at hs hN
    exact (comesTo_hashmapFrom hk hc hs).trans fun t ht =>
      hcomes hts ht (Nat.le_refl _) (by simp; omega)

/-- A hashmap at the start of a statement comes to each of its values and of its keys other than
the first. -/
theorem descends_braced (hx : EntriesUpTo xs) (hn : xs ≠ []) :
    Descends StartsOperand (rules n).braced (o :: xs) ((rules n).expression Power.lowest) := by
  obtain ⟨key, ks, c, cs, rfl, hk, hc, k, hk', hcomes⟩ := descends_hashmapFrom (n := n) hx hn
  refine ⟨fun N a => k N a >>= fun left => (rules n).expressionFrom Power.lowest left >>= fun e =>
    pure (Stmt.expr e), fun N a m => ?_, fun s ts er N hts hs hN => ?_⟩
  · exact (hk' N a m).bind fun _ => (equivariant_expressionFrom (equivariant_rules n) _ _).bind
      fun _ => equivariant_pure _
  · simp only [List.cons_append, List.append_assoc, List.length_cons, List.length_append] at hs hN
    exact (comesTo_braced hk hc hs).trans fun t ht =>
      (hcomes hts ht (Nat.le_refl _) (by simp; omega)).bind _

/-! ### Operators -/

/-- Behind an operand a run comes to what it comes to in what follows the operand. -/
theorem comes_of_leads {power : Nat} {left : Expr} {g : Expr → β}
    (h : Leads (rules n) power g left (o :: us) er res) (hp : power < o.kind.power)
    {k : α → Parser Expr} (hx : ∀ t, On t (o :: us) er →
      Comes ts er q k ((rules n).extend left t)) (hN : us.length ≤ N) :
    Comes ts er q (fun a => k a >>= fun e => (rules n).chain power N e >>= fun e => pure (g e))
      res := by
  cases h with
  | stops h => exact .inl h
  | @chain t m ht hm =>
    obtain ⟨m, rfl⟩ : ∃ i, m = i + 1 := ⟨m - 1, by simp at hm; omega⟩
    simp only [List.length_cons, Nat.add_le_add_iff_right] at hm
    have hon := on_advance ht (by simp)
    have hchain : ((rules n).chain power (m + 1) left >>= fun e => pure (g e)) t =
        ((rules n).extend left >>= fun e => (rules n).chain power m e >>= fun e => pure (g e))
          t.advance := by
      rw [bind_apply, chain, peek_bind, ht.peek, if_pos hp, ← bind_apply]
      simp only [bind_assoc]
      rfl
    have hsame : ((rules n).extend left >>= fun e => (rules n).chain power m e >>= fun e =>
        pure (g e)) t.advance = ((rules n).extend left >>= fun e =>
          (rules n).chain power N e >>= fun e => pure (g e)) t.advance := by
      refine (Same.refl us.length _).bind (ensures_extend (sound_rules n) left)
        (fun e => (fueled_chain (sound_rules n) power e _ _ _ hm hN).then _) _ hon.good ?_
      rw [hon.rest_length]
    rw [hchain, hsame]
    exact (hx _ hon).bind _

/-- The argument in a call, the index, or the operand of an operator to the right. -/
theorem descends_extend_call {left : Expr} (ho : o.kind = .lparen) (hx : ItemsUpTo xs) :
    Descends StartsOperand ((rules n).extend left) (o :: xs)
      ((rules n).expression Power.lowest) := by
  refine (descends_list (o := o) hx (rfl : Kind.rparen.startsExpr = false)).of_eq
    (f := fun es => pure (.call left es)) (fun _ _ => equivariant_pure _) fun s hs => ?_
  rw [extend, current_bind, hs, ho]

theorem descends_extend_index {left : Expr} (ho : o.kind = .lbracket) :
    Descends StartsOperand ((rules n).extend left) [o]
      ((rules n).expression Power.lowest) := by
  refine descends_advance (k := fun i => skipLineEnds >>= fun _ => expect .rbracket >>= fun _ =>
    pure (.index left i)) (fun _ _ => ?_) (fun s hs => ?_) fun _ => StartsOperand.ne_nil
  · exact equivariant_skipLineEnds.bind fun _ => (equivariant_expect _).bind fun _ =>
      equivariant_pure _
  · rw [extend, current_bind, hs, ho]

theorem descends_extend_operator {left : Expr} {l : Nat} {op : InfixOp} (ho : Infix l o.kind op) :
    Descends StartsOperand ((rules n).extend left) [o] ((rules n).expression l) := by
  refine descends_advance (k := fun e => pure (.binary op left e)) (fun _ _ => equivariant_pure _)
    (fun s hs => ?_) fun _ => StartsOperand.ne_nil
  rw [extend, current_bind, hs]
  have hpow := ho.power_eq
  generalize o.kind = kind at ho hpow
  split
  · cases ho
  · cases ho
  · rw [(infix_iff.mp ho).1, hpow]

/-- What comes to something behind an operand is an expression, or an expression that starts a
statement. -/
theorem descends_behind_operand {power l : Nat} {left : Expr}
    (h : Descends B ((rules n).extend left) (o :: xs) q) (hleft : Derives (.expr l left) us)
    (hl : levelOf power ≤ l) (h₇ : power ≤ 7) (hp : power < o.kind.power) (ho : Follows l o.kind) :
    Descends B ((rules n).expressionRule power) (us ++ o :: xs) q := by
  obtain ⟨k, hk, hcomes⟩ := h
  refine ⟨fun N a => k N a >>= fun e => (rules n).chain power N e >>= fun e => pure (id e),
    fun N a m => ?_, fun s ts er N hts hs hN => ?_⟩
  · exact (hk N a m).bind fun e => (equivariant_chain (equivariant_rules n) power N e).bind fun _ =>
      equivariant_pure _
  · have hread : Reading l left us := complete_of_derives hleft
    rw [List.append_assoc, List.cons_append] at hs
    simp only [List.append_assoc, List.cons_append, List.length_append, List.length_cons] at hN
    have hlead := hread.rule (n := n) h₇ hl ho hs
    exact comes_of_leads hlead hp (fun t ht => hcomes hts ht (by simp; omega)) (by simp; omega)

theorem descends_behind_braces {l : Nat} {left : Expr} {b : Token}
    (h : Descends B ((rules n).extend left) (o :: xs) q) (hleft : Derives (.expr l left) (b :: us))
    (hb : b.kind = .lbrace) (hp : 0 < o.kind.power) (ho : Follows l o.kind) :
    Descends B (rules n).braced (b :: (us ++ o :: xs)) q := by
  obtain ⟨k, hk, hcomes⟩ := h
  refine ⟨fun N a => k N a >>= fun e => (rules n).chain Power.lowest N e >>= fun e =>
    pure (Stmt.expr e), fun N a m => ?_, fun s ts er N hts hs hN => ?_⟩
  · exact (hk N a m).bind fun e => (equivariant_chain (equivariant_rules n) _ N e).bind fun _ =>
      equivariant_pure _
  · have hread : Reading l left (b :: us) := complete_of_derives hleft
    have hcur : s.current.kind = .lbrace := hs.current ▸ hb
    simp only [List.append_assoc, List.cons_append, List.length_append, List.length_cons] at hs hN
    have hlead := hread.braced (n := n) hcur ho hs
    exact comes_of_leads hlead hp (fun t ht => hcomes hts ht (by simp; omega)) (by simp; omega)

/-! ### Operands -/

/-- An expression starts with an operand. -/
theorem descends_expressionRule (power : Nat) :
    Descends B ((rules n).expressionRule power) [] (rules n).operand := by
  refine ⟨fun N e => (rules n).chain power N e, fun N e m => equivariant_chain (equivariant_rules n)
    power N e, fun s ts er N hts hs hN => ?_⟩
  refine (comes_here hs ((rules n).expressionFrom power)).congr (ensures_operand (sound_rules n))
    fun e t hg ht => ?_
  have hlen : ts.length ≤ N := hN
  exact (fueled_chain (sound_rules n) power e).eq hg (Nat.le_refl _) (by omega)

theorem descends_operand_unary (ho : o.kind = .bang ∨ o.kind = .minus) :
    Descends StartsOperand (rules n).operand [o] ((rules n).expression Power.unary) := by
  rcases ho with ho | ho
  · exact descends_advance (k := fun e => pure (.unary .not e)) (fun _ _ => equivariant_pure _)
      (fun s hs => by rw [operand, current_bind, hs, ho]) fun _ => StartsOperand.ne_nil
  · exact descends_advance (k := fun e => pure (.unary .neg e)) (fun _ _ => equivariant_pure _)
      (fun s hs => by rw [operand, current_bind, hs, ho]) fun _ => StartsOperand.ne_nil

theorem descends_operand_group (ho : o.kind = .lparen) :
    Descends StartsOperand (rules n).operand [o] ((rules n).expression Power.lowest) := by
  refine descends_advance (k := fun e => skipLineEnds >>= fun _ => expect .rparen >>= fun _ =>
    pure e) (fun _ _ => ?_) (fun s hs => ?_) fun _ => StartsOperand.ne_nil
  · exact equivariant_skipLineEnds.bind fun _ => (equivariant_expect _).bind fun _ =>
      equivariant_pure _
  · rw [operand, current_bind, hs, ho]
    rfl

theorem descends_operand_list (ho : o.kind = .lbracket) (hx : ItemsUpTo xs) :
    Descends StartsOperand (rules n).operand (o :: xs) ((rules n).expression Power.lowest) := by
  refine (descends_list (o := o) hx (rfl : Kind.rbracket.startsExpr = false)).of_eq
    (f := fun es => pure (.array es)) (fun _ _ => equivariant_pure _) fun s hs => ?_
  rw [operand, current_bind, hs, ho]

theorem descends_operand_hashmap (ho : o.kind = .lbrace) (hx : EntriesUpTo xs) :
    Descends StartsOperand (rules n).operand (o :: xs) ((rules n).expression Power.lowest) :=
  (descends_hashmap hx).of_same fun s hs => by rw [operand, current_bind, hs, ho]

theorem descends_operand_condition {i : Token} (hi : i.kind = .kwIf) (ho : o.kind = .lparen) :
    Descends StartsOperand (rules n).operand [i, o] ((rules n).expression Power.lowest) := by
  have hr : ∀ m, Parser.Equivariant m (rules n).block := fun m =>
    equivariant_block (equivariant_rules n).statement
  refine ⟨fun _ e => expect .rparen >>= fun _ => expect .lbrace >>= fun _ =>
    (rules n).block >>= fun a => peek >>= fun t => if t.kind = .kwElse then
      advance >>= fun _ => expect .lbrace >>= fun _ => (rules n).block >>= fun b =>
        pure (.ifThen e a (some b)) else pure (.ifThen e a none), fun _ e m => ?_,
    fun s ts er N hts hs _ => ?_⟩
  · refine (equivariant_expect _).bind fun _ => (equivariant_expect _).bind fun _ =>
      (hr m).bind fun a => equivariant_peek (fun t => ?_) fun _ => rfl
    split
    · exact equivariant_advance.bind fun _ => (equivariant_expect _).bind fun _ =>
        (hr m).bind fun _ => equivariant_pure _
    · exact equivariant_pure _
  · simp only [List.cons_append, List.nil_append] at hs
    rw [operand, current_bind, hs.current, hi]
    refine (arrivesOn_expect hs.ahead ho).comes fun t ht => ?_
    exact (arrivesOn_advance ht.ahead hts.ne_nil).comes fun t ht => comes_here ht _

/-! ### Blocks -/

/-- The first token is one that a statement or a semicolon alone can start with. -/
def StartsItem (ts : List Token) : Prop := ∃ c cs, ts = c :: cs ∧ ¬ EndsStmts c.kind

theorem StartsItem.ne_nil (h : StartsItem ts) : ts ≠ [] := by
  obtain ⟨c, cs, rfl, -⟩ := h
  simp

theorem StartsItem.append (h : StartsItem us) : StartsItem (us ++ ts) := by
  obtain ⟨c, cs, rfl, hc⟩ := h
  exact ⟨c, cs ++ ts, rfl, hc⟩

/-- In front of a statement or a semicolon the statements of a block are that and the others. -/
theorem moreStatements_succ (hs : On s ts er) (hts : StartsItem ts) (M : Nat) :
    (rules n).moreStatements (M + 1) s = ((rules n).terminated >>= fun o =>
      (rules n).moreStatements M >>= fun rest => pure (o.toList ++ rest)) s := by
  obtain ⟨c, cs, rfl, hc⟩ := hts
  rw [← hs.current] at hc
  simp only [moreStatements, current_bind]
  generalize s.current.kind = kind at hc
  split
  · exact absurd (.inl rfl) hc
  · exact absurd (.inr rfl) hc
  · rfl

/-- Behind statements that have their ends a block comes to a further one. -/
theorem comes_moreStatements {ss : List Stmt} (h : Closed ss xs) :
    ∃ k : Nat → Option Stmt → Parser (List Stmt), (∀ N a m, Parser.Equivariant m (k N a)) ∧
      ∀ ⦃s ts er N M⦄, StartsItem ts → On s (xs ++ ts) er → (xs ++ ts).length ≤ M →
        (xs ++ ts).length ≤ N →
          Comes ts er (rules n).terminated (k N) ((rules n).moreStatements M s) := by
  have hprepend : ∀ (o : Option Stmt) (rest : List Stmt) m,
      Parser.Equivariant m (pure (o.toList ++ rest) : Parser (List Stmt)) :=
    fun _ _ _ => equivariant_pure _
  induction h with
  | nil =>
    refine ⟨fun N o => (rules n).moreStatements N >>= fun rest => pure (o.toList ++ rest),
      fun N o m => ?_, fun s ts er N M hts hs hM hN => ?_⟩
    · exact (equivariant_moreStatements (equivariant_rules n).statement N).bind fun _ =>
        hprepend o _ m
    · obtain ⟨c, cs, rfl, -⟩ := id hts
      simp only [List.nil_append, List.length_cons] at hs hM hN
      obtain ⟨M, rfl⟩ : ∃ m, M = m + 1 := ⟨M - 1, by omega⟩
      rw [moreStatements_succ hs hts]
      refine (comes_here hs _).congr (ensures_terminated (sound_rules n)) fun o => ?_
      exact (fueled_moreStatements (sound_rules n) _ _ _ (by simp; omega) (by simp; omega)).then _
  | @skip c ss us hc h ih =>
    obtain ⟨k, hk, hcomes⟩ := ih
    refine ⟨fun N o => k N o >>= fun rest => pure ((none : Option Stmt).toList ++ rest),
      fun N o m => (hk N o m).bind fun _ => hprepend none _ m, fun s ts er N M hts hs hM hN => ?_⟩
    simp only [List.cons_append, List.length_cons] at hs hM hN
    obtain ⟨M, rfl⟩ : ∃ m, M = m + 1 := ⟨M - 1, by omega⟩
    rw [moreStatements_succ hs ⟨c, _, rfl, by simp [EndsStmts, hc]⟩]
    refine (arrivesOn_terminated_skip hc (by simp [hts.ne_nil]) hs).comes fun t ht => ?_
    exact (hcomes hts ht (by omega) (by omega)).bind _
  | @cons c st ss us vs hst hc h ih =>
    obtain ⟨k, hk, hcomes⟩ := ih
    have hread : StmtReading st us := complete_of_derives hst
    refine ⟨fun N o => k N o >>= fun rest => pure ((some st).toList ++ rest),
      fun N o m => (hk N o m).bind fun _ => hprepend (some st) _ m,
      fun s ts er N M hts hs hM hN => ?_⟩
    have hstart : StartsItem (us ++ (c :: (vs ++ ts))) := by
      obtain ⟨d, ds, rfl, hd⟩ := hread.starts
      exact ⟨d, _, rfl, fun hk => hd (.inr hk)⟩
    simp only [List.cons_append, List.append_assoc, List.length_append, List.length_cons]
      at hs hM hN
    obtain ⟨M, rfl⟩ : ∃ m, M = m + 1 := ⟨M - 1, by omega⟩
    rw [moreStatements_succ hs hstart]
    refine (hread.arrivesOn_terminated (.inl hc) hs fun t ht =>
      arrivesOn_terminate_semicolon hc (by simp [hts.ne_nil]) ht).comes fun t ht => ?_
    exact (hcomes hts ht (by simp; omega) (by simp; omega)).bind _

theorem equivariant_blockEnd (body : List Stmt) (m : Move) : Parser.Equivariant m
    (current >>= fun t => if t.kind = .rbrace then pure body
      else fail t.pos (.expected .rbrace t)) := by
  intro s
  rw [current_bind, current_bind]
  change (if s.current.kind = .rbrace then _ else _ : Parser _) _ = _
  split
  · rfl
  · exact fail_moved s.current.pos (.expected .rbrace s.current)

/-- A block comes to each of its statements. -/
theorem descends_blockRest {ss : List Stmt} (h : Closed ss xs) :
    Descends StartsItem (rules n).blockRest xs (rules n).terminated := by
  obtain ⟨k, hk, hcomes⟩ := comes_moreStatements (n := n) h
  refine ⟨fun N o => k N o >>= fun body => current >>= fun t => if t.kind = .rbrace then pure body
    else fail t.pos (.expected .rbrace t), fun N o m => (hk N o m).bind fun body =>
      equivariant_blockEnd body m, fun s ts er N hts hs hN => ?_⟩
  have hfuel := ((fueled_moreStatements (sound_rules n)).then fun body => current >>= fun t =>
    if t.kind = .rbrace then pure body else fail t.pos (.expected .rbrace t)).eq hs.good
      (Nat.le_refl _) (Nat.le_succ _)
  rw [blockRest, ahead_bind]
  refine hfuel ▸ (hcomes hts hs ?_ hN).bind _
  simp [← hs.tokens, State.tokens]

theorem descends_block {ss : List Stmt} (h : Closed ss xs) :
    Descends StartsItem (rules n).block (o :: xs) (rules n).terminated := by
  obtain ⟨k, hk, hcomes⟩ := descends_blockRest (n := n) h
  refine ⟨k, hk, fun s ts er N hts hs hN => ?_⟩
  refine (arrivesOn_advance hs.ahead (by simp [hts.ne_nil])).comes fun t ht => ?_
  exact hcomes hts ht (Nat.le_of_succ_le hN)

/-- A function and a conditional come to each of the statements in their bodies. -/
theorem descends_operand_body (h : BodyUpTo xs) :
    Descends StartsItem (rules n).operand xs (rules n).terminated := by
  have hblock : ∀ m, Parser.Equivariant m (rules n).block := fun m =>
    equivariant_block (equivariant_rules n).statement
  cases h with
  | @function f o c b names ss ts us hf ho hp hc hb hs =>
    obtain ⟨k, hk, hcomes⟩ := descends_block (n := n) (o := b) hs
    refine ⟨fun N a => k N a >>= fun body => pure (.function names body),
      fun N a m => (hk N a m).bind fun _ => equivariant_pure _, fun s vs er N hvs hon hN => ?_⟩
    have hread : ParamsReading names ts := complete_of_derives hp
    simp only [List.cons_append, List.append_assoc, List.length_cons, List.length_append]
      at hon hN
    rw [operand, current_bind, hon.current, hf]
    refine (arrivesOn_expect hon.ahead ho).comes fun t ht => ?_
    refine (hread.params hc ht.ahead).comes fun t ht => ?_
    refine (arrivesOn_expect ht hb).comes fun t ht => ?_
    exact (hcomes hvs ht (by simp; omega)).bind _
  | @consequence i o c b e ss ts us hi ho he hc hb hs =>
    obtain ⟨k, hk, hcomes⟩ := descends_block (n := n) (o := b) hs
    refine ⟨fun N a => k N a >>= fun a => peek >>= fun t => if t.kind = .kwElse then
      advance >>= fun _ => expect .lbrace >>= fun _ => (rules n).block >>= fun b =>
        pure (.ifThen e a (some b)) else pure (.ifThen e a none), fun N a m => ?_,
      fun s vs er N hvs hon hN => ?_⟩
    · refine (hk N a m).bind fun a => equivariant_peek (fun t => ?_) fun _ => rfl
      split
      · exact equivariant_advance.bind fun _ => (equivariant_expect _).bind fun _ =>
          (hblock m).bind fun _ => equivariant_pure _
      · exact equivariant_pure _
    have hread : Reading 1 e ts := complete_of_derives he
    simp only [List.cons_append, List.append_assoc, List.length_cons, List.length_append]
      at hon hN
    rw [operand, current_bind, hon.current, hi]
    refine (arrivesOn_expect hon.ahead ho).comes fun t ht => ?_
    refine (arrivesOn_advance ht.ahead (by simp)).comes fun t ht => ?_
    refine (hread.lowest (follows_of_rparen hc) ht).comes fun t ht => ?_
    refine (arrivesOn_expect ht hc).comes fun t ht => ?_
    refine (arrivesOn_expect ht.ahead hb).comes fun t ht => ?_
    exact (hcomes hvs ht (by simp; omega)).bind _
  | @alternative i o c l b e a ss ts us vs hi ho he hc ha hl hb hs =>
    obtain ⟨k, hk, hcomes⟩ := descends_block (n := n) (o := b) hs
    refine ⟨fun N x => k N x >>= fun b => pure (.ifThen e a (some b)), fun N x m =>
      (hk N x m).bind fun _ => equivariant_pure _, fun s ws er N hws hon hN => ?_⟩
    have hread : Reading 1 e ts := complete_of_derives he
    have hblock : BlockReading a us := complete_of_derives ha
    obtain ⟨d, ds, rfl, hd⟩ := hblock.starts
    simp only [List.cons_append, List.append_assoc, List.length_cons, List.length_append]
      at hon hN
    rw [operand, current_bind, hon.current, hi]
    refine (arrivesOn_expect hon.ahead ho).comes fun t ht => ?_
    refine (arrivesOn_advance ht.ahead (by simp)).comes fun t ht => ?_
    refine (hread.lowest (follows_of_rparen hc) ht).comes fun t ht => ?_
    refine (arrivesOn_expect ht hc).comes fun t ht => ?_
    refine (arrivesOn_expect ht.ahead hd).comes fun t ht => ?_
    have hbody : Arrives a (l :: b :: (vs ++ ws)) er ((rules n).block t) := hblock.read ht
    refine hbody.comes fun t ht => ?_
    rw [peek_bind, ht.peek, if_pos hl]
    refine (arrivesOn_advance ht (by simp)).comes fun t ht => ?_
    refine (arrivesOn_expect ht.ahead hb).comes fun t ht => ?_
    exact (hcomes hws ht (by simp; omega)).bind _

/-- The braces at the start of a statement come to each of the statements in them but the first. -/
theorem descends_braced_stmts {ss : List Stmt} (ho : o.kind = .lbrace) (h : Closed ss xs)
    (hn : xs ≠ []) : Descends StartsItem (rules n).braced (o :: xs) (rules n).terminated := by
  cases h with
  | nil => exact absurd rfl hn
  | @skip c ss us hc h =>
    obtain ⟨k, hk, hcomes⟩ := descends_blockRest (n := n) (.skip hc h)
    refine ⟨fun N a => k N a >>= fun body => pure (.block body), fun N a m =>
      (hk N a m).bind fun _ => equivariant_pure _, fun s ts er N hts hs hN => ?_⟩
    simp only [List.cons_append] at hs
    have hl : c.isLineEnd = false :=
      hs.ahead.peek ▸ hs.good.peek_isLineEnd (by simp [hs.current, ho, Kind.endsStatement])
    rw [Rules.braced]
    refine (arrives_skipLineEnds_none hs.ahead hl).comes fun t ht => ?_
    rw [peek_bind, ht.peek, if_neg (by simp [hc])]
    refine (arrivesOn_advance ht (by simp)).comes fun t ht => ?_
    rw [current_bind, ht.current, if_pos hc]
    exact (hcomes hts ht (Nat.le_of_succ_le hN)).bind _
  | @cons c st ss us vs hst hc h =>
    obtain ⟨k, hk, hcomes⟩ := descends_blockRest (n := n) h
    refine ⟨fun N a => k N a >>= fun body => pure (.block (st :: body)), fun N a m =>
      (hk N a m).bind fun _ => equivariant_pure _, fun s ts er N hts hs hN => ?_⟩
    have hread : StmtReading st us := complete_of_derives hst
    obtain ⟨d, ds, rfl, hd⟩ := id hread.starts
    simp only [List.cons_append, List.append_assoc, List.length_cons, List.length_append] at hs hN
    have hl : d.isLineEnd = false := by
      simpa [Token.isLineEnd] using fun hk => absurd (.inl hk) hd
    rw [Rules.braced]
    refine (arrives_skipLineEnds_none hs.ahead hl).comes fun t ht => ?_
    rw [peek_bind, ht.peek, if_neg fun hk => hd (.inr (.inl hk))]
    refine (arrivesOn_advance ht (by simp)).comes fun t ht => ?_
    rw [current_bind, ht.current, if_neg fun hk => hd (.inl hk)]
    have hfirst : Arrives st (c :: (vs ++ ts)) er ((rules n).statement t) :=
      hread.read (.inl hc) (by simpa using ht)
    refine hfirst.attempt.comes fun t ht => ?_
    rw [peek_bind, ht.peek]
    generalize hkind : c.kind = kind
    generalize hfirst : some st = first
    split
    · simp [hc] at hkind
    · subst hfirst
      refine (arrivesOn_terminate_semicolon hc (by simp [hts.ne_nil]) ht).comes fun t ht => ?_
      exact (hcomes hts ht (by simp; omega)).bind _

end Rules

end Scriptlet.Parser
