import Scriptlet.Parse.Program
import Scriptlet.Proofs.Parse.Step

/-!
What the rules read is derived by the grammar. A rule that starts on the first token of a phrase
ends on its last one; a rule for the rest of a phrase starts on the last token in front of it.
-/

namespace Scriptlet

/-- The level of the expressions that are read with a power. -/
def levelOf (power : Nat) : Nat := min (power + 1) 7

@[simp] theorem levelOf_lowest : levelOf Power.lowest = 1 := rfl

theorem levelOf_le (power : Nat) : levelOf power ≤ power + 1 := Nat.min_le_left _ _

theorem levelOf_le_seven (power : Nat) : levelOf power ≤ 7 := Nat.min_le_right _ _

/-- Only the powers of operators between two operands have a level of their own. -/
theorem levelOf_eq {power : Nat} (h : power ≤ 6) : levelOf power = power + 1 :=
  Nat.min_eq_left (Nat.succ_le_succ h)

theorem lt_of_levelOf_le {power l : Nat} (h : levelOf power ≤ l) (hl : l ≤ 6) : power < l := by
  by_cases hp : power ≤ 6
  · rwa [levelOf_eq hp] at h
  · simp only [levelOf] at h
    omega

theorem Kind.power_le (k : Kind) : k.power ≤ 8 := by
  cases k <;> decide

theorem Kind.power_of_ofKind?_none {k : Kind} (h : InfixOp.ofKind? k = none) (hp : k ≠ .lparen)
    (hb : k ≠ .lbracket) : k.power = 0 := by
  cases k <;> simp_all [InfixOp.ofKind?, power, Power.lowest]

theorem Kind.ne_eof_of_power_pos {k : Kind} (h : 0 < k.power) : k ≠ .eof := by
  rintro rfl
  exact absurd h (by decide)

namespace Parser

variable {s t u : State} {φ : Phrase} {us nl : List Token} {r : Rules} {o : Option Stmt}

/-- The reader moves from the first token of a phrase to its last one. -/
def Reads (φ : Phrase) (s t : State) : Prop :=
  ∃ us, Passes s us t ∧ Derives φ (s.current :: us)

/-- An expression is read as far as operators bind more strongly than the power. -/
def ReadsExpr (power : Nat) (s : State) (e : Expr) (t : State) : Prop :=
  Reads (.expr (levelOf power) e) s t ∧ t.peek.kind.power ≤ power

/-- Rules that read what the grammar derives. -/
structure Rules.Sound (r : Rules) : Prop where
  expression (power : Nat) : Ensures (r.expression power) (ReadsExpr power)
  statement : Ensures r.statement fun s st t => Reads (.stmt st) s t

theorem passes_of_rest_eq (h : s.rest = us ++ t.tokens) : Passes s (us ++ [t.current]) t := by
  simp [Passes, h, State.tokens]

theorem Passes.rest_eq (h : Passes s (us ++ [t.current]) t) : s.rest = us ++ t.tokens := by
  simp [h.1, State.tokens]

theorem skipLineEnds_eq (hg : s.Good) (hk : s.current.kind.endsStatement = false) :
    skipLineEnds s = .ok () s := by
  have h : ∀ n, skipLineEndsUpTo n s = .ok () s := by
    intro n
    cases n with
    | zero => rfl
    | succ n =>
      simp only [skipLineEndsUpTo, peek_bind, hg.peek_isLineEnd hk]
      rfl
  exact h s.rest.length

/-- Behind a token that ends no statement there is no line end to pass over. -/
theorem ensures_afterLineEnds {α : Type} {p : Parser α} {R : State → α → State → Prop}
    (h : Ensures p R) : Ensures (skipLineEnds >>= fun _ => p) fun s a t =>
      s.current.kind.endsStatement = false → R s a t := by
  intro s
  by_cases hs : s.Good ∧ s.current.kind.endsStatement = false
  · rw [bind_apply, skipLineEnds_eq hs.1 hs.2]
    exact (h s).mono fun _ _ _ hR _ => hR
  · exact ((ensures_skipLineEnds.bind fun _ => h) s).mono fun _ _ hg _ hk => absurd ⟨hg, hk⟩ hs

theorem Reads.current_ne_eof (h : Reads φ s t) : t.current.kind ≠ .eof := by
  obtain ⟨us, hp, hd⟩ := h
  rw [hp.2]
  exact hd.kind_ne_eof _ List.getLastD_mem_cons

namespace Rules

/-! ### Lists -/

/-- The rest of a list is read, behind its first item and line ends. -/
def ReadsItems (s : State) (es : List Expr) (t : State) : Prop :=
  ∀ e ts nl, Derives (.expr 1 e) ts → Dropped nl →
    ∃ us, Passes s us t ∧ Derives (.list (e :: es)) (ts ++ (nl ++ us))

theorem ensures_moreItems (hr : r.Sound) (n : Nat) : Ensures (r.moreItems n) ReadsItems := by
  have hn : Ensures (pure []) ReadsItems := by
    refine (ensures_pure _).mono ?_
    rintro s _ _ - ⟨rfl, rfl⟩ e ts nl he hl
    exact ⟨[], .refl _, by simpa using Derives.listOne he hl⟩
  induction n with
  | zero => exact hn
  | succ n ih =>
    intro s
    simp only [moreItems, peek_bind]
    split
    · next hc =>
      refine ((ensures_advance.bind fun _ => ensures_afterLineEnds (ensures_advance.bind fun _ =>
        (hr.expression _).bind fun _ => ensures_skipLineEnds.bind fun _ => ih.bind fun _ =>
          ensures_pure _)) s).mono ?_
      rintro _ t hg ⟨-, s₁, ⟨h₁, p₁⟩, g₁, h⟩ e ts nl he hl
      have hk : s₁.current.kind = .comma := h₁ ▸ hc
      obtain ⟨-, s₂, ⟨-, p₂⟩, -, item, s₃, ⟨⟨us, p₃, d₃⟩, -⟩, -, -, s₄, ⟨nl₄, d₄, p₄⟩, -, es, s₅,
        h₅, -, rfl, rfl⟩ := h (by simp [hk, Kind.endsStatement])
      replace p₁ := p₁ (hg.rest_ne_nil_of_peek (by simp [hc]))
      replace p₂ := p₂ (g₁.rest_ne_nil (by simp [hk]))
      obtain ⟨vs, p₅, d₅⟩ := h₅ item _ nl₄ d₃ d₄
      exact ⟨_, p₁.trans (p₂.trans (p₃.trans (p₄.trans p₅))),
        by simpa using Derives.listCons he hl hk d₅⟩
    · exact hn s

theorem ensures_list (hr : r.Sound) {close : Kind} (hc : close ≠ .eof) :
    Ensures (r.list close) fun s es t => s.current.kind.endsStatement = false →
      s.current.kind ≠ .eof → t.current.kind = close ∧
        ∃ us, Passes s (us ++ [t.current]) t ∧ Derives (.list es) us := by
  rw [list]
  refine ensures_afterLineEnds fun s => ?_
  rw [peek_bind]
  split
  · next h =>
    refine ((ensures_advance.bind fun _ => ensures_pure _) s).mono ?_
    rintro _ t hg ⟨-, s₁, ⟨h₁, p₁⟩, -, rfl, rfl⟩ -
    exact ⟨h₁ ▸ h, [], p₁ (hg.rest_ne_nil_of_peek (h ▸ hc)), .listNil⟩
  · refine ((ensures_advance.bind fun _ => (hr.expression _).bind fun _ =>
      ensures_skipLineEnds.bind fun _ => ensures_ahead.bind fun _ =>
        (ensures_moreItems hr _).bind fun _ => (ensures_expect hc).bind fun _ =>
          ensures_pure _) s).mono ?_
    rintro _ t hg ⟨-, s₁, ⟨h₁, p₁⟩, -, item, s₂, ⟨⟨us, p₂, d₂⟩, -⟩, -, -, s₃, ⟨nl, d₃, p₃⟩, -, -,
      s₄, ⟨-, rfl⟩, -, es, s₅, h₅, -, -, s₆, ⟨h₆, p₆⟩, -, rfl, rfl⟩ hk
    obtain ⟨vs, p₅, d₅⟩ := h₅ item _ nl d₂ d₃
    refine ⟨h₆, s₁.current :: us ++ (nl ++ vs), ?_, d₅⟩
    simpa using (p₁ (hg.rest_ne_nil hk)).trans (p₂.trans (p₃.trans (p₅.trans p₆)))

/-! ### Hashmaps -/

/-- The colon and the value of an entry are read, and the line ends behind it. -/
def ReadsValue (key : Expr) (s : State) (pair : Expr × Expr) (t : State) : Prop :=
  ∃ c v us nl, pair = (key, v) ∧ Passes s (c :: (us ++ nl)) t ∧ c.kind = .colon ∧
    Derives (.expr 1 v) us ∧ Dropped nl

theorem ensures_entry (hr : r.Sound) (key : Expr) : Ensures (r.entry key) (ReadsValue key) := by
  rw [entry]
  refine ((ensures_expect (by simp)).bind fun _ => ensures_advance.bind fun _ =>
    (hr.expression _).bind fun _ => ensures_skipLineEnds.bind fun _ => ensures_pure _).mono ?_
  rintro s _ t - ⟨-, s₁, ⟨h₁, p₁⟩, g₁, -, s₂, ⟨-, p₂⟩, -, v, s₃, ⟨⟨us, p₃, d₃⟩, -⟩, -, -, s₄,
    ⟨nl, d₄, p₄⟩, -, rfl, rfl⟩
  replace p₂ := p₂ (g₁.rest_ne_nil (by simp [h₁]))
  exact ⟨_, v, s₂.current :: us, nl, rfl, p₁.trans (p₂.trans (p₃.trans p₄)), h₁, d₃, d₄⟩

/-- The rest of a hashmap is read, behind its first entry and line ends. -/
def ReadsEntries (s : State) (ps : List (Expr × Expr)) (t : State) : Prop :=
  ∀ k v ts c us nl, Derives (.expr 1 k) ts → c.kind = .colon → Derives (.expr 1 v) us →
    Dropped nl → ∃ vs, Passes s vs t ∧
      Derives (.pairs ((k, v) :: ps)) (ts ++ c :: (us ++ (nl ++ vs)))

theorem ensures_moreEntries (hr : r.Sound) (n : Nat) :
    Ensures (r.moreEntries n) ReadsEntries := by
  have hn : Ensures (pure []) ReadsEntries := by
    refine (ensures_pure _).mono ?_
    rintro s _ _ - ⟨rfl, rfl⟩ k v ts c us nl hk hc hv hl
    exact ⟨[], .refl _, by simpa using Derives.pairsOne hk hc hv hl⟩
  induction n with
  | zero => exact hn
  | succ n ih =>
    intro s
    simp only [moreEntries, peek_bind]
    split
    · next hc =>
      refine ((ensures_advance.bind fun _ => ensures_afterLineEnds (ensures_advance.bind fun _ =>
        (hr.expression _).bind fun _ => (ensures_entry hr _).bind fun _ => ih.bind fun _ =>
          ensures_pure _)) s).mono ?_
      rintro _ t hg ⟨-, s₁, ⟨h₁, p₁⟩, g₁, h⟩ k v ts c us' nl hk hc' hv hl
      have hk₁ : s₁.current.kind = .comma := h₁ ▸ hc
      obtain ⟨-, s₂, ⟨-, p₂⟩, -, key, s₃, ⟨⟨us, p₃, d₃⟩, -⟩, -, -, s₄,
        ⟨d, w, ws, nl₄, rfl, p₄, hd, d₄, l₄⟩, -, ps, s₅, h₅, -, rfl, rfl⟩ :=
        h (by simp [hk₁, Kind.endsStatement])
      replace p₁ := p₁ (hg.rest_ne_nil_of_peek (by simp [hc]))
      replace p₂ := p₂ (g₁.rest_ne_nil (by simp [hk₁]))
      obtain ⟨vs, p₅, d₅⟩ := h₅ _ w _ d ws nl₄ d₃ hd d₄ l₄
      exact ⟨_, p₁.trans (p₂.trans (p₃.trans (p₄.trans p₅))),
        by simpa using Derives.pairsCons hk hc' hv hl hk₁ d₅⟩
    · exact hn s

theorem ensures_hashmapFrom (hr : r.Sound) (key : Expr) : Ensures (r.hashmapFrom key) fun s e t =>
    ∀ ts, Derives (.expr 1 key) ts → t.current.kind = .rbrace ∧ ∃ ps us, e = .hashmap ps ∧
      Passes s (us ++ [t.current]) t ∧ Derives (.pairs ps) (ts ++ us) := by
  rw [hashmapFrom]
  refine ((ensures_entry hr _).bind fun _ => ensures_ahead.bind fun _ =>
    (ensures_moreEntries hr _).bind fun _ => (ensures_expect (by simp)).bind fun _ =>
      ensures_pure _).mono ?_
  rintro s _ t - ⟨-, s₁, ⟨c, v, us, nl, rfl, p₁, hc, d₁, l₁⟩, -, -, s₂, ⟨-, rfl⟩, -, ps, s₃, h₃, -,
    -, s₄, ⟨h₄, p₄⟩, -, rfl, rfl⟩ ts hk
  obtain ⟨vs, p₃, d₃⟩ := h₃ key v ts c us nl hk hc d₁ l₁
  exact ⟨h₄, _, c :: (us ++ (nl ++ vs)), rfl, by simpa using p₁.trans (p₃.trans p₄), d₃⟩

theorem ensures_hashmap (hr : r.Sound) : Ensures r.hashmap fun s e t =>
    s.current.kind = .lbrace → Reads (.expr 8 e) s t := by
  rw [hashmap]
  refine (ensures_afterLineEnds (R := fun s e t => s.current.kind = .lbrace →
    Reads (.expr 8 e) s t) fun s => ?_).mono fun s e t _ h ho =>
      h (by simp [ho, Kind.endsStatement]) ho
  rw [peek_bind]
  split
  · next h =>
    refine ((ensures_advance.bind fun _ => ensures_pure _) s).mono ?_
    rintro _ t hg ⟨-, s₁, ⟨h₁, p₁⟩, -, rfl, rfl⟩ ho
    exact ⟨_, p₁ (hg.rest_ne_nil_of_peek (by simp [h])), .hashmap ho .pairsNil (h₁ ▸ h)⟩
  · refine ((ensures_advance.bind fun _ => (hr.expression _).bind fun _ =>
      ensures_hashmapFrom hr _) s).mono ?_
    rintro e t hg ⟨-, s₁, ⟨h₁, p₁⟩, -, key, s₂, ⟨⟨us, p₂, d₂⟩, -⟩, -, h₃⟩ ho
    obtain ⟨hc, ps, vs, rfl, p₃, d₃⟩ := h₃ _ d₂
    exact ⟨_, (p₁ (hg.rest_ne_nil (by simp [ho]))).trans (p₂.trans p₃),
      by simpa using Derives.hashmap ho d₃ hc⟩

/-! ### Statements and blocks -/

/-- What follows a statement is read: its semicolon, or nothing in front of a brace or the end. -/
def ReadsEnd (s t : State) : Prop :=
  (∃ c, c.kind = .semicolon ∧ Passes s [c, t.current] t) ∨
    (t.current.kind = .rbrace ∨ t.current.kind = .eof) ∧ Passes s [t.current] t

theorem ensures_terminate (o : Option Stmt) : Ensures (terminate o) fun s o' t =>
    ∀ st, o = some st → o' = o ∧ (s.current.kind ≠ .eof → ReadsEnd s t) := by
  cases o with
  | none =>
    refine (ensures_synchronize.bind fun _ => ensures_pure _).mono ?_
    rintro s _ t - - st ⟨⟩
  | some st =>
    have he : Ensures (advance >>= fun _ => pure (some st)) fun s o' t =>
        o' = some st ∧ t.current = s.peek ∧ (s.rest ≠ [] → Passes s [t.current] t) := by
      refine (ensures_advance.bind fun _ => ensures_pure _).mono ?_
      rintro s _ t - ⟨-, s₁, h, -, rfl, rfl⟩
      exact ⟨rfl, h⟩
    intro s
    simp only [terminate, peek_bind]
    generalize hk : s.peek.kind = k
    split
    · refine ((ensures_advance.bind fun _ => he) s).mono ?_
      rintro _ t hg ⟨-, s₁, ⟨h₁, p₁⟩, g₁, rfl, h₂, p₂⟩ st ⟨⟩
      refine ⟨rfl, fun _ => .inl ⟨s₁.current, h₁ ▸ hk, ?_⟩⟩
      replace p₁ := p₁ (hg.rest_ne_nil_of_peek (by simp [hk]))
      exact p₁.trans (p₂ (g₁.rest_ne_nil (by simp [h₁, hk])))
    · refine (he s).mono ?_
      rintro _ t hg ⟨rfl, h₁, p₁⟩ st ⟨⟩
      exact ⟨rfl, fun hs => .inr ⟨.inl (h₁ ▸ hk), p₁ (hg.rest_ne_nil hs)⟩⟩
    · refine (he s).mono ?_
      rintro _ t hg ⟨rfl, h₁, p₁⟩ st ⟨⟩
      exact ⟨rfl, fun hs => .inr ⟨.inr (h₁ ▸ hk), p₁ (hg.rest_ne_nil hs)⟩⟩
    · have hs : Ensures (advance >>= fun _ => synchronize >>= fun _ => pure (some st))
          fun _ _ _ => True :=
        (ensures_advance.bind fun _ => ensures_synchronize.bind fun _ => ensures_pure _).mono
          fun _ _ _ _ _ => trivial
      refine ((ends_record_peek s _).bind fun _ => hs).mono ?_
      rintro _ _ - ⟨-, -, h, -⟩
      exact h.elim

/-- A statement and its end are read, or a semicolon alone. -/
def ReadsTerminated (s : State) (o : Option Stmt) (t : State) : Prop :=
  (o = none ∧ s.current.kind = .semicolon ∧ Passes s [t.current] t) ∨
    ∃ st u, o = some st ∧ Reads (.stmt st) s u ∧ ReadsEnd u t

theorem ensures_terminated (hr : r.Sound) : Ensures r.terminated fun s o t =>
    s.current.kind ≠ .eof → ReadsTerminated s o t := by
  intro s
  simp only [terminated, current_bind]
  split
  · next h =>
    refine ((ensures_advance.bind fun _ => ensures_pure _) s).mono ?_
    rintro _ t hg ⟨-, s₁, ⟨h₁, p₁⟩, -, rfl, rfl⟩ hk
    exact .inl ⟨rfl, h, p₁ (hg.rest_ne_nil hk)⟩
  · refine ((hr.statement.attempt.bind fun o => ensures_terminate o) s).mono ?_
    rintro _ t hg ⟨o, s₁, ⟨st, rfl, h₁⟩, -, h₂⟩ hk
    obtain ⟨rfl, he⟩ := h₂ st rfl
    exact .inr ⟨st, s₁, rfl, h₁, he h₁.current_ne_eof⟩

theorem ReadsEnd.rest_lt (h : ReadsEnd s t) : t.rest.length < s.rest.length := by
  rcases h with ⟨c, -, h⟩ | ⟨-, h⟩ <;> simp [h.rest_length]

theorem ReadsTerminated.rest_lt (h : ReadsTerminated s o t) : t.rest.length < s.rest.length := by
  rcases h with ⟨-, -, h⟩ | ⟨st, u, -, ⟨us, h, -⟩, he⟩
  · simp [h.rest_length]
  · have := he.rest_lt
    have := h.rest_length
    omega

theorem ReadsTerminated.derives {ss : List Stmt} {us : List Token} (h : ReadsTerminated s o t)
    (hc : t.current.kind = .rbrace ∨ t.current.kind = .eof → ss = [] ∧ u = t)
    (hu : t.tokens = us ++ u.tokens) (hs : Derives (.stmts ss) us) :
    ∃ us, s.tokens = us ++ u.tokens ∧ Derives (.stmts (o.toList ++ ss)) us := by
  rcases h with ⟨rfl, hk, p⟩ | ⟨st, v, rfl, ⟨vs, pv, dv⟩, ⟨c, hk, p⟩ | ⟨hk, p⟩⟩
  · refine ⟨s.current :: us, ?_, .stmtsSkip hk hs⟩
    simpa [State.tokens, p.1] using hu
  · refine ⟨s.current :: (vs ++ c :: us), ?_, .stmtsCons dv hk hs⟩
    simpa [State.tokens, pv.1, p.1] using hu
  · obtain ⟨rfl, rfl⟩ := hc hk
    refine ⟨s.current :: vs, ?_, .stmtsLast dv⟩
    simp [State.tokens, pv.1, p.1]

theorem ensures_moreStatements (hr : r.Sound) (n : Nat) : Ensures (r.moreStatements n)
    fun s ss t => (s.current.kind = .rbrace ∨ s.current.kind = .eof → ss = [] ∧ t = s) ∧
      ∃ us, s.tokens = us ++ t.tokens ∧ Derives (.stmts ss) us := by
  induction n with
  | zero =>
    refine (ensures_pure _).mono ?_
    rintro s _ t - ⟨rfl, rfl⟩
    exact ⟨fun _ => ⟨rfl, rfl⟩, [], rfl, .stmtsNil⟩
  | succ n ih =>
    intro s
    simp only [moreStatements, current_bind]
    generalize hk : s.current.kind = k
    split
    · exact ⟨.refl, fun _ _ => ⟨fun _ => ⟨rfl, rfl⟩, [], rfl, .stmtsNil⟩⟩
    · exact ⟨.refl, fun _ _ => ⟨fun _ => ⟨rfl, rfl⟩, [], rfl, .stmtsNil⟩⟩
    · next hb he =>
      refine (((ensures_terminated hr).bind fun _ => ih.bind fun _ => ensures_pure _) s).mono ?_
      rintro _ t hg ⟨o, s₁, h₁, -, ss, s₂, ⟨h₂, us, hu, d₂⟩, -, rfl, rfl⟩
      exact ⟨fun h => (h.elim hb he).elim, (h₁ (hk ▸ he)).derives h₂ hu d₂⟩

theorem ensures_blockRest (hr : r.Sound) : Ensures r.blockRest fun s ss t =>
    t.current.kind = .rbrace ∧
      (s.current.kind = .rbrace ∨ s.current.kind = .eof → ss = [] ∧ t = s) ∧
        ∃ us, s.tokens = us ++ t.tokens ∧ Derives (.stmts ss) us := by
  have he : ∀ body : List Stmt, Ensures (current >>= fun t =>
      if t.kind = .rbrace then pure body else fail t.pos (.expected .rbrace t))
      fun s ss t => ss = body ∧ t = s ∧ s.current.kind = .rbrace := by
    intro body s
    rw [current_bind]
    split
    · next h => exact ⟨.refl, fun _ _ => ⟨rfl, rfl, h⟩⟩
    · exact ends_fail_current s _
  rw [blockRest]
  refine (ensures_ahead.bind fun _ => (ensures_moreStatements hr _).bind fun _ => he _).mono ?_
  rintro s _ _ _ ⟨_, _, ⟨_, rfl⟩, _, ss, s₁, h₁, _, rfl, rfl, hk⟩
  exact ⟨hk, h₁⟩

theorem ensures_block (hr : r.Sound) : Ensures r.block fun s ss t =>
    s.current.kind = .lbrace → Reads (.block ss) s t := by
  rw [block]
  refine (ensures_advance.bind fun _ => ensures_blockRest hr).mono ?_
  rintro s ss t hg ⟨-, s₁, ⟨-, p₁⟩, -, hc, -, us, hu, d⟩ ho
  have hr : s.rest = [] ++ s₁.tokens := Passes.rest_eq (p₁ (hg.rest_ne_nil (by simp [ho])))
  exact ⟨_, passes_of_rest_eq (hr.trans hu), .block ho d hc⟩

/-! ### Functions and conditionals -/

/-- The rest of some parameters is read, behind the first one. -/
def ReadsParams (s : State) (ns : List String) (t : State) : Prop :=
  ∀ c : Token, c.kind = .ident → ∃ us, Passes s us t ∧ Derives (.params (c.text :: ns)) (c :: us)

theorem ensures_moreParams (n : Nat) : Ensures (moreParams n) ReadsParams := by
  have hn : Ensures (pure []) ReadsParams := by
    refine (ensures_pure _).mono ?_
    rintro s _ _ - ⟨rfl, rfl⟩ c hc
    exact ⟨[], .refl _, .paramsOne hc⟩
  induction n with
  | zero => exact hn
  | succ n ih =>
    intro s
    simp only [moreParams, peek_bind]
    split
    · next h =>
      refine ((ensures_advance.bind fun _ => (ensures_expect (by simp)).bind fun _ =>
        ensures_current.bind fun _ => ih.bind fun _ => ensures_pure _) s).mono ?_
      rintro _ t hg ⟨-, s₁, ⟨h₁, p₁⟩, -, -, s₂, ⟨h₂, p₂⟩, -, -, s₃, ⟨rfl, rfl⟩, -, ns, s₄, h₄, -,
        rfl, rfl⟩ c hc
      obtain ⟨us, p₄, d₄⟩ := h₄ _ h₂
      exact ⟨_, (p₁ (hg.rest_ne_nil_of_peek (by simp [h]))).trans (p₂.trans p₄),
        .paramsCons hc (h₁ ▸ h) d₄⟩
    · exact hn s

theorem ensures_params : Ensures params fun s ns t => t.current.kind = .rparen ∧
    ∃ us, Passes s (us ++ [t.current]) t ∧ Derives (.params ns) us := by
  intro s
  simp only [params, peek_bind]
  split
  · next h =>
    refine ((ensures_advance.bind fun _ => ensures_pure _) s).mono ?_
    rintro _ t hg ⟨-, s₁, ⟨h₁, p₁⟩, -, rfl, rfl⟩
    exact ⟨h₁ ▸ h, [], p₁ (hg.rest_ne_nil_of_peek (by simp [h])), .paramsNil⟩
  · refine (((ensures_expect (by simp)).bind fun _ => ensures_current.bind fun _ =>
      ensures_ahead.bind fun _ => (ensures_moreParams _).bind fun _ =>
        (ensures_expect (by simp)).bind fun _ => ensures_pure _) s).mono ?_
    rintro _ t hg ⟨-, s₁, ⟨h₁, p₁⟩, -, -, s₂, ⟨rfl, rfl⟩, -, -, s₃, ⟨-, rfl⟩, -, ns, s₄, h₄, -, -,
      s₅, ⟨h₅, p₅⟩, -, rfl, rfl⟩
    obtain ⟨us, p₄, d₄⟩ := h₄ _ h₁
    exact ⟨h₅, _, by simpa using p₁.trans (p₄.trans p₅), d₄⟩

theorem ensures_function (hr : r.Sound) : Ensures r.function fun s e t =>
    s.current.kind = .kwFn → Reads (.expr 8 e) s t := by
  rw [function]
  refine ((ensures_expect (by simp)).bind fun _ => ensures_params.bind fun _ =>
    (ensures_expect (by simp)).bind fun _ => (ensures_block hr).bind fun _ =>
      ensures_pure _).mono ?_
  rintro s _ t - ⟨-, s₁, ⟨h₁, p₁⟩, -, ns, s₂, ⟨h₂, us, p₂, d₂⟩, -, -, s₃, ⟨h₃, p₃⟩, -, body, s₄, h₄,
    -, rfl, rfl⟩ hf
  obtain ⟨vs, p₄, d₄⟩ := h₄ h₃
  exact ⟨_, p₁.trans (p₂.trans (p₃.trans p₄)), by simpa using Derives.function hf h₁ d₂ h₂ d₄⟩

theorem ensures_conditional (hr : r.Sound) : Ensures r.conditional fun s e t =>
    s.current.kind = .kwIf → Reads (.expr 8 e) s t := by
  rw [conditional]
  refine ((ensures_expect (by simp)).bind fun _ => ensures_advance.bind fun _ =>
    (hr.expression _).bind fun c => (ensures_expect (by simp)).bind fun _ =>
      (ensures_expect (by simp)).bind fun _ => (ensures_block hr).bind fun a =>
        (?_ : Ensures _ fun s e t => (e = .ifThen c a none ∧ t = s) ∨ ∃ l b us,
          l.kind = .kwElse ∧ e = .ifThen c a (some b) ∧ Passes s (l :: us) t ∧
            Derives (.block b) us)).mono ?_
  · intro s
    rw [peek_bind]
    split
    · next h =>
      refine ((ensures_advance.bind fun _ => (ensures_expect (by simp)).bind fun _ =>
        (ensures_block hr).bind fun _ => ensures_pure _) s).mono ?_
      rintro _ t hg ⟨-, s₁, ⟨h₁, p₁⟩, -, -, s₂, ⟨h₂, p₂⟩, -, b, s₃, h₃, -, rfl, rfl⟩
      obtain ⟨us, p₃, d₃⟩ := h₃ h₂
      replace p₁ := p₁ (hg.rest_ne_nil_of_peek (by simp [h]))
      exact .inr ⟨_, b, _, h₁ ▸ h, rfl, p₁.trans (p₂.trans p₃), d₃⟩
    · exact ⟨.refl, fun _ _ => .inl ⟨rfl, rfl⟩⟩
  · rintro s e t hg ⟨-, s₁, ⟨h₁, p₁⟩, g₁, -, s₂, ⟨h₂, p₂⟩, -, c, s₃, ⟨⟨us, p₃, d₃⟩, -⟩, -, -, s₄,
      ⟨h₄, p₄⟩, -, -, s₅, ⟨h₅, p₅⟩, -, a, s₆, h₆, -, h₇⟩ hi
    obtain ⟨vs, p₆, d₆⟩ := h₆ h₅
    replace p₂ := p₂ (g₁.rest_ne_nil (by simp [h₁]))
    have p := p₁.trans (p₂.trans (p₃.trans (p₄.trans (p₅.trans p₆))))
    rcases h₇ with ⟨rfl, rfl⟩ | ⟨l, b, ws, hl, rfl, p₇, d₇⟩
    · exact ⟨_, p, by simpa using Derives.ifThen hi h₁ d₃ h₄ d₆⟩
    · exact ⟨_, p.trans p₇, by simpa using Derives.ifThenElse hi h₁ d₃ h₄ d₆ hl d₇⟩

theorem ensures_group (hr : r.Sound) : Ensures r.group fun s e t =>
    s.current.kind = .lparen → Reads (.expr 8 e) s t := by
  rw [group]
  refine (ensures_advance.bind fun _ => (hr.expression _).bind fun _ => ensures_skipLineEnds.bind
    fun _ => (ensures_expect (by simp)).bind fun _ => ensures_pure _).mono ?_
  rintro s _ t hg ⟨-, s₁, ⟨h₁, p₁⟩, -, e, s₂, ⟨⟨us, p₂, d₂⟩, -⟩, -, -, s₃, ⟨nl, d₃, p₃⟩, -, -, s₄,
    ⟨h₄, p₄⟩, -, rfl, rfl⟩ ho
  replace p₁ := p₁ (hg.rest_ne_nil (by simp [ho]))
  exact ⟨_, p₁.trans (p₂.trans (p₃.trans p₄)), Derives.group ho d₂ d₃ h₄⟩

/-! ### Expressions -/

theorem ends_integer (hk : s.current.kind = .int) :
    Ends s (fun e t => t = s ∧ Derives (.expr 8 e) [s.current]) (integer s.current s) := by
  unfold integer
  simp only
  split
  · next h => exact ⟨.refl, s.current, by simp [State.tokens], hk, h⟩
  · split
    · exact ends_fail_current s _
    · next h => exact ⟨.refl, fun _ _ => ⟨rfl, .int hk (by omega)⟩⟩

/-- An operand is read, and no operator that binds more strongly than it does is ahead. -/
def ReadsOperand (s : State) (e : Expr) (t : State) : Prop :=
  ∃ l, 7 ≤ l ∧ Reads (.expr l e) s t ∧ t.peek.kind.power ≤ l

theorem ReadsOperand.of_closed {e : Expr} (h : Reads (.expr 8 e) s t) : ReadsOperand s e t :=
  ⟨8, by simp, h, Kind.power_le _⟩

theorem ensures_unary (hr : r.Sound) (op : PrefixOp) : Ensures
    (advance >>= fun _ => r.expression Power.unary >>= fun e => pure (Expr.unary op e))
    fun s e t => s.current.kind ≠ .eof → ∃ e' us, e = .unary op e' ∧ Passes s us t ∧
      Derives (.expr 7 e') us ∧ t.peek.kind.power ≤ 7 := by
  refine (ensures_advance.bind fun _ => (hr.expression _).bind fun _ => ensures_pure _).mono ?_
  rintro s _ t hg ⟨-, s₁, ⟨-, p₁⟩, -, e, s₂, ⟨⟨us, p₂, d₂⟩, h₂⟩, -, rfl, rfl⟩ hk
  exact ⟨e, _, rfl, (p₁ (hg.rest_ne_nil hk)).trans p₂, d₂, h₂⟩

theorem ensures_operand (hr : r.Sound) : Ensures r.operand ReadsOperand := by
  intro s
  simp only [operand, current_bind]
  have hc : ∀ e, Derives (.expr 8 e) [s.current] → Ends s (ReadsOperand s)
      ((pure e : Parser Expr) s) := fun e h => ⟨.refl, fun _ _ => .of_closed ⟨[], .refl s, h⟩⟩
  generalize hk : s.current.kind = k
  split
  · exact hc _ (.ident hk)
  · refine (ends_integer hk).mono fun e t _ h => ?_
    obtain ⟨rfl, hd⟩ := h
    exact .of_closed ⟨[], .refl _, hd⟩
  · exact hc _ (.string hk)
  · exact hc _ (.true hk)
  · exact hc _ (.false hk)
  · refine (ensures_unary hr .not s).mono fun e t _ h => ?_
    obtain ⟨e', us, rfl, hp, hd, hl⟩ := h (by simp [hk])
    exact ⟨7, by simp, ⟨us, hp, .not hk hd⟩, hl⟩
  · refine (ensures_unary hr .neg s).mono fun e t _ h => ?_
    obtain ⟨e', us, rfl, hp, hd, hl⟩ := h (by simp [hk])
    exact ⟨7, by simp, ⟨us, hp, .neg hk hd⟩, hl⟩
  · exact (ensures_group hr s).mono fun _ _ _ h => .of_closed (h hk)
  · exact (ensures_conditional hr s).mono fun _ _ _ h => .of_closed (h hk)
  · exact (ensures_function hr s).mono fun _ _ _ h => .of_closed (h hk)
  · refine (((ensures_list hr (by simp)).bind fun _ => ensures_pure _) s).mono ?_
    rintro _ t - ⟨es, s₁, h₁, -, rfl, rfl⟩
    obtain ⟨hc, us, p₁, d₁⟩ := h₁ (by simp [hk, Kind.endsStatement]) (by simp [hk])
    exact .of_closed ⟨_, p₁, .array hk d₁ hc⟩
  · exact (ensures_hashmap hr s).mono fun _ _ _ h => .of_closed (h hk)
  · exact ends_fail_current s _
  · exact ends_fail_current s _

/-- What follows an operand is read together with the operand, which some tokens in front spell. -/
def ReadsOn (left : Expr) (s : State) (e : Expr) (t : State) : Prop :=
  ∀ ts l, Derives (.expr l left) ts → s.current.kind.power ≤ l → ∃ us, Passes s us t ∧
    Derives (.expr s.current.kind.power e) (ts ++ s.current :: us) ∧
      t.peek.kind.power ≤ s.current.kind.power

theorem ensures_extend (hr : r.Sound) (left : Expr) : Ensures (r.extend left) fun s e t =>
    0 < s.current.kind.power → ReadsOn left s e t := by
  intro s
  simp only [extend, current_bind]
  generalize hk : s.current.kind = k
  split
  · refine (((ensures_list hr (by simp)).bind fun _ => ensures_pure _) s).mono ?_
    rintro _ t - ⟨es, s₁, h₁, -, rfl, rfl⟩ - ts l hd hl
    obtain ⟨hc, us, p₁, d₁⟩ := h₁ (by simp [hk, Kind.endsStatement]) (by simp [hk])
    rw [hk] at hl ⊢
    exact ⟨_, p₁, .call (hd.of_le hl) hk d₁ hc, Kind.power_le _⟩
  · refine ((ensures_advance.bind fun _ => (hr.expression _).bind fun _ => ensures_skipLineEnds.bind
      fun _ => (ensures_expect (by simp)).bind fun _ => ensures_pure _) s).mono ?_
    rintro _ t hg ⟨-, s₁, ⟨h₁, p₁⟩, -, i, s₂, ⟨⟨us, p₂, d₂⟩, -⟩, -, -, s₃, ⟨nl, d₃, p₃⟩, -, -, s₄,
      ⟨h₄, p₄⟩, -, rfl, rfl⟩ - ts l hd hl
    rw [hk] at hl ⊢
    replace p₁ := p₁ (hg.rest_ne_nil (by simp [hk]))
    have d := Derives.index (hd.of_le hl) hk d₂ d₃ h₄
    exact ⟨_, p₁.trans (p₂.trans (p₃.trans p₄)), d, Kind.power_le _⟩
  · next hp hb =>
    generalize ho : InfixOp.ofKind? k = o
    split
    · refine ⟨.refl, fun _ _ h => absurd h ?_⟩
      simp [Kind.power_of_ofKind?_none ho hp hb]
    · next op =>
      have hi : Infix k.power k op := infix_iff.mpr ⟨ho, rfl⟩
      have hl : levelOf k.power = k.power + 1 := levelOf_eq hi.level_le
      refine ((ensures_advance.bind fun _ => (hr.expression _).bind fun _ => ensures_pure _)
        s).mono ?_
      rintro _ t hg ⟨-, s₁, ⟨-, p₁⟩, -, e, s₂, ⟨⟨us, p₂, d₂⟩, h₂⟩, -, rfl, rfl⟩ - ts l hd hle
      rw [hl] at d₂
      rw [hk] at hle ⊢
      replace p₁ := p₁ (hg.rest_ne_nil (hk ▸ hi.ne_eof))
      exact ⟨_, p₁.trans p₂, .binary (hk ▸ hi) (hd.of_le hle) d₂, h₂⟩

/-- All that binds more strongly than the power is read together with the operand in front. -/
def ReadsChain (power : Nat) (left : Expr) (s : State) (e : Expr) (t : State) : Prop :=
  ∀ ts l, Derives (.expr l left) ts → levelOf power ≤ l → s.peek.kind.power ≤ l → ∃ us,
    Passes s us t ∧ Derives (.expr (levelOf power) e) (ts ++ us) ∧ t.peek.kind.power ≤ power

theorem ensures_chain (hr : r.Sound) (power n : Nat) (left : Expr) :
    Ensures (r.chain power n left) fun s e t =>
      s.rest.length ≤ n → ReadsChain power left s e t := by
  induction n generalizing left with
  | zero =>
    refine fun s => ⟨.refl, fun hg _ hn ts l hd hl _ => ⟨[], .refl s, ?_, ?_⟩⟩
    · simpa using hd.of_le hl
    · have hr : s.rest = [] := List.eq_nil_of_length_eq_zero (by omega)
      have hk := hg.rest_eq_nil_iff.mp hr
      simp [State.peek, hr, hk, Kind.power, Power.lowest]
  | succ n ih =>
    intro s
    simp only [chain, peek_bind]
    split
    · next hp =>
      refine ((ensures_advance.bind fun _ => (ensures_extend hr left).bind fun _ => ih _) s).mono ?_
      rintro e t hg ⟨-, s₁, ⟨h₁, p₁⟩, -, e₁, s₂, h₂, -, h₃⟩ hn ts l hd hl hpl
      have hpos : 0 < s.peek.kind.power := by omega
      replace p₁ := p₁ (hg.rest_ne_nil_of_peek (Kind.ne_eof_of_power_pos hpos))
      rw [← h₁] at hp hpos hpl
      obtain ⟨us, p₂, d₂, hq⟩ := h₂ hpos ts l hd hpl
      have hlen := p₁.rest_length
      have hlen' := p₂.rest_length
      simp only [List.length_singleton] at hlen
      obtain ⟨vs, p₃, d₃, ht⟩ := h₃ (by omega) _ _ d₂ (Nat.le_trans (levelOf_le power) hp) hq
      exact ⟨_, p₁.trans (p₂.trans p₃), by simpa using d₃, ht⟩
    · next hp =>
      exact ⟨.refl, fun _ _ _ ts l hd hl _ => ⟨[], .refl s, by simpa using hd.of_le hl, by omega⟩⟩

theorem ensures_expressionFrom (hr : r.Sound) (power : Nat) (left : Expr) :
    Ensures (r.expressionFrom power left) (ReadsChain power left) :=
  fun s => (ensures_chain hr power s.rest.length left s).mono fun _ _ _ h => h (Nat.le_refl _)

theorem ensures_expressionRule (hr : r.Sound) (power : Nat) :
    Ensures (r.expressionRule power) (ReadsExpr power) := by
  rw [expressionRule]
  refine ((ensures_operand hr).bind fun _ => ensures_expressionFrom hr power _).mono ?_
  rintro s e t - ⟨e₁, s₁, ⟨l, hl, ⟨us, p₁, d₁⟩, h₁⟩, -, h₂⟩
  obtain ⟨vs, p₂, d₂, ht⟩ := h₂ _ l d₁ (Nat.le_trans (levelOf_le_seven power) hl) h₁
  exact ⟨⟨_, p₁.trans p₂, d₂⟩, ht⟩

/-! ### Statements that start with a brace -/

theorem derives_expr_of_stmt {e : Expr} {ts : List Token} (h : Derives (.stmt (.expr e)) ts) :
    Derives (.expr 1 e) ts := by
  cases h with
  | exprStmt he => exact he

/-- The first item behind a brace tells a hashmap from a block. -/
theorem ensures_bracedFirst (hr : r.Sound) : Ensures (attempt r.statement >>= fun first =>
    peek >>= fun t => match first, t.kind with
      | some (.expr key), .colon => r.hashmapFrom key >>= fun left =>
        r.expressionFrom Power.lowest left >>= fun e => pure (Stmt.expr e)
      | _, _ => terminate first >>= fun stmt => r.blockRest >>= fun rest =>
        pure (.block (stmt.toList ++ rest)))
    fun s st t => ∀ o : Token, o.kind = .lbrace → ∃ us, Passes s us t ∧
      Derives (.stmt st) (o :: s.current :: us) := by
  refine (hr.statement.attempt.bind fun first => (?_ : Ensures _ fun s st t =>
    ∀ o d ts first', first = some first' → o.kind = .lbrace → s.current.kind ≠ .eof →
      Derives (.stmt first') (d :: ts) → ∃ us, Passes s us t ∧
        Derives (.stmt st) (o :: (d :: ts ++ us)))).mono ?_
  · intro s
    rw [peek_bind]
    generalize s.peek.kind = k
    split
    · refine (((ensures_hashmapFrom hr _).bind fun _ => (ensures_expressionFrom hr _ _).bind
        fun _ => ensures_pure _) s).mono ?_
      rintro _ t hg ⟨left, s₁, h₁, -, e, s₂, h₂, -, rfl, rfl⟩ o d ts _ ⟨⟩ ho - hd
      obtain ⟨hc, ps, us, rfl, p₁, d₁⟩ := h₁ _ (derives_expr_of_stmt hd)
      obtain ⟨vs, p₂, d₂, -⟩ := h₂ _ 8 (.hashmap ho d₁ hc) (by simp) (Kind.power_le _)
      exact ⟨_, p₁.trans p₂, .exprStmt (by simpa using d₂)⟩
    · refine (((ensures_terminate _).bind fun _ => (ensures_blockRest hr).bind
        fun _ => ensures_pure _) s).mono ?_
      rintro _ t hg ⟨o', s₁, h₁, -, ss, s₂, ⟨hc, h₂, us, hu, d₂⟩, -, rfl, rfl⟩ o d ts st rfl ho hs
        hd
      obtain ⟨rfl, he⟩ := h₁ st rfl
      rcases he hs with ⟨c, hsc, p₁⟩ | ⟨hcl, p₁⟩
      · have hr : s.rest = [c] ++ s₁.tokens := Passes.rest_eq p₁
        have p₂ : s.rest = c :: us ++ t.tokens := by simpa [hu] using hr
        exact ⟨_, passes_of_rest_eq p₂,
          by simpa using Derives.blockStmt ho (.stmtsCons hd hsc d₂) (by simp) hc⟩
      · obtain ⟨rfl, rfl⟩ := h₂ hcl
        exact ⟨_, p₁, .blockStmt ho (.stmtsLast hd) (by simp) hc⟩
  · rintro s st t hg ⟨_, s₁, ⟨first, rfl, h₁⟩, -, h₂⟩ o ho
    obtain ⟨us, p₁, d₁⟩ := id h₁
    obtain ⟨vs, p₂, d₂⟩ := h₂ o _ _ first rfl ho h₁.current_ne_eof d₁
    exact ⟨_, p₁.trans p₂, d₂⟩

/-- Behind the first token in braces that hold something. -/
def ReadsBraced (s : State) (st : Stmt) (t : State) : Prop :=
  ∀ o : Token, o.kind = .lbrace → ∃ us, Passes s us t ∧ Derives (.stmt st) (o :: s.current :: us)

/-- A block whose first token is the end of a statement. -/
theorem ends_blockRest (hr : r.Sound) (hs : s.current.kind = .semicolon) :
    Ends s (ReadsBraced s) ((r.blockRest >>= fun ss => pure (.block ss)) s) := by
  refine (((ensures_blockRest hr).bind fun _ => ensures_pure _) s).mono ?_
  rintro _ t hg ⟨ss, s₁, ⟨hc, -, us, hu, d₁⟩, -, rfl, rfl⟩ o ho
  cases us with
  | nil =>
    -- the brace would be closed at once
    obtain ⟨hcur, -⟩ := List.cons.inj hu
    simp [← hcur, hs] at hc
  | cons u us =>
    obtain ⟨rfl, hr⟩ := List.cons.inj hu
    exact ⟨_, passes_of_rest_eq hr, .blockStmt ho d₁ (by simp) hc⟩

theorem ensures_braced (hr : r.Sound) : Ensures r.braced fun s st t =>
    s.current.kind = .lbrace → Reads (.stmt st) s t := by
  rw [braced]
  refine (ensures_afterLineEnds (R := fun s st t => s.current.kind = .lbrace →
    Reads (.stmt st) s t) fun s => ?_).mono fun s st t _ h ho =>
      h (by simp [ho, Kind.endsStatement]) ho
  rw [peek_bind]
  split
  · next h =>
    refine ((ensures_advance.bind fun _ => (ensures_expressionFrom hr _ _).bind fun _ =>
      ensures_pure _) s).mono ?_
    rintro _ t hg ⟨-, s₁, ⟨h₁, p₁⟩, -, e, s₂, h₂, -, rfl, rfl⟩ ho
    replace p₁ := p₁ (hg.rest_ne_nil_of_peek (by simp [h]))
    obtain ⟨us, p₂, d₂, -⟩ := h₂ _ _ (.hashmap ho .pairsNil (h₁ ▸ h)) (by simp)
      (Kind.power_le _)
    exact ⟨_, p₁.trans p₂, .exprStmt d₂⟩
  · refine ((ensures_advance.bind fun _ => (?_ : Ensures _ ReadsBraced)) s).mono ?_
    · intro s
      rw [current_bind]
      split
      · next hs => exact ends_blockRest hr hs
      · exact ensures_bracedFirst hr s
    · rintro st t hg ⟨-, s₁, ⟨h₁, p₁⟩, -, h₂⟩ ho
      obtain ⟨us, p₂, d₂⟩ := h₂ _ ho
      exact ⟨_, (p₁ (hg.rest_ne_nil (by simp [ho]))).trans p₂, d₂⟩

theorem ensures_statementRule (hr : r.Sound) :
    Ensures r.statementRule fun s st t => Reads (.stmt st) s t := by
  have he : Ensures (r.expression Power.lowest >>= fun e => pure (.expr e)) fun s st t =>
      Reads (.stmt st) s t := by
    refine ((hr.expression _).bind fun _ => ensures_pure _).mono ?_
    rintro s _ t - ⟨e, s₁, ⟨⟨us, p₁, d₁⟩, -⟩, -, rfl, rfl⟩
    exact ⟨us, p₁, .exprStmt d₁⟩
  intro s
  simp only [statementRule, current_bind]
  generalize hk : s.current.kind = k
  split
  · refine ((ensures_advance.bind fun _ => (hr.expression _).bind fun _ => ensures_pure _)
      s).mono ?_
    rintro _ t hg ⟨-, s₁, ⟨-, p₁⟩, -, e, s₂, ⟨⟨us, p₂, d₂⟩, -⟩, -, rfl, rfl⟩
    exact ⟨_, (p₁ (hg.rest_ne_nil (by simp [hk]))).trans p₂, .ret hk d₂⟩
  · exact (ensures_braced hr s).mono fun _ _ _ h => h hk
  · rw [peek_bind]
    split
    · next h =>
      simp only [Bool.and_eq_true, decide_eq_true_eq] at h
      refine ((ensures_advance.bind fun _ => ensures_advance.bind fun _ =>
        (hr.expression _).bind fun _ => ensures_pure _) s).mono ?_
      rintro _ t hg ⟨-, s₁, ⟨h₁, p₁⟩, g₁, -, s₂, ⟨-, p₂⟩, -, e, s₃, ⟨⟨us, p₃, d₃⟩, -⟩, -, rfl, rfl⟩
      have hk₁ : s₁.current.kind = .assign := h₁ ▸ h.2
      replace p₁ := p₁ (hg.rest_ne_nil (by simp [hk, h.1]))
      replace p₂ := p₂ (g₁.rest_ne_nil (by simp [hk₁]))
      exact ⟨_, p₁.trans (p₂.trans p₃), .assign (hk.trans h.1) hk₁ d₃⟩
    · exact he s

/-- The statements of a program are read up to the end. -/
theorem ensures_program (hr : r.Sound) (n : Nat) (recovering : Bool) :
    Ensures (r.program n recovering) fun s ss t => recovering = false → s.rest.length ≤ n →
      t.current.kind = .eof ∧ s.current.kind ≠ .rbrace ∧
        (s.current.kind = .eof → ss = [] ∧ t = s) ∧
          ∃ us, s.tokens = us ++ t.tokens ∧ Derives (.stmts ss) us := by
  induction n generalizing recovering with
  | zero =>
    refine (ensures_pure _).mono ?_
    rintro s _ _ hg ⟨rfl, rfl⟩ - hn
    have hk := hg.rest_eq_nil_iff.mp (List.eq_nil_of_length_eq_zero (by omega))
    exact ⟨hk, by simp [hk], fun _ => ⟨rfl, rfl⟩, [], rfl, .stmtsNil⟩
  | succ n ih =>
    intro s
    simp only [program, get_bind]
    generalize hk : s.current.kind = k
    split
    · exact ⟨.refl, fun _ _ _ _ => ⟨hk, by simp, fun _ => ⟨rfl, rfl⟩, [], rfl, .stmtsNil⟩⟩
    · split
      · refine ((ensures_advance.bind fun _ => ih _) s).mono ?_
        rintro _ _ _ - rfl
        contradiction
      · refine ((ends_record_current s _).bind fun _ => ensures_advance.bind fun _ => ih _).mono ?_
        rintro _ _ - ⟨_, _, h, -⟩
        exact h.elim
    · next he hb =>
      refine (((ensures_terminated hr).clean.bind fun _ => ensures_get.bind fun _ => (ih _).bind
        fun _ => ensures_pure _) s).mono ?_
      rintro _ t hg ⟨o, s₁, ⟨h₁, e₁⟩, g₁, _, s₂, ⟨rfl, rfl⟩, -, ss, s₃, h₃, -, rfl, rfl⟩ - hn
      replace h₁ := h₁ (hk ▸ he)
      have hlen := h₁.rest_lt
      -- the next statement does not recover, since this one has no error
      obtain ⟨ht, hnb, hnil, us, hu, d⟩ := h₃ (by simp [e₁]) (by omega)
      exact ⟨ht, hb, fun h => absurd h he, h₁.derives (·.elim (absurd · hnb) hnil) hu d⟩

end Rules

/-- The rules for every depth read what the grammar derives. -/
theorem sound_rules (n : Nat) : (rules n).Sound := by
  induction n with
  | zero => exact ⟨fun _ => ensures_tooDeep, ensures_tooDeep⟩
  | succ n ih => exact ⟨Rules.ensures_expressionRule ih, Rules.ensures_statementRule ih⟩

theorem ends_run (depth : Nat) (c : Token) (cs : List Token) :
    Ends (.ofTokens (c :: cs)) (fun body t => t.current.kind = .eof ∧
      ∃ us, c :: cs = us ++ t.tokens ∧ Derives (.stmts body) us) (run depth (c :: cs)) := by
  have h := Rules.ensures_program (sound_rules depth) cs.length false (.ofTokens (c :: cs))
  refine h.mono fun body t _ ht => ?_
  obtain ⟨hk, -, -, hd⟩ := ht rfl (Nat.le_refl _)
  exact ⟨hk, hd⟩

/-- Reading stops at an integer only if it has too many digits. -/
theorem longLiteral_of_run {depth n : Nat} {tokens : List Token} (hl : tokens ≠ [])
    (h : run depth tokens = .error (.literalTooLong n) t) : LongLiteral tokens := by
  obtain ⟨c, cs, rfl⟩ := List.exists_cons_of_ne_nil hl
  have hr := ends_run depth c cs
  rw [h] at hr
  exact hr.2

/-- Tokens that are read without errors are derived by the grammar. -/
theorem spells_of_run {depth : Nat} {tokens : List Token} {body : List Stmt} (hl : Lexed tokens)
    (h : run depth tokens = .ok body t) (he : t.errors = []) : Spells tokens body := by
  obtain ⟨c, cs, rfl⟩ := List.exists_cons_of_ne_nil hl.ne_nil
  have hr := ends_run depth c cs
  rw [h] at hr
  obtain ⟨hk, us, hu, hd⟩ := hr.2 hl he
  have ht : t.rest = [] := (hr.1.good hl).rest_eq_nil_iff.mpr hk
  rw [show t.tokens = [t.current] by simp [State.tokens, ht]] at hu
  exact ⟨us, t.current, hu, hk, hd⟩

end Parser

end Scriptlet
