import Scriptlet.Proofs.Grammar.Viable
import Scriptlet.Proofs.Parse.Online

/-!
Where rules find their first error. The tokens in front of it are the start of what the rule reads,
which other tokens could complete; and with the same tokens up to the error every reader finds one.
-/

namespace Scriptlet.Parser

variable {α : Type} {s t : State} {o : Option Stmt} {r r' : Rules} {xs nl cs : List Token}
  {P Q : List Token → Prop} {i j : Place}

/-- The unread tokens in front of some others are the start of something. -/
def Viable (i : Place) (s : State) (P : List Token → Prop) (cs : List Token) : Prop :=
  ∃ us, s.unread i = us ++ cs ∧ Completes P us

theorem Viable.lift (h : Viable j t P cs) (xs : List Token) (hu : s.unread i = xs ++ t.unread j)
    (zs : List Token) (hz : Fills zs) (hQ : ∀ ts, P ts → Q (xs ++ (ts ++ zs))) :
    Viable i s Q cs := by
  obtain ⟨us, hus, hP⟩ := h
  exact ⟨xs ++ us, by simp [hu, hus], hP.wrap hz hQ⟩

/-- Behind tokens that have been read. -/
theorem Viable.behind (h : Viable .behind t P cs) (hp : Passes s xs t) (zs : List Token)
    (hz : Fills zs) (hQ : ∀ ts, P ts → Q (xs ++ (ts ++ zs))) : Viable .behind s Q cs :=
  h.lift xs hp.1 zs hz hQ

/-- From a token on that has been reached. -/
theorem Viable.before (h : Viable .before t P cs) (hp : Passes s (xs ++ [t.current]) t)
    (zs : List Token) (hz : Fills zs) (hQ : ∀ ts, P ts → Q (xs ++ (ts ++ zs))) :
    Viable .behind s Q cs :=
  h.lift xs hp.rest_eq zs hz hQ

/-- From the token ahead on. -/
theorem Viable.next (h : Viable .before t P cs) (hp : Passes s [t.current] t) (zs : List Token)
    (hz : Fills zs) (hQ : ∀ ts, P ts → Q (ts ++ zs)) : Viable .behind s Q cs :=
  h.lift [] hp.1 zs hz hQ

theorem Viable.mono (h : Viable i s P cs) (hQ : ∀ ts, P ts → Q ts) : Viable i s Q cs := by
  obtain ⟨us, hus, hP⟩ := h
  exact ⟨us, hus, hP.mono hQ⟩

/-- The token that the reader stands on is the first one. -/
theorem Viable.read (h : Viable .behind s (fun us => P (s.current :: us)) cs) :
    Viable .before s P cs :=
  h.lift [s.current] rfl [] (by decide) fun ts hts => by simpa using hts

/-- In front of all that is ahead. -/
theorem viable_rest (hp : Passes s xs t) (hc : cs = t.rest) (hP : Completes P xs) :
    Viable .behind s P cs :=
  ⟨xs, hc ▸ hp.1, hP⟩

/-- Line ends behind a token that ends no statement are none. -/
theorem Passes.of_dropped (h : Passes s nl t) (hd : Dropped nl) (hg : s.Good)
    (hk : s.current.kind.endsStatement = false) : Passes s [] t := by
  cases nl with
  | nil => exact h
  | cons c cs =>
    have hc : s.peek = c := by simp [State.peek, h.1]
    have hl := hg.peek_isLineEnd hk
    rw [hc, hd c (by simp)] at hl
    cases hl

/-- Rules for the same phrases, for readers of different texts. -/
structure Rules.Online (r r' : Rules) : Prop where
  expression (power : Nat) : Local .before .behind (r.expression power) (r'.expression power)
    (ReadsExpr power) fun s => Viable .before s (IsExpr (levelOf power))
  /-- nothing is found at a name itself -/
  name (power : Nat) (s : State) (hs : s.Ready .behind) (hk : s.current.kind = .ident) :
    LocalAt .behind .behind s
      (Viable .behind s fun us => IsExpr (levelOf power) (s.current :: us))
      (r.expression power s) (r'.expression power)
  statement : Local .before .behind r.statement r'.statement (fun s st t => Reads (.stmt st) s t)
    fun s => Viable .before s IsStmt

namespace Rules

theorem Online.sound (h : r.Online r') : r.Sound :=
  ⟨fun power => (h.expression power).ensures, h.statement.ensures⟩

theorem Online.sound' (h : r.Online r') : r'.Sound :=
  ⟨fun power => (h.expression power).ensures', h.statement.ensures'⟩

/-! ### Lists -/

theorem local_moreItems (h : r.Online r') (n : Nat) :
    Local .behind .behind (r.moreItems n) (r'.moreItems n) ReadsItems fun s cs =>
      ∀ e ts nl, Derives (.expr 1 e) ts → Dropped nl →
        Viable .behind s (fun us => IsList (ts ++ (nl ++ us))) cs := by
  refine ⟨ensures_moreItems h.sound n, ensures_moreItems h.sound' n, ?_⟩
  induction n with
  | zero => exact fun s hs => (localAt_pure hs _).mono fun _ hf => hf.elim
  | succ n ih =>
    have hn : Local .behind .behind (r.moreItems n) (r'.moreItems n) _ _ :=
      ⟨ensures_moreItems h.sound n, ensures_moreItems h.sound' n, ih⟩
    intro s hs
    refine ((local_ifPeekKind (by simp) (local_skipLineEnds.seq fun _ => local_advance.seq fun _ =>
      (h.expression Power.lowest).bind fun item => local_skipLineEnds.seq fun _ =>
        hn.returns (List.cons item)) (local_pure _ [])).run s hs).mono ?_
    rintro cs (⟨hc, s₁, h₁, p₁, g₁, -, s₂, ⟨nl₂, d₂, p₂⟩, g₂, -, s₃, ⟨-, p₃⟩, g₃, hv⟩ | ⟨-, hf⟩)
      e ts nl he hl
    · have hk : s₁.current.kind = .comma := h₁ ▸ hc
      replace p₂ := p₂.of_dropped d₂ g₁ (by simp [hk, Kind.endsStatement])
      have hk₂ : s₂.current.kind ≠ .eof := by simp [p₂.2, hk]
      have p := p₁.trans (p₂.trans (p₃ (g₂.rest_ne_nil hk₂)))
      rcases hv with hv | ⟨item, s₄, ⟨⟨us, p₄, d₄⟩, -⟩, g₄, -, s₅, ⟨nl₅, d₅, p₅⟩, g₅, hv⟩
      · refine hv.before p [] (by decide) ?_
        rintro ws ⟨e', he'⟩
        have := Derives.listCons he hl hk (.listOne he' dropped_nil)
        exact ⟨_, by simpa using this⟩
      · refine (hv item _ nl₅ d₄ d₅).behind (p.trans (p₄.trans p₅)) [] (by decide) ?_
        intro ws hws
        obtain ⟨e', es, hes⟩ := hws.exists_cons
        exact ⟨_, by simpa using Derives.listCons he hl hk hes⟩
    · exact hf.elim

theorem local_list (h : r.Online r') (close : Kind) (hc : close ≠ .eof) :
    Local .behind .behind (r.list close) (r'.list close)
      (fun s es t => s.current.kind.endsStatement = false → s.current.kind ≠ .eof →
        t.current.kind = close ∧ ∃ us, Passes s (us ++ [t.current]) t ∧ Derives (.list es) us)
      fun s cs => s.current.kind.endsStatement = false → Viable .behind s IsList cs := by
  refine ⟨ensures_list h.sound hc, ensures_list h.sound' hc, fun s hs => ?_⟩
  refine ((local_skipLineEnds.seq fun _ => local_ifPeekKind hc (local_pure _ [])
    (local_advance.seq fun _ => (h.expression Power.lowest).bind fun item =>
      local_skipLineEnds.seq fun _ => local_ahead (fun n => (local_moreItems h n).bind fun items =>
        (local_expect hc).returns fun _ => item :: items)
        ((fueled_moreItems h.sound).then _) ((fueled_moreItems h.sound').then _))).run s hs).mono ?_
  rintro cs ⟨-, s₁, ⟨nl, d₁, p₁⟩, g₁, ⟨-, -, -, -, -, hf⟩ | ⟨-, -, s₂, ⟨-, p₂⟩, g₂, hv⟩⟩ hk
  · exact hf.elim
  · replace p₁ := p₁.of_dropped d₁ hs.1 hk
    have hk₁ : s₁.current.kind ≠ .eof := by simpa [p₁.2] using hs.current_ne_eof
    have p := p₁.trans (p₂ (g₁.rest_ne_nil hk₁))
    rcases hv with hv | ⟨item, s₃, ⟨⟨us, p₃, d₃⟩, -⟩, g₃, -, s₄, ⟨nl₄, d₄, p₄⟩, g₄, hv⟩
    · refine hv.before p [] (by decide) ?_
      rintro ws ⟨e, he⟩
      exact ⟨_, by simpa using Derives.listOne he dropped_nil⟩
    · have p := p.trans (p₃.trans p₄)
      rcases hv with hv | ⟨items, s₅, h₅, g₅, hv⟩
      · exact (hv item _ nl₄ d₃ d₄).behind p [] (by decide) fun ws hws => by simpa using hws
      · obtain ⟨vs, p₅, d₅⟩ := h₅ item _ nl₄ d₃ d₄
        exact viable_rest (p.trans p₅) hv (completes_of ⟨_, by simpa using d₅⟩)

/-! ### Hashmaps -/

theorem local_entry (h : r.Online r') (key : Expr) :
    Local .behind .behind (r.entry key) (r'.entry key) (ReadsValue key) fun s =>
      Viable .behind s IsValue := by
  refine ⟨ensures_entry h.sound key, ensures_entry h.sound' key, fun s hs => ?_⟩
  refine (((local_expect (by simp)).bind fun _ => local_advance.seq fun _ =>
    (h.expression Power.lowest).bind fun value => local_skipLineEnds.seq fun _ =>
      local_pure _ (key, value)).run s hs).mono ?_
  rintro cs (hv | ⟨-, s₁, ⟨h₁, p₁⟩, g₁, -, s₂, ⟨-, p₂⟩, g₂, hv | ⟨-, -, -, -, -, -, -, -, hf⟩⟩)
  · exact viable_rest (.refl s) hv completes_value_nil
  · refine hv.before (p₁.trans (p₂ (g₁.rest_ne_nil (by simp [h₁])))) [] (by decide) ?_
    rintro ws ⟨v, hv⟩
    exact ⟨_, v, ws, by simp, h₁, hv⟩
  · exact hf.elim

theorem local_moreEntries (h : r.Online r') (n : Nat) :
    Local .behind .behind (r.moreEntries n) (r'.moreEntries n) ReadsEntries fun s cs =>
      ∀ k v ts c us nl, Derives (.expr 1 k) ts → c.kind = .colon → Derives (.expr 1 v) us →
        Dropped nl → Viable .behind s (fun ws => IsPairs (ts ++ c :: (us ++ (nl ++ ws)))) cs := by
  refine ⟨ensures_moreEntries h.sound n, ensures_moreEntries h.sound' n, ?_⟩
  induction n with
  | zero => exact fun s hs => (localAt_pure hs _).mono fun _ hf => hf.elim
  | succ n ih =>
    have hn : Local .behind .behind (r.moreEntries n) (r'.moreEntries n) _ _ :=
      ⟨ensures_moreEntries h.sound n, ensures_moreEntries h.sound' n, ih⟩
    intro s hs
    refine ((local_ifPeekKind (by simp) (local_skipLineEnds.seq fun _ => local_advance.seq fun _ =>
      (h.expression Power.lowest).bind fun key => (local_entry h key).bind fun pair =>
        hn.returns (List.cons pair)) (local_pure _ [])).run s hs).mono ?_
    rintro cs (⟨hc, s₁, h₁, p₁, g₁, -, s₂, ⟨nl₂, d₂, p₂⟩, g₂, -, s₃, ⟨-, p₃⟩, g₃, hv⟩ | ⟨-, hf⟩) k v
      ts c us nl hk hcol hv' hl
    · have hcomma : s₁.current.kind = .comma := h₁ ▸ hc
      replace p₂ := p₂.of_dropped d₂ g₁ (by simp [hcomma, Kind.endsStatement])
      have hk₂ : s₂.current.kind ≠ .eof := by simp [p₂.2, hcomma]
      have p := p₁.trans (p₂.trans (p₃ (g₂.rest_ne_nil hk₂)))
      -- the key may be cut short, or the value, or entries behind it
      have hone {k' v' : Expr} {xs ys : List Token} {d : Token} (hk' : Derives (.expr 1 k') xs)
          (hd : d.kind = .colon) (hv'' : Derives (.expr 1 v') ys) :
          IsPairs (ts ++ c :: (us ++ (nl ++ s₁.current :: (xs ++ d :: ys)))) := by
        have hp := Derives.pairsOne hk' hd hv'' dropped_nil
        exact ⟨_, Derives.pairsCons hk hcol hv' hl hcomma (by simpa using hp)⟩
      rcases hv with hv | ⟨key, s₄, ⟨⟨vs, p₄, d₄⟩, -⟩, g₄, hv⟩
      · refine hv.before p [filler .colon, filler .ident] (by decide) ?_
        rintro ws ⟨e, he⟩
        simpa using hone he (d := filler .colon) rfl (derives_filler.of_le (by simp))
      · have p := p.trans p₄
        rcases hv with hv | ⟨pair, s₅, ⟨d, w, ws, nl₅, rfl, p₅, hd, d₅, l₅⟩, g₅, hv⟩
        · refine hv.behind p [] (by decide) ?_
          rintro _ ⟨d, w, ws, rfl, hd, hw⟩
          simpa using hone d₄ hd hw
        · refine (hv _ w _ d ws nl₅ d₄ hd d₅ l₅).behind (p.trans p₅) [] (by decide) ?_
          intro ys hys
          obtain ⟨q, qs, hqs⟩ := hys.exists_cons
          exact ⟨_, by simpa using Derives.pairsCons hk hcol hv' hl hcomma hqs⟩
    · exact hf.elim

theorem local_hashmapFrom (h : r.Online r') (key : Expr) :
    Local .behind .behind (r.hashmapFrom key) (r'.hashmapFrom key)
      (fun s e t => ∀ ts, Derives (.expr 1 key) ts → t.current.kind = .rbrace ∧ ∃ ps us,
        e = .hashmap ps ∧ Passes s (us ++ [t.current]) t ∧ Derives (.pairs ps) (ts ++ us))
      fun s cs => ∀ ts, Derives (.expr 1 key) ts →
        Viable .behind s (fun us => IsPairs (ts ++ us)) cs := by
  refine ⟨ensures_hashmapFrom h.sound key, ensures_hashmapFrom h.sound' key, fun s hs => ?_⟩
  refine (((local_entry h key).bind fun pair => local_ahead (fun n =>
    (local_moreEntries h n).bind fun pairs => (local_expect (by simp)).returns fun _ =>
      Expr.hashmap (pair :: pairs)) ((fueled_moreEntries h.sound).then _)
      ((fueled_moreEntries h.sound').then _)).run s hs).mono ?_
  rintro cs (hv | ⟨pair, s₁, ⟨c, v, us, nl, rfl, p₁, hc, d₁, l₁⟩, g₁, hv⟩) ts hk
  · refine hv.behind (.refl s) [] (by decide) ?_
    rintro _ ⟨c, v, us, rfl, hc, hv⟩
    exact ⟨_, by simpa using Derives.pairsOne hk hc hv dropped_nil⟩
  · rcases hv with hv | ⟨pairs, s₂, h₂, g₂, hv⟩
    · exact (hv key v ts c us nl hk hc d₁ l₁).behind p₁ [] (by decide) fun ws hws => by
        simpa using hws
    · obtain ⟨vs, p₂, d₂⟩ := h₂ key v ts c us nl hk hc d₁ l₁
      exact viable_rest (p₁.trans p₂) hv (completes_of ⟨_, by simpa using d₂⟩)

theorem local_hashmap (h : r.Online r') :
    Local .behind .behind r.hashmap r'.hashmap
      (fun s e t => s.current.kind = .lbrace → Reads (.expr 8 e) s t)
      fun s cs => s.current.kind = .lbrace →
        Viable .behind s (fun us => IsExpr 8 (s.current :: us)) cs := by
  refine ⟨ensures_hashmap h.sound, ensures_hashmap h.sound', fun s hs => ?_⟩
  refine ((local_skipLineEnds.seq fun _ => local_ifPeekKind (by simp)
    (local_pure _ (Expr.hashmap [])) (local_advance.seq fun _ =>
      (h.expression Power.lowest).bind fun key => local_hashmapFrom h key)).run s hs).mono ?_
  rintro cs ⟨-, s₁, ⟨nl, d₁, p₁⟩, g₁, ⟨-, -, -, -, -, hf⟩ | ⟨-, -, s₂, ⟨-, p₂⟩, g₂, hv⟩⟩ ho
  · exact hf.elim
  · replace p₁ := p₁.of_dropped d₁ hs.1 (by simp [ho, Kind.endsStatement])
    have hk₁ : s₁.current.kind ≠ .eof := by simpa [p₁.2] using hs.current_ne_eof
    have p := p₁.trans (p₂ (g₁.rest_ne_nil hk₁))
    rcases hv with hv | ⟨key, s₃, ⟨⟨us, p₃, d₃⟩, -⟩, g₃, hv⟩
    · refine hv.before p [filler .colon, filler .ident, filler .rbrace] (by decide) ?_
      rintro ws ⟨e, he⟩
      have hp := Derives.pairsOne he (c := filler .colon) rfl (derives_filler.of_le (by simp))
        dropped_nil
      simpa using IsPairs.hashmap ho ⟨_, hp⟩
    · refine (hv _ d₃).behind (p.trans p₃) [filler .rbrace] (by decide) fun ws hws => ?_
      simpa using IsPairs.hashmap ho hws

/-! ### Statements and blocks -/

/-- The end of a statement that was read. -/
theorem localAt_terminate (st : Stmt) (hs : s.Ready .behind) :
    LocalAt .behind .before s (· = s.rest) (terminate (some st) s) (terminate (some st)) := by
  have hret : Local .behind .before (advance >>= fun _ => pure (some st))
      (advance >>= fun _ => pure (some st)) _ _ := local_advance.returns fun _ => some st
  simp only [terminate, peek_bind]
  generalize hk : s.peek.kind = k
  split
  · refine (((localAt_pass hs (by simp [hk])).bind (ensures_advance s) hs.1 fun _ => hret).mono
      ?_).congr fun _ _ s' ht => ?_
    · rintro cs (hf | ⟨-, -, -, -, hf⟩) <;> exact hf.elim
    · simp only [peek_bind, ht.peek_kind, hk]
  · refine ((hret.run s hs).mono fun _ hf => hf.elim).congr fun _ _ s' ht => ?_
    simp only [peek_bind, ht.peek_kind, hk]
  · refine ((hret.run s hs).mono fun _ hf => hf.elim).congr fun _ _ s' ht => ?_
    simp only [peek_bind, ht.peek_kind, hk]
  · next hsemi hbrace heof =>
    have he : Ensures (advance >>= fun _ => synchronize >>= fun _ => pure (some st))
        fun _ _ _ => True :=
      (ensures_advance.bind fun _ => ensures_synchronize.bind fun _ => ensures_pure _).mono
        fun _ _ _ _ _ => trivial
    refine ((localAt_record_peek (j := .behind) hs _ fun s' => .unterminated s'.peek).bind_failing
      (ends_record_peek s _) hs.1 (fun _ => he) (fun _ => he)).congr fun _ _ s' ht => ?_
    simp only [peek_bind, ht.peek_kind, hk]
    rfl

theorem local_terminated (h : r.Online r') :
    Local .before .before r.terminated r'.terminated
      (fun s o t => s.current.kind ≠ .eof → ReadsTerminated s o t)
      fun s => Viable .before s IsStmts := by
  refine ⟨ensures_terminated h.sound, ensures_terminated h.sound', fun s hs => ?_⟩
  simp only [terminated, current_bind]
  split
  · next hk =>
    have hb := hs.1.ready_behind (by simp [hk])
    refine (((local_advance.returns fun _ => (none : Option Stmt)).run s hb).read.mono
      fun _ hf => hf.elim).congr fun _ _ s' ht => ?_
    simp only [current_bind, ht.kind, hk, ↓reduceIte]
  · next hk =>
    refine ((((h.statement.attempt).run s hs).bind_of (k := .before) (f := terminate)
      (g := terminate) (W := fun _ t cs => cs = t.rest) (h.statement.attempt.ensures s) hs.1
      ensures_terminate (fun _ => ensures_terminate) (fun _ _ _ _ => rfl) ?_).mono ?_).congr
        fun _ _ s' ht => ?_
    · rintro _ t ⟨st, rfl, -⟩ - hr
      exact localAt_terminate st hr
    · rintro cs (hv | ⟨-, t, ⟨st, -, us, p, d⟩, -, hc⟩)
      · refine hv.mono ?_
        rintro ts ⟨st, hst⟩
        exact ⟨_, .stmtsLast hst⟩
      · exact Viable.read (P := IsStmts) (viable_rest p hc (completes_of ⟨_, .stmtsLast d⟩))
    · simp only [current_bind, ht.kind, hk, ↓reduceIte]

/-- Where statements can break off, which is not behind a token that closes them. -/
def ViableStmts (s : State) (cs : List Token) : Prop :=
  Viable .before s IsStmts cs ∧
    (s.current.kind = .rbrace ∨ s.current.kind = .eof → cs = s.tokens)

theorem ReadsTerminated.viable (h : ReadsTerminated s o t) (hv : ViableStmts t cs) :
    Viable .before s IsStmts cs := by
  rcases h with ⟨rfl, hk, p⟩ | ⟨st, v, rfl, ⟨vs, pv, dv⟩, ⟨c, hk, p⟩ | ⟨hk, p⟩⟩
  · refine hv.1.lift [s.current] (by simp [State.tokens, p.1]) [] (by decide) ?_
    rintro ts ⟨ss, hss⟩
    exact ⟨ss, by simpa using Derives.stmtsSkip hk hss⟩
  · refine hv.1.lift (s.current :: (vs ++ [c]))
      (by simp [State.tokens, pv.1, p.1]) [] (by decide) ?_
    rintro ts ⟨ss, hss⟩
    exact ⟨_, by simpa using Derives.stmtsCons dv hk hss⟩
  · refine ⟨s.current :: vs, ?_, completes_of ⟨_, .stmtsLast dv⟩⟩
    simp [hv.2 hk, State.tokens, pv.1, p.1]

theorem local_moreStatements (h : r.Online r') (n : Nat) :
    Local .before .before (r.moreStatements n) (r'.moreStatements n)
      (fun s ss t => (s.current.kind = .rbrace ∨ s.current.kind = .eof → ss = [] ∧ t = s) ∧
        ∃ us, s.tokens = us ++ t.tokens ∧ Derives (.stmts ss) us) ViableStmts := by
  refine ⟨ensures_moreStatements h.sound n, ensures_moreStatements h.sound' n, ?_⟩
  induction n with
  | zero => exact fun s hs => (localAt_pure hs _).mono fun _ hf => hf.elim
  | succ n ih =>
    have hn : Local .before .before (r.moreStatements n) (r'.moreStatements n) _ _ :=
      ⟨ensures_moreStatements h.sound n, ensures_moreStatements h.sound' n, ih⟩
    intro s hs
    simp only [moreStatements, current_bind]
    generalize hk : s.current.kind = k
    split
    · refine ((localAt_pure hs _).mono fun _ hf => hf.elim).congr fun _ _ s' ht => ?_
      simp only [current_bind, ht.kind, hk]
    · refine ((localAt_pure hs _).mono fun _ hf => hf.elim).congr fun _ _ s' ht => ?_
      simp only [current_bind, ht.kind, hk]
    · next hb he =>
      refine ((((local_terminated h).bind fun o => hn.returns fun ss => o.toList ++ ss).run s
        hs).mono ?_).congr fun _ _ s' ht => ?_
      · rintro cs (hv | ⟨o, t, ho, -, hv⟩)
        · exact ⟨hv, fun hc => ((hk ▸ hc).elim hb he).elim⟩
        · exact ⟨(ho (hk ▸ he)).viable hv, fun hc => ((hk ▸ hc).elim hb he).elim⟩
      · simp only [current_bind, ht.kind, hk]

/-- The closing brace of a block whose statements have been read. -/
def closing (body : List Stmt) : Parser (List Stmt) := do
  let t ← current
  if t.kind = .rbrace then return body else fail t.pos (.expected .rbrace t)

theorem local_closing (body : List Stmt) :
    Local .before .behind (closing body) (closing body) (fun _ _ _ => True)
      fun s cs => cs = s.tokens := by
  have he : Ensures (closing body) fun _ _ _ => True := by
    intro s
    rw [closing, current_bind]
    split
    · exact ⟨.refl, fun _ _ => trivial⟩
    · exact ends_fail_current s _
  refine ⟨he, he, fun s hs => ?_⟩
  unfold closing
  rw [current_bind]
  split
  · next hk =>
    refine ((localAt_pure (hs.1.ready_behind (by simp [hk])) body).read.mono
      fun _ hf => hf.elim).congr fun _ _ s' ht => ?_
    rw [current_bind, if_pos (ht.kind.trans hk)]
  · next hk =>
    refine (localAt_fail_current _ fun s' => .expected .rbrace s'.current).congr
      fun _ _ s' ht => ?_
    rw [current_bind, if_neg fun hk' => hk (ht.kind.symm.trans hk')]

theorem local_blockRest (h : r.Online r') :
    Local .before .behind r.blockRest r'.blockRest
      (fun s ss t => t.current.kind = .rbrace ∧
        (s.current.kind = .rbrace ∨ s.current.kind = .eof → ss = [] ∧ t = s) ∧
          ∃ us, s.tokens = us ++ t.tokens ∧ Derives (.stmts ss) us) ViableStmts := by
  refine ⟨ensures_blockRest h.sound, ensures_blockRest h.sound', fun s hs => ?_⟩
  refine ((local_ahead (fun n => (local_moreStatements h n).bind local_closing)
    ((fueled_moreStatements h.sound).then _) ((fueled_moreStatements h.sound').then _)).run s
      hs).mono ?_
  rintro cs (hv | ⟨ss, t, ⟨hc, us, hu, d⟩, -, rfl⟩)
  · exact hv
  · exact ⟨⟨us, hu, completes_of ⟨ss, d⟩⟩, fun hk => (hc hk).2 ▸ rfl⟩

theorem local_block (h : r.Online r') :
    Local .behind .behind r.block r'.block
      (fun s ss t => s.current.kind = .lbrace → Reads (.block ss) s t)
      fun s cs => s.current.kind = .lbrace →
        Viable .behind s (fun us => IsBlock (s.current :: us)) cs := by
  refine ⟨ensures_block h.sound, ensures_block h.sound', fun s hs => ?_⟩
  refine ((local_advance.seq fun _ => local_blockRest h).run s hs).mono ?_
  rintro cs ⟨-, s₁, ⟨-, p₁⟩, -, hv⟩ ho
  refine hv.1.next (p₁ hs.2) [filler .rbrace] (by decide) ?_
  rintro ts ⟨ss, hss⟩
  exact ⟨ss, .block ho hss rfl⟩

/-! ### Functions and conditionals -/

theorem local_moreParams (n : Nat) :
    Local .behind .behind (moreParams n) (moreParams n) ReadsParams fun s cs =>
      ∀ c : Token, c.kind = .ident → Viable .behind s (fun us => IsParams (c :: us)) cs := by
  refine ⟨ensures_moreParams n, ensures_moreParams n, ?_⟩
  induction n with
  | zero => exact fun s hs => (localAt_pure hs _).mono fun _ hf => hf.elim
  | succ n ih =>
    have hn : Local .behind .behind (moreParams n) (moreParams n) _ _ :=
      ⟨ensures_moreParams n, ensures_moreParams n, ih⟩
    intro s hs
    refine ((local_ifPeekKind (by simp) ((local_expect (by simp)).bind fun _ =>
      local_text fun name => hn.returns (List.cons name)) (local_pure _ [])).run s hs).mono ?_
    rintro cs (⟨hc, s₁, h₁, p₁, g₁, hv | ⟨-, s₂, ⟨h₂, p₂⟩, g₂, hv⟩⟩ | ⟨-, hf⟩) c hi
    · have hd : Derives (.params [c.text, "x"]) [c, s₁.current, filler .ident] :=
        .paramsCons hi (h₁ ▸ hc) (.paramsOne (t := filler .ident) rfl)
      exact viable_rest p₁ hv ⟨[filler .ident], by decide, _, hd⟩
    · refine (hv _ h₂).behind (p₁.trans p₂) [] (by decide) fun ts hts => ?_
      obtain ⟨m, ms, hms⟩ := hts.exists_cons
      exact ⟨_, by simpa using Derives.paramsCons hi (h₁ ▸ hc) hms⟩
    · exact hf.elim

theorem local_params : Local .behind .behind params params
    (fun s ns t => t.current.kind = .rparen ∧
      ∃ us, Passes s (us ++ [t.current]) t ∧ Derives (.params ns) us)
    fun s => Viable .behind s IsParams := by
  refine ⟨ensures_params, ensures_params, fun s hs => ?_⟩
  refine ((local_ifPeekKind (by simp) (local_pure _ []) ((local_expect (by simp)).bind fun _ =>
    local_text fun name => local_ahead (fun n => (local_moreParams n).bind fun names =>
      (local_expect (by simp)).returns fun _ => name :: names) (fueled_moreParams.then _)
      (fueled_moreParams.then _))).run s hs).mono ?_
  rintro cs (⟨-, -, -, -, -, hf⟩ | ⟨-, hv | ⟨-, s₁, ⟨h₁, p₁⟩, g₁, hv | ⟨ns, s₂, h₂, g₂, hv⟩⟩⟩)
  · exact hf.elim
  · exact viable_rest (.refl s) hv (completes_of ⟨_, .paramsNil⟩)
  · exact (hv _ h₁).behind p₁ [] (by decide) fun ts hts => by simpa using hts
  · obtain ⟨us, p₂, d₂⟩ := h₂ _ h₁
    exact viable_rest (p₁.trans p₂) hv (completes_of ⟨_, d₂⟩)

theorem local_function (h : r.Online r') :
    Local .behind .behind r.function r'.function
      (fun s e t => s.current.kind = .kwFn → Reads (.expr 8 e) s t)
      fun s cs => s.current.kind = .kwFn →
        Viable .behind s (fun us => IsExpr 8 (s.current :: us)) cs := by
  refine ⟨ensures_function h.sound, ensures_function h.sound', fun s hs => ?_⟩
  refine (((local_expect (by simp)).bind fun _ => local_params.bind fun names =>
    (local_expect (by simp)).bind fun _ => (local_block h).returns fun body =>
      Expr.function names body).run s hs).mono ?_
  intro cs hv hf
  have hfun {o c : Token} {ts us : List Token} (ho : o.kind = .lparen) (hp : IsParams ts)
      (hc : c.kind = .rparen) (hb : IsBlock us) : IsExpr 8 (s.current :: o :: (ts ++ c :: us)) := by
    obtain ⟨names, hp⟩ := hp
    obtain ⟨body, hb⟩ := hb
    exact ⟨_, .function hf ho hp hc hb⟩
  have hnil : IsParams [] := ⟨_, .paramsNil⟩
  rcases hv with hv | ⟨-, s₁, ⟨h₁, p₁⟩, -, hv | ⟨ns, s₂, ⟨h₂, us, p₂, d₂⟩, -, hv | ⟨-, s₃,
    ⟨h₃, p₃⟩, -, hv⟩⟩⟩
  · refine viable_rest (.refl s) hv ⟨[.lparen, .rparen, .lbrace, .rbrace].map filler, by decide, ?_⟩
    exact hfun (o := filler .lparen) (c := filler .rparen) rfl hnil rfl isBlock_filler
  · refine hv.behind p₁ ([.rparen, .lbrace, .rbrace].map filler) (by decide) fun ts hts => ?_
    exact hfun h₁ hts (c := filler .rparen) rfl isBlock_filler
  · refine viable_rest (p₁.trans p₂) hv ⟨[.lbrace, .rbrace].map filler, by decide, ?_⟩
    simpa using hfun h₁ ⟨ns, d₂⟩ h₂ isBlock_filler
  · refine (hv h₃).behind (p₁.trans (p₂.trans p₃)) [] (by decide) fun ts hts => ?_
    simpa using hfun h₁ ⟨ns, d₂⟩ h₂ hts

theorem local_conditional (h : r.Online r') :
    Local .behind .behind r.conditional r'.conditional
      (fun s e t => s.current.kind = .kwIf → Reads (.expr 8 e) s t)
      fun s cs => s.current.kind = .kwIf →
        Viable .behind s (fun us => IsExpr 8 (s.current :: us)) cs := by
  refine ⟨ensures_conditional h.sound, ensures_conditional h.sound', fun s hs => ?_⟩
  refine (((local_expect (by simp)).bind fun _ => local_advance.seq fun _ =>
    (h.expression _).bind fun c => (local_expect (by simp)).bind fun _ =>
      (local_expect (by simp)).bind fun _ => (local_block h).bind fun a =>
        local_ifPeekKind (by simp) ((local_expect (by simp)).bind fun _ =>
          (local_block h).returns fun b => Expr.ifThen c a (some b))
          (local_pure _ (Expr.ifThen c a none))).run s hs).mono ?_
  intro cs hv hi
  have hif {o c : Token} {ts us : List Token} (ho : o.kind = .lparen) (he : IsExpr 1 ts)
      (hc : c.kind = .rparen) (hb : IsBlock us) : IsExpr 8 (s.current :: o :: (ts ++ c :: us)) := by
    obtain ⟨e, he⟩ := he
    obtain ⟨a, hb⟩ := hb
    exact ⟨_, .ifThen hi ho he hc hb⟩
  have helse {o c l : Token} {ts us vs : List Token} (ho : o.kind = .lparen) (he : IsExpr 1 ts)
      (hc : c.kind = .rparen) (ha : IsBlock us) (hl : l.kind = .kwElse) (hb : IsBlock vs) :
      IsExpr 8 (s.current :: o :: (ts ++ c :: (us ++ l :: vs))) := by
    obtain ⟨e, he⟩ := he
    obtain ⟨a, ha⟩ := ha
    obtain ⟨b, hb⟩ := hb
    exact ⟨_, .ifThenElse hi ho he hc ha hl hb⟩
  have hx : IsExpr 1 [filler .ident] := ⟨_, derives_filler.of_le (by simp)⟩
  rcases hv with hv | ⟨-, s₁, ⟨h₁, p₁⟩, g₁, -, s₂, ⟨-, p₂⟩, -, hv⟩
  · refine viable_rest (.refl s) hv
      ⟨[.lparen, .ident, .rparen, .lbrace, .rbrace].map filler, by decide, ?_⟩
    exact hif (o := filler .lparen) (c := filler .rparen) rfl hx rfl isBlock_filler
  have p := p₁.trans (p₂ (g₁.rest_ne_nil (by simp [h₁])))
  rcases hv with hv | ⟨c, s₃, ⟨⟨us, p₃, d₃⟩, -⟩, -, hv | ⟨-, s₄, ⟨h₄, p₄⟩, -, hv | ⟨-, s₅, ⟨h₅, p₅⟩,
    -, hv | ⟨a, s₆, h₆, -, hv⟩⟩⟩⟩
  · refine hv.before p ([.rparen, .lbrace, .rbrace].map filler) (by decide) fun ts hts => ?_
    exact hif h₁ hts (c := filler .rparen) rfl isBlock_filler
  · refine viable_rest (p.trans p₃) hv ⟨[.rparen, .lbrace, .rbrace].map filler, by decide, ?_⟩
    simpa using hif h₁ ⟨c, d₃⟩ (c := filler .rparen) rfl isBlock_filler
  · refine viable_rest (p.trans (p₃.trans p₄)) hv ⟨[.lbrace, .rbrace].map filler, by decide, ?_⟩
    simpa using hif h₁ ⟨c, d₃⟩ h₄ isBlock_filler
  · refine (hv h₅).behind (p.trans (p₃.trans (p₄.trans p₅))) [] (by decide) fun ts hts => ?_
    simpa using hif h₁ ⟨c, d₃⟩ h₄ hts
  · obtain ⟨vs, p₆, d₆⟩ := h₆ h₅
    have p := p.trans (p₃.trans (p₄.trans (p₅.trans p₆)))
    rcases hv with ⟨hk, s₇, h₇, p₇, -, hv | ⟨-, s₈, ⟨h₈, p₈⟩, -, hv⟩⟩ | ⟨-, hf⟩
    · refine viable_rest (p.trans p₇) hv ⟨[.lbrace, .rbrace].map filler, by decide, ?_⟩
      simpa using helse h₁ ⟨c, d₃⟩ h₄ ⟨a, d₆⟩ (h₇ ▸ hk) isBlock_filler
    · refine (hv h₈).behind (p.trans (p₇.trans p₈)) [] (by decide) fun ts hts => ?_
      simpa using helse h₁ ⟨c, d₃⟩ h₄ ⟨a, d₆⟩ (h₇ ▸ hk) hts
    · exact hf.elim

theorem local_group (h : r.Online r') :
    Local .behind .behind r.group r'.group
      (fun s e t => s.current.kind = .lparen → Reads (.expr 8 e) s t)
      fun s cs => s.current.kind = .lparen →
        Viable .behind s (fun us => IsExpr 8 (s.current :: us)) cs := by
  refine ⟨ensures_group h.sound, ensures_group h.sound', fun s hs => ?_⟩
  refine ((local_advance.seq fun _ => (h.expression _).bind fun e => local_skipLineEnds.seq fun _ =>
    (local_expect (by simp)).returns fun _ => e).run s hs).mono ?_
  rintro cs ⟨-, s₁, ⟨-, p₁⟩, -, hv | ⟨e, s₂, ⟨⟨us, p₂, d₂⟩, -⟩, -, -, s₃, ⟨nl, d₃, p₃⟩, -, hv⟩⟩ ho
  · refine hv.next (p₁ hs.2) [filler .rparen] (by decide) ?_
    rintro ts ⟨e, he⟩
    have d := Derives.group (c := filler .rparen) ho he dropped_nil rfl
    exact ⟨e, by simpa using d⟩
  · refine viable_rest ((p₁ hs.2).trans (p₂.trans p₃)) hv ⟨[filler .rparen], by decide, e, ?_⟩
    simpa using Derives.group ho d₂ d₃ (c := filler .rparen) rfl

/-! ### Expressions -/

theorem integer_apply (t : Token) (s : State) : integer t s =
    if Number.digitLimit < t.text.toList.length then
      .error (.literalTooLong t.text.toList.length) s
    else if Number.maxWord < Number.ofAsciiDigits t.text.toList then
      fail t.pos (.intTooLarge t.text) s
    else .ok (.int (Number.ofAsciiDigits t.text.toList)) s := by
  unfold integer
  simp only
  split
  · rfl
  · split <;> rfl

theorem localAt_integer (hs : s.Ready .behind) :
    LocalAt .before .behind s (· = s.tokens) (integer s.current s)
      fun s' => integer s'.current s' := by
  rw [integer_apply]
  split
  · next hd =>
    refine ((localAt_throw (.literalTooLong _) (throw (.literalTooLong
      s.current.text.toList.length)) fun s' => ⟨_, s', rfl⟩).mono fun _ hf => hf.elim).congr
        fun _ _ s' ht => ?_
    rw [integer_apply, ht.text, if_pos hd]
    rfl
  · next hd =>
    split
    · next hm =>
      refine (localAt_fail_current _ fun s' => .intTooLarge s'.current.text).congr
        fun _ _ s' ht => ?_
      rw [integer_apply, ht.text, if_neg hd, if_pos hm]
    · next hm =>
      refine ((localAt_pure hs _).read.mono fun _ hf => hf.elim).congr fun _ _ s' ht => ?_
      rw [integer_apply, ht.text, if_neg hd, if_neg hm]
      rfl

/-- An operator in front of its operand, on which the reader stands. -/
theorem localAt_unary (h : r.Online r') (op : PrefixOp) (hs : s.Ready .behind) :
    LocalAt .behind .behind s
      (fun cs => ∀ f : Expr → Expr, (∀ e ts, Derives (.expr 7 e) ts →
        Derives (.expr 7 (f e)) (s.current :: ts)) → Viable .before s (IsExpr 7) cs)
      ((advance >>= fun _ => r.expression Power.unary >>= fun e => pure (Expr.unary op e)) s)
      (advance >>= fun _ => r'.expression Power.unary >>= fun e => pure (Expr.unary op e)) := by
  refine ((local_advance.seq fun _ => (h.expression Power.unary).returns (Expr.unary op)).run s
    hs).mono ?_
  rintro cs ⟨-, s₁, ⟨-, p₁⟩, -, hv⟩ f hf
  refine (hv.next (p₁ hs.2) [] (by decide) ?_).read
  rintro ts ⟨e, he⟩
  exact ⟨_, by simpa using hf e ts he⟩

theorem local_operand (h : r.Online r') :
    Local .before .behind r.operand r'.operand ReadsOperand
      fun s => Viable .before s (IsExpr 7) := by
  refine ⟨ensures_operand h.sound, ensures_operand h.sound', fun s hs => ?_⟩
  have hfail : ∀ cs, cs = s.tokens → Viable .before s (IsExpr 7) cs := by
    rintro _ rfl
    exact ⟨[], rfl, completes_expr_nil (by simp)⟩
  have hclosed {cs : List Token}
      (hv : Viable .behind s (fun us => IsExpr 8 (s.current :: us)) cs) :
      Viable .before s (IsExpr 7) cs :=
    (hv.read (P := IsExpr 8)).mono fun _ hts => hts.of_le (by simp)
  simp only [operand, current_bind]
  generalize hk : s.current.kind = k
  have hb (hne : k ≠ .eof) : s.Ready .behind := hs.1.ready_behind (hk ▸ hne)
  -- an operand of a single token
  have hone (e : Expr) (hne : k ≠ .eof) :
      LocalAt .before .behind s (Viable .before s (IsExpr 7)) ((pure e : Parser Expr) s) (pure e) :=
    (localAt_pure (hb hne) e).read.mono fun _ hf => hf.elim
  split
  · refine (hone _ (by simp)).congr fun _ _ s' ht => ?_
    simp only [current_bind, ht.kind, hk, ht.text]
  · refine ((localAt_integer (hb (by simp))).mono hfail).congr fun _ _ s' ht => ?_
    simp only [current_bind, ht.kind, hk]
  · refine (hone _ (by simp)).congr fun _ _ s' ht => ?_
    simp only [current_bind, ht.kind, hk, ht.text]
  · refine (hone _ (by simp)).congr fun _ _ s' ht => ?_
    simp only [current_bind, ht.kind, hk]
  · refine (hone _ (by simp)).congr fun _ _ s' ht => ?_
    simp only [current_bind, ht.kind, hk]
  · refine ((localAt_unary h .not (hb (by simp))).read.mono
      fun _ hv => hv (.unary .not) fun _ _ he => .not hk he).congr fun _ _ s' ht => ?_
    simp only [current_bind, ht.kind, hk]
  · refine ((localAt_unary h .neg (hb (by simp))).read.mono
      fun _ hv => hv (.unary .neg) fun _ _ he => .neg hk he).congr fun _ _ s' ht => ?_
    simp only [current_bind, ht.kind, hk]
  · refine (((local_group h).run s (hb (by simp))).read.mono
      fun _ hv => hclosed (hv hk)).congr fun _ _ s' ht => ?_
    simp only [current_bind, ht.kind, hk]
  · refine (((local_conditional h).run s (hb (by simp))).read.mono
      fun _ hv => hclosed (hv hk)).congr fun _ _ s' ht => ?_
    simp only [current_bind, ht.kind, hk]
  · refine (((local_function h).run s (hb (by simp))).read.mono
      fun _ hv => hclosed (hv hk)).congr fun _ _ s' ht => ?_
    simp only [current_bind, ht.kind, hk]
  · refine (((local_list h .rbracket (by simp)).returns Expr.array).run s
      (hb (by simp))).read.mono (fun cs hv => hclosed ?_) |>.congr fun _ _ s' ht => ?_
    · refine (hv (by simp [hk, Kind.endsStatement])).lift [] rfl [filler .rbracket]
        (by decide) ?_
      rintro ts ⟨es, hes⟩
      exact ⟨_, .array hk hes rfl⟩
    · simp only [current_bind, ht.kind, hk]
  · refine (((local_hashmap h).run s (hb (by simp))).read.mono
      fun _ hv => hclosed (hv hk)).congr fun _ _ s' ht => ?_
    simp only [current_bind, ht.kind, hk]
  · refine ((localAt_fail_current _ fun s' => .illegal s'.current.text).mono hfail).congr
      fun _ _ s' ht => ?_
    simp only [current_bind, ht.kind, hk]
  · refine ((localAt_fail_current _ fun s' => .noExpression s'.current.kind).mono hfail).congr
      fun _ _ s' ht => ?_
    simp only [current_bind, ht.kind, hk]

/-- What follows an operand can be completed, together with the operand. -/
def ViableOn (left : Expr) (s : State) (cs : List Token) : Prop :=
  ∀ ts l, Derives (.expr l left) ts → s.current.kind.power ≤ l →
    Viable .behind s (fun us => IsExpr s.current.kind.power (ts ++ s.current :: us)) cs

theorem local_extend (h : r.Online r') (left : Expr) :
    Local .behind .behind (r.extend left) (r'.extend left)
      (fun s e t => 0 < s.current.kind.power → ReadsOn left s e t) (ViableOn left) := by
  refine ⟨ensures_extend h.sound left, ensures_extend h.sound' left, fun s hs => ?_⟩
  simp only [extend, current_bind]
  generalize hk : s.current.kind = k
  split
  · refine ((((local_list h .rparen (by simp)).returns (Expr.call left)).run s hs).mono
      fun cs hv ts l hd hl => ?_).congr fun _ _ s' ht => ?_
    · rw [hk] at hl ⊢
      refine (hv (by simp [hk, Kind.endsStatement])).lift [] rfl [filler .rparen]
        (by decide) ?_
      rintro us ⟨es, hes⟩
      exact ⟨_, .call (hd.of_le hl) hk hes rfl⟩
    · simp only [current_bind, ht.kind, hk]
  · refine (((local_advance.seq fun _ => (h.expression Power.lowest).bind fun i =>
      local_skipLineEnds.seq fun _ => (local_expect (by simp)).returns fun _ =>
        Expr.index left i).run s hs).mono ?_).congr fun _ _ s' ht => ?_
    · rintro cs ⟨-, s₁, ⟨-, p₁⟩, -, hv⟩ ts l hd hl
      rw [hk] at hl ⊢
      rcases hv with hv | ⟨i, s₂, ⟨⟨us, p₂, d₂⟩, -⟩, -, -, s₃, ⟨nl, d₃, p₃⟩, -, hv⟩
      · refine hv.next (p₁ hs.2) [filler .rbracket] (by decide) ?_
        rintro us ⟨i, hi⟩
        refine ⟨.index left i, ?_⟩
        have d := Derives.index (c := filler .rbracket) (hd.of_le hl) hk hi dropped_nil rfl
        change Derives (.expr 8 _) _
        simpa using d
      · refine viable_rest ((p₁ hs.2).trans (p₂.trans p₃)) hv ⟨[filler .rbracket], by decide, ?_⟩
        refine ⟨.index left i, ?_⟩
        have d := Derives.index (c := filler .rbracket) (hd.of_le hl) hk d₂ d₃ rfl
        change Derives (.expr 8 _) _
        simpa using d
    · simp only [current_bind, ht.kind, hk]
  · next hp hb =>
    generalize ho : InfixOp.ofKind? k = op
    cases op with
    | none =>
      refine ((localAt_pure hs left).mono fun _ hf => hf.elim).congr fun _ _ s' ht => ?_
      simp only [current_bind, ht.kind, hk, ho]
    | some op =>
      have hi : Infix k.power k op := infix_iff.mpr ⟨ho, rfl⟩
      have hl : levelOf k.power = k.power + 1 := levelOf_eq hi.level_le
      refine (((local_advance.seq fun _ => (h.expression k.power).returns
        (Expr.binary op left)).run s hs).mono ?_).congr fun _ _ s' ht => ?_
      · rintro cs ⟨-, s₁, ⟨-, p₁⟩, -, hv⟩ ts l hd hle
        rw [hl] at hv
        rw [hk] at hle ⊢
        refine hv.next (p₁ hs.2) [] (by decide) ?_
        rintro us ⟨e, he⟩
        have hi' : Infix k.power s.current.kind op := by rwa [hk]
        exact ⟨_, by simpa using Derives.binary hi' (hd.of_le hle) he⟩
      · simp only [current_bind, ht.kind, hk, ho]

/-- What binds more strongly than a power can be completed, together with the operand in front. -/
def ViableChain (power : Nat) (left : Expr) (s : State) (cs : List Token) : Prop :=
  ∀ ts l, Derives (.expr l left) ts → levelOf power ≤ l → s.peek.kind.power ≤ l →
    Viable .behind s (fun us => IsExpr (levelOf power) (ts ++ us)) cs

theorem local_chain (h : r.Online r') (power n : Nat) (left : Expr) :
    Local .behind .behind (r.chain power n left) (r'.chain power n left)
      (fun s e t => s.rest.length ≤ n → ReadsChain power left s e t) (ViableChain power left) := by
  refine ⟨ensures_chain h.sound power n left, ensures_chain h.sound' power n left, ?_⟩
  induction n generalizing left with
  | zero => exact fun s hs => (localAt_pure hs _).mono fun _ hf => hf.elim
  | succ n ih =>
    have hn (left : Expr) : Local .behind .behind (r.chain power n left) (r'.chain power n left)
        _ _ := ⟨ensures_chain h.sound power n left, ensures_chain h.sound' power n left, ih left⟩
    intro s hs
    refine ((local_ifPeek (c := fun t => power < t.kind.power)
      (fun _ hc => Kind.ne_eof_of_power_pos (Nat.zero_lt_of_lt hc))
      (fun _ _ hf => by rw [Token.kind_of_face hf]) ((local_extend h left).bind hn)
      (local_pure _ left)).run s hs).mono ?_
    rintro cs (⟨hc, s₁, h₁, p₁, -, hv⟩ | ⟨-, hf⟩) ts l hd hl hpl
    · rw [← h₁] at hc hpl
      have hle : levelOf power ≤ s₁.current.kind.power := Nat.le_trans (levelOf_le power) hc
      rcases hv with hv | ⟨e, s₂, h₂, -, hv⟩
      · exact (hv ts l hd hpl).behind p₁ [] (by decide) fun us hus => by
          simpa using hus.of_le hle
      · obtain ⟨us, p₂, d₂, hq⟩ := h₂ (Nat.zero_lt_of_lt hc) ts l hd hpl
        exact (hv _ _ d₂ hle hq).behind (p₁.trans p₂) [] (by decide) fun ws hws => by
          simpa using hws
    · exact hf.elim

theorem local_expressionFrom (h : r.Online r') (power : Nat) (left : Expr) :
    Local .behind .behind (r.expressionFrom power left) (r'.expressionFrom power left)
      (ReadsChain power left) (ViableChain power left) :=
  ⟨ensures_expressionFrom h.sound power left, ensures_expressionFrom h.sound' power left,
    (local_ahead (fun n => local_chain h power n left) (fueled_chain h.sound power left)
      (fueled_chain h.sound' power left)).run⟩

theorem local_expressionRule (h : r.Online r') (power : Nat) :
    Local .before .behind (r.expressionRule power) (r'.expressionRule power) (ReadsExpr power)
      fun s => Viable .before s (IsExpr (levelOf power)) := by
  refine ⟨ensures_expressionRule h.sound power, ensures_expressionRule h.sound' power,
    fun s hs => ?_⟩
  refine (((local_operand h).bind fun left => local_expressionFrom h power left).run s hs).mono ?_
  rintro cs (hv | ⟨e, s₁, ⟨l, hl, ⟨us, p₁, d₁⟩, h₁⟩, -, hv⟩)
  · exact hv.mono fun ts hts => hts.of_le (levelOf_le_seven power)
  · have hle := Nat.le_trans (levelOf_le_seven power) hl
    exact Viable.read (P := IsExpr (levelOf power)) ((hv _ l d₁ hle h₁).behind p₁ []
      (by decide) fun ts hts => by simpa using hts)

theorem localAt_expressionRule_name (h : r.Online r') (power : Nat) (hs : s.Ready .behind)
    (hk : s.current.kind = .ident) : LocalAt .behind .behind s
      (Viable .behind s fun us => IsExpr (levelOf power) (s.current :: us))
      (r.expressionRule power s) (r'.expressionRule power) := by
  have happly {r : Rules} {s : State} (hk : s.current.kind = .ident) :
      r.expressionRule power s = r.expressionFrom power (.ident s.current.text) s := by
    have ho : r.operand s = .ok (.ident s.current.text) s := by
      simp only [operand, current_bind, hk]
      rfl
    rw [expressionRule, bind_apply, ho]
  rw [happly hk]
  refine (((local_expressionFrom h power _).run s hs).mono fun cs hv => ?_).congr
    fun _ _ s' ht => ?_
  · refine (hv [s.current] 8 (.ident hk) ?_ (Kind.power_le _)).mono fun ts hts => hts
    exact Nat.le_trans (levelOf_le_seven power) (by simp)
  · rw [happly (ht.kind.trans hk), ht.text]

/-! ### Statements that start with a brace -/

/-- The rest of braces behind their first item, which is the key of a hashmap or a statement. -/
def bracedItem (r : Rules) (first : Option Stmt) : Parser Stmt := do
  match first, (← peek).kind with
  | some (.expr key), .colon =>
    let left ← r.hashmapFrom key
    return .expr (← r.expressionFrom Power.lowest left)
  | _, _ =>
    let stmt ← terminate first
    return .block (stmt.toList ++ (← r.blockRest))

/-- Braces that hold something, from their first token on. -/
def bracedRest (r : Rules) : Parser Stmt := do
  if (← current).kind = .semicolon then return .block (← r.blockRest)
  else r.bracedItem (← attempt r.statement)

theorem braced_eq (r : Rules) : r.braced = skipLineEnds >>= fun _ => peek >>= fun t =>
    if t.kind = .rbrace then advance >>= fun _ =>
      r.expressionFrom Power.lowest (.hashmap []) >>= fun e => pure (.expr e)
    else advance >>= fun _ => r.bracedRest := rfl

/-- Braces can be completed, together with a statement that is their first item. -/
def ViableBraced (st : Stmt) (s : State) (cs : List Token) : Prop :=
  ∀ (c : Token) ts, c.kind = .lbrace → Derives (.stmt st) ts →
    Viable .behind s (fun us => IsStmt (c :: (ts ++ us))) cs

theorem ensures_bracedItem (hr : r.Sound) (first : Option Stmt) :
    Ensures (r.bracedItem first) fun _ _ _ => True := by
  intro s
  rw [bracedItem, peek_bind]
  generalize s.peek.kind = k
  split
  · exact (((ensures_hashmapFrom hr _).bind fun _ => (ensures_expressionFrom hr _ _).bind
      fun _ => ensures_pure _) s).mono fun _ _ _ _ => trivial
  · exact (((ensures_terminate _).bind fun _ => (ensures_blockRest hr).bind
      fun _ => ensures_pure _) s).mono fun _ _ _ _ => trivial

theorem localAt_bracedItem (h : r.Online r') (st : Stmt) (hs : s.Ready .behind) :
    LocalAt .behind .behind s (ViableBraced st s) (r.bracedItem (some st) s)
      (r'.bracedItem (some st)) := by
  unfold bracedItem
  rw [peek_bind]
  generalize hk : s.peek.kind = k
  generalize hf : some st = first
  split
  · next key =>
    obtain rfl := Option.some.inj hf
    refine ((((local_hashmapFrom h key).bind fun left =>
      (local_expressionFrom h Power.lowest left).returns Stmt.expr).run s hs).mono ?_).congr
        fun _ _ s' ht => ?_
    · rintro cs (hv | ⟨left, s₁, h₁, -, hv⟩) c ts hc hd
      · refine (hv ts (derives_expr_of_stmt hd)).behind (.refl s) [filler .rbrace]
          (by decide) fun us hus => ?_
        obtain ⟨e, he⟩ := hus.hashmap hc
        exact ⟨_, .exprStmt (by simpa using he.of_le (by simp))⟩
      · obtain ⟨hcl, ps, us, rfl, p₁, d₁⟩ := h₁ ts (derives_expr_of_stmt hd)
        refine (hv _ 8 (.hashmap hc d₁ hcl) (by simp) (Kind.power_le _)).behind p₁ []
          (by decide) fun ws ⟨e, he⟩ => ?_
        exact ⟨_, .exprStmt (by simpa using he)⟩
    · rw [peek_bind, ht.peek_kind, hk]
  · next hcol =>
    subst hf
    refine (((localAt_terminate st hs).bind (ensures_terminate (some st) s) hs.1 fun o =>
      (local_blockRest h).returns fun ss => Stmt.block (o.toList ++ ss)).mono ?_).congr
        fun _ _ s' ht => ?_
    · rintro cs hv c ts hc hd
      -- the brace can be closed behind the first item
      have hend : Completes (fun us => IsStmt (c :: (ts ++ us))) [] := by
        refine ⟨[filler .rbrace], by decide, .block [st], ?_⟩
        exact .blockStmt (c := filler .rbrace) hc (.stmtsLast hd) hd.stmt_ne_nil rfl
      rcases hv with hv | ⟨o, s₁, h₁, -, hv⟩
      · exact viable_rest (.refl s) hv hend
      · rcases (h₁ st rfl).2 hs.current_ne_eof with ⟨d, hd', p₁⟩ | ⟨hcl, p₁⟩
        · refine hv.1.lift [d] (Passes.rest_eq p₁) [filler .rbrace] (by decide) ?_
          rintro us ⟨ss, hss⟩
          have d := Derives.blockStmt (c := filler .rbrace) hc (.stmtsCons hd hd' hss) (by simp) rfl
          exact ⟨_, by simpa using d⟩
        · have hr : s.rest = [] ++ s₁.tokens := Passes.rest_eq p₁
          exact viable_rest (.refl s) ((hv.2 hcl).trans hr.symm) hend
    · rw [peek_bind, ht.peek_kind, hk]
      generalize hf : some st = first at hcol ⊢
      split
      · exact (hcol _ rfl rfl).elim
      · exact hf ▸ rfl

theorem ensures_bracedRest (hr : r.Sound) : Ensures r.bracedRest ReadsBraced := by
  intro s
  rw [bracedRest, current_bind]
  split
  · next hs => exact ends_blockRest hr hs
  · exact ensures_bracedFirst hr s

theorem local_bracedRest (h : r.Online r') :
    Local .before .behind r.bracedRest r'.bracedRest ReadsBraced
      fun s cs => ∀ c : Token, c.kind = .lbrace →
        Viable .before s (fun us => IsStmt (c :: us)) cs := by
  refine ⟨ensures_bracedRest h.sound, ensures_bracedRest h.sound', fun s hs => ?_⟩
  unfold bracedRest
  rw [current_bind]
  split
  · next hk =>
    refine ((((local_blockRest h).returns Stmt.block).run s hs).mono ?_).congr fun _ _ s' ht => ?_
    · rintro cs ⟨⟨us, hus, hv⟩, -⟩ c hc
      exact ⟨us, hus, hv.braced hc⟩
    · rw [current_bind, if_pos (ht.kind.trans hk)]
  · next hk =>
    refine ((((h.statement.attempt).run s hs).bind_of (h.statement.attempt.ensures s) hs.1
      (ensures_bracedItem h.sound) (fun _ => ensures_bracedItem h.sound') (fun _ _ _ _ => rfl)
      (W := fun o t cs => ∀ st, o = some st → ViableBraced st t cs)
      ?_).mono ?_).congr fun _ _ s' ht => ?_
    · rintro _ t ⟨st, rfl, -⟩ - ht
      exact (localAt_bracedItem h st ht).mono fun cs hv st' hst => Option.some.inj hst ▸ hv
    · rintro cs (hv | ⟨o, t, ⟨st, rfl, us, p, d⟩, -, hv⟩) c hc
      · refine hv.lift [] rfl [filler .rbrace] (by decide) ?_
        rintro ts ⟨st, hst⟩
        exact ⟨_, .blockStmt hc (.stmtsLast hst) hst.stmt_ne_nil rfl⟩
      · exact Viable.read (P := fun us => IsStmt (c :: us)) ((hv st rfl c _ hc d).behind p
          [] (by decide) fun ts hts => by simpa using hts)
    · rw [current_bind, if_neg fun hk' => hk (ht.kind.symm.trans hk')]

theorem local_braced (h : r.Online r') :
    Local .behind .behind r.braced r'.braced
      (fun s st t => s.current.kind = .lbrace → Reads (.stmt st) s t)
      fun s cs => s.current.kind = .lbrace →
        Viable .behind s (fun us => IsStmt (s.current :: us)) cs := by
  refine ⟨ensures_braced h.sound, ensures_braced h.sound', fun s hs => ?_⟩
  rw [braced_eq, braced_eq]
  refine ((local_skipLineEnds.seq fun _ => local_ifPeekKind (by simp)
    ((local_expressionFrom h Power.lowest (.hashmap [])).returns Stmt.expr)
    (local_advance.seq fun _ => local_bracedRest h)).run s hs).mono ?_
  rintro cs ⟨-, s₁, ⟨nl, d₁, p₁⟩, g₁, ⟨hk, s₂, h₂, p₂, -, hv⟩ | ⟨-, -, s₂, ⟨-, p₂⟩, -, hv⟩⟩ ho
  all_goals replace p₁ := p₁.of_dropped d₁ hs.1 (by simp [ho, Kind.endsStatement])
  · refine (hv _ 8 (.hashmap ho .pairsNil (h₂ ▸ hk)) (by simp) (Kind.power_le _)).behind
      (p₁.trans p₂) [] (by decide) ?_
    rintro ts ⟨e, he⟩
    exact ⟨_, .exprStmt (by simpa using he)⟩
  · have hk₁ : s₁.current.kind ≠ .eof := by simpa [p₁.2] using hs.current_ne_eof
    have p := p₁.trans (p₂ (g₁.rest_ne_nil hk₁))
    exact (hv _ ho).before p [] (by decide) fun ts hts => by simpa using hts

theorem local_statementRule (h : r.Online r') :
    Local .before .behind r.statementRule r'.statementRule (fun s st t => Reads (.stmt st) s t)
      fun s => Viable .before s IsStmt := by
  refine ⟨ensures_statementRule h.sound, ensures_statementRule h.sound', fun s hs => ?_⟩
  have hexpr {ts : List Token} (ht : IsExpr 1 ts) : IsStmt ts := by
    obtain ⟨e, he⟩ := ht
    exact ⟨_, .exprStmt he⟩
  simp only [statementRule, current_bind]
  generalize hk : s.current.kind = k
  have hb (hne : k ≠ .eof) : s.Ready .behind := hs.1.ready_behind (hk ▸ hne)
  split
  · refine (((local_advance.seq fun _ => (h.expression Power.lowest).returns Stmt.ret).run s
      (hb (by simp))).mono ?_).read.congr fun _ _ s' ht => ?_
    · rintro cs ⟨-, s₁, ⟨-, p₁⟩, -, hv⟩
      refine (hv.next (p₁ (hb (by simp)).2) [] (by decide) ?_).read
      rintro ts ⟨e, he⟩
      exact ⟨_, .ret hk (by simpa using he)⟩
    · simp only [current_bind, ht.kind, hk]
  · refine (((local_braced h).run s (hb (by simp))).mono fun cs hv => ?_).read.congr
      fun _ _ s' ht => ?_
    · exact (hv hk).read
    · simp only [current_bind, ht.kind, hk]
  · by_cases hi : k = .ident
    · subst hi
      replace hb := hb (by simp)
      -- the token ahead tells an assignment from an expression
      refine LocalAt.read ?_
      rw [peek_bind]
      split
      · next hp =>
        simp only [decide_true, Bool.true_and, decide_eq_true_eq] at hp
        refine (((localAt_pass hb (by simp [hp])).bind (ensures_advance s) hs.1 fun _ =>
          local_advance.seq fun _ => (h.expression Power.lowest).returns
            (Stmt.assign s.current.text)).mono ?_).congr fun _ _ s' ht => ?_
        · rintro cs (hf | ⟨-, s₁, ⟨h₁, p₁⟩, g₁, -, s₂, ⟨-, p₂⟩, -, hv⟩)
          · exact hf.elim
          · have hk₁ : s₁.current.kind = .assign := h₁ ▸ hp
            have p := (p₁ hb.2).trans (p₂ (g₁.rest_ne_nil (by simp [hk₁])))
            refine (hv.before p [] (by decide) ?_).read
            rintro ts ⟨e, he⟩
            exact ⟨_, .assign hk hk₁ (by simpa using he)⟩
        · simp only [current_bind, peek_bind, ht.kind, hk,
            ht.peek_kind, hp, ht.text, decide_true,
            Bool.and_self, ↓reduceIte]
      · next hp =>
        simp only [decide_true, Bool.true_and, decide_eq_true_eq] at hp
        refine (((h.name Power.lowest s hb hk).bind (h.sound.expression Power.lowest s) hs.1
          fun e => local_pure .behind (Stmt.expr e)).mono ?_).congr fun _ _ s' ht => ?_
        · rintro cs (hv | ⟨-, -, -, -, hf⟩)
          · exact (hv.mono fun ts hts => hexpr hts).read
          · exact hf.elim
        · have hp' : s'.peek.kind ≠ .assign := fun hq => hp (ht.peek_kind ▸ hq)
          simp only [current_bind, peek_bind, ht.kind, hk, hp',
            decide_true, decide_false, Bool.and_false, Bool.false_eq_true, ↓reduceIte]
    · have hif {p q : Parser Stmt} (s : State) : (peek >>= fun t =>
          if (decide (k = .ident) && decide (t.kind = .assign)) = true then p else q) s = q s := by
        rw [peek_bind]
        simp [hi]
      rw [hif]
      refine ((((h.expression Power.lowest).returns Stmt.expr).run s hs).mono
        fun cs hv => hv.mono fun ts hts => hexpr hts).congr fun _ _ s' ht => ?_
      simp only [current_bind, ht.kind, hk]
      exact hif s'

end Rules

/-- A rule that is short of depth at once finds no error. -/
theorem localAt_tooDeep (V : List Token → Prop) (q' : Parser α) :
    LocalAt i j s V ((throw .tooDeep : Parser α) s) q' :=
  ⟨errsAt_of_eq rfl, nofun, fun _ _ _ _ => .late (errsAt_of_eq rfl) nofun⟩

theorem LocalAt.shallow {V : List Token → Prop} {res : EStateM.Result Stop State α} {q' : Parser α}
    (h : LocalAt i j s V res q') : LocalAt i j s V res (throw .tooDeep) :=
  ⟨h.errs, h.moved, fun _ _ _ _ => .bad nofun⟩

/-- The rules for two depths find the same first errors, as far as they go. -/
theorem online_rules (n m : Nat) : (rules n).Online (rules m) := by
  induction n generalizing m with
  | zero =>
    refine ⟨fun power => ⟨ensures_tooDeep, (sound_rules m).expression power, ?_⟩, ?_,
      ⟨ensures_tooDeep, (sound_rules m).statement, ?_⟩⟩
    · exact fun s _ => localAt_tooDeep _ _
    · exact fun power s _ _ => localAt_tooDeep _ _
    · exact fun s _ => localAt_tooDeep _ _
  | succ n ih =>
    cases m with
    | zero =>
      have hr := ih n
      refine ⟨fun power => ⟨Rules.ensures_expressionRule hr.sound power, ensures_tooDeep, ?_⟩, ?_,
        ⟨Rules.ensures_statementRule hr.sound, ensures_tooDeep, ?_⟩⟩
      · exact fun s hs => ((Rules.local_expressionRule hr power).run s hs).shallow
      · exact fun power s hs hk => (Rules.localAt_expressionRule_name hr power hs hk).shallow
      · exact fun s hs => ((Rules.local_statementRule hr).run s hs).shallow
    | succ m =>
      exact ⟨Rules.local_expressionRule (ih m), fun power _ hs hk =>
        Rules.localAt_expressionRule_name (ih m) power hs hk, Rules.local_statementRule (ih m)⟩

/-! ### Programs -/

theorem Rules.local_program (h : r.Online r') (n : Nat) (recovering : Bool) (s : State)
    (hs : s.Ready .before) : LocalAt .before .before s
      (fun cs => recovering = false → Rules.ViableStmts s cs) (r.program n recovering s)
      (r'.program n recovering) := by
  have hens {r : Rules} (hr : r.Sound) (n : Nat) (recovering : Bool) :
      Ensures (r.program n recovering) fun _ _ _ => True :=
    (ensures_program hr n recovering).mono fun _ _ _ _ _ => trivial
  induction n generalizing recovering s with
  | zero => exact (localAt_pure hs _).mono fun _ hf => hf.elim
  | succ n ih =>
    have hn (recovering : Bool) : Local .before .before (r.program n recovering)
        (r'.program n recovering) (fun _ _ _ => True) _ :=
      ⟨hens h.sound n recovering, hens h.sound' n recovering, ih recovering⟩
    simp only [program, get_bind]
    generalize hk : s.current.kind = k
    have hb (hne : k ≠ .eof) : s.Ready .behind := hs.1.ready_behind (hk ▸ hne)
    split
    · refine ((localAt_pure hs _).mono fun _ hf => hf.elim).congr fun _ _ s' ht => ?_
      simp only [get_bind, ht.kind, hk]
    · cases recovering with
      | true =>
        refine (((local_advance.seq fun _ => hn false).run s (hb (by simp))).read.mono
          fun _ _ hf => absurd hf (by simp)).congr fun _ _ s' ht => ?_
        simp only [get_bind, ht.kind, hk]
        rfl
      | false =>
        refine (((localAt_record_current (j := .before) _ fun _ => .strayBrace).bind_failing
          (ends_record_current s _) hs.1 (fun _ => (local_advance.seq fun _ => hn false).ensures)
          fun _ => (local_advance.seq fun _ => hn false).ensures').mono ?_).congr
            fun _ _ s' ht => ?_
        · rintro _ rfl -
          exact ⟨⟨[], rfl, completes_of ⟨_, .stmtsNil⟩⟩, fun _ => rfl⟩
        · simp only [get_bind, ht.kind, hk]
          rfl
    · next he hb' =>
      have hf {r : Rules} (hr : r.Sound) (k : Nat) (o : Option Stmt) : Ensures
          (get >>= fun u => r.program n (decide (k < u.errors.length)) >>= fun ss =>
            pure (o.toList ++ ss)) fun _ _ _ => True :=
        (ensures_get.bind fun _ => (hens hr n _).bind fun _ => ensures_pure _).mono
          fun _ _ _ _ _ => trivial
      -- without an error so far the next statement does not recover, in neither reader
      have hclean {r : Rules} {s t : State} (o : Option Stmt) (he : t.errors = s.errors) :
          (get >>= fun u => r.program n (decide (s.errors.length < u.errors.length)) >>= fun ss =>
            pure (o.toList ++ ss)) t =
          (r.program n false >>= fun ss => pure (o.toList ++ ss)) t := by
        simp only [get_bind, he, Nat.lt_irrefl, decide_false]
      refine ((((local_terminated h).run s hs).bind_of (ensures_terminated h.sound s) hs.1
        (hf h.sound s.errors.length) (fun s' => hf h.sound' s'.errors.length)
        (fun s' o t he => hclean o he) (W := fun _ t => ViableStmts t) ?_).mono ?_).congr
          fun _ _ s' ht => ?_
      · intro o t _ he hr
        rw [hclean o he]
        exact (((hn false).returns fun ss => o.toList ++ ss).run t hr).mono fun cs hv => hv rfl
      · rintro cs (hv | ⟨o, t, ho, -, hv⟩) -
        · exact ⟨hv, fun hc => ((hk ▸ hc).elim hb' he).elim⟩
        · exact ⟨(ho (hk ▸ he)).viable hv, fun hc => ((hk ▸ hc).elim hb' he).elim⟩
      · simp only [get_bind, ht.kind, hk]

end Scriptlet.Parser
