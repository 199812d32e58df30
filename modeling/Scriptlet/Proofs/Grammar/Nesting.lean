import Scriptlet.Proofs.Grammar.Derives

/-!
Braces in programs. All that is derived has a closing brace for every opening one, and the braces of
a hashmap are told from those of a block by a colon directly between them.
-/

namespace Scriptlet

/-- What a kind of token does to the open braces, the innermost one first. For each one it is known
whether there was a colon directly behind it, and the first of all stands for no brace. -/
def Kind.nest : Kind → List Bool → Option (List Bool)
  | .lbrace, fs => some (false :: fs)
  | .rbrace, _ :: f :: fs => some (f :: fs)
  | .rbrace, _ => none
  | .colon, _ :: fs => some (true :: fs)
  | .colon, [] => none
  | _, fs => some fs

/-- What tokens do to the open braces, if they close none that is not open. -/
def nestAll (fs : List Bool) (ts : List Token) : Option (List Bool) :=
  ts.foldlM (fun gs t => t.kind.nest gs) fs

/-- Whether there is a colon directly in a phrase. -/
def Phrase.hasColon : Phrase → Bool
  | .pairs (_ :: _) => true
  | _ => false

variable {t : Token} {ts us vs : List Token} {φ : Phrase} {f g : Bool} {fs gs hs : List Bool}
  {l : Nat} {k : Kind} {op : InfixOp}

@[simp] theorem nestAll_nil : nestAll fs [] = some fs := rfl

@[simp] theorem nestAll_cons : nestAll fs (t :: ts) = (t.kind.nest fs).bind (nestAll · ts) := rfl

@[simp] theorem nestAll_append : nestAll fs (us ++ vs) = (nestAll fs us).bind (nestAll · vs) :=
  List.foldlM_append

theorem Infix.nest (h : Infix l k op) : k.nest fs = some fs := by
  cases h <;> rfl

theorem Dropped.nestAll (h : Dropped ts) : nestAll fs ts = some fs := by
  induction ts with
  | nil => rfl
  | cons t ts ih =>
    have ht := h t (by simp)
    simp only [Token.isLineEnd, Bool.and_eq_true, beq_iff_eq] at ht
    rw [nestAll_cons, ht.1]
    exact ih fun u hu => h u (by simp [hu])

/-- The braces in a phrase are closed in it, and a colon directly in it belongs to the entry of a
hashmap. -/
theorem Derives.nestAll (h : Derives φ us) :
    nestAll (f :: fs) us = some ((f || φ.hasColon) :: fs) := by
  induction h generalizing f fs with
  | binary ht _ _ iha ihb => simp [iha, ihb, ht.nest, Phrase.hasColon]
  | pairsOne _ hc _ hl ihk ihv => simp [ihk, ihv, hc, hl.nestAll, Kind.nest, Phrase.hasColon]
  | pairsCons _ hc _ hl hd _ ihk ihv ihp =>
    simp [ihk, ihv, ihp, hc, hd, hl.nestAll, Kind.nest, Phrase.hasColon]
  | group ho _ hl hc ih => simp [ih, ho, hc, hl.nestAll, Kind.nest, Phrase.hasColon]
  | index _ ho _ hl hc iha ihi => simp [iha, ihi, ho, hc, hl.nestAll, Kind.nest, Phrase.hasColon]
  | listOne _ hl ih => simp [ih, hl.nestAll, Phrase.hasColon]
  | listCons _ hl hc _ ih ihs => simp [ih, ihs, hc, hl.nestAll, Kind.nest, Phrase.hasColon]
  | _ => simp [*, Kind.nest, Phrase.hasColon]

theorem nest_append (h : k.nest fs = some gs) : k.nest (fs ++ hs) = some (gs ++ hs) := by
  cases k <;> rcases fs with _ | ⟨f, _ | ⟨g, fs⟩⟩ <;> cases h <;> rfl

/-- What is open further out stays as it is. -/
theorem nestAll_frame (h : nestAll fs us = some gs) :
    nestAll (fs ++ hs) us = some (gs ++ hs) := by
  induction us generalizing fs with
  | nil =>
    cases h
    rfl
  | cons u us ih =>
    obtain ⟨fs', hu, hus⟩ := Option.bind_eq_some_iff.mp h
    rw [nestAll_cons, nest_append hu]
    exact ih hus

theorem nest_ne_nil (h : k.nest (f :: fs) = some gs) : gs ≠ [] := by
  cases k <;> rcases fs with _ | ⟨g, fs⟩ <;> cases h <;> simp

theorem nestAll_ne_nil (h : nestAll (f :: fs) us = some gs) : gs ≠ [] := by
  induction us generalizing f fs with
  | nil =>
    cases h
    simp
  | cons u us ih =>
    obtain ⟨fs', hu, hus⟩ := Option.bind_eq_some_iff.mp h
    obtain ⟨f', fs', rfl⟩ := List.exists_cons_of_ne_nil (nest_ne_nil hu)
    exact ih hus

/-! ### How many braces are left open -/

/-- How many more braces are open behind a token of the kind. -/
def Kind.brace : Kind → Int
  | .lbrace => 1
  | .rbrace => -1
  | _ => 0

/-- How many more braces are open behind tokens than in front of them. -/
def netBraces : List Token → Int
  | [] => 0
  | t :: ts => t.kind.brace + netBraces ts

@[simp] theorem netBraces_nil : netBraces [] = 0 := rfl

@[simp] theorem netBraces_cons : netBraces (t :: ts) = t.kind.brace + netBraces ts := rfl

@[simp] theorem netBraces_append : netBraces (us ++ vs) = netBraces us + netBraces vs := by
  induction us with
  | nil => simp
  | cons u us ih => simp [ih, Int.add_assoc]

theorem nestAll_length_eq (h : nestAll fs us = some gs) :
    (gs.length : Int) = fs.length + netBraces us := by
  have hnest : ∀ {k : Kind} {fs gs : List Bool}, k.nest fs = some gs →
      (gs.length : Int) = fs.length + k.brace := by
    intro k fs gs hk
    cases k <;> rcases fs with _ | ⟨f, _ | ⟨g, fs⟩⟩ <;> cases hk <;>
      simp only [List.length_cons, List.length_nil, Kind.brace] <;> omega
  induction us generalizing fs with
  | nil =>
    cases h
    simp
  | cons u us ih =>
    obtain ⟨fs', hu, hus⟩ := Option.bind_eq_some_iff.mp h
    have := hnest hu
    have := ih hus
    rw [netBraces_cons]
    omega

theorem Derives.netBraces (h : Derives φ us) : netBraces us = 0 := by
  have hnest : Scriptlet.nestAll [Bool.false] us = some _ := h.nestAll
  have := nestAll_length_eq hnest
  simp only [List.length_cons, List.length_nil] at this
  omega

theorem Dropped.netBraces (h : Dropped us) : Scriptlet.netBraces us = 0 := by
  have hnest : Scriptlet.nestAll [] us = some _ := h.nestAll
  have := nestAll_length_eq hnest
  simp only [List.length_nil] at this
  omega

/-! ### Cuts -/

/-- The tokens of a hashmap with an entry or more, up to its closing brace. -/
def OpenHashmap (us : List Token) : Prop :=
  ∃ o p ps ts, us = o :: ts ∧ o.kind = .lbrace ∧ Derives (.pairs (p :: ps)) ts

/-- The first tokens are all up to the closing brace of a hashmap with an entry or more. -/
def Cut (pre us : List Token) : Prop :=
  ∃ before h c after, pre = before ++ h ∧ OpenHashmap h ∧ c.kind = .rbrace ∧ us = pre ++ c :: after

variable {pre ms ks : List Token} {o c : Token}

/-- What is opened in tokens is closed in them. -/
def Balanced (us : List Token) : Prop :=
  ∀ f fs, ∃ g, Scriptlet.nestAll (f :: fs) us = some (g :: fs)

theorem Derives.balanced (h : Derives φ us) : Balanced us := fun _ _ => ⟨_, h.nestAll⟩

theorem Dropped.balanced (h : Dropped us) : Balanced us := fun _ _ => ⟨_, h.nestAll⟩

theorem Balanced.head_ne_rbrace (h : Balanced (t :: us)) : t.kind ≠ .rbrace := by
  intro hk
  obtain ⟨g, hg⟩ := h false []
  simp [hk, Kind.nest] at hg

theorem Balanced.last_ne_lbrace (h : Balanced (us ++ [t])) : t.kind ≠ .lbrace := by
  intro hk
  obtain ⟨g, hg⟩ := h false []
  rw [nestAll_append] at hg
  obtain ⟨gs, hgs, ht⟩ := Option.bind_eq_some_iff.mp hg
  simp only [nestAll_cons, hk, Kind.nest, Option.bind_some, nestAll_nil, Option.some.injEq,
    List.cons.injEq] at ht
  exact nestAll_ne_nil hgs ht.2

/-- The brace stays open as far as the end of the last entry. -/
theorem OpenHashmap.nestAll_length (h : OpenHashmap (ms ++ ks)) (hm : ms ≠ [])
    (hn : nestAll (f :: fs) ms = some gs) : fs.length + 2 ≤ gs.length := by
  obtain ⟨o, p, ps, ts, hts, ho, hd⟩ := h
  obtain ⟨m, ms, rfl⟩ := List.exists_cons_of_ne_nil hm
  obtain ⟨rfl, rfl⟩ := List.cons.inj hts
  have hall : nestAll [false] (ms ++ ks) = some [true] := hd.nestAll
  rw [nestAll_append] at hall
  obtain ⟨inner, hin, -⟩ := Option.bind_eq_some_iff.mp hall
  obtain ⟨i, is, rfl⟩ := List.exists_cons_of_ne_nil (nestAll_ne_nil hin)
  have hframe : nestAll (f :: fs) (m :: ms) = some (i :: is ++ f :: fs) := by
    rw [nestAll_cons, ho]
    exact nestAll_frame hin
  cases hn.symm.trans hframe
  simp

theorem not_cut (hu : ∀ u ∈ us, u.kind ≠ .lbrace) : ¬ Cut pre us := by
  rintro ⟨before, w, c, after, rfl, ⟨o, p, ps, ts, rfl, ho, -⟩, -, rfl⟩
  exact hu o (by simp) ho

theorem not_cut_nil : ¬ Cut pre [] := not_cut (by simp)

theorem Dropped.kind_ne_lbrace (h : Dropped us) : ∀ u ∈ us, u.kind ≠ .lbrace := by
  intro u hu hk
  simpa [Token.isLineEnd, hk] using h u hu

/-- A token that is no opening brace is in front of the cut hashmap. -/
theorem Cut.of_cons (h : Cut pre (t :: us)) (ht : t.kind ≠ .lbrace) :
    ∃ pre', pre = t :: pre' ∧ Cut pre' us := by
  obtain ⟨before, w, c, after, rfl, hw, hc, hus⟩ := h
  cases before with
  | nil =>
    obtain ⟨o, p, ps, ts, rfl, ho, -⟩ := hw
    simp only [List.nil_append, List.cons_append, List.cons.injEq] at hus
    exact absurd (hus.1 ▸ ho) ht
  | cons b before =>
    simp only [List.cons_append, List.cons.injEq] at hus
    obtain ⟨rfl, rfl⟩ := hus
    exact ⟨before ++ w, rfl, before, w, c, after, rfl, hw, hc, rfl⟩

/-- Of two parts that close what they open the cut hashmap is in one. -/
theorem Cut.of_append (h : Cut pre (us ++ vs)) (hu : Balanced us) :
    Cut pre us ∨ ∃ pre', pre = us ++ pre' ∧ Cut pre' vs := by
  obtain ⟨before, w, c, after, rfl, hw, hc, hus⟩ := h
  rw [List.append_assoc] at hus
  rcases List.append_eq_append_iff.mp hus with ⟨m, rfl, hm⟩ | ⟨m, rfl, hm⟩
  · exact .inr ⟨m ++ w, by simp, m, w, c, after, rfl, hw, hc, by simp [hm]⟩
  · by_cases hnil : m = []
    · subst hnil
      exact .inr ⟨w, by simp, [], w, c, after, rfl, hw, hc, by simpa using hm.symm⟩
    -- what is in front of the hashmap and as much of it as is in the first part
    obtain ⟨g, hg⟩ := hu false []
    rw [nestAll_append] at hg
    obtain ⟨fs, hfs, hg⟩ := Option.bind_eq_some_iff.mp hg
    obtain ⟨f, fs, rfl⟩ := List.exists_cons_of_ne_nil (nestAll_ne_nil hfs)
    have hopen : ∀ k, w ≠ m ++ k := by
      rintro k rfl
      have := hw.nestAll_length hnil hg
      simp at this
    rcases List.append_eq_append_iff.mp hm with ⟨k, rfl, hk⟩ | ⟨k, hk, -⟩
    · cases k with
      | nil => exact absurd (by simp) (hopen [])
      | cons d k =>
        obtain ⟨rfl, rfl⟩ := List.cons.inj hk
        exact .inl ⟨before, w, c, k, rfl, hw, hc, by simp⟩
    · exact absurd hk (hopen k)

/-- Nothing is cut behind a part, if there is no opening brace. -/
theorem Cut.of_append_plain (h : Cut pre (us ++ vs)) (hu : Balanced us)
    (hv : ∀ v ∈ vs, v.kind ≠ .lbrace) : Cut pre us := by
  rcases h.of_append hu with h | ⟨pre', -, h⟩
  · exact h
  · exact absurd h (not_cut hv)

/-- In braces the cut hashmap is in what stands there, or it is all of that. -/
theorem Cut.of_braces (h : Cut pre (o :: (ts ++ [c]))) (hc : c.kind = .rbrace)
    (hd : Derives φ ts) : (∃ pre', pre = o :: pre' ∧ Cut pre' ts) ∨
      pre = o :: ts ∧ OpenHashmap (o :: ts) ∧ φ.hasColon = true := by
  obtain ⟨before, w, d, after, rfl, hw, hk, hus⟩ := h
  cases before with
  | cons b before =>
    simp only [List.cons_append, List.cons.injEq] at hus
    obtain ⟨rfl, hus⟩ := hus
    have hcut : Cut (before ++ w) (ts ++ [c]) := ⟨before, w, d, after, rfl, hw, hk, hus⟩
    exact .inl ⟨_, rfl, hcut.of_append_plain hd.balanced (by simp [hc])⟩
  | nil =>
    obtain ⟨o, p, ps, us, rfl, ho, hu⟩ := id hw
    simp only [List.nil_append, List.cons_append, List.cons.injEq] at hus
    obtain ⟨rfl, hus⟩ := hus
    -- the entries end where the first brace is closed that is not opened in them
    have htu : ts = us := by
      rcases List.append_eq_append_iff.mp hus with ⟨m, rfl, hm⟩ | ⟨m, rfl, hm⟩
      · cases m with
        | nil => simp
        | cons e m => simp at hm
      · cases m with
        | nil => simp
        | cons e m =>
          have hall : nestAll [false] (us ++ e :: m) = some _ := hd.nestAll
          obtain ⟨rfl, -⟩ := List.cons.inj hm
          simp [hu.nestAll, hk, Kind.nest] at hall
    subst htu
    have hnest : nestAll [false] ts = some _ := hd.nestAll
    have hcolon := hnest.symm.trans hu.nestAll
    exact .inr ⟨rfl, hw, by simpa [Phrase.hasColon] using hcolon⟩

end Scriptlet
