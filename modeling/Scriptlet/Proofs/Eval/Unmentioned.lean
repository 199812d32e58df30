import Scriptlet.Proofs.Eval.Lockstep
import Scriptlet.Proofs.Host.Places
import Scriptlet.Proofs.Parse.Acceptance

/-!
Bindings that a program text does not mention do not matter, and neither does the order in which
names are bound, nor how often. What is bound to the names of the text is alike either way.
-/

namespace Scriptlet

variable {known : String → Prop} {depth : Nat} {source : String} {body : List Stmt}
  {bindings : List (HostKey × Host)} {names names' : List String} {s t : Store}

/-! ### The names of a program text -/

/-- A program text mentions a name. -/
def Mentions (source name : String) : Prop :=
  ∃ t ∈ tokenize source, t.kind = .ident ∧ t.text = name

theorem named_of_parse (hp : parse depth source = .ok ⟨body, []⟩) :
    (Node.program body).Named (Mentions source) := by
  obtain ⟨t, ht, hn⟩ := parse_eq_ok_iff.mp hp
  have hs := (Parser.spells_of_run (lexed_tokenize source) ht hn).spelt
  exact fun m hm => (hs m hm).names

/-! ### Bound names -/

/-- What the value of a name becomes in an empty store, or null in it. -/
def conversion (depth : Nat) (bindings : List (HostKey × Host)) (name : String) : Value × Store :=
  ((bindings.lookup (.text name)).bind fun h => (h.toValue depth {}).toOption).getD (.null, {})

theorem wellFormed_conversion (depth : Nat) (bindings : List (HostKey × Host)) (name : String) :
    (conversion depth bindings name).2.WellFormed ∧
      (conversion depth bindings name).2.IsData (conversion depth bindings name).1 := by
  have hnull : ({} : Store).WellFormed ∧ ({} : Store).IsData .null := ⟨.empty, trivial⟩
  unfold conversion
  cases bindings.lookup (.text name) with
  | none => exact hnull
  | some h =>
    have hi : Imported {} (fun v t => t.IsData v) (h.toValue depth {}) :=
      imported_importIn depth [] h .empty
    simp only [Option.bind_some]
    cases hr : h.toValue depth {} with
    | error e => exact hnull
    | ok r =>
      rw [hr] at hi
      exact ⟨hi.1, hi.2.2⟩

/-- A value that converts is the conversion of its name. -/
theorem toValue_eq_conversion (hv : ∀ b ∈ bindings, ∃ r, b.2.toValue depth {} = .ok r)
    {name : String} (hn : ∃ h, (HostKey.text name, h) ∈ bindings) :
    ∃ h, bindings.lookup (.text name) = some h ∧
      h.toValue depth {} = .ok (conversion depth bindings name) := by
  obtain ⟨h₀, hm⟩ := hn
  cases hl : bindings.lookup (.text name) with
  | none =>
    have hne := List.lookup_eq_none_iff.mp hl _ hm
    simp at hne
  | some h =>
    obtain ⟨l, l', hb, -⟩ := List.lookup_eq_some_iff.mp hl
    obtain ⟨r, hr⟩ := hv (.text name, h) (by simp [hb])
    refine ⟨h, rfl, ?_⟩
    simp only at hr
    simp [conversion, hl, hr, Except.toOption]

variable {γ : Type} {conv : String → Value × Store} {before before' : String → Store}
  {size : Store → Nat} {get : Store → Nat → γ} {move : Store → γ → γ} {name : String}

/-- What the conversions of some names hold, arrays or hashmaps, is in a store, each behind the
store before it was made, and no place there is that of two names. -/
structure Placed (size : Store → Nat) (get : Store → Nat → γ) (move : Store → γ → γ)
    (conv : String → Value × Store) (before : String → Store) (names : List String)
    (s : Store) : Prop where
  kept : ∀ a ∈ names, ∀ k < size (conv a).2, size (before a) + k < size s ∧
    get s (size (before a) + k) = move (before a) (get (conv a).2 k)
  apart : ∀ a ∈ names, ∀ b ∈ names, ∀ k < size (conv a).2, ∀ l < size (conv b).2,
    size (before a) + k = size (before b) + l → a = b

/-- One more conversion, or that of one of the names once more, behind all that is there. -/
theorem Placed.update (h : Placed size get move conv before names s)
    (hsize : size t = size s + size (conv name).2) (hold : ∀ k < size s, get t k = get s k)
    (hnew : ∀ k, get t (size s + k) = move s (get (conv name).2 k)) :
    Placed size get move conv (Function.update before name s) (name :: names) t := by
  have hmem {a : String} (ha : a ∈ name :: names) (hne : a ≠ name) : a ∈ names :=
    (List.mem_cons.mp ha).resolve_left hne
  constructor
  · intro a ha k hk
    by_cases han : a = name
    · subst han
      rw [Function.update_self]
      exact ⟨by omega, hnew k⟩
    · obtain ⟨hlt, he⟩ := h.kept a (hmem ha han) k hk
      rw [Function.update_of_ne han]
      exact ⟨by omega, (hold _ hlt).trans he⟩
  · intro a ha b hb k hk l hl he
    by_cases han : a = name
    · by_cases hbn : b = name
      · rw [han, hbn]
      · -- the old one ends where the new one starts
        rw [han, Function.update_self, Function.update_of_ne hbn] at he
        have hlt := (h.kept b (hmem hb hbn) l hl).1
        omega
    · by_cases hbn : b = name
      · rw [hbn, Function.update_self, Function.update_of_ne han] at he
        have hlt := (h.kept a (hmem ha han) k hk).1
        omega
      · rw [Function.update_of_ne han, Function.update_of_ne hbn] at he
        exact h.apart a (hmem ha han) b (hmem hb hbn) k hk l hl he

/-- The places of the names that are bound in both of two stores are paired one to one. -/
theorem biUnique_of_placed (h : Placed size get move conv before names s)
    (h' : Placed size get move conv before' names' t) :
    Relator.BiUnique fun p q => ∃ a, a ∈ names ∧ a ∈ names' ∧
      ∃ k < size (conv a).2, p = size (before a) + k ∧ q = size (before' a) + k := by
  constructor
  · rintro p q r ⟨a, -, ha, k, hk, rfl, hr⟩ ⟨b, -, hb, l, hl, rfl, hr'⟩
    obtain rfl := h'.apart a ha b hb k hk l hl (hr.symm.trans hr')
    omega
  · rintro p q r ⟨a, ha, -, k, hk, hp, rfl⟩ ⟨b, hb, -, l, hl, hp', rfl⟩
    obtain rfl := h.apart a ha b hb k hk l hl (hp.symm.trans hp')
    omega

/-- The places of the names that are bound in both of two stores, each counted from behind what was
there before in the one and in the other. -/
def Pairing.ofNames (conv : String → Value × Store) (before before' : String → Store)
    (names names' : List String) : Pairing where
  array p q := ∃ a, a ∈ names ∧ a ∈ names' ∧ (along (conv a).2 (before a) (before' a)).array p q
  hashmap p q := ∃ a, a ∈ names ∧ a ∈ names' ∧
    (along (conv a).2 (before a) (before' a)).hashmap p q

theorem Pairing.along_le_ofNames (h : name ∈ names) (h' : name ∈ names') :
    along (conv name).2 (before name) (before' name) ≤ ofNames conv before before' names names' :=
  ⟨fun _ _ hpq => ⟨name, h, h', hpq⟩, fun _ _ hpq => ⟨name, h, h', hpq⟩⟩

/-- A store where some names and nothing else are bound, in its only scope, to their conversions. -/
structure Store.Filled (conv : String → Value × Store) (before : String → Store)
    (names : List String) (s : Store) : Prop where
  size : s.scopes.size = 1
  outer : ∀ i, s.outerOf i = none
  closures : s.closures = #[]
  bound : ∀ i name, (s.namesOf i).lookup name =
    if i = 0 ∧ name ∈ names then some ((conv name).1.behind (before name)) else none
  arrays : Placed (·.arrays.size) elements (fun s a => a.map (Value.behind s)) conv before names s
  hashmaps : Placed (·.hashmaps.size) hashmap Hashmap.behind conv before names s

namespace Store

theorem filled_start : (({} : Store).newScope none).2.Filled conv before [] where
  size := rfl
  outer i := by cases i <;> rfl
  closures := rfl
  bound i name := by cases i <;> rfl
  arrays := ⟨by simp, by simp⟩
  hashmaps := ⟨by simp, by simp⟩

/-- One more name, or one of the names once more, is bound to its conversion. -/
theorem Filled.bind (h : s.Filled conv before names) (name : String) :
    ((s.followedBy (conv name).2).bind 0 name ((conv name).1.behind s)).Filled conv
      (Function.update before name s) (name :: names) where
  size := by simpa [Store.bind, followedBy] using h.size
  outer i := by
    rw [outerOf_bind]
    exact h.outer i
  closures := h.closures
  bound i other := by
    have hs : (s.followedBy (conv name).2).scopes.size = 1 := h.size
    have ho : ((s.followedBy (conv name).2).namesOf i).lookup other = _ := h.bound i other
    rw [lookup_namesOf_bind, hs, ho]
    by_cases hi : i = 0
    · by_cases hn : other = name
      · simp [hi, hn]
      · simp [hi, hn]
    · simp [hi]
  arrays := h.arrays.update size_arrays_followedBy (fun _ hk => elements_followedBy_of_lt hk)
    fun _ => elements_followedBy
  hashmaps := h.hashmaps.update size_hashmaps_followedBy (fun _ hk => hashmap_followedBy_of_lt hk)
    fun _ => hashmap_followedBy

/-- Names of values that convert are all bound in the end. -/
theorem Filled.bindEach {done : List String} (h : s.Filled conv before done)
    (hc : ∀ a ∈ names, ∃ v, bindings.lookup (.text a) = some v ∧
      v.toValue depth {} = .ok (conv a)) :
    ∃ before' t, s.bindEach depth 0 (selected bindings (some names)) = (t, none) ∧
      t.Filled conv before' (names.reverse ++ done) := by
  induction names generalizing s before done with
  | nil => exact ⟨before, s, rfl, h⟩
  | cons a names ih =>
    obtain ⟨v, hl, hv⟩ := hc a (by simp)
    obtain ⟨before', t, ht, hf⟩ := ih (h.bind a) fun b hb => hc b (by simp [hb])
    refine ⟨before', t, ?_, by simpa using hf⟩
    have hs : v.toValue depth s = .ok ((conv a).1.behind s, s.followedBy (conv a).2) := by
      rw [Host.toValue_eq, hv]
      rfl
    change s.bindEach depth 0 ((.text a, _) :: selected bindings (some names)) = _
    simp only [hl, Store.bindEach, Except.bind, hs]
    exact ht

theorem Filled.paired (h : s.Filled conv before names) (h' : t.Filled conv before' names')
    (hc : ∀ a, (conv a).2.WellFormed) :
    s.Paired (.ofNames conv before before' names names') t := by
  refine ⟨biUnique_of_placed h.arrays h'.arrays, biUnique_of_placed h.hashmaps h'.hashmaps, ?_, ?_⟩
  · rintro p q ⟨a, ha, ha', k, hk, rfl, rfl⟩
    obtain ⟨hp, he⟩ := h.arrays.kept a ha k hk
    obtain ⟨hq, he'⟩ := h'.arrays.kept a ha' k hk
    have htwins := twins_behind_elements (hc a) (before a) (before' a) k
    rw [he, he']
    exact ⟨hp, hq, forall₂_twins_mono htwins (Pairing.along_le_ofNames ha ha')⟩
  · rintro p q ⟨a, ha, ha', k, hk, rfl, rfl⟩
    obtain ⟨hp, he⟩ := h.hashmaps.kept a ha k hk
    obtain ⟨hq, he'⟩ := h'.hashmaps.kept a ha' k hk
    have htwins := twins_behind_hashmap (hc a) (before a) (before' a) k
    rw [he, he']
    exact ⟨hp, hq, htwins.mono (Pairing.along_le_ofNames ha ha')⟩

/-- Names that are bound in both of two stores are bound to twins. -/
theorem Filled.alike (h : s.Filled conv before names) (h' : t.Filled conv before' names')
    (hc : ∀ a, (conv a).2.WellFormed ∧ (conv a).2.IsData (conv a).1)
    (hk : ∀ a, known a → (a ∈ names ↔ a ∈ names')) :
    s.Alike known (.ofNames conv before before' names names') t where
  paired := h.paired h' fun a => (hc a).1
  size := h.size.trans h'.size.symm
  outer i := (h.outer i).trans (h'.outer i).symm
  names i a ha := by
    rw [h.bound, h'.bound]
    by_cases hi : i = 0 ∧ a ∈ names
    · have ha' := (hk a ha).mp hi.2
      have htwins := (hc a).2.twins_behind (before a) (before' a)
      rw [if_pos hi, if_pos ⟨hi.1, ha'⟩]
      exact .some (htwins.mono (Pairing.along_le_ofNames hi.2 ha'))
    · have hi' : ¬ (i = 0 ∧ a ∈ names') := fun hi' => hi ⟨hi'.1, (hk a ha).mpr hi'.2⟩
      rw [if_neg hi, if_neg hi']
      exact .none
  closures := h.closures.trans h'.closures.symm
  bodies place c hcl := by simp [h.closures] at hcl

end Store

/-! ### Runs -/

/-- The names of a list are all bound for a program, if their values convert. -/
theorem filled_bindAll (hv : ∀ b ∈ bindings, ∃ r, b.2.toValue depth {} = .ok r)
    (hb : ∀ a ∈ names, ∃ h, (HostKey.text a, h) ∈ bindings) :
    ∃ before s, (({} : Store).newScope none).2.bindAll depth 0 bindings (some names) = (s, none) ∧
      s.Filled (conversion depth bindings) before names.reverse := by
  have hstart : (({} : Store).newScope none).2.Filled (conversion depth bindings)
      (fun _ => {}) [] := Store.filled_start
  have hc : ∀ a ∈ names, _ := fun a ha => toValue_eq_conversion hv (hb a ha)
  simpa [Store.bindAll] using hstart.bindEach hc

theorem runProgram_eq_of_named (hn : (Node.program body).Named known)
    (hv : ∀ b ∈ bindings, ∃ r, b.2.toValue depth {} = .ok r)
    (hb : ∀ a ∈ names, ∃ h, (HostKey.text a, h) ∈ bindings)
    (hb' : ∀ a ∈ names', ∃ h, (HostKey.text a, h) ∈ bindings)
    (hk : ∀ a, known a → (a ∈ names ↔ a ∈ names')) :
    runProgram depth body bindings (some names) =
      runProgram depth body bindings (some names') := by
  obtain ⟨before, s, hs, hf⟩ := filled_bindAll hv hb
  obtain ⟨before', t, ht, hf'⟩ := filled_bindAll hv hb'
  have hnames : ∀ a, known a → (a ∈ names.reverse ↔ a ∈ names'.reverse) := by simpa using hk
  have hst := hf.alike hf' (wellFormed_conversion depth bindings) hnames
  have he := inStep_eval depth (.program body) 0 _ hn _ s t le_rfl hst
  rw [runProgram_of_bound hs, runProgram_of_bound ht]
  generalize eval depth (.program body) 0 s = x, eval depth (.program body) 0 t = y at he
  cases he with
  | ok _ hst' hr => exact Run.ofValue_eq hst'.paired hr depth
  | halted h s' t' => rfl

/-- Bindings that a program text does not mention do not influence it. If the values of all bindings
convert, then with any two lists of their names, in any order and with repetitions, the result or
the error is the same, as long as both have the bound names that the text mentions. -/
theorem evaluate_eq_of_mentions {depth : Nat} {source : String}
    {bindings : List (HostKey × Host)} {names names' : List String}
    (hv : ∀ b ∈ bindings, ∃ r, b.2.toValue depth {} = .ok r)
    (hb : ∀ a ∈ names, ∃ h, (HostKey.text a, h) ∈ bindings)
    (hb' : ∀ a ∈ names', ∃ h, (HostKey.text a, h) ∈ bindings)
    (hm : ∀ a h, (HostKey.text a, h) ∈ bindings → Mentions source a → a ∈ names ∧ a ∈ names') :
    evaluate depth source bindings (some names) = evaluate depth source bindings (some names') := by
  have hrun : run depth source bindings (some names) = run depth source bindings (some names') := by
    unfold run
    split
    · rfl
    · next body hp =>
      have hn := named_of_parse hp
      refine runProgram_eq_of_named hn hv hb hb' fun a ha => ⟨fun h => ?_, fun h => ?_⟩
      · obtain ⟨v, hav⟩ := hb a h
        exact (hm a v hav ha).2
      · obtain ⟨v, hav⟩ := hb' a h
        exact (hm a v hav ha).1
    · rfl
  rw [evaluate, evaluate, hrun]

/-- An array that the text adds to is the same one afterwards, wherever in the store it is. -/
theorem evaluate_eq_of_mentions_push :
    (∀ b ∈ ([(.text "x", .list [.int 2]), (.text "y", .list [])] : List (HostKey × Host)),
      ∃ r, b.2.toValue 20 {} = .ok r) ∧
    Mentions "push(x, 1) == x" "x" ∧ ¬ Mentions "push(x, 1) == x" "y" ∧
    evaluate 20 "push(x, 1) == x" [(.text "x", .list [.int 2]), (.text "y", .list [])]
        (some ["x"]) =
      evaluate 20 "push(x, 1) == x" [(.text "x", .list [.int 2]), (.text "y", .list [])]
        (some ["y", "x", "y", "x"]) := by
  have hts : tokenize "push(x, 1) == x" = [⟨.ident, "push", ⟨1, 1⟩⟩, ⟨.lparen, "(", ⟨1, 5⟩⟩,
      ⟨.ident, "x", ⟨1, 6⟩⟩, ⟨.comma, ",", ⟨1, 7⟩⟩, ⟨.int, "1", ⟨1, 9⟩⟩, ⟨.rparen, ")", ⟨1, 10⟩⟩,
      ⟨.eq, "==", ⟨1, 12⟩⟩, ⟨.ident, "x", ⟨1, 15⟩⟩, ⟨.eof, "", ⟨1, 16⟩⟩] := by cbv
  have hv : ∀ b ∈ ([(.text "x", .list [.int 2]), (.text "y", .list [])] : List (HostKey × Host)),
      ∃ r, b.2.toValue 20 {} = .ok r := by
    simp only [List.forall_mem_cons]
    exact ⟨⟨_, rfl⟩, ⟨_, rfl⟩, List.forall_mem_nil _⟩
  have hx : Mentions "push(x, 1) == x" "x" := by
    rw [Mentions, hts]
    decide
  have hy : ¬ Mentions "push(x, 1) == x" "y" := by
    rw [Mentions, hts]
    decide
  refine ⟨hv, hx, hy, evaluate_eq_of_mentions hv ?_ ?_ fun a h ha hm => ?_⟩
  · simp
  · simp
  · simp only [List.mem_cons, Prod.mk.injEq, HostKey.text.injEq, List.not_mem_nil, or_false] at ha
    obtain ⟨rfl, -⟩ | ⟨rfl, -⟩ := ha
    · simp
    · exact absurd hm hy

end Scriptlet
