import Scriptlet.Proofs.Value.Unfolding

/-!
Values made of new collections that are each in one place of the value only. What is made from one
store to the next has its collections in between, so that two things made one after the other share
none.
-/

namespace Scriptlet

variable {s s' t t' : Store} {v w u : Value} {a b : List Nat} {vs : List Value} {m : Hashmap}

/-- Arrays and hashmaps. -/
def Value.IsCollection : Value → Prop
  | array _ | hashmap _ => True
  | _ => False

namespace Store

/-- The value at an address inside another one, which tells from the outside which part to go to. -/
def valueAt (s : Store) : Value → List Nat → Option Value
  | v, [] => some v
  | v, i :: a => (s.parts v)[i]?.bind (s.valueAt · a)

/-- A collection that a later store has and an earlier one does not. -/
def New (s t : Store) : Value → Prop
  | .array place => s.arrays.size ≤ place ∧ place < t.arrays.size
  | .hashmap place => s.hashmaps.size ≤ place ∧ place < t.hashmaps.size
  | _ => False

/-- A value whose collections are all new, each of them at one address only. -/
structure Separate (s t : Store) (v : Value) : Prop where
  new : ∀ a u, t.valueAt v a = some u → u.IsCollection → s.New t u
  once : ∀ a b u, t.valueAt v a = some u → t.valueAt v b = some u → u.IsCollection → a = b

/-- Values without a collection in common. -/
def Apart (t : Store) (v w : Value) : Prop :=
  ∀ a b u, t.valueAt v a = some u → t.valueAt w b = some u → ¬ u.IsCollection

/-- Values that are separate, also from each other. -/
structure AllSeparate (s t : Store) (vs : List Value) : Prop where
  each : ∀ v ∈ vs, s.Separate t v
  apart : vs.Pairwise t.Apart

theorem Apart.symm (h : t.Apart v w) : t.Apart w v := fun a b u ha hb => h b a u hb ha

/-! ### Later stores -/

theorem New.within (h : s.New t u) (ht : t.Within t') : s.New t' u := by
  cases u with
  | array place => exact ⟨h.1, Nat.lt_of_lt_of_le h.2 ht.arrays⟩
  | hashmap place => exact ⟨h.1, Nat.lt_of_lt_of_le h.2 ht.hashmaps⟩
  | _ => exact h.elim

theorem New.of_within (h : t.New t' u) (hs : s.Within t) : s.New t' u := by
  cases u with
  | array place => exact ⟨Nat.le_trans hs.arrays h.1, h.2⟩
  | hashmap place => exact ⟨Nat.le_trans hs.hashmaps h.1, h.2⟩
  | _ => exact h.elim

/-- What is new from one store to the next is not new after that. -/
theorem New.not_new (h : s.New t u) : ¬ t.New t' u := by
  intro h'
  cases u with
  | array place => exact Nat.not_lt_of_le h'.1 h.2
  | hashmap place => exact Nat.not_lt_of_le h'.1 h.2
  | _ => exact h

theorem parts_eq_nil (h : ¬ v.IsCollection) : s.parts v = [] := by
  cases v with
  | array | hashmap => exact absurd trivial h
  | _ => rfl

theorem parts_within (hv : v.IsCollection → s.New t v) (ht : t.Within t') :
    t'.parts v = t.parts v := by
  cases v with
  | array place => exact congrArg Array.toList (ht.elements place (hv trivial).2)
  | hashmap place =>
    exact congrArg (fun h : Hashmap => h.entries.map (·.value)) (ht.hashmap place (hv trivial).2)
  | _ => rfl

/-- Where a value's collections are in the store, later stores have the same at its addresses. -/
theorem valueAt_within (hv : ∀ a u, t.valueAt v a = some u → u.IsCollection → s.New t u)
    (ht : t.Within t') (a : List Nat) : t'.valueAt v a = t.valueAt v a := by
  induction a generalizing v with
  | nil => rfl
  | cons i a ih =>
    rw [valueAt, valueAt, parts_within (hv [] v rfl) ht]
    cases hi : (t.parts v)[i]? with
    | none => rfl
    | some w => exact ih fun b u hu => hv (i :: b) u (by rw [valueAt, hi]; exact hu)

theorem Separate.within (h : s.Separate t v) (ht : t.Within t') : s.Separate t' v where
  new a u hu hc := by
    rw [valueAt_within h.new ht] at hu
    exact (h.new a u hu hc).within ht
  once a b u ha hb hc := by
    rw [valueAt_within h.new ht] at ha hb
    exact h.once a b u ha hb hc

theorem Separate.of_within (h : t.Separate t' v) (hs : s.Within t) : s.Separate t' v :=
  ⟨fun a u hu hc => (h.new a u hu hc).of_within hs, h.once⟩

/-- Values made one after the other have no collection in common. -/
theorem Separate.apart (hv : s.Separate t v) (ht : t.Within t') (hw : t.Separate t' w) :
    t'.Apart v w := by
  intro a b u ha hb hc
  rw [valueAt_within hv.new ht] at ha
  exact (hv.new a u ha hc).not_new (hw.new b u hb hc)

theorem Apart.within (hv : s.Separate t v) (hw : s.Separate t w) (h : t.Apart v w)
    (ht : t.Within t') : t'.Apart v w := by
  intro a b u ha hb
  rw [valueAt_within hv.new ht] at ha
  rw [valueAt_within hw.new ht] at hb
  exact h a b u ha hb

theorem AllSeparate.within (h : s.AllSeparate t vs) (ht : t.Within t') : s.AllSeparate t' vs where
  each v hv := (h.each v hv).within ht
  apart := h.apart.imp_of_mem fun hv hw hvw => hvw.within (h.each _ hv) (h.each _ hw) ht

/-! ### What is made of what -/

theorem allSeparate_nil : s.AllSeparate t [] := ⟨by simp, .nil⟩

/-- A value followed by others that are made after it. -/
theorem AllSeparate.cons (hv : s.Separate t v) (hst : s.Within t) (ht : t.Within t')
    (h : t.AllSeparate t' vs) : s.AllSeparate t' (v :: vs) where
  each := List.forall_mem_cons.mpr ⟨hv.within ht, fun w hw => (h.each w hw).of_within hst⟩
  apart := List.pairwise_cons.mpr ⟨fun w hw => hv.apart ht (h.each w hw), h.apart⟩

/-- A value without a collection in it. -/
theorem separate_of_not_isCollection (hv : ¬ v.IsCollection) : s.Separate t v := by
  have hat (a : List Nat) (u : Value) (hu : t.valueAt v a = some u) : u = v := by
    cases a with
    | nil => exact (Option.some.inj hu).symm
    | cons i a =>
      rw [valueAt, parts_eq_nil hv] at hu
      cases hu
  exact ⟨fun a u hu hc => absurd (hat a u hu ▸ hc) hv,
    fun a b u hu _ hc => absurd (hat a u hu ▸ hc) hv⟩

/-- A new collection of separate values is separate. -/
theorem AllSeparate.separate (h : s.AllSeparate t (t'.parts v)) (ht : t.Within t')
    (hst : s.Within t) (hv : t.New t' v) : s.Separate t' v := by
  have h' := h.within ht
  -- what is inside is older than the collection itself
  have hinside {i : Nat} {a : List Nat} {u : Value} (hu : t'.valueAt v (i :: a) = some u) :
      ∃ w, (t'.parts v)[i]? = some w ∧ w ∈ t'.parts v ∧ t'.valueAt w a = some u := by
    obtain ⟨w, hw, hu⟩ := Option.bind_eq_some_iff.mp hu
    exact ⟨w, hw, List.mem_of_getElem? hw, hu⟩
  have hne {i : Nat} {a : List Nat} (hu : t'.valueAt v (i :: a) = some v) (hc : v.IsCollection) :
      False := by
    obtain ⟨w, -, hm, hu⟩ := hinside hu
    rw [valueAt_within (h.each w hm).new ht] at hu
    exact ((h.each w hm).new a v hu hc).not_new hv
  refine ⟨fun a u hu hc => ?_, fun a b u ha hb hc => ?_⟩
  · cases a with
    | nil =>
      obtain rfl := Option.some.inj hu
      exact hv.of_within hst
    | cons i a =>
      obtain ⟨w, -, hm, hu⟩ := hinside hu
      exact (h'.each w hm).new a u hu hc
  · cases a with
    | nil =>
      obtain rfl := Option.some.inj ha
      cases b with
      | nil => rfl
      | cons j b => exact (hne hb hc).elim
    | cons i a =>
      cases b with
      | nil =>
        obtain rfl := Option.some.inj hb
        exact (hne ha hc).elim
      | cons j b =>
        obtain ⟨w, hw, hm, ha⟩ := hinside ha
        obtain ⟨x, hx, -, hb⟩ := hinside hb
        obtain ⟨hi, rfl⟩ := List.getElem?_eq_some_iff.mp hw
        obtain ⟨hj, rfl⟩ := List.getElem?_eq_some_iff.mp hx
        obtain hlt | rfl | hlt := Nat.lt_trichotomy i j
        · exact absurd hc (List.pairwise_iff_getElem.mp h'.apart i j hi hj hlt a b u ha hb)
        · rw [(h'.each _ hm).once a b u ha hb hc]
        · exact absurd hc (List.pairwise_iff_getElem.mp h'.apart j i hj hi hlt b a u hb ha)

theorem AllSeparate.newArray (h : s.AllSeparate t vs) (hst : s.Within t) :
    s.Separate (t.newArray vs.toArray).2 (t.newArray vs.toArray).1 := by
  refine separate ?_ (within_newArray vs.toArray) hst ⟨Nat.le_refl _, by simp [Store.newArray]⟩
  have hparts : (t.newArray vs.toArray).2.parts (t.newArray vs.toArray).1 = vs := by
    simp [Store.newArray, parts, elements]
  rwa [hparts]

theorem AllSeparate.newHashmap (h : s.AllSeparate t (m.entries.map (·.value))) (hst : s.Within t) :
    s.Separate (t.newHashmap m).2 (t.newHashmap m).1 := by
  refine separate ?_ (within_newHashmap m) hst ⟨Nat.le_refl _, by simp [Store.newHashmap]⟩
  have hparts : (t.newHashmap m).2.parts (t.newHashmap m).1 = m.entries.map (·.value) := by
    simp [Store.newHashmap, parts, hashmap]
  rwa [hparts]

end Store

/-- An entry that is put in comes to some of the others. -/
theorem Hashmap.exists_putIn (e : Entry) (l : List Entry) :
    ∃ rest, rest.Sublist l ∧ (putIn e l).Perm (e :: rest) := by
  induction l with
  | nil => exact ⟨[], .slnil, .refl _⟩
  | cons d l ih =>
    rw [putIn]
    split
    · exact ⟨l, List.sublist_cons_self d l, .refl _⟩
    · obtain ⟨rest, hrest, hperm⟩ := ih
      exact ⟨d :: rest, hrest.cons_cons d, (hperm.cons d).trans (.swap e d rest)⟩

/-- A hashmap of separate values with one more that is made after them. -/
theorem Store.AllSeparate.put (h : s.AllSeparate t (m.entries.map (·.value))) (hst : s.Within t)
    (ht : t.Within t') (hw : t.Separate t' w) (k : Key) :
    s.AllSeparate t' ((m.put k w).entries.map (·.value)) := by
  obtain ⟨rest, hrest, hperm⟩ := Hashmap.exists_putIn ⟨k, w⟩ m.entries
  have hvalues := hperm.map (·.value)
  have hsub := hrest.map (·.value)
  refine ⟨fun v hv => ?_, ?_⟩
  · obtain rfl | hv := List.mem_cons.mp (hvalues.subset hv)
    · exact hw.of_within hst
    · exact (h.each v (hsub.subset hv)).within ht
  · refine (hvalues.pairwise_iff Apart.symm).mpr (List.pairwise_cons.mpr ⟨fun v hv => ?_, ?_⟩)
    · exact ((h.each v (hsub.subset hv)).apart ht hw).symm
    · exact (h.within ht).apart.sublist hsub

end Scriptlet
