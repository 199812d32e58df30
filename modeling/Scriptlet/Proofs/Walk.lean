import Mathlib.Data.List.Perm.Subperm
import Mathlib.Logic.Relation

/-!
Walks through things that contain others, as conversions of data make them: depth first, the parts of
a thing from the left, with room for a number of levels. A walk ends at the first thing that is at
fault, be it by itself, as a collection inside itself, or for want of room.
-/

namespace Scriptlet

open Relation

/-- What there is to walk through, and what can be wrong with it. -/
structure Walk (ν ε : Type) where
  /-- the parts of a thing in order -/
  parts : ν → List ν
  /-- what is wrong with a thing wherever it is -/
  fault : ν → Option ε
  /-- what is wrong with a collection that is inside itself -/
  cyclic : ν → Option ε
  /-- what is wrong with a thing that there is no room for; none for what needs no room -/
  tooDeep : ν → Option ε
  isSome_cyclic : ∀ {v}, parts v ≠ [] → (cyclic v).isSome
  isSome_tooDeep : ∀ {v}, parts v ≠ [] → (tooDeep v).isSome

namespace Walk

variable {ν ε α β : Type} {w : Walk ν ε} {d m n : Nat} {a b : List Nat} {path path' path'' : List ν}
  {r v u u' : ν} {us us' : List ν} {e e' : ε}

/-- The first thing is a part of the second one. -/
def Part (w : Walk ν ε) (u v : ν) : Prop := u ∈ w.parts v

/-- From a thing one comes to itself, to its parts, to the parts of these, and so on. -/
def Reaches (w : Walk ν ε) (v u : ν) : Prop := ReflTransGen w.Part u v

/-- From a thing one can go to a part so many times, and what one comes to needs room. -/
def Deep (w : Walk ν ε) : Nat → ν → Prop
  | 0, v => (w.tooDeep v).isSome
  | n + 1, v => ∃ u ∈ w.parts v, w.Deep n u

/-- There is room for a thing inside those of a path, or it needs none. -/
def HasRoom (w : Walk ν ε) (d : Nat) (path : List ν) (v : ν) : Prop :=
  d ≤ path.length → w.tooDeep v = none

variable [DecidableEq ν]

/-- What is wrong with a visit to a thing inside those of a path, of which the innermost comes first,
where there is room for so many levels. -/
def offence (w : Walk ν ε) (d : Nat) (path : List ν) (v : ν) : Option ε :=
  (if d ≤ path.length then w.tooDeep v else none) <|> w.fault v <|>
    if v ∈ path then w.cyclic v else none

/-- The visits of a walk that starts at a thing inside those of a path. Each has an address, which
tells from the start which part to go to, and a path. A walk does not go into what offends. -/
inductive Visits (w : Walk ν ε) (d : Nat) : List ν → ν → List Nat → List ν → ν → Prop where
  | here {path : List ν} {v : ν} : Visits w d path v [] path v
  | part {path path' : List ν} {v u u' : ν} {i : Nat} {a : List Nat}
    (h : w.offence d path v = none) (hi : (w.parts v)[i]? = some u)
    (hu : Visits w d (v :: path) u a path' u') : Visits w d path v (i :: a) path' u'

/-- Of two addresses the first one comes no later, depth first and from the left. -/
def NoLater : List Nat → List Nat → Prop
  | [], _ => True
  | _ :: _, [] => False
  | i :: a, j :: b => i < j ∨ (i = j ∧ NoLater a b)

/-- No visit offends. -/
def Passes (w : Walk ν ε) (d : Nat) (path : List ν) (v : ν) : Prop :=
  ∀ a path' u, w.Visits d path v a path' u → w.offence d path' u = none

/-- What is wrong with the first visit that offends. -/
def Fails (w : Walk ν ε) (d : Nat) (path : List ν) (v : ν) (e : ε) : Prop :=
  ∃ a path' u, w.Visits d path v a path' u ∧ w.offence d path' u = some e ∧
    ∀ b path'' u', w.Visits d path v b path'' u' → w.offence d path'' u' ≠ none → NoLater a b

/-! ### Offences -/

theorem offence_eq_none : w.offence d path v = none ↔
    w.HasRoom d path v ∧ w.fault v = none ∧ (v ∈ path → w.cyclic v = none) := by
  simp only [offence, HasRoom, Option.orElse_eq_orElse, Option.orElse_eq_or, Option.or_eq_none_iff,
    ite_eq_right_iff]

theorem offence_cases (h : w.offence d path v = some e) :
    (d ≤ path.length ∧ w.tooDeep v = some e) ∨ w.fault v = some e ∨
    (v ∈ path ∧ w.cyclic v = some e) := by
  simp only [offence, Option.orElse_eq_orElse, Option.orElse_eq_or, Option.or_eq_some_iff] at h
  obtain h | ⟨-, h | ⟨-, h⟩⟩ := h
  · exact .inl (by simpa using h)
  · exact .inr (.inl h)
  · exact .inr (.inr (by simpa using h))

theorem offence_of_tooDeep (hd : d ≤ path.length) (h : w.tooDeep v = some e) :
    w.offence d path v = some e := by
  rw [offence, if_pos hd, h]
  rfl

omit [DecidableEq ν] in
theorem hasRoom_of_lt (h : path.length < d) : w.HasRoom d path v := fun hle =>
  absurd hle (Nat.not_le_of_lt h)

theorem offence_of_fault (hd : w.HasRoom d path v) (h : w.fault v = some e) :
    w.offence d path v = some e := by
  rw [offence, ite_eq_right_iff.mpr hd, h]
  rfl

theorem offence_of_cyclic (hd : w.HasRoom d path v) (hf : w.fault v = none) (hm : v ∈ path)
    (h : w.cyclic v = some e) : w.offence d path v = some e := by
  rw [offence, ite_eq_right_iff.mpr hd, hf, if_pos hm, h]
  rfl

/-- A collection inside itself offends. -/
theorem not_mem_of_offence (h : w.offence d path v = none) (hparts : w.parts v ≠ []) : v ∉ path := by
  intro hm
  have hc := w.isSome_cyclic hparts
  rw [(offence_eq_none.mp h).2.2 hm] at hc
  cases hc

/-! ### Visits -/

theorem Visits.unique (h : w.Visits d path v a path' u) (h' : w.Visits d path v a path'' u') :
    path' = path'' ∧ u = u' := by
  induction h with
  | here =>
    cases h'
    exact ⟨rfl, rfl⟩
  | part _ hi _ ih =>
    cases h' with
    | part _ hi' hu' =>
      obtain rfl := Option.some.inj (hi.symm.trans hi')
      exact ih hu'

/-- A walk goes on from what it visits. -/
theorem Visits.trans (h : w.Visits d path v a path' u) (h' : w.Visits d path' u b path'' u') :
    w.Visits d path v (a ++ b) path'' u' := by
  induction h with
  | here => exact h'
  | part ho hi _ ih => exact .part ho hi (ih h')

theorem Visits.length_path (h : w.Visits d path v a path' u) :
    path'.length = a.length + path.length := by
  induction h with
  | here => exact (Nat.zero_add _).symm
  | part _ _ _ ih =>
    rw [ih, List.length_cons, List.length_cons]
    omega

theorem Visits.deep (h : w.Visits d path v a path' u) (hu : (w.tooDeep u).isSome) :
    w.Deep a.length v := by
  induction h with
  | here => exact hu
  | part _ hi _ ih => exact ⟨_, List.mem_of_getElem? hi, ih hu⟩

theorem Visits.reaches (h : w.Visits d path v a path' u) : w.Reaches v u := by
  induction h with
  | here => exact .refl
  | part _ hi _ ih => exact ih.tail (List.mem_of_getElem? hi)

/-- The path grows with the things that a walk goes into, which contain what it visits then. -/
theorem Visits.mem_path (h : w.Visits d path v a path' u) {p : ν} (hp : p ∈ path') :
    p ∈ path ∨ TransGen w.Part u p := by
  induction h with
  | here => exact .inl hp
  | part _ hi hu ih =>
    obtain hm | hin := ih hp
    · obtain rfl | hm := List.mem_cons.mp hm
      · exact .inr (.tail' hu.reaches (List.mem_of_getElem? hi))
      · exact .inl hm
    · exact .inr hin

/-- The path of a visit is of different collections. -/
theorem Visits.path_nodup (h : w.Visits d path v a path' u)
    (hpath : path.Nodup ∧ ∀ p ∈ path, w.parts p ≠ []) :
    path'.Nodup ∧ ∀ p ∈ path', w.parts p ≠ [] := by
  induction h with
  | here => exact hpath
  | @part path _ v _ _ _ _ ho hi _ ih =>
    have hparts : w.parts v ≠ [] := List.ne_nil_of_mem (List.mem_of_getElem? hi)
    exact ih ⟨List.nodup_cons.mpr ⟨not_mem_of_offence ho hparts, hpath.1⟩,
      List.forall_mem_cons.mpr ⟨hparts, hpath.2⟩⟩

/-! ### What can be wrong -/

omit [DecidableEq ν] in
theorem Deep.mono (h : w.Deep n v) (hle : m ≤ n) : w.Deep m v := by
  induction m generalizing n v with
  | zero =>
    cases n with
    | zero => exact h
    | succ n =>
      obtain ⟨u, hu, -⟩ := h
      exact w.isSome_tooDeep (List.ne_nil_of_mem hu)
  | succ m ih =>
    obtain ⟨n, rfl⟩ := Nat.exists_eq_add_of_le' (Nat.lt_of_lt_of_le m.succ_pos hle)
    obtain ⟨u, hu, hd⟩ := h
    exact ⟨u, hu, ih hd (Nat.le_of_succ_le_succ hle)⟩

/-- A visit that there is no room for is one to a thing so deep. -/
theorem Visits.deep_of_tooDeep (h : w.Visits d [] v a path u) (hd : d ≤ path.length)
    (hu : w.tooDeep u = some e) : w.Deep d v := by
  refine (h.deep (by rw [hu]; rfl)).mono ?_
  rwa [h.length_path] at hd

/-- A walk ends for want of room, at something that is at fault, or at a collection inside itself. -/
theorem Fails.cases (h : w.Fails d [] v e) :
    (∃ u, w.tooDeep u = some e ∧ w.Deep d v) ∨ (∃ u, w.Reaches v u ∧ w.fault u = some e) ∨
    ∃ u, w.Reaches v u ∧ TransGen w.Part u u ∧ w.cyclic u = some e := by
  obtain ⟨a, path, u, hu, ho, -⟩ := h
  obtain ⟨hd, he⟩ | hf | ⟨hm, hc⟩ := offence_cases ho
  · exact .inl ⟨u, he, hu.deep_of_tooDeep hd he⟩
  · exact .inr (.inl ⟨u, hu.reaches, hf⟩)
  · exact .inr (.inr ⟨u, hu.reaches, (hu.mem_path hm).resolve_left (by simp), hc⟩)

/-- Where there is more room than there are collections, there is no want of it. -/
theorem Fails.cases_of_room (h : w.Fails d [] v e) {collections : List ν}
    (hc : ∀ u, w.parts u ≠ [] → u ∈ collections) (hd : collections.length < d) :
    (∃ u, w.fault u = some e) ∨ ∃ u, w.cyclic u = some e := by
  obtain ⟨a, path, u, hu, ho, -⟩ := h
  obtain ⟨hle, -⟩ | hf | ⟨-, hcyclic⟩ := offence_cases ho
  · obtain ⟨hnodup, hparts⟩ := hu.path_nodup ⟨.nil, by simp⟩
    have hlen := (List.subperm_of_subset hnodup fun p hp => hc p (hparts p hp)).length_le
    omega
  · exact .inl ⟨u, hf⟩
  · exact .inr ⟨u, hcyclic⟩

/-! ### Walks without offence -/

/-- A walk without offence visits all that it can reach. -/
theorem Passes.visits (h : w.Passes d path v) (hu : w.Reaches v u) :
    ∃ a path', w.Visits d path v a path' u := by
  induction hu using ReflTransGen.head_induction_on with
  | refl => exact ⟨[], path, .here⟩
  | head hpart _ ih =>
    obtain ⟨a, path', hv⟩ := ih
    obtain ⟨i, hi⟩ := List.getElem?_of_mem hpart
    exact ⟨a ++ [i], _, hv.trans (.part (h _ _ _ hv) hi .here)⟩

/-- A walk without offence visits what a visited thing contains inside this one. -/
theorem Passes.visits_inside (h : w.Passes d path v) (hv : w.Visits d path v a path' u)
    (hin : TransGen w.Part u' u) : ∃ b path'', w.Visits d path v b path'' u' ∧ u ∈ path'' := by
  induction hin using TransGen.head_induction_on with
  | single hpart =>
    obtain ⟨i, hi⟩ := List.getElem?_of_mem hpart
    exact ⟨a ++ [i], _, hv.trans (.part (h _ _ _ hv) hi .here), .head _⟩
  | head hpart _ ih =>
    obtain ⟨b, path'', hv', hm⟩ := ih
    obtain ⟨i, hi⟩ := List.getElem?_of_mem hpart
    exact ⟨b ++ [i], _, hv'.trans (.part (h _ _ _ hv') hi .here), .tail _ hm⟩

theorem Passes.visits_deep (h : w.Passes d path v) (hv : w.Visits d path v a path' u)
    (hn : w.Deep n u) : ∃ b path'' u', w.Visits d path v b path'' u' ∧
      path''.length = n + path'.length ∧ (w.tooDeep u').isSome := by
  induction n generalizing a path' u with
  | zero => exact ⟨a, path', u, hv, (Nat.zero_add _).symm, hn⟩
  | succ n ih =>
    obtain ⟨x, hx, hn⟩ := hn
    obtain ⟨i, hi⟩ := List.getElem?_of_mem hx
    obtain ⟨b, path'', u', hv', hlen, hu'⟩ := ih (hv.trans (.part (h _ _ _ hv) hi .here)) hn
    refine ⟨b, path'', u', hv', ?_, hu'⟩
    rw [hlen, List.length_cons]
    omega

/-- A walk is without offence if nothing that it reaches is at fault or inside itself, and there is
room for all levels. -/
theorem passes_iff : w.Passes d [] v ↔
    (∀ u, w.Reaches v u → w.fault u = none) ∧ (∀ u, w.Reaches v u → ¬ TransGen w.Part u u) ∧
    ¬ w.Deep d v := by
  constructor
  · -- all that can be reached is visited, so that whatever is wrong with it would offend
    refine fun h => ⟨fun u hu => ?_, fun u hu hin => ?_, fun hdeep => ?_⟩
    · obtain ⟨a, path, hv⟩ := h.visits hu
      exact (offence_eq_none.mp (h a path u hv)).2.1
    · obtain ⟨a, path, hv⟩ := h.visits hu
      obtain ⟨b, path', hv', hm⟩ := h.visits_inside hv hin
      obtain ⟨x, -, hx⟩ := TransGen.tail'_iff.mp hin
      exact not_mem_of_offence (h b path' u hv') (List.ne_nil_of_mem hx) hm
    · obtain ⟨b, path, u, hv, hlen, hu⟩ := h.visits_deep .here hdeep
      have hroom := (offence_eq_none.mp (h b path u hv)).1 (by simp [hlen])
      rw [hroom] at hu
      cases hu
  · -- the path of a visit is of things that contain what is visited
    rintro ⟨hfault, hin, hdeep⟩ a path u hv
    rw [Option.eq_none_iff_forall_ne_some]
    intro e he
    obtain ⟨hd, he⟩ | hf | ⟨hm, -⟩ := offence_cases he
    · exact hdeep (hv.deep_of_tooDeep hd he)
    · rw [hfault u hv.reaches] at hf
      cases hf
    · exact hin u hv.reaches ((hv.mem_path hm).resolve_left (by simp))

/-! ### Walks step by step -/

theorem passes_of_parts (h : w.offence d path v = none)
    (hparts : ∀ u ∈ w.parts v, w.Passes d (v :: path) u) : w.Passes d path v := by
  intro a path' u hv
  cases hv with
  | here => exact h
  | part _ hi hu => exact hparts _ (List.mem_of_getElem? hi) _ _ _ hu

theorem fails_of_offence (h : w.offence d path v = some e) : w.Fails d path v e :=
  ⟨[], path, v, .here, h, fun _ _ _ _ _ => trivial⟩

theorem Fails.of_part (h : w.offence d path v = none) (hu : w.parts v = us ++ u :: us')
    (hbefore : ∀ x ∈ us, w.Passes d (v :: path) x) (he : w.Fails d (v :: path) u e) :
    w.Fails d path v e := by
  obtain ⟨a, path', x, hv, ho, hfirst⟩ := he
  refine ⟨us.length :: a, path', x, .part h (by simp [hu]) hv, ho, fun b path'' y hv' ho' => ?_⟩
  cases hv' with
  | here => exact absurd h ho'
  | @part _ _ _ z _ i b _ hi hv' =>
    -- what comes before the part passes, and inside the part the first offence is known
    rw [hu] at hi
    obtain hlt | rfl | hlt := Nat.lt_trichotomy us.length i
    · exact .inl hlt
    · obtain rfl : u = z := by simpa using hi
      exact .inr ⟨rfl, hfirst b path'' y hv' ho'⟩
    · rw [List.getElem?_append_left hlt] at hi
      exact absurd (hbefore z (List.mem_of_getElem? hi) b path'' y hv') ho'

theorem NoLater.antisymm (h : NoLater a b) (h' : NoLater b a) : a = b := by
  induction a generalizing b with
  | nil =>
    cases b with
    | nil => rfl
    | cons => exact h'.elim
  | cons i a ih =>
    cases b with
    | nil => exact h.elim
    | cons j b =>
      obtain hlt | ⟨rfl, h⟩ := h
      · obtain hlt' | ⟨rfl, -⟩ := h' <;> omega
      · rw [ih h (h'.resolve_left (Nat.lt_irrefl i)).2]

theorem Fails.unique (h : w.Fails d path v e) (h' : w.Fails d path v e') : e = e' := by
  obtain ⟨a, path', u, hv, ho, hfirst⟩ := h
  obtain ⟨b, path'', u', hv', ho', hfirst'⟩ := h'
  obtain rfl : a = b :=
    (hfirst _ _ _ hv' (by simp [ho'])).antisymm (hfirst' _ _ _ hv (by simp [ho]))
  obtain ⟨rfl, rfl⟩ := hv.unique hv'
  exact Option.some.inj (ho.symm.trans ho')

theorem Fails.not_passes (h : w.Fails d path v e) : ¬ w.Passes d path v := by
  obtain ⟨a, path', u, hv, ho, -⟩ := h
  intro hp
  rw [hp a path' u hv] at ho
  cases ho

/-! ### Results of walks -/

/-- A result that is as walks through some things one after the other have it: it is there if none of
them fails, and else it is what is wrong with the first one that does. -/
def Decides (w : Walk ν ε) (d : Nat) (path us : List ν) : Except ε α → Prop
  | .ok _ => ∀ u ∈ us, w.Passes d path u
  | .error e => ∃ before u after, us = before ++ u :: after ∧
      (∀ x ∈ before, w.Passes d path x) ∧ w.Fails d path u e

theorem decides_ok (x : α) : w.Decides d path [] (.ok x) := by simp [Decides]

/-- After the first failure nothing more is visited. -/
theorem Decides.append (hx : w.Decides d path us (.error e : Except ε α)) (us' : List ν) :
    w.Decides d path (us ++ us') (.error e : Except ε α) := by
  obtain ⟨before, u, after, hus, hbefore, hfails⟩ := hx
  exact ⟨before, u, after ++ us', by simp [hus], hbefore, hfails⟩

theorem Decides.bind {x : Except ε α} {f : α → Except ε β} (hx : w.Decides d path us x)
    (hf : ∀ y, w.Decides d path us' (f y)) : w.Decides d path (us ++ us') (x >>= f) := by
  match x, hx with
  | .error e, hx => exact hx.append us'
  | .ok y, hpass =>
    have hy := hf y
    simp only [Bind.bind, Except.bind]
    generalize f y = z at hy
    match z, hy with
    | .error e, ⟨before, u, after, hus, hbefore, hfails⟩ =>
      refine ⟨us ++ before, u, after, by simp [hus], ?_, hfails⟩
      exact List.forall_mem_append.mpr ⟨hpass, hbefore⟩
    | .ok _, hpass' => exact List.forall_mem_append.mpr ⟨hpass, hpass'⟩

/-- What passes comes to nothing. -/
theorem Decides.cons {x : Except ε α} (hu : w.Passes d path u) (hx : w.Decides d path us x) :
    w.Decides d path (u :: us) x := by
  have hpass : w.Decides d path [u] (.ok () : Except ε Unit) := List.forall_mem_singleton.mpr hu
  exact hpass.bind fun _ => hx

/-- What is made of a result without a new fault is decided in the same way. -/
theorem Decides.returns {x : Except ε α} (hx : w.Decides d path us x) (f : α → β) :
    w.Decides d path us (x >>= fun y => .ok (f y)) := by
  have h := hx.bind fun y => decides_ok (f y)
  rwa [List.append_nil] at h

theorem decides_mapM {γ : Type} {f : γ → Except ε α} {g : γ → ν}
    (h : ∀ x, w.Decides d path [g x] (f x)) (l : List γ) :
    w.Decides d path (l.map g) (l.mapM f) := by
  induction l with
  | nil => exact decides_ok []
  | cons x l ih =>
    rw [List.mapM_cons]
    exact (h x).bind fun y => ih.returns fun ys => y :: ys

theorem decides_offence (h : w.offence d path v = some e) :
    w.Decides d path [v] (.error e : Except ε α) :=
  ⟨[], v, [], rfl, by simp, fails_of_offence h⟩

theorem Decides.of_parts {x : Except ε α} (h : w.offence d path v = none)
    (hx : w.Decides d (v :: path) (w.parts v) x) : w.Decides d path [v] x := by
  match x, hx with
  | .ok _, hpass => exact List.forall_mem_singleton.mpr (passes_of_parts h hpass)
  | .error e, ⟨before, u, after, hus, hbefore, hfails⟩ =>
    exact ⟨[], v, [], rfl, by simp, .of_part h hus hbefore hfails⟩

theorem Decides.error_iff {x : Except ε α} (h : w.Decides d path [v] x) :
    x = .error e ↔ w.Fails d path v e := by
  match x, h with
  | .ok _, hpass =>
    exact ⟨nofun, fun hf => absurd (List.forall_mem_singleton.mp hpass) hf.not_passes⟩
  | .error e', ⟨before, u, after, hus, _, hfails⟩ =>
    obtain ⟨rfl, rfl, rfl⟩ : before = [] ∧ u = v ∧ after = [] := by
      cases before <;> simp_all
    exact ⟨fun he => Except.error.inj he ▸ hfails, fun hf => by rw [hf.unique hfails]⟩

theorem Decides.ok_iff {x : Except ε α} (h : w.Decides d path [v] x) :
    (∃ y, x = .ok y) ↔ w.Passes d path v := by
  match x, h with
  | .ok y, hpass => exact ⟨fun _ => List.forall_mem_singleton.mp hpass, fun _ => ⟨y, rfl⟩⟩
  | .error e, h' =>
    exact ⟨nofun, fun hp => absurd hp ((error_iff (w := w) (v := v) h').mp rfl).not_passes⟩

/-! ### Results of walks along which a state changes -/

section

variable {γ σ : Type} {p : StateT σ (Except ε) α} {f : α → StateT σ (Except ε) β}

/-- A computation whose result is, from whatever state, as walks through some things have it. -/
def Governs (w : Walk ν ε) (d : Nat) (path us : List ν) (p : StateT σ (Except ε) α) : Prop :=
  ∀ s, w.Decides d path us (p s)

theorem governs_pure (x : α) : w.Governs d path [] (pure x : StateT σ (Except ε) α) :=
  fun s => decides_ok (x, s)

theorem governs_modifyGet (f : σ → α × σ) :
    w.Governs d path [] (modifyGet f : StateT σ (Except ε) α) := fun s => decides_ok (f s)

theorem governs_throw (h : w.offence d path v = some e) :
    w.Governs d path [v] (throw e : StateT σ (Except ε) α) := fun _ => decides_offence h

theorem Governs.bind (hp : w.Governs d path us p) (hf : ∀ x, w.Governs d path us' (f x)) :
    w.Governs d path (us ++ us') (p >>= f) := fun s => (hp s).bind fun x => hf x.1 x.2

theorem Governs.returns (hp : w.Governs d path us p) (hf : ∀ x, w.Governs d path [] (f x)) :
    w.Governs d path us (p >>= f) := by
  have h := hp.bind hf
  rwa [List.append_nil] at h

theorem Governs.append (h : w.Governs d path us (throw e : StateT σ (Except ε) α)) (us' : List ν) :
    w.Governs d path (us ++ us') (throw e : StateT σ (Except ε) α) := fun s => (h s).append us'

theorem Governs.cons (hu : w.Passes d path u) (hp : w.Governs d path us p) :
    w.Governs d path (u :: us) p := fun s => (hp s).cons hu

theorem Governs.of_parts (h : w.offence d path v = none)
    (hp : w.Governs d (v :: path) (w.parts v) p) : w.Governs d path [v] p := fun s =>
  (hp s).of_parts h

theorem governs_mapM {f : γ → StateT σ (Except ε) α} {g : γ → ν}
    (h : ∀ x, w.Governs d path [g x] (f x)) (l : List γ) :
    w.Governs d path (l.map g) (l.mapM f) := by
  induction l with
  | nil => exact governs_pure []
  | cons x l ih =>
    rw [List.mapM_cons]
    exact (h x).bind fun y => ih.returns fun ys => governs_pure (y :: ys)

theorem governs_foldlM {f : α → γ → StateT σ (Except ε) α} {g : γ → List ν}
    (h : ∀ y x, w.Governs d path (g x) (f y x)) (l : List γ) (y : α) :
    w.Governs d path (l.flatMap g) (l.foldlM f y) := by
  induction l generalizing y with
  | nil => exact governs_pure y
  | cons x l ih =>
    rw [List.foldlM_cons, List.flatMap_cons]
    exact (h y x).bind ih

end

end Walk

end Scriptlet
