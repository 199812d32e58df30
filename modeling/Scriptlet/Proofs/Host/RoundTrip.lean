import Scriptlet.Embed
import Scriptlet.Proofs.Value.Lookup
import Scriptlet.Proofs.Value.Unfolding

/-!
Data crosses the border to the host and back. Host data comes out of a program as it went in, but for
tuples, which come out as lists, and for numbers with a fraction, which are cut to integers; and
values that go out come in again with the structure that they had. The one thing that can be in the
way is nesting deeper than there is room for.
-/

namespace Scriptlet

open Number

variable {α β : Type} {s t : Store} {v w : Value} {h : Host} {d : Nat} {path : List Value}

namespace Host

/-- The levels of some host data. -/
def height : Host → Nat
  | list items | tuple items => (items.map height).foldr max 0 + 1
  | map entries => (entries.map fun e => e.2.height).foldr max 0 + 1
  | _ => 1
decreasing_by
  · exact sizeOf_lt_list ‹_›
  · exact sizeOf_lt_tuple ‹_›
  · exact sizeOf_lt_map ‹_›

/-- Host data as it comes back: lists for tuples, and integers for numbers with a fraction. -/
def normal : Host → Host
  | list items | tuple items => list (items.map normal)
  | map entries => map (entries.map fun e => (e.1, e.2.normal))
  | real x => (x.truncate?.map int).getD (real x)
  | v => v
decreasing_by
  · exact sizeOf_lt_list ‹_›
  · exact sizeOf_lt_tuple ‹_›
  · exact sizeOf_lt_map ‹_›

/-- Host data that can become a value: words for integers, also for those that numbers are cut to, and
texts of different hashes for the keys of a map. -/
inductive Convertible : Host → Prop where
  | null : Convertible .null
  | bool (b : Bool) : Convertible (.bool b)
  | int {n : Int} (h : InWord n) : Convertible (.int n)
  | real {x : Binary64} {n : Int} (hx : x.truncate? = some n) (h : InWord n) : Convertible (.real x)
  | text (t : String) : Convertible (.text t)
  | list {items : List Host} (h : ∀ v ∈ items, Convertible v) : Convertible (.list items)
  | tuple {items : List Host} (h : ∀ v ∈ items, Convertible v) : Convertible (.tuple items)
  | map {l : List (String × Host)} (hk : (l.map fun e => Text.hash e.1).Nodup)
    (h : ∀ e ∈ l, Convertible e.2) : Convertible (.map (l.map fun e => (.text e.1, e.2)))

/-! ### Levels -/

theorem foldr_max_le {l : List Nat} : l.foldr max 0 ≤ d ↔ ∀ n ∈ l, n ≤ d := by
  induction l with
  | nil => simp
  | cons n l ih => rw [List.foldr_cons, max_le_iff, ih, List.forall_mem_cons]

theorem height_list {items : List Host} :
    (list items).height ≤ d + 1 ↔ ∀ v ∈ items, v.height ≤ d := by
  rw [height, Nat.add_le_add_iff_right, foldr_max_le, List.forall_mem_map]

theorem height_tuple {items : List Host} :
    (tuple items).height ≤ d + 1 ↔ ∀ v ∈ items, v.height ≤ d := by
  rw [height, Nat.add_le_add_iff_right, foldr_max_le, List.forall_mem_map]

theorem height_map {entries : List (HostKey × Host)} :
    (map entries).height ≤ d + 1 ↔ ∀ e ∈ entries, e.2.height ≤ d := by
  rw [height, Nat.add_le_add_iff_right, foldr_max_le, List.forall_mem_map]

theorem height_pos (h : Host) : 0 < h.height := by
  cases h <;> simp [height]

theorem height_normal (h : Host) : h.normal.height = h.height := by
  induction h using normal.induct with
  | case1 items ih | case2 items ih | case3 items ih =>
    rw [normal, height, height, List.map_map]
    exact congrArg (fun l => l.foldr max 0 + 1) (List.map_congr_left ih)
  | case4 x => cases hx : x.truncate? <;> simp [normal, height, hx]
  | case5 v => simp [normal]

/-! ### What goes in -/

/-- A conversion that has a result as described, or else there is no room for the data. -/
def Enters (P : α → Store → Prop) (Q : Prop) : Except ConversionFault (α × Store) → Prop
  | .ok (a, t) => P a t
  | .error e => e = .tooDeep ∧ Q

section

variable {P : α → Store → Prop} {P' : β → Store → Prop} {Q Q' : Prop} {p : Importing α}
  {f : α → Importing β}

theorem Enters.bind (hp : Enters P Q (p s)) (hf : ∀ a t, P a t → Enters P' Q' (f a t))
    (hQ : Q → Q') : Enters P' Q' ((p >>= f) s) := by
  simp only [Bind.bind, StateT.bind, Except.bind]
  generalize p s = x at hp
  match x, hp with
  | .error _, ⟨he, hq⟩ => exact ⟨he, hQ hq⟩
  | .ok (a, t), h => exact hf a t h

theorem Enters.mono {P' : α → Store → Prop} {x : Except ConversionFault (α × Store)}
    (h : Enters P Q x) (hP : ∀ a t, P a t → P' a t) (hQ : Q → Q') : Enters P' Q' x :=
  match x, h with
  | .error _, ⟨he, hq⟩ => ⟨he, hQ hq⟩
  | .ok (a, t), h => hP a t h

theorem enters_pure {a : α} (h : P a s) : Enters P Q ((pure a : Importing α) s) := h

end

/-- What is left of some host data when it has gone into a store: a value that stands for it. -/
def Entered (h : Host) (s : Store) (w : Value) (t : Store) : Prop :=
  s.Within t ∧ t.Represents w h.normal

/-- The items of a list go in one after the other. -/
theorem enters_items {g : Host → Importing Value} {items : List Host}
    (hg : ∀ h ∈ items, ∀ s, Enters (fun w t => h.height ≤ d ∧ h.Entered s w t) (d < h.height) (g h s))
    (s : Store) :
    Enters (fun ws t => (∀ v ∈ items, v.height ≤ d) ∧ s.Within t ∧ ∃ es : List (Value × Host),
        ws = es.map (·.1) ∧ items.map normal = es.map (·.2) ∧ ∀ e ∈ es, t.Represents e.1 e.2)
      (∃ v ∈ items, d < v.height) (items.mapM g s) := by
  induction items generalizing s with
  | nil => exact enters_pure ⟨by simp, .refl s, [], rfl, rfl, by simp⟩
  | cons v items ih =>
    obtain ⟨hv, hitems⟩ := List.forall_mem_cons.mp hg
    rw [List.mapM_cons]
    refine (hv s).bind (fun w t ⟨hd, hst, hw⟩ => ?_) fun hd => ⟨v, .head _, hd⟩
    refine (ih hitems t).bind (fun ws u ⟨hds, htu, es, hws, hes, hrep⟩ => ?_)
      fun ⟨v', hm, hd⟩ => ⟨v', .tail _ hm, hd⟩
    refine enters_pure ⟨List.forall_mem_cons.mpr ⟨hd, hds⟩, hst.trans htu, (w, v.normal) :: es, ?_, ?_,
      List.forall_mem_cons.mpr ⟨hw.within htu, hrep⟩⟩
    · rw [hws, List.map_cons]
    · rw [List.map_cons, List.map_cons, hes]

/-- The entries of a map are put into a hashmap one after the other. -/
theorem enters_entries {g : Host → Importing Value} {items : List (String × Host)}
    (hg : ∀ e ∈ items, ∀ s,
      Enters (fun w t => e.2.height ≤ d ∧ e.2.Entered s w t) (d < e.2.height) (g e.2 s))
    (m : Hashmap) (s : Store) :
    Enters (fun n t => (∀ e ∈ items, e.2.height ≤ d) ∧ s.Within t ∧ ∃ es : List (Entry × Host),
        n = m.putAll (es.map (·.1)) ∧
        items.map (fun e => (Key.string e.1, e.2.normal)) = es.map (fun e => (e.1.key, e.2)) ∧
        ∀ e ∈ es, t.Represents e.1.value e.2)
      (∃ e ∈ items, d < e.2.height)
      ((items.foldlM (fun m e => do return m.put (.string e.1) (← g e.2)) m : Importing Hashmap) s) := by
  induction items generalizing s m with
  | nil => exact enters_pure ⟨by simp, .refl s, [], rfl, rfl, by simp⟩
  | cons e items ih =>
    obtain ⟨he, hitems⟩ := List.forall_mem_cons.mp hg
    rw [List.foldlM_cons]
    refine Enters.bind (P := fun n t => e.2.height ≤ d ∧ ∃ w, n = m.put (.string e.1) w ∧
        e.2.Entered s w t) (Q := d < e.2.height) ?_ (fun n t ⟨hd, w, hn, hst, hw⟩ => ?_)
      fun hd => ⟨e, .head _, hd⟩
    · exact (he s).bind (fun w t ⟨hd, hw⟩ => enters_pure ⟨hd, w, rfl, hw⟩) id
    · subst hn
      have htail := ih hitems (m.put (.string e.1) w) t
      refine htail.mono (fun n u ⟨hds, htu, es, hn, hes, hrep⟩ => ?_)
        fun ⟨e', hm, hd⟩ => ⟨e', .tail _ hm, hd⟩
      refine ⟨List.forall_mem_cons.mpr ⟨hd, hds⟩, hst.trans htu, (⟨.string e.1, w⟩, e.2.normal) :: es,
        hn, ?_, List.forall_mem_cons.mpr ⟨hw.within htu, hrep⟩⟩
      rw [List.map_cons, List.map_cons, hes]

theorem represents_newArray {es : List (Value × Host)} (h : ∀ e ∈ es, t.Represents e.1 e.2) :
    (t.newArray (es.map (·.1)).toArray).2.Represents (t.newArray (es.map (·.1)).toArray).1
      (list (es.map (·.2))) := by
  refine .list (by simp [Store.newArray]) ?_ fun e he => (h e he).within (Store.within_newArray _)
  rw [Store.elements_newArray, if_pos rfl]

theorem represents_newHashmap {es : List (Entry × Host)}
    (hk : ((es.map (·.1)).map (·.key.hashKey)).Nodup) (ht : ∀ e ∈ es, ∃ x, e.1.key = .string x)
    (h : ∀ e ∈ es, t.Represents e.1.value e.2) :
    (t.newHashmap (.ofPuts (es.map (·.1)))).2.Represents (t.newHashmap (.ofPuts (es.map (·.1)))).1
      (map (es.map fun e => (.text e.1.key.text, e.2))) := by
  have hm : (t.newHashmap (.ofPuts (es.map (·.1)))).2.hashmap t.hashmaps.size =
      .ofPuts (es.map (·.1)) := by rw [Store.hashmap_newHashmap, if_pos rfl]
  refine .map (by simp [Store.newHashmap]) ?_ ?_ ht fun e he =>
    (h e he).within (Store.within_newHashmap _)
  · rw [hm, Hashmap.entries_ofPuts_of_nodup hk]
  · rw [hm]
    exact Hashmap.keyed_ofPuts _

theorem nodup_hashKey {items : List (String × Host)}
    (hk : (items.map fun e => Text.hash e.1).Nodup) :
    (items.map fun e => (Key.string e.1).hashKey).Nodup := by
  have hmap : (items.map fun e => (Key.string e.1).hashKey) =
      (items.map fun e => Text.hash e.1).map (HashKey.mk .string) := by
    rw [List.map_map]
    rfl
  exact hmap ▸ hk.map fun _ _ h => (HashKey.mk.inj h).2

/-- A list or a tuple goes in with its items. -/
theorem enters_list {g : Host → Importing Value} {items : List Host}
    (hg : ∀ h ∈ items, ∀ s, Enters (fun w t => h.height ≤ d ∧ h.Entered s w t) (d < h.height) (g h s))
    (s : Store) :
    Enters (fun w t => (∀ v ∈ items, v.height ≤ d) ∧ s.Within t ∧
        t.Represents w (list (items.map normal)))
      (∃ v ∈ items, d < v.height)
      ((items.mapM g >>= fun vs => modifyGet (·.newArray vs.toArray) : Importing Value) s) := by
  refine (enters_items hg s).bind (fun ws t ⟨hd, hst, es, hws, hes, hrep⟩ => ?_) id
  subst hws
  exact ⟨hd, hst.trans (Store.within_newArray _), hes ▸ represents_newArray hrep⟩

/-- A map goes in with its values. -/
theorem enters_map {g : Host → Importing Value} {items : List (String × Host)}
    (hg : ∀ e ∈ items, ∀ s,
      Enters (fun w t => e.2.height ≤ d ∧ e.2.Entered s w t) (d < e.2.height) (g e.2 s))
    (hk : (items.map fun e => Text.hash e.1).Nodup) (s : Store) :
    Enters (fun w t => (∀ e ∈ items, e.2.height ≤ d) ∧ s.Within t ∧
        t.Represents w (map (items.map fun e => (.text e.1, e.2.normal))))
      (∃ e ∈ items, d < e.2.height)
      ((items.foldlM (fun m e => do return m.put (.string e.1) (← g e.2)) {} >>= fun m =>
        modifyGet (·.newHashmap m) : Importing Value) s) := by
  refine (enters_entries hg {} s).bind (fun m t ⟨hd, hst, es, hm, hes, hrep⟩ => ?_) id
  subst hm
  have hkeys : (es.map (·.1)).map (·.key.hashKey) = items.map fun e => (Key.string e.1).hashKey := by
    have := congrArg (List.map fun x => x.1.hashKey) hes
    simpa [Function.comp_def] using this.symm
  have htext : ∀ e ∈ es, ∃ x, e.1.key = .string x := fun e he => by
    have hmem : (e.1.key, e.2) ∈ items.map fun e => (Key.string e.1, e.2.normal) :=
      hes ▸ List.mem_map_of_mem he
    obtain ⟨e', -, he'⟩ := List.mem_map.mp hmem
    exact ⟨e'.1, (congrArg Prod.fst he').symm⟩
  have hmap : (items.map fun e => (HostKey.text e.1, e.2.normal)) =
      es.map fun e => (.text e.1.key.text, e.2) := by
    have := congrArg (List.map fun x => (HostKey.text x.1.text, x.2)) hes
    simpa [Function.comp_def, Key.text] using this
  exact ⟨hd, hst.trans (Store.within_newHashmap _),
    hmap ▸ represents_newHashmap (hkeys ▸ nodup_hashKey hk) htext hrep⟩

/-- Host data goes in with its parts, which have a level less. -/
theorem Enters.of_parts {ι : Type} {parts : List ι} {level : ι → Nat}
    {x : Except ConversionFault (Value × Store)}
    (hx : Enters (fun w t => (∀ i ∈ parts, level i ≤ d) ∧ s.Within t ∧ t.Represents w h.normal)
      (∃ i ∈ parts, d < level i) x)
    (hh : h.height ≤ d + 1 ↔ ∀ i ∈ parts, level i ≤ d) :
    Enters (fun w t => h.height ≤ d + 1 ∧ h.Entered s w t) (d + 1 < h.height) x := by
  refine hx.mono (fun w t ⟨hd, hw⟩ => ⟨hh.mpr hd, hw⟩) fun ⟨i, hi, hd⟩ => ?_
  exact Nat.lt_of_not_le fun hle => Nat.not_lt_of_le (hh.mp hle i hi) hd

/-- Host data of levels for which there is room goes in, other data does not. -/
theorem Convertible.enters (hh : h.Convertible) (d : Nat) (path : List String) (s : Store) :
    Enters (fun w t => h.height ≤ d ∧ h.Entered s w t) (d < h.height) (h.importIn d path s) := by
  induction d generalizing h path s with
  | zero => exact ⟨rfl, h.height_pos⟩
  | succ d ih =>
    have hscalar {w : Value} (hh : h.height = 1) (hw : s.Represents w h.normal) :
        h.height ≤ d + 1 ∧ h.Entered s w s := ⟨by omega, .refl s, hw⟩
    cases hh with
    | null => exact enters_pure (hscalar (by simp [height]) (by simpa [normal] using .null))
    | bool b => exact enters_pure (hscalar (by simp [height]) (by simpa [normal] using .bool b))
    | text x =>
      exact enters_pure (hscalar (by simp [height]) (by simpa [normal] using .text x none))
    | int hn =>
      rw [importIn, importInt, if_pos hn]
      exact enters_pure (hscalar (by simp [height]) (by simpa [normal] using .int hn none))
    | real hx hn =>
      simp only [importIn, hx, importInt, if_pos hn]
      exact enters_pure (hscalar (by simp [height]) (by simpa [normal, hx] using .int hn none))
    | list hitems =>
      refine Enters.of_parts ?_ height_list
      rw [normal]
      exact enters_list (fun v hv s => ih (hitems v hv) _ s) s
    | tuple hitems =>
      refine Enters.of_parts ?_ height_tuple
      rw [normal]
      exact enters_list (fun v hv s => ih (hitems v hv) _ s) s
    | @map items hk hitems =>
      refine Enters.of_parts ?_ (height_map.trans List.forall_mem_map)
      rw [importIn, List.foldlM_map, normal, List.map_map]
      exact enters_map (fun e he s => ih (hitems e he) _ s) hk s

/-! ### What comes out -/

theorem setEntry_of_new {key : String} {v : Host} {done : List (HostKey × Host)}
    (h : .text key ∉ done.map (·.1)) : setEntry key v done = done ++ [(.text key, v)] := by
  induction done with
  | nil => rfl
  | cons e done ih =>
    obtain ⟨k, w⟩ := e
    simp only [List.map_cons, List.mem_cons, not_or] at h
    rw [setEntry, if_neg (Ne.symm h.1), ih h.2, List.cons_append]

/-- Entries of different texts are the map that is made of them. -/
theorem ofEntries_of_nodup {entries : List (HostKey × Host)} (ht : ∀ e ∈ entries, ∃ x, e.1 = .text x)
    (h : (entries.map (·.1)).Nodup) : ofEntries entries = map entries := by
  refine congrArg map ?_
  induction entries using List.reverseRecOn with
  | nil => rfl
  | append_singleton entries e ih =>
    obtain ⟨k, v⟩ := e
    obtain ⟨x, rfl⟩ := ht (k, v) List.mem_concat_self
    rw [List.map_append, List.nodup_append] at h
    have hnew : .text x ∉ entries.map (·.1) := fun hm =>
      h.2.2 _ hm _ (List.mem_singleton.mpr rfl) rfl
    rw [List.foldl_append, ih (fun e he => ht e (List.mem_append_left _ he)) h.1]
    exact setEntry_of_new hnew

end Host

/-- Keys of different hashes are texts of different hashes, where all keys are texts. -/
theorem nodup_hash {es : List (Entry × Host)} (ht : ∀ e ∈ es, ∃ x, e.1.key = .string x)
    (hk : ((es.map (·.1)).map (·.key.hashKey)).Nodup) :
    ((es.map fun e => e.1.key.text).map Text.hash).Nodup := by
  refine List.Nodup.of_map (HashKey.mk .string) ?_
  convert hk using 1
  rw [List.map_map, List.map_map, List.map_map]
  refine List.map_congr_left fun e he => ?_
  obtain ⟨x, hx⟩ := ht e he
  simp [hx, Key.text, Key.hashKey]

theorem nodup_texts {es : List (Entry × Host)} (ht : ∀ e ∈ es, ∃ x, e.1.key = .string x)
    (hk : ((es.map (·.1)).map (·.key.hashKey)).Nodup) :
    ((es.map fun e => (HostKey.text e.1.key.text, e.2)).map (·.1)).Nodup := by
  have htexts : (es.map fun e => (HostKey.text e.1.key.text, e.2)).map (·.1) =
      (es.map fun e => e.1.key.text).map HostKey.text := by
    rw [List.map_map, List.map_map]
    rfl
  exact htexts ▸ (List.Nodup.of_map _ (nodup_hash ht hk)).map fun _ _ => HostKey.text.inj

namespace Store

/-- What a value stands for comes out, if there is room for its levels. -/
theorem Represents.exportIn_eq (hv : s.Represents v h)
    (hpath : ∀ u ∈ path, ∃ g, s.Represents u g ∧ sizeOf h < sizeOf g) :
    s.exportIn d path v = if h.height ≤ d then .ok h else .error .tooDeep := by
  induction d generalizing v h path with
  | zero => rw [if_neg (Nat.not_le_of_lt h.height_pos), Store.exportIn]
  | succ d ih =>
    -- a value that contains itself would stand for data larger than itself
    have hnew : path.contains v = false := by
      rw [List.contains_eq_mem, decide_eq_false_iff_not]
      intro hm
      obtain ⟨g, hg, hlt⟩ := hpath v hm
      exact Nat.lt_irrefl _ (hv.unique hg ▸ hlt)
    have hinner {g : Host} (hlt : sizeOf g < sizeOf h) :
        ∀ u ∈ v :: path, ∃ g', s.Represents u g' ∧ sizeOf g < sizeOf g' :=
      List.forall_mem_cons.mpr ⟨⟨h, hv, hlt⟩, fun u hu =>
        (hpath u hu).imp fun g' hg' => ⟨hg'.1, Nat.lt_trans hlt hg'.2⟩⟩
    cases hv with
    | null | bool | int | text => simp [Store.exportIn, Host.height]
    | @list place es hp he hes =>
      have hitems : (es.map (·.1)).mapM (s.exportIn d (.array place :: path)) =
          if ∀ e ∈ es, e.2.height ≤ d then .ok (es.map (·.2)) else .error .tooDeep :=
        mapM_map_eq_ite (m := Except ExportFault) (fun _ => .error .tooDeep) (fun _ => rfl)
          fun e hm => ih (hes e hm) (hinner (Host.sizeOf_lt_list (List.mem_map_of_mem hm)))
      rw [Store.exportIn, if_neg (by simp only [hnew]; decide), he, hitems,
        if_congr (Host.height_list.trans List.forall_mem_map) rfl rfl]
      split <;> rfl
    | @map place es hp he hk ht hes =>
      have hentries : (es.map (·.1)).mapM (fun e => do
            return (HostKey.text e.key.text, ← s.exportIn d (.hashmap place :: path) e.value)) =
          if ∀ e ∈ es, e.2.height ≤ d then .ok (es.map fun e => (.text e.1.key.text, e.2))
          else .error .tooDeep := by
        refine mapM_map_eq_ite (m := Except ExportFault) (fun _ => .error .tooDeep) (fun _ => rfl)
          fun e hm => ?_
        have hlt := Host.sizeOf_lt_map
          (List.mem_map_of_mem (f := fun e : Entry × Host => (HostKey.text e.1.key.text, e.2)) hm)
        rw [ih (hes e hm) (hinner hlt)]
        split <;> rfl
      rw [Store.exportIn, if_neg (by simp only [hnew]; decide), he, hentries,
        if_congr (Host.height_map.trans List.forall_mem_map) rfl rfl]
      split
      · refine congrArg Except.ok (Host.ofEntries_of_nodup ?_ (nodup_texts ht (he ▸ hk)))
        exact List.forall_mem_map.mpr fun e _ => ⟨_, rfl⟩
      · rfl

theorem Represents.toHost_eq (hv : s.Represents v h) (d : Nat) :
    s.toHost d v = if h.height ≤ d then .ok h else .error .tooDeep :=
  hv.exportIn_eq (by simp)

/-- What a value stands for can go in again, and is not changed by it. -/
theorem Represents.convertible (hv : s.Represents v h) : h.Convertible ∧ h.normal = h := by
  induction hv with
  | null => exact ⟨.null, by rw [Host.normal] <;> simp⟩
  | bool b => exact ⟨.bool b, by rw [Host.normal] <;> simp⟩
  | int hn => exact ⟨.int hn, by rw [Host.normal] <;> simp⟩
  | text x => exact ⟨.text x, by rw [Host.normal] <;> simp⟩
  | @list _ es _ _ _ ih =>
    refine ⟨.list (List.forall_mem_map.mpr fun e he => (ih e he).1), ?_⟩
    rw [Host.normal, List.map_map]
    exact congrArg Host.list (List.map_congr_left fun e he => (ih e he).2)
  | @map _ es _ he hk ht _ ih =>
    have hitems : es.map (fun e => (HostKey.text e.1.key.text, e.2)) =
        (es.map fun e => (e.1.key.text, e.2)).map fun e => (HostKey.text e.1, e.2) := by
      rw [List.map_map]
      rfl
    refine ⟨hitems ▸ .map ?_ (List.forall_mem_map.mpr fun e he => (ih e he).1), ?_⟩
    · have hnodup := nodup_hash ht (he ▸ hk)
      rwa [List.map_map] at hnodup ⊢
    · rw [Host.normal, List.map_map]
      exact congrArg Host.map (List.map_congr_left fun e hm => by simp [(ih e hm).2])

end Store

/-- Host data that can become a value becomes one that stands for it, if there is room. -/
theorem Host.Convertible.toValue_cases (hh : h.Convertible) (d : Nat) (s : Store) :
    (d < h.height → h.toValue d s = .error .tooDeep) ∧
    (h.height ≤ d → ∃ v t, h.toValue d s = .ok (v, t) ∧ t.Represents v h.normal) := by
  have hr := hh.enters d [] s
  rw [← Host.toValue] at hr
  generalize h.toValue d s = r at hr ⊢
  match r, hr with
  | .error e, ⟨he, hd⟩ => exact ⟨fun _ => he ▸ rfl, fun hle => absurd hle (Nat.not_le_of_lt hd)⟩
  | .ok (v, t), ⟨hle, _, hv⟩ =>
    exact ⟨fun hd => absurd hle (Nat.not_le_of_lt hd), fun _ => ⟨v, t, rfl, hv⟩⟩

/-- A store where the array at place one has the array at place zero twice. -/
def sharedArray : Store := { arrays := #[#[.ofInt 7], #[.array 0, .array 0]] }

theorem convertible_sharedArray : sharedArray.Convertible (.array 1) := by
  have hinner : sharedArray.Represents (.array 0) (.list [.int 7]) :=
    .list (l := [(.ofInt 7, .int 7)]) (by decide) rfl
      (by simpa using .int (by decide) none)
  exact Store.convertible_iff.mpr ⟨_, .list (l := [(.array 0, .list [.int 7]),
    (.array 0, .list [.int 7])]) (by decide) rfl (by simpa using hinner)⟩

/-- Nothing inside so many lists. -/
def Host.nested : Nat → Host
  | 0 => null
  | n + 1 => list [nested n]

theorem Host.convertible_nested (n : Nat) : (nested n).Convertible := by
  induction n with
  | zero => exact .null
  | succ n ih => exact .list (by simpa using ih)

theorem Host.height_nested (n : Nat) : (nested n).height = n + 1 := by
  induction n with
  | zero => simp [nested, height]
  | succ n ih => simp [nested, height, ih]

end Scriptlet
