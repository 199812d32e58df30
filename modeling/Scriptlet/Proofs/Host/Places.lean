import Scriptlet.Embed
import Scriptlet.Proofs.Host.Imported
import Scriptlet.Proofs.Value.Twins

/-!
Places do not matter at the border to the host. Host data becomes the same in every store, behind
what is there, and twins become the same host data.
-/

namespace Scriptlet

variable {α β γ δ : Type} {s t u : Store} {v w : Value} {vs ws : List Value} {m : Hashmap}
  {P : Pairing} {depth k : Nat} {x : Importing α} {y : Importing β}

/-- A value at places that are counted from behind those of a store. -/
def Value.behind (s : Store) : Value → Value
  | array place => array (s.arrays.size + place)
  | hashmap place => hashmap (s.hashmaps.size + place)
  | returned v mark => returned (v.behind s) mark
  | v => v

def Entry.behind (s : Store) (e : Entry) : Entry := { e with value := e.value.behind s }

def Hashmap.behind (s : Store) (m : Hashmap) : Hashmap := ⟨m.entries.map (Entry.behind s)⟩

theorem Hashmap.behind_put (s : Store) (m : Hashmap) (k : Key) (v : Value) :
    (m.put k v).behind s = (m.behind s).put k (v.behind s) := by
  have hl (l : List Entry) : (putIn ⟨k, v⟩ l).map (Entry.behind s) =
      putIn ⟨k, v.behind s⟩ (l.map (Entry.behind s)) := by
    induction l with
    | nil => rfl
    | cons e l ih =>
      have hk : (e.behind s).key = e.key := rfl
      simp only [List.map_cons, putIn, hk]
      split
      · rfl
      · rw [List.map_cons, ih]
  simp only [behind, put, hl]

namespace Store

/-- A store with the arrays and hashmaps of another one behind its own. -/
def followedBy (s t : Store) : Store :=
  { s with
    arrays := s.arrays ++ t.arrays.map (·.map (Value.behind s))
    hashmaps := s.hashmaps ++ t.hashmaps.map (Hashmap.behind s) }

theorem followedBy_empty (s : Store) : s.followedBy {} = s := by
  simp [followedBy]

theorem size_arrays_followedBy : (s.followedBy t).arrays.size = s.arrays.size + t.arrays.size := by
  simp [followedBy]

theorem size_hashmaps_followedBy :
    (s.followedBy t).hashmaps.size = s.hashmaps.size + t.hashmaps.size := by
  simp [followedBy]

theorem elements_followedBy_of_lt (hk : k < s.arrays.size) :
    (s.followedBy t).elements k = s.elements k := by
  simp [followedBy, elements, Array.getElem?_append_left hk]

theorem elements_followedBy :
    (s.followedBy t).elements (s.arrays.size + k) = (t.elements k).map (Value.behind s) := by
  simp only [followedBy, elements, Array.getElem?_append_right (Nat.le_add_right _ _),
    Nat.add_sub_cancel_left, Array.getElem?_map]
  cases t.arrays[k]? <;> simp

theorem hashmap_followedBy_of_lt (hk : k < s.hashmaps.size) :
    (s.followedBy t).hashmap k = s.hashmap k := by
  simp [followedBy, hashmap, Array.getElem?_append_left hk]

theorem hashmap_followedBy :
    (s.followedBy t).hashmap (s.hashmaps.size + k) = (t.hashmap k).behind s := by
  simp only [followedBy, hashmap, Array.getElem?_append_right (Nat.le_add_right _ _),
    Nat.add_sub_cancel_left, Array.getElem?_map]
  cases t.hashmaps[k]? <;> rfl

theorem newArray_followedBy (s t : Store) (vs : List Value) :
    (s.followedBy t).newArray (vs.map (Value.behind s)).toArray =
      Prod.map (Value.behind s) s.followedBy (t.newArray vs.toArray) := by
  simp [newArray, followedBy, Value.behind]

theorem newHashmap_followedBy (s t : Store) (m : Hashmap) :
    (s.followedBy t).newHashmap (m.behind s) =
      Prod.map (Value.behind s) s.followedBy (t.newHashmap m) := by
  simp [newHashmap, followedBy, Value.behind]

end Store

/-! ### What goes in -/

/-- Behind a store the second conversion does what the first one does, with places counted from
there in its result. -/
def Local (s : Store) (f : α → β) (x : Importing α) (y : Importing β) : Prop :=
  ∀ t : Store, y (s.followedBy t) = (x t).map (Prod.map f s.followedBy)

theorem Local.bind {f : α → β} {g : γ → δ} {k : α → Importing γ} {l : β → Importing δ}
    (hx : Local s f x y) (hk : ∀ a, Local s g (k a) (l (f a))) :
    Local s g (x >>= k) (y >>= l) := by
  intro t
  have hx := hx t
  simp only [Bind.bind, StateT.bind, hx]
  cases x t with
  | error e => rfl
  | ok r => exact hk r.1 r.2

theorem local_pure (s : Store) (f : α → β) (a : α) : Local s f (pure a) (pure (f a)) :=
  fun _ => rfl

theorem local_throw (s : Store) (f : α → β) (e : ConversionFault) :
    Local s f (throw e) (throw e) := fun _ => rfl

theorem local_mapM {g : Host → Importing Value}
    (hg : ∀ h, Local s (Value.behind s) (g h) (g h)) (items : List Host) :
    Local s (List.map (Value.behind s)) (items.mapM g) (items.mapM g) := by
  induction items with
  | nil => exact local_pure s _ []
  | cons h items ih =>
    rw [List.mapM_cons]
    exact (hg h).bind fun v => ih.bind fun vs => local_pure s _ (v :: vs)

theorem local_foldlM {g : Hashmap → HostKey × Host → Importing Hashmap}
    (hg : ∀ m e, Local s (Hashmap.behind s) (g m e) (g (m.behind s) e))
    (entries : List (HostKey × Host)) (m : Hashmap) :
    Local s (Hashmap.behind s) (entries.foldlM g m) (entries.foldlM g (m.behind s)) := by
  induction entries generalizing m with
  | nil => exact local_pure s _ m
  | cons e entries ih =>
    rw [List.foldlM_cons, List.foldlM_cons]
    exact (hg m e).bind ih

theorem local_importInt (s : Store) (n : Int) :
    Local s (Value.behind s) (Host.importInt n) (Host.importInt n) := by
  unfold Host.importInt
  split
  · exact local_pure s _ (Value.ofInt n)
  · split <;> exact local_throw s _ _

/-- Behind a store host data becomes what it becomes without it. -/
theorem local_importIn (s : Store) (depth : Nat) (path : List String) (h : Host) :
    Local s (Value.behind s) (Host.importIn depth path h) (Host.importIn depth path h) := by
  induction depth generalizing path h with
  | zero => exact local_throw s _ _
  | succ d ih =>
    have hitems (path : List String) (items : List Host) : Local s (Value.behind s)
        (items.mapM (Host.importIn d path) >>= fun vs => modifyGet (·.newArray vs.toArray))
        (items.mapM (Host.importIn d path) >>= fun vs => modifyGet (·.newArray vs.toArray)) :=
      (local_mapM (ih path) items).bind fun vs t =>
        congrArg Except.ok (Store.newArray_followedBy s t vs)
    cases h with
    | null => exact local_pure s _ Value.null
    | bool b => exact local_pure s _ (Value.bool b)
    | int n => exact local_importInt s n
    | real x =>
      simp only [Host.importIn]
      cases x.truncate? with
      | some n => exact local_importInt s n
      | none => exact local_throw s _ _
    | text t => exact local_pure s _ (Value.ofString t)
    | list items => exact hitems _ items
    | tuple items => exact hitems _ items
    | map entries =>
      refine (local_foldlM (fun m e => ?_) entries {}).bind fun m t =>
        congrArg Except.ok (Store.newHashmap_followedBy s t m)
      obtain ⟨key, v⟩ := e
      cases key with
      | text name =>
        refine (ih _ v).bind fun w => ?_
        rw [← Hashmap.behind_put]
        exact local_pure s _ (m.put (.string name) w)
      | other typeName => exact local_throw s _ _
    | foreign typeName => exact local_throw s _ _
    | up levels => exact local_throw s _ _

/-- In any store host data becomes what it becomes in an empty one, behind what is there. -/
theorem Host.toValue_eq (depth : Nat) (h : Host) (s : Store) :
    h.toValue depth s = (h.toValue depth {}).map (Prod.map (Value.behind s) s.followedBy) := by
  have hl := local_importIn s depth [] h {}
  rwa [Store.followedBy_empty] at hl

/-- The places of a conversion in an empty store, counted from behind one store and from behind
another one. -/
def Pairing.along (t s u : Store) : Pairing where
  array p q := ∃ k < t.arrays.size, p = s.arrays.size + k ∧ q = u.arrays.size + k
  hashmap p q := ∃ k < t.hashmaps.size, p = s.hashmaps.size + k ∧ q = u.hashmaps.size + k

theorem Store.IsData.twins_behind (h : t.IsData v) (s u : Store) :
    Twins (.along t s u) (v.behind s) (v.behind u) := by
  cases v with
  | array place => exact .array ⟨place, h, rfl, rfl⟩
  | hashmap place => exact .hashmap ⟨place, h, rfl, rfl⟩
  | error => exact h.elim
  | returned => exact h.elim
  | _ => constructor

theorem twins_behind_elements (h : t.WellFormed) (s u : Store) (k : Nat) :
    List.Forall₂ (Twins (.along t s u)) ((t.elements k).map (Value.behind s)).toList
      ((t.elements k).map (Value.behind u)).toList := by
  rw [Array.toList_map, Array.toList_map, List.forall₂_map_left_iff, List.forall₂_map_right_iff,
    List.forall₂_same]
  intro v hv
  have hd : t.IsData v := h.data.element (Array.mem_def.mpr hv)
  exact hd.twins_behind s u

theorem twins_behind_hashmap (h : t.WellFormed) (s u : Store) (k : Nat) :
    ((t.hashmap k).behind s).Twins (.along t s u) ((t.hashmap k).behind u) := by
  unfold Hashmap.Twins Hashmap.behind
  rw [List.forall₂_map_left_iff, List.forall₂_map_right_iff, List.forall₂_same]
  intro e he
  have hd : t.IsData e.value := h.data.entry he
  exact ⟨rfl, hd.twins_behind s u⟩

/-! ### What comes out -/

theorem contains_of_twins (hs : s.Paired P t) (hp : List.Forall₂ (Twins P) vs ws)
    (h : Twins P v w) : vs.contains v = ws.contains w := by
  induction hp with
  | nil => rfl
  | cons hx _ ih =>
    rw [List.contains_cons, List.contains_cons, ih]
    congr 1
    rw [Bool.eq_iff_iff, beq_iff_eq, beq_iff_eq]
    exact h.eq_iff hs.array hs.hashmap hx

theorem mapM_eq_of_forall₂ {ε : Type} {R : α → β → Prop} {f : α → Except ε γ} {g : β → Except ε γ}
    {as : List α} {bs : List β} (h : List.Forall₂ R as bs) (hfg : ∀ a b, R a b → f a = g b) :
    as.mapM f = bs.mapM g := by
  induction h with
  | nil => rfl
  | cons hab _ ih => rw [List.mapM_cons, List.mapM_cons, hfg _ _ hab, ih]

/-- Twins become the same host data. -/
theorem Twins.exportIn_eq (hs : s.Paired P t) (h : Twins P v w)
    (hp : List.Forall₂ (Twins P) vs ws) (depth : Nat) :
    s.exportIn depth vs v = t.exportIn depth ws w := by
  induction depth generalizing v w vs ws with
  | zero => rfl
  | succ d ih =>
    have hc := contains_of_twins hs hp h
    have hin (x y : Value) (hxy : Twins P x y) :
        s.exportIn d (v :: vs) x = t.exportIn d (w :: ws) y := ih hxy (.cons h hp)
    cases h with
    | array hpq =>
      simp only [Store.exportIn, hc]
      rw [mapM_eq_of_forall₂ (hs.elements hpq).2.2 hin]
    | hashmap hpq =>
      simp only [Store.exportIn, hc]
      rw [mapM_eq_of_forall₂ (hs.entries hpq).2.2 fun d e hde => by rw [hde.1, hin _ _ hde.2]]
    | _ => rfl

theorem Run.ofValue_eq (hs : s.Paired P t) {o o' : Option Value} (h : Option.Rel (Twins P) o o')
    (depth : Nat) : Run.ofValue depth s o = Run.ofValue depth t o' := by
  cases h with
  | none => rfl
  | some h =>
    simp only [Run.ofValue, Store.toHost, h.tag_eq, h.exportIn_eq hs .nil]

end Scriptlet
