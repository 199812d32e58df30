import Mathlib.Data.Fintype.Card
import Scriptlet.Embed
import Scriptlet.Proofs.Host.Memory
import Scriptlet.Proofs.Value.Lookup
import Scriptlet.Proofs.Value.Separate
import Scriptlet.Proofs.Walk

/-!
What host data goes in as values, whichever way collections share each other or contain themselves.
Data goes in if all that it reaches is supported and no collection that it reaches contains itself;
else the first offence from the left, depth first, decides what is wrong with it. What is shared goes
in as separate new collections.
-/

namespace Scriptlet

open Number Relation

variable {ι δ α β : Type} {s t : Store} {d : Nat} {R : α → Store → Prop} {R' : β → Store → Prop}

/-- What the conversion of host data comes to: the keys of maps, and data. -/
inductive HostThing (ι : Type) where
  | key (k : HostKey)
  | datum (v : HostDatum ι)
  deriving DecidableEq

namespace HostThing

/-- What can be in a program: texts for keys, and words for integers, also for those that numbers are
cut to. -/
def Supported : HostThing ι → Prop
  | key k => ∃ s, k = .text s
  | datum (.int n) => InWord n
  | datum (.real x) => ∃ n, x.truncate? = some n ∧ InWord n
  | datum (.foreign _) => False
  | _ => True

/-- What a message can show. -/
def Writable : HostThing ι → Prop
  | datum (.int n) => Number.Writable n
  | datum (.real x) => ∀ n, x.truncate? = some n → Number.Writable n
  | _ => True

end HostThing

/-- What is wrong with an integer. -/
def intFault (n : Int) : Option ConversionFault :=
  if InWord n then none else if Writable n then some (.outOfRange n) else some .unwritable

theorem intFault_eq_none {n : Int} : intFault n = none ↔ InWord n := by
  unfold intFault
  split
  · next h => simp [h]
  · next h => split <;> simp [h]

namespace HostMemory

variable {m : HostMemory ι} {v : HostDatum ι} {x : HostThing ι}

/-- The way through the parts of host data to values. Of an entry the key comes before the value. -/
def importing (m : HostMemory ι) : Walk (HostThing ι) ConversionFault where
  parts
    | .datum (.collection place) =>
      match m place with
      | .sequence _ items => items.map .datum
      | .mapping _ entries => entries.flatMap fun e => [.key e.1, .datum e.2]
    | _ => []
  fault
    | .key (.other typeName) => some (.unsupportedKey typeName)
    | .datum (.int n) => intFault n
    | .datum (.real x) =>
      match x.truncate? with
      | some n => intFault n
      | none => some (.unsupportedReal x)
    | .datum (.foreign typeName) => some (.unsupportedType typeName)
    | _ => none
  cyclic
    | .datum (.collection place) => some (.cyclicHost (m place).typeName)
    | _ => none
  tooDeep
    | .key _ => none
    | .datum _ => some .tooDeep
  isSome_cyclic {x} h := by
    obtain k | v := x
    · simp at h
    · cases v <;> simp_all
  isSome_tooDeep {x} h := by
    obtain k | v := x
    · simp at h
    · rfl

theorem fault_importing : m.importing.fault x = none ↔ x.Supported := by
  obtain k | v := x
  · cases k <;> simp [importing, HostThing.Supported]
  · cases v with
    | int n => exact intFault_eq_none
    | real x => cases hx : x.truncate? <;> simp [importing, HostThing.Supported, hx, intFault_eq_none]
    | _ => simp [importing, HostThing.Supported]

/-- A fault is no want of room, and an integer that no message can show is what it says. -/
theorem fault_importing_cases {e : ConversionFault} (h : m.importing.fault x = some e) :
    e ≠ .tooDeep ∧ (e = .unwritable → ¬ x.Writable) := by
  have hint {n : Int} (hn : intFault n = some e) :
      e ≠ .tooDeep ∧ (e = .unwritable → ¬ Number.Writable n) := by
    unfold intFault at hn
    split at hn
    · cases hn
    · split at hn
      · cases hn
        exact ⟨nofun, nofun⟩
      · next hw =>
        cases hn
        exact ⟨nofun, fun _ => hw⟩
  obtain k | v := x
  · cases k with
    | text s => cases h
    | other typeName =>
      cases h
      exact ⟨nofun, nofun⟩
  · cases v with
    | int n => exact hint h
    | real x =>
      simp only [importing] at h
      cases hx : x.truncate? with
      | some n =>
        rw [hx] at h
        exact ⟨(hint h).1, fun he hw => (hint h).2 he (hw n hx)⟩
      | none =>
        rw [hx] at h
        cases h
        exact ⟨nofun, nofun⟩
    | foreign typeName =>
      cases h
      exact ⟨nofun, nofun⟩
    | _ => cases h

theorem cyclic_importing {e : ConversionFault} (h : m.importing.cyclic x = some e) :
    ∃ typeName, e = .cyclicHost typeName := by
  obtain k | v := x
  · cases h
  · cases v with
    | collection place => exact ⟨_, (Option.some.inj h).symm⟩
    | _ => cases h

theorem exists_collection_of_parts (h : m.importing.parts x ≠ []) :
    ∃ place, x = .datum (.collection place) := by
  obtain k | v := x
  · exact absurd rfl h
  · cases v with
    | collection place => exact ⟨place, rfl⟩
    | _ => exact absurd rfl h

/-! ### The result of a conversion -/

variable [DecidableEq ι]

theorem governs_importInt {path : List (HostThing ι)} {n : Int} (hd : m.importing.HasRoom d path x)
    (hf : m.importing.fault x = intFault n) (hp : m.importing.parts x = [])
    (hc : m.importing.cyclic x = none) : m.importing.Governs d path [x] (Host.importInt n) := by
  unfold Host.importInt
  unfold intFault at hf
  split
  · next hn =>
    rw [if_pos hn] at hf
    exact .of_parts (Walk.offence_eq_none.mpr ⟨hd, hf, fun _ => hc⟩) (hp ▸ Walk.governs_pure _)
  · next hn =>
    rw [if_neg hn] at hf
    split
    · next hw => exact Walk.governs_throw (Walk.offence_of_fault hd (hf.trans (if_pos hw)))
    · next hw => exact Walk.governs_throw (Walk.offence_of_fault hd (hf.trans (if_neg hw)))

/-- A key has to be a text, and then its value is converted. -/
theorem governs_putEntry {path : List (HostThing ι)} {convert : HostDatum ι → Importing Value}
    (hv : ∀ v, m.importing.Governs d path [.datum v] (convert v)) (h : Hashmap)
    (e : HostKey × HostDatum ι) :
    m.importing.Governs d path [.key e.1, .datum e.2] (putEntry convert h e) := by
  obtain ⟨key | typeName, v⟩ := e
  · have hkey : m.importing.Passes d path (.key (.text key)) :=
      Walk.passes_of_parts (Walk.offence_eq_none.mpr ⟨fun _ => rfl, rfl, fun _ => rfl⟩) nofun
    exact ((hv v).returns fun w => Walk.governs_pure _).cons hkey
  · have hkey : m.importing.Governs d path [.key (.other typeName)]
        (throw (.unsupportedKey typeName) : Importing Hashmap) :=
      Walk.governs_throw (Walk.offence_of_fault (fun _ => rfl) rfl)
    exact hkey.append [.datum v]

/-- Host data goes in as the way through its parts decides. -/
theorem governs_importIn (m : HostMemory ι) (d : Nat) (path : List ι) (v : HostDatum ι) :
    m.importing.Governs (d + path.length) (path.map fun place => .datum (.collection place))
      [.datum v] (m.importIn d path v) := by
  induction d generalizing path v with
  | zero => exact Walk.governs_throw (Walk.offence_of_tooDeep (by simp) rfl)
  | succ d ih =>
    have hroom : m.importing.HasRoom (d + 1 + path.length)
        (path.map fun place => .datum (.collection place)) (.datum v) :=
      Walk.hasRoom_of_lt (by rw [List.length_map]; omega)
    cases v with
    | null | bool | text =>
      exact .of_parts (Walk.offence_eq_none.mpr ⟨hroom, rfl, fun _ => rfl⟩) (Walk.governs_pure _)
    | int n => exact governs_importInt hroom rfl rfl rfl
    | real x =>
      rw [importIn]
      cases hx : x.truncate? with
      | some n => exact governs_importInt hroom (by simp only [importing, hx]) rfl rfl
      | none => exact Walk.governs_throw (Walk.offence_of_fault hroom (by simp only [importing, hx]))
    | foreign typeName => exact Walk.governs_throw (Walk.offence_of_fault hroom rfl)
    | collection place =>
      -- room that is not used up yet and the path have one length together on every level
      have hinner (v : HostDatum ι) := ih (place :: path) v
      rw [List.length_cons, Nat.add_comm path.length, ← Nat.add_assoc] at hinner
      by_cases hm : place ∈ path
      · rw [importIn_again hm]
        exact Walk.governs_throw (Walk.offence_of_cyclic hroom rfl (List.mem_map_of_mem hm) rfl)
      · have hnew : m.importing.offence (d + 1 + path.length)
            (path.map fun place => .datum (.collection place)) (.datum (.collection place)) = none := by
          refine Walk.offence_eq_none.mpr ⟨hroom, rfl, fun hin => ?_⟩
          obtain ⟨p, hp, he⟩ := List.mem_map.mp hin
          obtain rfl : p = place := by simpa using he
          exact absurd hp hm
        refine .of_parts hnew ?_
        cases hcell : m place with
        | sequence typeName items =>
          have hparts : m.importing.parts (.datum (.collection place)) = items.map .datum := by
            simp only [importing, hcell]
          rw [importIn_sequence hm hcell, hparts]
          exact (Walk.governs_mapM hinner items).returns fun vs => Walk.governs_modifyGet _
        | mapping typeName entries =>
          have hparts : m.importing.parts (.datum (.collection place)) =
              entries.flatMap fun e => [.key e.1, .datum e.2] := by
            simp only [importing, hcell]
          rw [importIn_mapping hm hcell, hparts]
          exact (Walk.governs_foldlM (governs_putEntry hinner) entries {}).returns fun h =>
            Walk.governs_modifyGet _

end HostMemory

/-! ### What a conversion makes -/

/-- A result that is as described, if there is one. -/
def Makes (R : α → Store → Prop) : Except ConversionFault (α × Store) → Prop
  | .ok (a, t) => R a t
  | .error _ => True

theorem Makes.mono {R' : α → Store → Prop} {x : Except ConversionFault (α × Store)} (hx : Makes R x)
    (h : ∀ a t, R a t → R' a t) : Makes R' x :=
  match x, hx with
  | .error _, _ => trivial
  | .ok (a, t), hx => h a t hx

theorem Makes.bind {p : Importing α} {f : α → Importing β} (hp : Makes R (p s))
    (hf : ∀ a t, R a t → Makes R' (f a t)) : Makes R' ((p >>= f) s) := by
  simp only [Bind.bind, StateT.bind, Except.bind]
  generalize p s = x at hp
  match x, hp with
  | .error _, _ => trivial
  | .ok (a, t), h => exact hf a t h

/-- What holds between data and a value in a store, and in later stores as well. -/
def Lasting (C : Store → δ → Value → Prop) : Prop :=
  ∀ ⦃t t' v w⦄, C t v w → t.Within t' → C t' v w

/-- A conversion that leaves what was there before, and makes a value of new collections that is a copy
as described. -/
def MakesCopy (C : Store → δ → Value → Prop) (s : Store) (v : δ) :
    Except ConversionFault (Value × Store) → Prop :=
  Makes fun w t => s.Within t ∧ s.Separate t w ∧ C t v w

section

variable {C : Store → δ → Value → Prop} {convert : δ → Importing Value} {v : δ}

theorem makesCopy_pure {w : Value} (hw : ¬ w.IsCollection) (hv : C s v w) :
    MakesCopy C s v ((pure w : Importing Value) s) :=
  ⟨.refl s, Store.separate_of_not_isCollection hw, hv⟩

theorem makesCopy_importInt {n : Int} (hv : C s v (.ofInt n)) :
    MakesCopy C s v (Host.importInt n s) := by
  unfold Host.importInt
  split
  · exact makesCopy_pure not_false hv
  · split <;> trivial

variable (hC : Lasting C) (hc : ∀ v s, MakesCopy C s v (convert v s))

include hC hc

/-- Each of some items with its copy. -/
theorem makes_items (s : Store) (items : List δ) :
    Makes (fun vs t => s.Within t ∧ s.AllSeparate t vs ∧ ∃ l : List (δ × Value),
      items = l.map (·.1) ∧ vs = l.map (·.2) ∧ ∀ e ∈ l, C t e.1 e.2) (items.mapM convert s) := by
  induction items generalizing s with
  | nil => exact ⟨.refl s, Store.allSeparate_nil, [], rfl, rfl, by simp⟩
  | cons v items ih =>
    rw [List.mapM_cons]
    refine (hc v s).bind fun w t ⟨ht, hw, hcopy⟩ => (ih t).bind fun vs u ⟨hu, hvs, l, hl⟩ => ?_
    obtain ⟨rfl, rfl, hl⟩ := hl
    exact ⟨ht.trans hu, .cons hw ht hu hvs, (v, w) :: l, rfl, rfl,
      List.forall_mem_cons.mpr ⟨hC hcopy hu, hl⟩⟩

/-- A hashmap filled entry by entry from some store on, each entry with its copy. -/
theorem makes_entries (entries : List (HostKey × δ)) {h : Hashmap} (hst : s.Within t)
    (hh : s.AllSeparate t (h.entries.map (·.value))) :
    Makes (fun h' t' => s.Within t' ∧ t.Within t' ∧ s.AllSeparate t' (h'.entries.map (·.value)) ∧
      ∃ l : List (String × δ × Value), entries = l.map (fun e => (.text e.1, e.2.1)) ∧
        h' = h.putAll (l.map fun e => ⟨.string e.1, e.2.2⟩) ∧ ∀ e ∈ l, C t' e.2.1 e.2.2)
      (entries.foldlM (putEntry convert) h t) := by
  induction entries generalizing t h with
  | nil => exact ⟨hst, .refl t, hh, [], rfl, rfl, by simp⟩
  | cons e entries ih =>
    rw [List.foldlM_cons]
    obtain ⟨key | typeName, v⟩ := e
    · have hput : Makes (fun h' u => ∃ w, h' = h.put (.string key) w ∧ t.Within u ∧
          s.AllSeparate u ((h.put (.string key) w).entries.map (·.value)) ∧ C u v w)
          (putEntry convert h (.text key, v) t) :=
        (hc v t).bind fun w u ⟨hu, hw, hcopy⟩ => ⟨w, rfl, hu, hh.put hst hu hw (.string key), hcopy⟩
      refine hput.bind fun h' u ⟨w, hh', hu, hsep, hcopy⟩ => ?_
      subst hh'
      have hrest := ih (hst.trans hu) hsep
      refine hrest.mono fun h' u' ⟨hsu, huu, hsep', l, hl, hput, hcopies⟩ => ?_
      refine ⟨hsu, hu.trans huu, hsep', (key, v, w) :: l, by rw [hl]; rfl, hput, ?_⟩
      exact List.forall_mem_cons.mpr ⟨hC hcopy huu, hcopies⟩
    · trivial

end

namespace HostMemory

/-- A value that is a copy of host data: words for numbers, an array for a sequence, with a copy of
each item, and for a map the hashmap that has a copy of each value put in. -/
inductive Copy (m : HostMemory ι) (t : Store) : HostDatum ι → Value → Prop where
  | null : Copy m t .null .null
  | bool (b : Bool) : Copy m t (.bool b) (.bool b)
  | int (n : Int) : Copy m t (.int n) (.ofInt n)
  | real {x : Binary64} {n : Int} (hx : x.truncate? = some n) : Copy m t (.real x) (.ofInt n)
  | text (s : String) : Copy m t (.text s) (.ofString s)
  | sequence {place : ι} {p : Nat} {typeName : String} {l : List (HostDatum ι × Value)}
    (hm : m place = .sequence typeName (l.map (·.1))) (hp : p < t.arrays.size)
    (he : (t.elements p).toList = l.map (·.2)) (h : ∀ e ∈ l, Copy m t e.1 e.2) :
    Copy m t (.collection place) (.array p)
  | mapping {place : ι} {p : Nat} {typeName : String} {l : List (String × HostDatum ι × Value)}
    (hm : m place = .mapping typeName (l.map fun e => (.text e.1, e.2.1)))
    (hp : p < t.hashmaps.size)
    (he : t.hashmap p = Hashmap.ofPuts (l.map fun e => ⟨.string e.1, e.2.2⟩))
    (h : ∀ e ∈ l, Copy m t e.2.1 e.2.2) : Copy m t (.collection place) (.hashmap p)

variable {m : HostMemory ι}

theorem lasting_copy : Lasting m.Copy := by
  intro t t' v w h ht
  induction h with
  | null => exact .null
  | bool b => exact .bool b
  | int n => exact .int n
  | real hx => exact .real hx
  | text s => exact .text s
  | sequence hm hp he _ ih =>
    exact .sequence hm (Nat.lt_of_lt_of_le hp ht.arrays) (by rwa [ht.elements _ hp]) ih
  | mapping hm hp he _ ih =>
    exact .mapping hm (Nat.lt_of_lt_of_le hp ht.hashmaps) (by rwa [ht.hashmap _ hp]) ih

variable [DecidableEq ι]

/-- Every visit to a collection makes a new one, which is a copy. -/
theorem makesCopy_importIn (d : Nat) (path : List ι) (v : HostDatum ι) (s : Store) :
    MakesCopy m.Copy s v (m.importIn d path v s) := by
  induction d generalizing path v s with
  | zero => trivial
  | succ d ih =>
    cases v with
    | null => exact makesCopy_pure not_false .null
    | bool b => exact makesCopy_pure not_false (.bool b)
    | text x => exact makesCopy_pure not_false (.text x)
    | int n => exact makesCopy_importInt (.int n)
    | real x =>
      rw [importIn]
      cases hx : x.truncate? with
      | some n => exact makesCopy_importInt (.real hx)
      | none => trivial
    | foreign typeName => trivial
    | collection place =>
      by_cases hm : place ∈ path
      · rw [importIn_again hm]
        trivial
      · cases hcell : m place with
        | sequence typeName items =>
          rw [importIn_sequence hm hcell]
          refine (makes_items lasting_copy (ih _) s items).bind fun vs t hmade => ?_
          obtain ⟨ht, hvs, l, rfl, rfl, hl⟩ := hmade
          have hnew := Store.within_newArray (s := t) (l.map (·.2)).toArray
          refine ⟨ht.trans hnew, hvs.newArray ht, .sequence hcell ?_ ?_ fun e he => ?_⟩
          · simp
          · simp [Store.elements]
          · exact lasting_copy (hl e he) hnew
        | mapping typeName entries =>
          rw [importIn_mapping hm hcell]
          refine (makes_entries lasting_copy (ih _) entries (.refl s) Store.allSeparate_nil).bind
            fun h t hmade => ?_
          obtain ⟨ht, -, hh, l, rfl, rfl, hl⟩ := hmade
          have hnew := Store.within_newHashmap (s := t)
            (Hashmap.putAll {} (l.map fun e => ⟨.string e.1, e.2.2⟩))
          refine ⟨ht.trans hnew, hh.newHashmap ht, .mapping hcell ?_ ?_ fun e he => ?_⟩
          · simp
          · simp [Store.hashmap, Hashmap.ofPuts]
          · exact lasting_copy (hl e he) hnew

/-- A list that has one tuple twice. -/
def tupleTwice : HostMemory Bool
  | true => .sequence Host.listType [.collection false, .collection false]
  | false => .sequence Host.tupleType [.int 7]

end HostMemory

namespace Host

/-- Host data inside so many lists. -/
def inLists (h : Host) : Nat → Host
  | 0 => h
  | n + 1 => list [inLists h n]

/-- What is wrong with the data inside is told if there is room for all levels. -/
theorem importIn_inLists_foreign (name : String) (n d : Nat) (path : List String) (s : Store) :
    (inLists (foreign name) n).importIn d path s =
      if n < d then .error (.unsupportedType name) else .error .tooDeep := by
  induction n generalizing d path with
  | zero => cases d <;> rfl
  | succ n ih =>
    cases d with
    | zero => rfl
    | succ d =>
      have houter {e : ConversionFault}
          (he : (inLists (foreign name) n).importIn d (listType :: path) s = .error e) :
          (inLists (foreign name) (n + 1)).importIn (d + 1) path s = .error e := by
        simp only [inLists, importIn, List.mapM_cons, Bind.bind, StateT.bind, Except.bind, he]
      by_cases hlt : n < d
      · rw [if_pos (Nat.succ_lt_succ hlt)]
        exact houter ((ih d _).trans (if_pos hlt))
      · rw [if_neg (by omega)]
        exact houter ((ih d _).trans (if_neg hlt))

end Host

end Scriptlet
