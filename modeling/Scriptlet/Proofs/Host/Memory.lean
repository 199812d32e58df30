import Scriptlet.Host.Import

/-!
Host data as it lies in a memory, where a collection has a place and can be in several others and in
itself. The conversion into values goes from place to place; host data that is written out is converted
as it is in a memory.
-/

namespace Scriptlet

/-- Host data in a memory. -/
inductive HostDatum (ι : Type) where
  | null
  | bool (b : Bool)
  | int (n : Int)
  | real (x : Number.Binary64)
  | text (s : String)
  | foreign (typeName : String)
  | collection (place : ι)
  deriving DecidableEq

/-- A collection in a memory, with the name of its type. -/
inductive HostCell (ι : Type) where
  | sequence (typeName : String) (items : List (HostDatum ι))
  | mapping (typeName : String) (entries : List (HostKey × HostDatum ι))

/-- The name of a collection's type. -/
def HostCell.typeName {ι : Type} : HostCell ι → String
  | sequence typeName _ | mapping typeName _ => typeName

/-- The collections at the places of a memory. -/
abbrev HostMemory (ι : Type) := ι → HostCell ι

section
variable {δ : Type} (convert : δ → Importing Value)

/-- A new array of items, of which each is converted. -/
def newSequence (items : List δ) : Importing Value := do
  let values ← items.mapM convert
  modifyGet (·.newArray values.toArray)

/-- A hashmap with one more entry of a map, of which the value is converted. -/
def putEntry (h : Hashmap) (e : HostKey × δ) : Importing Hashmap := do
  match e.1 with
  | .text s => return h.put (.string s) (← convert e.2)
  | .other typeName => throw (.unsupportedKey typeName)

/-- A new hashmap of entries, of which the values are converted. -/
def newMapping (entries : List (HostKey × δ)) : Importing Value := do
  let h ← entries.foldlM (putEntry convert) {}
  modifyGet (·.newHashmap h)

variable {convert} {γ : Type} {f : γ → δ}

theorem newSequence_map {items : List γ} :
    newSequence convert (items.map f) = newSequence (convert ∘ f) items := by
  rw [newSequence, List.mapM_map]
  rfl

theorem newMapping_map {entries : List (HostKey × γ)} :
    newMapping convert (entries.map fun e => (e.1, f e.2)) = newMapping (convert ∘ f) entries := by
  have hentry : (fun h (e : HostKey × γ) => putEntry convert h (e.1, f e.2)) =
      putEntry (convert ∘ f) := by
    funext h ⟨key, v⟩
    cases key <;> rfl
  rw [newMapping, List.foldlM_map, hentry]
  rfl

end

namespace HostMemory
variable {ι : Type} [DecidableEq ι] (m : HostMemory ι)

/-- Host data as a value, inside the collections at the places of a path. A collection becomes a new
one each time. -/
def importIn : (depth : Nat) → (path : List ι) → HostDatum ι → Importing Value
  | 0, _, _ => throw .tooDeep
  | d + 1, path, v =>
    match v with
    | .null => return .null
    | .bool b => return .bool b
    | .int n => Host.importInt n
    | .real x =>
      match x.truncate? with
      | some n => Host.importInt n
      | none => throw (.unsupportedReal x)
    | .text s => return .ofString s
    | .foreign typeName => throw (.unsupportedType typeName)
    | .collection place =>
      if place ∈ path then throw (.cyclicHost (m place).typeName)
      else
        match m place with
        | .sequence _ items => newSequence (importIn d (place :: path)) items
        | .mapping _ entries => newMapping (importIn d (place :: path)) entries

/-- Host data as a value. -/
def toValue (depth : Nat) (v : HostDatum ι) : Importing Value := m.importIn depth [] v

variable {m} {d : Nat} {path : List ι} {place : ι} {typeName : String}

theorem importIn_again (hp : place ∈ path) :
    m.importIn (d + 1) path (.collection place) = throw (.cyclicHost (m place).typeName) := by
  rw [importIn, if_pos hp]

theorem importIn_sequence {items : List (HostDatum ι)} (hp : place ∉ path)
    (hm : m place = .sequence typeName items) :
    m.importIn (d + 1) path (.collection place) = newSequence (m.importIn d (place :: path)) items := by
  rw [importIn, if_neg hp]
  simp only [hm]

theorem importIn_mapping {entries : List (HostKey × HostDatum ι)} (hp : place ∉ path)
    (hm : m place = .mapping typeName entries) :
    m.importIn (d + 1) path (.collection place) = newMapping (m.importIn d (place :: path)) entries := by
  rw [importIn, if_neg hp]
  simp only [hm]

end HostMemory

namespace Host

variable {cs : List Host}

noncomputable instance : DecidableEq Host := fun _ _ => Classical.propDecidable _

/-- Of the collections around some host data, from the innermost to the outermost, those from the one
that is so many lists and maps upward. -/
def enclosing : (levels : Nat) → List Host → List Host
  | _, [] => []
  | levels, c :: cs =>
    if cs.isEmpty then [c]
    else if c.typeName = tupleType then enclosing levels cs
    else
      match levels with
      | 0 => c :: cs
      | levels + 1 => enclosing levels cs

/-- Host data inside some collections, the innermost first. The place of a collection is told by itself
and those around it. -/
def datum (cs : List Host) : Host → HostDatum (List Host)
  | null => .null
  | bool b => .bool b
  | int n => .int n
  | real x => .real x
  | text s => .text s
  | foreign typeName => .foreign typeName
  | list items => .collection (list items :: cs)
  | tuple items => .collection (tuple items :: cs)
  | map entries => .collection (map entries :: cs)
  | up levels => .collection (enclosing levels cs)

/-- The memory of host data that is written out. -/
def written : HostMemory (List Host)
  | list items :: cs => .sequence listType (items.map (datum (list items :: cs)))
  | tuple items :: cs => .sequence tupleType (items.map (datum (tuple items :: cs)))
  | map entries :: cs => .mapping mapType (entries.map fun e => (e.1, e.2.datum (map entries :: cs)))
  | v :: _ => .sequence v.typeName []
  | [] => .sequence listType []

/-- The places of some collections, each inside the next one. -/
def places : List Host → List (List Host)
  | [] => []
  | c :: cs => (c :: cs) :: places cs

theorem length_le_of_mem_places {p : List Host} (h : p ∈ places cs) : p.length ≤ cs.length := by
  induction cs with
  | nil => cases h
  | cons c cs ih =>
    obtain rfl | h := List.mem_cons.mp h
    · exact Nat.le_refl _
    · exact Nat.le_succ_of_le (ih h)

theorem not_mem_places (c : Host) : c :: cs ∉ places cs := fun h =>
  Nat.not_succ_le_self _ (length_le_of_mem_places h)

theorem typeName_written (c : Host) : (written (c :: cs)).typeName = c.typeName := by
  cases c <;> rfl

/-- What goes up leads to a collection around it, of the type that is told. -/
theorem enclosing_mem_places (cs : List Host) (c : Host) (levels : Nat) :
    enclosing levels (c :: cs) ∈ places (c :: cs) ∧
    (written (enclosing levels (c :: cs))).typeName = cycleType ((c :: cs).map typeName) levels := by
  induction cs generalizing c levels with
  | nil =>
    refine ⟨.head _, ?_⟩
    unfold enclosing
    rw [if_pos (by rfl), typeName_written]
    by_cases hc : c.typeName = tupleType
    · simp [cycleType, hc]
    · cases levels <;> simp [cycleType, hc]
  | cons d cs ih =>
    unfold enclosing
    rw [if_neg (by simp)]
    by_cases hc : c.typeName = tupleType
    · obtain ⟨hm, ht⟩ := ih d levels
      rw [if_pos hc]
      exact ⟨.tail _ hm, by rw [ht]; simp [cycleType, hc]⟩
    · rw [if_neg hc]
      cases levels with
      | zero => exact ⟨.head _, by rw [typeName_written]; simp [cycleType, hc]⟩
      | succ levels =>
        obtain ⟨hm, ht⟩ := ih d levels
        exact ⟨.tail _ hm, by rw [ht]; simp [cycleType, hc]⟩

/-- Host data that is written out is converted as in its memory. -/
theorem importIn_eq_written (d : Nat) (cs : List Host) (h : Host)
    (hup : cs = [] → ∀ levels, h ≠ up levels) :
    importIn d (cs.map typeName) h = written.importIn d (places cs) (h.datum cs) := by
  induction d generalizing cs h with
  | zero => rfl
  | succ d ih =>
    have hinner (c : Host) : importIn d (c.typeName :: cs.map typeName) =
        written.importIn d (places (c :: cs)) ∘ datum (c :: cs) :=
      funext fun v => ih (c :: cs) v nofun
    cases h with
    | null | bool | int | real | text | foreign => rfl
    | list items =>
      rw [datum, HostMemory.importIn_sequence (not_mem_places _) rfl, newSequence_map]
      exact congrArg (newSequence · items) (hinner (list items))
    | tuple items =>
      rw [datum, HostMemory.importIn_sequence (not_mem_places _) rfl, newSequence_map]
      exact congrArg (newSequence · items) (hinner (tuple items))
    | map entries =>
      rw [datum, HostMemory.importIn_mapping (not_mem_places _) rfl, newMapping_map]
      exact congrArg (newMapping · entries) (hinner (map entries))
    | up levels =>
      cases cs with
      | nil => exact absurd rfl (hup rfl levels)
      | cons c cs =>
        obtain ⟨hm, ht⟩ := enclosing_mem_places cs c levels
        rw [datum, HostMemory.importIn_again hm, ht]
        rfl

end Host

end Scriptlet
