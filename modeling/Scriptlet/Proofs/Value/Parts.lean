import Mathlib.Data.Fintype.Card
import Mathlib.Data.Fintype.Sum
import Mathlib.Logic.Relation
import Scriptlet.Value.Store

/-!
What a value is made of: the elements of arrays and the values in hashmaps. Where no collection
contains itself, going from a value to its parts comes to an end, as a store has finitely many
collections only.
-/

namespace Scriptlet

open Relation

namespace Store

variable {s : Store} {u v : Value}

/-- The first value is an element of the second one, or the value of an entry of it. -/
inductive Part (s : Store) : Value → Value → Prop where
  | element {v : Value} {place : Nat} (h : v ∈ s.elements place) : s.Part v (.array place)
  | entry {e : Entry} {place : Nat} (h : e ∈ (s.hashmap place).entries) :
    s.Part e.value (.hashmap place)

/-- The elements of an array or the values of a hashmap, in their order. -/
def parts (s : Store) : Value → List Value
  | .array place => (s.elements place).toList
  | .hashmap place => (s.hashmap place).entries.map (·.value)
  | _ => []

/-- From a value one comes to itself, to its parts, to the parts of these, and so on. -/
def Reaches (s : Store) (v u : Value) : Prop := ReflTransGen s.Part u v

/-- No collection that a value reaches contains itself. -/
def Acyclic (s : Store) (v : Value) : Prop := ∀ u, s.Reaches v u → ¬ TransGen s.Part u u

/-- The collections of a store. -/
abbrev Collection (s : Store) := Fin s.arrays.size ⊕ Fin s.hashmaps.size

/-- The value that is a collection. -/
def collection : s.Collection → Value
  | .inl place => .array place
  | .inr place => .hashmap place

theorem part_iff : s.Part u v ↔ u ∈ s.parts v := by
  constructor
  · rintro (h | h)
    · exact Array.mem_toList_iff.mpr h
    · exact List.mem_map_of_mem h
  · intro h
    cases v with
    | array place => exact .element (Array.mem_toList_iff.mp h)
    | hashmap place =>
      obtain ⟨e, he, rfl⟩ := List.mem_map.mp h
      exact .entry he
    | _ => cases h

/-- Only the collections of the store have parts. -/
theorem Part.exists_collection (h : s.Part u v) : ∃ c : s.Collection, v = collection c := by
  cases h with
  | @element _ place h =>
    by_cases hp : place < s.arrays.size
    · exact ⟨.inl ⟨place, hp⟩, rfl⟩
    · simp [elements, hp] at h
  | @entry _ place h =>
    by_cases hp : place < s.hashmaps.size
    · exact ⟨.inr ⟨place, hp⟩, rfl⟩
    · simp [hashmap, hp] at h

theorem Acyclic.part (h : s.Acyclic v) (hu : s.Part u v) : s.Acyclic u :=
  fun w hw => h w (hw.tail hu)

/-- Among the collections that a value without cycles reaches, to be contained is well-founded. -/
theorem Acyclic.wellFounded (h : s.Acyclic v) :
    WellFounded fun c d : {c : s.Collection // s.Reaches v (collection c)} =>
      TransGen s.Part (collection c.1) (collection d.1) := by
  have : IsTrans {c : s.Collection // s.Reaches v (collection c)} fun c d =>
      TransGen s.Part (collection c.1) (collection d.1) := ⟨fun _ _ _ => TransGen.trans⟩
  have : Std.Irrefl fun c d : {c : s.Collection // s.Reaches v (collection c)} =>
      TransGen s.Part (collection c.1) (collection d.1) := ⟨fun c => h _ c.2⟩
  exact Finite.wellFounded_of_trans_of_irrefl _

/-- From a value without cycles one comes to the end of its parts. -/
theorem Acyclic.acc (h : s.Acyclic v) : Acc s.Part v := by
  -- a value that is no collection has no parts, so that the collections alone decide
  have hacc (u : Value) (hc : ∀ c : s.Collection, u = collection c → Acc s.Part u) :
      Acc s.Part u :=
    .intro u fun w hw => by
      obtain ⟨c, hc'⟩ := hw.exists_collection
      exact (hc c hc').inv hw
  have hall : ∀ c : {c : s.Collection // s.Reaches v (collection c)}, Acc s.Part (collection c.1) := by
    intro c
    induction c using h.wellFounded.induction with
    | _ c ih =>
      refine .intro _ fun u hu => hacc u fun d hd => ?_
      subst hd
      exact ih ⟨d, .head hu c.2⟩ (.single hu)
  exact hacc v fun c hc => hc ▸ hall ⟨c, hc ▸ .refl⟩

end Store

end Scriptlet
