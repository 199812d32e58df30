import Scriptlet.Proofs.Value.Parts
import Scriptlet.Proofs.Value.WellFormed

/-!
Stores in which no collection contains itself. A new collection keeps a store so if all its parts
were in the store before it.
-/

namespace Scriptlet

open Relation

namespace Store

variable {s t : Store} {u v : Value} {c : Closure} {name : String} {scope : Nat}

/-- From every value one comes to the end of its parts. -/
def Founded (s : Store) : Prop := WellFounded s.Part

theorem Founded.acyclic (h : s.Founded) (v : Value) : s.Acyclic v := fun u _ hu =>
  (WellFounded.transGen h).irrefl.irrefl u hu

theorem part_of_parts (hp : ∀ v, t.parts v = s.parts v) (h : t.Part u v) : s.Part u v :=
  part_iff.mpr (hp v ▸ part_iff.mp h)

/-- What has the same collections is founded too. -/
theorem Founded.of_parts (h : s.Founded) (hp : ∀ v, t.parts v = s.parts v) : t.Founded :=
  Subrelation.wf (part_of_parts hp) h

/-- A new value that is no part of anything may have parts of its own. -/
theorem Founded.grow (h : s.Founded) (new : Value)
    (hp : ∀ ⦃u v⦄, t.Part u v → u ≠ new ∧ (v ≠ new → s.Part u v)) : t.Founded := by
  have hold : ∀ v ≠ new, Acc t.Part v := by
    intro v
    induction v using h.induction with
    | _ v ih => exact fun hv => .intro v fun u hu => ih u ((hp hu).2 hv) (hp hu).1
  exact ⟨fun v => .intro v fun u hu => hold u (hp hu).1⟩

theorem WellFormed.part (h : s.WellFormed) (hp : s.Part u v) : s.IsData u := by
  cases hp with
  | element hu => exact h.data.element hu
  | entry he => exact h.data.entry he

theorem IsData.ne_newArray (h : s.IsData v) : v ≠ .array s.arrays.size := by
  rintro rfl
  exact Nat.lt_irrefl _ h

theorem IsData.ne_newHashmap (h : s.IsData v) : v ≠ .hashmap s.hashmaps.size := by
  rintro rfl
  exact Nat.lt_irrefl _ h

theorem part_newArray {a : Array Value} (h : (s.newArray a).2.Part u v) :
    (v = .array s.arrays.size ∧ u ∈ a) ∨ s.Part u v := by
  cases h with
  | @element _ place hu =>
    rw [elements_newArray] at hu
    split at hu
    · next hplace => exact .inl ⟨hplace ▸ rfl, hu⟩
    · exact .inr (.element hu)
  | entry he => exact .inr (.entry he)

theorem part_newHashmap {m : Hashmap} (h : (s.newHashmap m).2.Part u v) :
    (v = .hashmap s.hashmaps.size ∧ ∃ e ∈ m.entries, e.value = u) ∨ s.Part u v := by
  cases h with
  | element hu => exact .inr (.element hu)
  | @entry e place he =>
    rw [hashmap_newHashmap] at he
    split at he
    · next hplace => exact .inl ⟨hplace ▸ rfl, e, he, rfl⟩
    · exact .inr (.entry he)

namespace Founded

theorem empty : ({} : Store).Founded := by
  refine ⟨fun v => .intro v fun u hu => ?_⟩
  cases hu with
  | element h => simp [elements] at h
  | entry h => simp [hashmap] at h

theorem newScope (h : s.Founded) (outer : Option Nat) : (s.newScope outer).2.Founded :=
  h.of_parts fun _ => rfl

theorem bind (h : s.Founded) (scope : Nat) (name : String) (v : Value) :
    (s.bind scope name v).Founded :=
  h.of_parts fun _ => rfl

theorem newClosure (h : s.Founded) (c : Closure) : (s.newClosure c).2.Founded :=
  h.of_parts fun _ => rfl

theorem newArray (h : s.Founded) (hs : s.WellFormed) {a : Array Value}
    (ha : ∀ v ∈ a, s.IsData v) : (s.newArray a).2.Founded := by
  refine h.grow (.array s.arrays.size) fun u v hp => ?_
  obtain ⟨rfl, hu⟩ | hp := part_newArray hp
  · exact ⟨(ha u hu).ne_newArray, fun hv => absurd rfl hv⟩
  · exact ⟨(hs.part hp).ne_newArray, fun _ => hp⟩

theorem newHashmap (h : s.Founded) (hs : s.WellFormed) {m : Hashmap}
    (hm : ∀ e ∈ m.entries, s.IsData e.value) : (s.newHashmap m).2.Founded := by
  refine h.grow (.hashmap s.hashmaps.size) fun u v hp => ?_
  obtain ⟨rfl, e, he, rfl⟩ | hp := part_newHashmap hp
  · exact ⟨(hm e he).ne_newHashmap, fun hv => absurd rfl hv⟩
  · exact ⟨(hs.part hp).ne_newHashmap, fun _ => hp⟩

end Founded

end Store

end Scriptlet
