import Scriptlet.Embed
import Scriptlet.Proofs.Value.Parts
import Scriptlet.Proofs.Walk

/-!
What values come out as host data, whichever way arrays and hashmaps share each other or contain
themselves. A value comes out if nothing that it reaches is at fault and no collection that it reaches
contains itself; else the first offence from the left, depth first, decides what is wrong with it.
-/

namespace Scriptlet

open Relation

variable {s : Store} {u v : Value} {d i n : Nat} {path : List Value}

namespace Store

/-- The way through the parts of values to host data. -/
def exporting (s : Store) : Walk Value ExportFault where
  parts := s.parts
  fault
    | .error f _ => some (.error f)
    | .function _ => some (.conversion (.noCounterpart .function))
    | .builtin _ => some (.conversion (.noCounterpart .builtin))
    | .returned .. => some (.conversion (.noCounterpart .returnValue))
    | _ => none
  cyclic
    | .array _ => some (.conversion (.cyclic .array))
    | .hashmap _ => some (.conversion (.cyclic .hashmap))
    | _ => none
  tooDeep _ := some .tooDeep
  isSome_cyclic {v} h := by cases v <;> simp_all [parts]
  isSome_tooDeep _ := rfl

theorem part_exporting (s : Store) : s.exporting.Part = s.Part := by
  funext u v
  exact propext part_iff.symm

theorem reaches_exporting (s : Store) : s.exporting.Reaches = s.Reaches := by
  funext u v
  rw [Walk.Reaches, Reaches, part_exporting]

theorem fault_exporting : s.exporting.fault u = none ↔
    u.tag ∉ [Tag.error, .returnValue, .function, .builtin] := by
  cases u <;> simp [exporting, Value.tag]

/-- A value comes out as the way through its parts decides. -/
theorem decides_exportIn (s : Store) (d : Nat) (path : List Value) (v : Value) :
    s.exporting.Decides (d + path.length) path [v] (s.exportIn d path v) := by
  induction d generalizing path v with
  | zero => exact Walk.decides_offence (Walk.offence_of_tooDeep (by omega) rfl)
  | succ d ih =>
    have hroom : s.exporting.HasRoom (d + 1 + path.length) path v :=
      Walk.hasRoom_of_lt (by omega)
    -- room that is not used up yet and the path have one length together on every level
    have hinner (u : Value) := ih (v :: path) u
    rw [List.length_cons, Nat.add_comm path.length, ← Nat.add_assoc] at hinner
    cases v with
    | int | bool | string | null =>
      exact .of_parts (Walk.offence_eq_none.mpr ⟨hroom, rfl, fun _ => rfl⟩) (Walk.decides_ok _)
    | error | function | builtin | returned =>
      exact Walk.decides_offence (Walk.offence_of_fault hroom rfl)
    | array place =>
      rw [exportIn]
      split
      · next hm =>
        exact Walk.decides_offence (Walk.offence_of_cyclic hroom rfl (List.contains_iff_mem.mp hm) rfl)
      · next hm =>
        refine .of_parts (Walk.offence_eq_none.mpr ⟨hroom, rfl, fun hin => ?_⟩) ?_
        · exact absurd (List.contains_iff_mem.mpr hin) hm
        have hitems := Walk.decides_mapM (g := id) hinner (s.elements place).toList
        rw [List.map_id] at hitems
        exact hitems.returns Host.list
    | hashmap place =>
      rw [exportIn]
      split
      · next hm =>
        exact Walk.decides_offence (Walk.offence_of_cyclic hroom rfl (List.contains_iff_mem.mp hm) rfl)
      · next hm =>
        refine .of_parts (Walk.offence_eq_none.mpr ⟨hroom, rfl, fun hin => ?_⟩) ?_
        · exact absurd (List.contains_iff_mem.mpr hin) hm
        have hentries := Walk.decides_mapM (g := Entry.value) (fun e =>
          (hinner e.value).returns fun h => (HostKey.text e.key.text, h)) (s.hashmap place).entries
        exact hentries.returns Host.ofEntries

/-- The collections of the store, as values. -/
def collections (s : Store) : List Value :=
  (List.range s.arrays.size).map .array ++ (List.range s.hashmaps.size).map .hashmap

theorem mem_collections (h : s.parts v ≠ []) : v ∈ s.collections := by
  obtain ⟨u, hu⟩ := List.exists_mem_of_ne_nil _ h
  obtain ⟨c, rfl⟩ := (part_iff.mpr hu).exists_collection
  cases c <;> simp [collections, collection]

/-- What is told to be cyclic contains itself. -/
theorem exists_cyclic_of_toHost {tag : Tag}
    (he : s.toHost d v = .error (.conversion (.cyclic tag))) :
    ∃ u, u.tag = tag ∧ s.Reaches v u ∧ TransGen s.Part u u := by
  have hdecides : s.exporting.Decides d [] [v] (s.toHost d v) := decides_exportIn s d [] v
  obtain ⟨u, hd, -⟩ | ⟨u, -, hf⟩ | ⟨u, hu, hin, hc⟩ := (hdecides.error_iff.mp he).cases
  · cases hd
  · cases u <;> simp [exporting] at hf
  · rw [part_exporting] at hin
    rw [reaches_exporting] at hu
    refine ⟨u, ?_, hu, hin⟩
    cases u <;> simp_all [exporting, Value.tag]

/-- A value comes out just if it reaches no error, signal or function and no collection that contains
itself, and there is room for its levels. What is wrong with it otherwise is the first offence on the
way through its parts. With more room than there are collections room is never wanting, and only what
contains itself is told to be cyclic. -/
theorem toHost_first_offence (s : Store) (v : Value) :
    (∀ d, (∃ h, s.toHost d v = .ok h) ↔
      (∀ u, s.Reaches v u → u.tag ∉ [Tag.error, .returnValue, .function, .builtin]) ∧
      s.Acyclic v ∧ ¬ s.exporting.Deep d v) ∧
    (∀ d e, s.toHost d v = .error e ↔ s.exporting.Fails d [] v e) ∧
    (∀ d, s.arrays.size + s.hashmaps.size < d → s.toHost d v ≠ .error .tooDeep) ∧
    ∀ d tag, s.toHost d v = .error (.conversion (.cyclic tag)) →
      ∃ u, u.tag = tag ∧ s.Reaches v u ∧ TransGen s.Part u u := by
  have hdecides (d : Nat) : s.exporting.Decides d [] [v] (s.toHost d v) := decides_exportIn s d [] v
  refine ⟨fun d => ?_, fun d e => (hdecides d).error_iff, fun d hd he => ?_,
    fun _ _ => exists_cyclic_of_toHost⟩
  · rw [(hdecides d).ok_iff, Walk.passes_iff, Acyclic, part_exporting, reaches_exporting]
    simp only [fault_exporting]
  · obtain ⟨u, hf⟩ | ⟨u, hc⟩ := ((hdecides d).error_iff.mp he).cases_of_room
      (fun u => mem_collections) (by simpa [collections] using hd)
    · cases u <;> simp [exporting] at hf
    · cases u <;> simp [exporting] at hc

/-- A store with an array that is its own element. -/
def selfArray : Store := { arrays := #[#[.array 0]] }

theorem toHost_first_offence_selfArray :
    selfArray.arrays.size + selfArray.hashmaps.size < 2 ∧
    selfArray.toHost 2 (.array 0) ≠ .error .tooDeep ∧
    selfArray.toHost 2 (.array 0) = .error (.conversion (.cyclic .array)) ∧
    ∃ u, u.tag = .array ∧ selfArray.Reaches (.array 0) u ∧ TransGen selfArray.Part u u := by
  obtain ⟨-, -, hroom, hcyclic⟩ := toHost_first_offence selfArray (.array 0)
  have hself : selfArray.toHost 2 (.array 0) = .error (.conversion (.cyclic .array)) := rfl
  exact ⟨by decide, hroom 2 (by decide), hself, hcyclic 2 .array hself⟩

/-- A store with a value in an array, this one in the next array, and so on up to a place. -/
def nested (v : Value) (n : Nat) : Store where
  arrays := (Array.range (n + 1)).map fun
    | 0 => #[v]
    | i + 1 => #[.array i]

theorem elements_nested_zero : (nested v n).elements 0 = #[v] := by simp [nested, elements]

theorem elements_nested_succ (h : i < n) : (nested v n).elements (i + 1) = #[.array i] := by
  simp [nested, elements, h]

/-- What is wrong with the value inside is told if there is room for all levels. -/
theorem exportIn_nested {b : Builtin} (hi : i ≤ n) (hpath : ∀ j ≤ i, Value.array j ∉ path) :
    (nested (.builtin b) n).exportIn d path (.array i) =
      if i + 2 ≤ d then .error (.conversion (.noCounterpart .builtin)) else .error .tooDeep := by
  induction d generalizing i path with
  | zero => rfl
  | succ d ih =>
    have hnew : path.contains (.array i) = false := by simpa using hpath i (Nat.le_refl i)
    rw [exportIn, if_neg (by simp only [hnew]; decide)]
    cases i with
    | zero =>
      rw [elements_nested_zero]
      cases d <;> rfl
    | succ i =>
      have hinner : ∀ j ≤ i, Value.array j ∉ .array (i + 1) :: path := by
        intro j hj hm
        obtain he | hm := List.mem_cons.mp hm
        · cases he
          omega
        · exact hpath j (by omega) hm
      rw [elements_nested_succ hi, List.mapM_cons, ih (by omega) hinner,
        if_congr (Nat.add_le_add_iff_right (m := i + 2) (k := d) (n := 1)) rfl rfl]
      split <;> rfl

/-- A builtin inside so many arrays is not told to be at fault, for want of room. -/
theorem toHost_nested_builtin :
    (nested (.builtin .len) 1500).toHost 1502 (.array 1500) =
      .error (.conversion (.noCounterpart .builtin)) ∧
    (nested (.builtin .len) 1500).toHost defaultDepth (.array 1500) = .error .tooDeep := by
  have h (d : Nat) : (nested (.builtin .len) 1500).toHost d (.array 1500) =
      if 1502 ≤ d then .error (.conversion (.noCounterpart .builtin)) else .error .tooDeep :=
    exportIn_nested (Nat.le_refl 1500) (by simp)
  exact ⟨(h 1502).trans (if_pos (by decide)), (h defaultDepth).trans (if_neg (by decide))⟩

end Store

end Scriptlet
