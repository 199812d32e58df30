import Mathlib.Order.WellFounded
import Scriptlet.Proofs.Value.Contents

/-!
Well-formed stores: what they hold is data that points into the store, every entry of a hashmap is
found by its own key, and the scopes around a scope are older than it. Every operation on a store
keeps it so.
-/

namespace Scriptlet

variable {s t u : Store} {v : Value} {m : Hashmap} {c : Closure} {name : String} {scope place : Nat}

/-! ### Hashmaps -/

namespace Hashmap

/-- No two entries have keys of the same hash. -/
def Keyed (m : Hashmap) : Prop := (m.entries.map (·.key.hashKey)).Nodup

/-- A put of a new key adds it behind the others, another one leaves the keys as they are. The keys
may be read by anything that tells them apart as their hashes do. -/
theorem map_putIn {α : Type} [DecidableEq α] {f : Key → α} (e : Entry) {l : List Entry}
    (hf : ∀ d ∈ l, f d.key = f e.key ↔ d.key.hashKey = e.key.hashKey) :
    (putIn e l).map (f ·.key) =
      if f e.key ∈ l.map (f ·.key) then l.map (f ·.key) else l.map (f ·.key) ++ [f e.key] := by
  induction l with
  | nil => simp [putIn]
  | cons d l ih =>
    have hd : f d.key = f e.key ↔ d.key.hashKey = e.key.hashKey := hf d (.head _)
    have ih := ih fun c hc => hf c (.tail _ hc)
    unfold putIn
    by_cases hde : f d.key = f e.key
    · simp [hd.mp hde, hde]
    · have hne : f e.key ≠ f d.key := Ne.symm hde
      rw [if_neg (hde ∘ hd.mpr), List.map_cons, List.map_cons, ih]
      by_cases hm : f e.key ∈ l.map (f ·.key)
      · rw [if_pos hm, if_pos (List.mem_cons_of_mem _ hm)]
      · rw [if_neg hm, if_neg (by simpa [hne] using hm), List.cons_append]

theorem keyed_empty : ({} : Hashmap).Keyed := List.nodup_nil

theorem Keyed.put (h : m.Keyed) (k : Key) (v : Value) : (m.put k v).Keyed := by
  rw [Keyed, Hashmap.put, map_putIn _ fun _ _ => Iff.rfl]
  by_cases hm : k.hashKey ∈ m.entries.map (·.key.hashKey)
  · rwa [if_pos hm]
  · rw [if_neg hm]
    refine List.nodup_append.mpr ⟨h, by simp, fun x hx y hy he => ?_⟩
    obtain rfl := List.mem_singleton.mp hy
    exact hm (he ▸ hx)

/-- An entry is what is found by the hash of its own key. -/
theorem Keyed.find (h : m.Keyed) {e : Entry} (he : e ∈ m.entries) :
    m.entries.find? (·.key.hashKey = e.key.hashKey) = some e := by
  obtain ⟨l⟩ := m
  change e ∈ l at he
  change (l.map (·.key.hashKey)).Nodup at h
  change l.find? _ = _
  induction l with
  | nil => cases he
  | cons d l ih =>
    rw [List.map_cons, List.nodup_cons] at h
    rcases List.mem_cons.mp he with rfl | he
    · simp
    · have hne : d.key.hashKey ≠ e.key.hashKey :=
        fun hd => h.1 (hd ▸ List.mem_map_of_mem he)
      simpa [hne] using ih he h.2

end Hashmap

/-! ### Stores -/

namespace Store

/-- A value that programs compute with, which points into the store if it points to something. -/
def IsData (s : Store) : Value → Prop
  | .array place => place < s.arrays.size
  | .hashmap place => place < s.hashmaps.size
  | .function place => place < s.closures.size
  | .error .. | .returned .. => False
  | _ => True

/-- A store with all that was there before. -/
structure Extends (s t : Store) : Prop where
  scopes : s.scopes.size ≤ t.scopes.size
  arrays : s.arrays.size ≤ t.arrays.size
  hashmaps : s.hashmaps.size ≤ t.hashmaps.size
  closures : s.closures.size ≤ t.closures.size

theorem Extends.refl (s : Store) : s.Extends s :=
  ⟨Nat.le_refl _, Nat.le_refl _, Nat.le_refl _, Nat.le_refl _⟩

theorem Extends.trans (h : s.Extends t) (h' : t.Extends u) : s.Extends u :=
  ⟨Nat.le_trans h.scopes h'.scopes, Nat.le_trans h.arrays h'.arrays,
    Nat.le_trans h.hashmaps h'.hashmaps, Nat.le_trans h.closures h'.closures⟩

theorem extends_newScope (outer : Option Nat) : s.Extends (s.newScope outer).2 :=
  ⟨by simp [newScope], Nat.le_refl _, Nat.le_refl _, Nat.le_refl _⟩

theorem extends_bind : s.Extends (s.bind scope name v) :=
  ⟨by simp [bind], Nat.le_refl _, Nat.le_refl _, Nat.le_refl _⟩

theorem extends_newArray (a : Array Value) : s.Extends (s.newArray a).2 :=
  ⟨Nat.le_refl _, by simp [newArray], Nat.le_refl _, Nat.le_refl _⟩

theorem extends_newHashmap (m : Hashmap) : s.Extends (s.newHashmap m).2 :=
  ⟨Nat.le_refl _, Nat.le_refl _, by simp [newHashmap], Nat.le_refl _⟩

theorem extends_newClosure (c : Closure) : s.Extends (s.newClosure c).2 :=
  ⟨Nat.le_refl _, Nat.le_refl _, Nat.le_refl _, by simp [newClosure]⟩

theorem extends_push : s.Extends (s.push place v) :=
  ⟨Nat.le_refl _, by simp [push], Nat.le_refl _, Nat.le_refl _⟩

theorem IsData.mono (h : s.IsData v) (he : s.Extends t) : t.IsData v := by
  cases v with
  | array => exact Nat.lt_of_lt_of_le h he.arrays
  | hashmap => exact Nat.lt_of_lt_of_le h he.hashmaps
  | function => exact Nat.lt_of_lt_of_le h he.closures
  | error => exact h
  | returned => exact h
  | _ => trivial

theorem IsData.not_signal (h : s.IsData v) : v.isSignal = false := by
  cases v with
  | error => exact h.elim
  | returned => exact h.elim
  | _ => rfl

theorem isData_of_isScalar (h : v.IsScalar) : s.IsData v := by
  cases v with
  | array => exact h.elim
  | hashmap => exact h.elim
  | function => exact h.elim
  | error => exact h
  | returned => exact h
  | _ => trivial

/-- All that a store holds is sound. -/
structure WellFormed (s : Store) : Prop where
  data : s.All s.IsData
  keyed : ∀ place, (s.hashmap place).Keyed
  closure : ∀ ⦃place : Nat⦄ ⦃c : Closure⦄, s.closures[place]? = some c → c.scope < s.scopes.size
  outer : ∀ ⦃scope o : Nat⦄, s.outerOf scope = some o → o < scope

namespace WellFormed

theorem empty : ({} : Store).WellFormed :=
  ⟨.empty, fun _ => Hashmap.keyed_empty, by simp, by simp [outerOf]⟩

theorem newScope (h : s.WellFormed) {outer : Option Nat} (ho : ∀ o ∈ outer, o < s.scopes.size) :
    (s.newScope outer).2.WellFormed := by
  have he := extends_newScope (s := s) outer
  refine ⟨(h.data.newScope outer).mono fun v hv => hv.mono he, h.keyed, fun place c hc => ?_,
    fun scope o hs => ?_⟩
  · exact Nat.lt_of_lt_of_le (h.closure hc) he.scopes
  · simp only [outerOf, Store.newScope, Array.getElem?_push] at hs
    split at hs
    · next hsize =>
      rw [hsize]
      exact ho o hs
    · exact h.outer hs

theorem bind (h : s.WellFormed) (hv : s.IsData v) (scope : Nat) (name : String) :
    (s.bind scope name v).WellFormed := by
  have he : s.Extends (s.bind scope name v) := extends_bind
  refine ⟨(h.data.bind hv scope name).mono fun v hv => hv.mono he, h.keyed, fun place c hc => ?_,
    fun i o hs => ?_⟩
  · exact Nat.lt_of_lt_of_le (h.closure hc) he.scopes
  · simp only [outerOf, Store.bind, Array.getElem?_modify] at hs
    refine h.outer (Eq.trans ?_ hs)
    by_cases hi : scope = i
    · cases hsc : s.scopes[i]? <;> simp [outerOf, hi, hsc]
    · simp [outerOf, hi]

theorem newArray (h : s.WellFormed) {a : Array Value} (ha : ∀ v ∈ a, s.IsData v) :
    (s.newArray a).2.WellFormed :=
  ⟨(h.data.newArray ha).mono fun _ hv => hv.mono (extends_newArray a), h.keyed, h.closure, h.outer⟩

theorem newHashmap (h : s.WellFormed) (hk : m.Keyed) (hm : ∀ e ∈ m.entries, s.IsData e.value) :
    (s.newHashmap m).2.WellFormed := by
  refine ⟨(h.data.newHashmap hm).mono fun _ hv => hv.mono (extends_newHashmap m), fun place => ?_,
    h.closure, h.outer⟩
  rw [hashmap_newHashmap]
  split
  · exact hk
  · exact h.keyed place

theorem newClosure (h : s.WellFormed) (hc : c.scope < s.scopes.size) :
    (s.newClosure c).2.WellFormed := by
  refine ⟨(h.data.newClosure c).mono fun _ hv => hv.mono (extends_newClosure c), h.keyed,
    fun place d hd => ?_, h.outer⟩
  simp only [Store.newClosure, Array.getElem?_push] at hd
  split at hd
  · cases hd
    exact hc
  · exact h.closure hd

theorem push (h : s.WellFormed) (hv : s.IsData v) (place : Nat) : (s.push place v).WellFormed :=
  ⟨(h.data.push hv place).mono fun _ hw => hw.mono extends_push, h.keyed, h.closure, h.outer⟩

/-- Going outward from a scope ends. -/
theorem wellFounded_outer (h : s.WellFormed) :
    WellFounded fun o scope => s.outerOf scope = some o :=
  Subrelation.wf (fun ho => h.outer ho) Nat.lt_wfRel.wf

/-- A scope is not around itself. -/
theorem outer_acyclic (h : s.WellFormed) (scope : Nat) :
    ¬ Relation.TransGen (fun o scope => s.outerOf scope = some o) scope scope :=
  h.wellFounded_outer.transGen.irrefl.irrefl scope

/-- A lookup has looked at all scopes around before their number is reached. -/
theorem lookupWithin_eq (h : s.WellFormed) (name : String) {n k : Nat} (hn : scope < n)
    (hk : scope < k) : s.lookupWithin name n scope = s.lookupWithin name k scope := by
  induction n generalizing scope k with
  | zero => cases hn
  | succ n ih =>
    cases k with
    | zero => cases hk
    | succ k =>
      unfold lookupWithin
      split
      · rfl
      · cases ho : s.outerOf scope with
        | none => rfl
        | some o =>
          have hlt := h.outer ho
          exact ih (by omega) (by omega)

end WellFormed

end Store

end Scriptlet
