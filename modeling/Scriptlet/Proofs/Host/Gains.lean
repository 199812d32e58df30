import Mathlib.Logic.Relation
import Scriptlet.Host.Import
import Scriptlet.Proofs.Value.Founded

/-!
What host data brings to a store: new arrays and hashmaps, each filled with what host data became
before it, and names bound to such values. Nothing that was in the store changes, and neither
functions nor builtins come from outside.
-/

namespace Scriptlet

open Number Relation Value

variable {α β : Type} {s t : Store} {v : Value} {m : Hashmap} {p : Importing α}
  {f : α → Importing β} {R : α → Store → Prop} {R' : β → Store → Prop}

/-- A value that host data becomes. -/
inductive Store.IsImport (s : Store) : Value → Prop where
  | null : IsImport s .null
  | bool (b : Bool) : IsImport s (.bool b)
  | int {n : Int} (h : InWord n) : IsImport s (ofInt n)
  | string (text : String) : IsImport s (ofString text)
  | array {place : Nat} (h : place < s.arrays.size) : IsImport s (.array place)
  | hashmap {place : Nat} (h : place < s.hashmaps.size) : IsImport s (.hashmap place)

/-- A hashmap that a map becomes, all keys of which are texts. -/
def Hashmap.IsImport (m : Hashmap) (s : Store) : Prop :=
  m.Keyed ∧ ∀ e ∈ m.entries, (∃ text, e.key = .string text) ∧ s.IsImport e.value

namespace Store

/-- One thing that host data brings. -/
inductive Brings : Store → Store → Prop where
  | array {s : Store} {vs : List Value} (h : ∀ v ∈ vs, s.IsImport v) :
    Brings s (s.newArray vs.toArray).2
  | hashmap {s : Store} {m : Hashmap} (h : m.IsImport s) : Brings s (s.newHashmap m).2
  | bound {s : Store} {v : Value} (h : s.IsImport v) (scope : Nat) (name : String) :
    Brings s (s.bind scope name v)

/-- All that host data brings, one thing after the other. -/
abbrev Gains : Store → Store → Prop := ReflTransGen Brings

theorem IsImport.mono (h : s.IsImport v) (he : s.Extends t) : t.IsImport v := by
  cases h with
  | null => exact .null
  | bool b => exact .bool b
  | int hn => exact .int hn
  | string text => exact .string text
  | array hp => exact .array (Nat.lt_of_lt_of_le hp he.arrays)
  | hashmap hp => exact .hashmap (Nat.lt_of_lt_of_le hp he.hashmaps)

theorem IsImport.isData (h : s.IsImport v) : s.IsData v := by
  cases h with
  | array hp => exact hp
  | hashmap hp => exact hp
  | _ => trivial

theorem IsImport.ne_builtin (h : s.IsImport v) (b : Builtin) : v ≠ .builtin b := by
  cases h <;> nofun

theorem Brings.extends (h : s.Brings t) : s.Extends t := by
  cases h with
  | array => exact extends_newArray _
  | hashmap => exact extends_newHashmap _
  | bound => exact extends_bind

theorem Gains.extends (h : s.Gains t) : s.Extends t := by
  induction h with
  | refl => exact .refl s
  | tail _ hb ih => exact ih.trans hb.extends

theorem Brings.wellFormed (h : s.Brings t) (hs : s.WellFormed) : t.WellFormed := by
  cases h with
  | array hv => exact hs.newArray fun v hm => (hv v (List.mem_toArray.mp hm)).isData
  | hashmap hm => exact hs.newHashmap hm.1 fun e he => (hm.2 e he).2.isData
  | bound hv scope name => exact hs.bind hv.isData scope name

theorem Gains.wellFormed (h : s.Gains t) (hs : s.WellFormed) : t.WellFormed := by
  induction h with
  | refl => exact hs
  | tail _ hb ih => exact hb.wellFormed ih

theorem Brings.founded (h : s.Brings t) (hs : s.WellFormed) (hf : s.Founded) : t.Founded := by
  cases h with
  | array hv => exact hf.newArray hs fun v hm => (hv v (List.mem_toArray.mp hm)).isData
  | hashmap hm => exact hf.newHashmap hs fun e he => (hm.2 e he).2.isData
  | bound _ scope name => exact hf.bind scope name _

theorem Gains.founded (h : s.Gains t) (hs : s.WellFormed) (hf : s.Founded) : t.Founded := by
  induction h with
  | refl => exact hf
  | tail hg hb ih => exact hb.founded (Gains.wellFormed hg hs) ih

/-- What holds of all values that come from outside goes on to hold of all in the store. -/
theorem Gains.all {q : Value → Prop} (h : s.Gains t) (hq : ∀ s v, IsImport s v → q v)
    (hs : s.All q) : t.All q := by
  induction h with
  | refl => exact hs
  | tail _ hb ih =>
    cases hb with
    | array hv => exact ih.newArray fun v hm => hq _ v (hv v (List.mem_toArray.mp hm))
    | hashmap hm => exact ih.newHashmap fun e he => hq _ _ (hm.2 e he).2
    | bound hv scope name => exact ih.bind (hq _ _ hv) scope name

theorem Gains.closures (h : s.Gains t) : t.closures = s.closures := by
  induction h with
  | refl => rfl
  | tail _ hb ih => cases hb <;> exact ih

theorem Brings.gains (h : s.Brings t) : s.Gains t := .single h

end Store

/-! ### Hashmaps -/

theorem Hashmap.isImport_empty (s : Store) : ({} : Hashmap).IsImport s := ⟨keyed_empty, by simp⟩

theorem Hashmap.IsImport.mono (h : m.IsImport s) (he : s.Extends t) : m.IsImport t :=
  ⟨h.1, fun e hm => ⟨(h.2 e hm).1, (h.2 e hm).2.mono he⟩⟩

theorem Hashmap.IsImport.put (h : m.IsImport s) (text : String) (hv : s.IsImport v) :
    (m.put (.string text) v).IsImport s := by
  refine ⟨h.1.put _ v, fun e he => ?_⟩
  rcases mem_putIn he with rfl | he
  · exact ⟨⟨text, rfl⟩, hv⟩
  · exact h.2 e he

/-! ### Conversions -/

/-- A conversion that succeeds adds to a store, with a result as described. -/
def Imports (s : Store) (R : α → Store → Prop) : Except ConversionFault (α × Store) → Prop
  | .ok (a, t) => s.Gains t ∧ R a t
  | .error _ => True

theorem Imports.bind (hp : Imports s R (p s))
    (hf : ∀ a t, s.Gains t → R a t → Imports t R' (f a t)) : Imports s R' ((p >>= f) s) := by
  simp only [Bind.bind, StateT.bind, Except.bind]
  generalize p s = x at hp
  match x, hp with
  | .error _, _ => trivial
  | .ok (a, t), ⟨hg, ha⟩ =>
    have h := hf a t hg ha
    simp only
    generalize f a t = y at h
    match y, h with
    | .error _, _ => trivial
    | .ok _, ⟨hg', hb⟩ => exact ⟨hg.trans hg', hb⟩

theorem imports_pure {a : α} (ha : R a s) : Imports s R ((pure a : Importing α) s) := ⟨.refl, ha⟩

theorem imports_importInt (n : Int) :
    Imports s (fun v t => t.IsImport v) (Host.importInt n s) := by
  unfold Host.importInt
  split
  · next hn => exact imports_pure (.int hn)
  · split <;> trivial

/-- The values of some host data are all there in the end. -/
theorem imports_items {g : Host → Importing Value}
    (hg : ∀ h s, Imports s (fun v t => t.IsImport v) (g h s)) (items : List Host) :
    Imports s (fun vs t => ∀ v ∈ vs, t.IsImport v) (items.mapM g s) := by
  induction items generalizing s with
  | nil => exact imports_pure (by simp)
  | cons h items ih =>
    rw [List.mapM_cons]
    refine (hg h s).bind fun v t _ hv => ih.bind fun vs u hu hvs => imports_pure ?_
    exact List.forall_mem_cons.mpr ⟨hv.mono hu.extends, hvs⟩

theorem imports_entries {g : Hashmap → HostKey × Host → Importing Hashmap}
    (hg : ∀ m e s, m.IsImport s → Imports s (fun m t => m.IsImport t) (g m e s))
    (hm : m.IsImport s) (entries : List (HostKey × Host)) :
    Imports s (fun m t => m.IsImport t) (entries.foldlM g m s) := by
  induction entries generalizing s m with
  | nil => exact imports_pure hm
  | cons e entries ih =>
    rw [List.foldlM_cons]
    exact (hg m e s hm).bind fun m' t _ hm' => ih hm'

theorem imports_newArray {vs : List Value} (hv : ∀ v ∈ vs, s.IsImport v) :
    Imports s (fun v t => t.IsImport v)
      ((modifyGet (·.newArray vs.toArray) : Importing Value) s) :=
  ⟨(Store.Brings.array hv).gains, .array (by simp)⟩

theorem imports_newHashmap (hm : m.IsImport s) :
    Imports s (fun v t => t.IsImport v) ((modifyGet (·.newHashmap m) : Importing Value) s) :=
  ⟨(Store.Brings.hashmap hm).gains, .hashmap (by simp)⟩

theorem imports_importIn (depth : Nat) (path : List String) (h : Host) (s : Store) :
    Imports s (fun v t => t.IsImport v) (Host.importIn depth path h s) := by
  induction depth generalizing s path h with
  | zero => trivial
  | succ d ih =>
    cases h with
    | null => exact imports_pure .null
    | bool b => exact imports_pure (.bool b)
    | int n => exact imports_importInt n
    | real x =>
      simp only [Host.importIn]
      cases x.truncate? with
      | some n => exact imports_importInt n
      | none => trivial
    | text t => exact imports_pure (.string t)
    | list items | tuple items =>
      exact (imports_items (fun h s => ih _ h s) items).bind fun vs t _ hvs => imports_newArray hvs
    | map entries =>
      refine (imports_entries (fun m e s hm => ?_) (Hashmap.isImport_empty s) entries).bind
        fun m t _ hm => imports_newHashmap hm
      obtain ⟨key, h⟩ := e
      cases key with
      | text name =>
        exact (ih _ h s).bind fun v t hg hv => imports_pure ((hm.mono hg.extends).put name hv)
      | other typeName => trivial
    | foreign typeName => trivial
    | up levels => trivial

/-! ### Bindings -/

namespace Store

/-- Bindings add to a store, also those before a fault. -/
theorem gains_bindEach (depth scope : Nat)
    (bindings : List (HostKey × Except ConversionFault Host)) (s : Store) :
    s.Gains (s.bindEach depth scope bindings).1 := by
  induction bindings generalizing s with
  | nil => exact .refl
  | cons b bindings ih =>
    obtain ⟨key, host⟩ := b
    cases host with
    | error fault => exact .refl
    | ok h =>
      have hv : Imports s (fun v t => t.IsImport v) (h.toValue depth s) :=
        imports_importIn depth [] h s
      simp only [bindEach, Except.bind]
      generalize h.toValue depth s = x at hv
      match x, hv with
      | .error fault, _ => exact .refl
      | .ok (v, t), ⟨hg, hw⟩ =>
        cases key with
        | text name => exact (hg.tail (.bound hw scope name)).trans (ih _)
        | other typeName => exact hg.trans (ih t)

theorem gains_bindAll (depth scope : Nat) (bindings : List (HostKey × Host))
    (names : Option (List String)) (s : Store) :
    s.Gains (s.bindAll depth scope bindings names).1 :=
  gains_bindEach depth scope (selected bindings names) s

end Store

end Scriptlet
