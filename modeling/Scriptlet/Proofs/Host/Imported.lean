import Scriptlet.Proofs.Host.Gains

/-! Host data that goes into a store leaves it well formed. -/

namespace Scriptlet

variable {α : Type} {s t : Store} {R R' : α → Store → Prop}

/-- A conversion that succeeds leaves a well-formed store with all that was there before, and a
result as described. -/
def Imported (s : Store) (R : α → Store → Prop) : Except ConversionFault (α × Store) → Prop
  | .ok (a, t) => t.WellFormed ∧ s.Extends t ∧ R a t
  | .error _ => True

theorem Imports.imported {x : Except ConversionFault (α × Store)} (hx : Imports s R x)
    (h : s.WellFormed) (hR : ∀ a t, R a t → R' a t) : Imported s R' x := by
  match x, hx with
  | .error _, _ => trivial
  | .ok (a, t), ⟨hg, ha⟩ => exact ⟨hg.wellFormed h, hg.extends, hR a t ha⟩

/-- A hashmap that can be put into a store. -/
def Hashmap.IsFilled (m : Hashmap) (s : Store) : Prop :=
  m.Keyed ∧ ∀ e ∈ m.entries, s.IsData e.value

theorem Hashmap.IsFilled.mono {m : Hashmap} (h : m.IsFilled s) (he : s.Extends t) : m.IsFilled t :=
  ⟨h.1, fun e hm => (h.2 e hm).mono he⟩

theorem Hashmap.isFilled_empty (s : Store) : ({} : Hashmap).IsFilled s :=
  ⟨keyed_empty, by simp⟩

theorem Hashmap.IsFilled.put {m : Hashmap} (h : m.IsFilled s) (k : Key) {v : Value}
    (hv : s.IsData v) : (m.put k v).IsFilled s := by
  refine ⟨h.1.put k v, fun e he => ?_⟩
  rcases mem_putIn he with rfl | he
  · exact hv
  · exact h.2 e he

theorem imported_importIn (depth : Nat) (path : List String) (v : Host) (h : s.WellFormed) :
    Imported s (fun v t => t.IsData v) (Host.importIn depth path v s) :=
  (imports_importIn depth path v s).imported h fun _ _ hv => hv.isData

/-- Bindings of host data leave a store well formed, also those before a fault. -/
theorem wellFormed_bindEach (depth scope : Nat)
    (bindings : List (HostKey × Except ConversionFault Host)) (h : s.WellFormed) :
    (s.bindEach depth scope bindings).1.WellFormed :=
  (Store.gains_bindEach depth scope bindings s).wellFormed h

theorem wellFormed_bindAll (depth scope : Nat) (bindings : List (HostKey × Host))
    (names : Option (List String)) (h : s.WellFormed) :
    (s.bindAll depth scope bindings names).1.WellFormed :=
  wellFormed_bindEach depth scope (selected bindings names) h

end Scriptlet
