import Mathlib.Tactic

/-!
# Looking at a memory

A computation that looks at bytes of a memory, and where it looked (`Peeks`). `Below n memory m Q` says that
it looks at nothing from `n` on and that its result is as `Q` says; there is a rule for each way such
computations are put together.
-/

/-- A computation that looks at bytes of a memory: its result, and where it looked. -/
def Peeks (α : Type) : Type := (ℕ → UInt8) → α × List ℕ

namespace Peeks

variable {α β ι : Type} {n : ℕ} {memory : ℕ → UInt8} {Q R : α → Prop}

instance : Monad Peeks where
  pure a := fun _ => (a, [])
  bind m f := fun memory => ((f (m memory).1 memory).1, (m memory).2 ++ (f (m memory).1 memory).2)

/-- A byte. -/
def peek (i : ℕ) : Peeks UInt8 := fun memory => (memory i, [i])

/-- Bytes from `at_` on. -/
def look (at_ count : ℕ) : Peeks (List UInt8) := fun memory =>
  ((List.range count).map fun i => memory (at_ + i), (List.range count).map fun i => at_ + i)

/-- It looks at nothing from `n` on, and its result is as `Q` says. -/
def Below (n : ℕ) (memory : ℕ → UInt8) (m : Peeks α) (Q : α → Prop) : Prop :=
  (∀ i ∈ (m memory).2, i < n) ∧ Q (m memory).1

/-! ### What it comes to -/

@[simp] theorem pure_apply (a : α) : (pure a : Peeks α) memory = (a, []) := rfl

@[simp] theorem bind_apply (m : Peeks α) (f : α → Peeks β) : (m >>= f) memory =
    ((f (m memory).1 memory).1, (m memory).2 ++ (f (m memory).1 memory).2) := rfl

@[simp] theorem peek_apply (i : ℕ) : peek i memory = (memory i, [i]) := rfl

/-! ### The rules -/

@[simp] theorem below_pure {a : α} : Below n memory (pure a) Q ↔ Q a := by
  unfold Below
  simp

@[simp] theorem below_bind {m : Peeks α} {f : α → Peeks β} {Q : β → Prop} :
    Below n memory (m >>= f) Q ↔ Below n memory m fun a => Below n memory (f a) Q := by
  unfold Below
  constructor
  · rintro ⟨hall, hq⟩
    exact ⟨fun i hi => hall i (List.mem_append_left _ hi),
      fun i hi => hall i (List.mem_append_right _ hi), hq⟩
  · rintro ⟨hm, hf, hq⟩
    refine ⟨fun i hi => ?_, hq⟩
    rcases List.mem_append.1 hi with hi | hi
    · exact hm i hi
    · exact hf i hi

@[simp] theorem below_peek {i : ℕ} {Q : UInt8 → Prop} : Below n memory (peek i) Q ↔ i < n ∧ Q (memory i) := by
  unfold Below
  simp

theorem below_ite {p : Prop} [Decidable p] {m m' : Peeks α} (hm : p → Below n memory m Q)
    (hm' : ¬p → Below n memory m' Q) : Below n memory (if p then m else m') Q := by
  split_ifs with hp
  · exact hm hp
  · exact hm' hp

/-- Bytes that end where they may. -/
theorem below_look {at_ count : ℕ} {Q : List UInt8 → Prop} (hle : at_ + count ≤ n)
    (hq : Q ((List.range count).map fun i => memory (at_ + i))) : Below n memory (look at_ count) Q := by
  refine ⟨fun i hi => ?_, hq⟩
  obtain ⟨k, hk, rfl⟩ := List.mem_map.1 hi
  have := List.mem_range.1 hk
  omega

/-- Where the result matters no more. -/
theorem Below.mono {m : Peeks α} (h : Below n memory m Q) (himp : ∀ a, Q a → R a) : Below n memory m R :=
  ⟨h.1, himp _ h.2⟩

/-- **A loop**, by what each turn of it keeps. -/
theorem below_foldlM {f : α → ι → Peeks α} {l : List ι} {a : α} (ha : Q a)
    (hf : ∀ a, ∀ i ∈ l, Q a → Below n memory (f a i) Q) : Below n memory (l.foldlM f a) Q := by
  induction l generalizing a with
  | nil => exact below_pure.2 ha
  | cons i l ih =>
    rw [List.foldlM_cons, below_bind]
    refine (hf a i List.mem_cons_self ha).mono fun b hb => ?_
    exact ih hb fun c j hj => hf c j (List.mem_cons_of_mem _ hj)

/-! ### Where it looked -/

theorem mem_bind {i : ℕ} {m : Peeks α} {f : α → Peeks β} :
    i ∈ ((m >>= f) memory).2 ↔ i ∈ (m memory).2 ∨ i ∈ (f (m memory).1 memory).2 := List.mem_append

/-- A turn of a loop is made. -/
theorem mem_foldlM {f : α → ι → Peeks α} {l : List ι} {a : α} {i : ι} {x : ℕ} (hi : i ∈ l) (ha : Q a)
    (hkeep : ∀ a, ∀ j ∈ l, Q a → Q (f a j memory).1) (hx : ∀ a, Q a → x ∈ (f a i memory).2) :
    x ∈ (l.foldlM f a memory).2 := by
  induction l generalizing a with
  | nil => cases hi
  | cons j l ih =>
    rw [List.foldlM_cons, mem_bind]
    rcases List.mem_cons.1 hi with rfl | hi
    · exact .inl (hx a ha)
    · exact .inr (ih hi (hkeep a j List.mem_cons_self ha) fun b k hk => hkeep b k (List.mem_cons_of_mem _ hk))

end Peeks
