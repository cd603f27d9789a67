import Mathlib.Tactic

/-!
# Copies into arrays

A program that copies into arrays of fixed size runs until a copy that does not fit. `Fine x` says
that none of `x`'s copies is one; what it takes is read off the program, copy by copy
(`fine_bind_iff`, `fine_copy_iff`).
-/

namespace Rooms

variable {α β : Type}
variable {at_ room : ℕ} {s : List UInt8}

/-- A copy of `size` bytes, the terminator among them, into an array of `room`. -/
structure Overrun where
  size : ℕ
  room : ℕ
  deriving DecidableEq

/-- What a program that copies comes to. -/
abbrev Copying (α : Type) := Except Overrun α

/-- The string `s` copied with its terminator into an array of `room` bytes, `at_` bytes in. -/
def copy (room at_ : ℕ) (s : List UInt8) : Copying (List UInt8) :=
  if at_ + s.length + 1 ≤ room then .ok s else .error ⟨at_ + s.length + 1, room⟩

/-- `n` bytes copied without one. -/
def copyBytes (room at_ n : ℕ) : Copying Unit :=
  if at_ + n ≤ room then .ok () else .error ⟨at_ + n, room⟩

/-- No copy is too long. -/
def Fine (x : Copying α) : Prop := ∃ a, x = .ok a

instance (x : Copying α) : Decidable (Fine x) :=
  match x with
  | .ok a => isTrue ⟨a, rfl⟩
  | .error _ => isFalse fun ⟨_, h⟩ => by cases h

@[simp] theorem fine_ok (a : α) : Fine (.ok a) := ⟨a, rfl⟩

@[simp] theorem fine_pure (a : α) : Fine (pure a) := ⟨a, rfl⟩

theorem fine_bind_iff {x : Copying α} {f : α → Copying β} :
    Fine (x >>= f) ↔ ∃ a, x = .ok a ∧ Fine (f a) := by
  cases x with
  | ok a =>
    constructor
    · exact fun h => ⟨a, rfl, h⟩
    · rintro ⟨b, hb, h⟩
      cases hb
      exact h
  | error e =>
    constructor
    · rintro ⟨b, hb⟩
      cases hb
    · rintro ⟨b, hb, -⟩
      cases hb

/-- What comes after what is fine. -/
theorem fine_bind_of_ok {x : Copying α} {f : α → Copying β} {a : α} (h : x = .ok a) :
    Fine (x >>= f) ↔ Fine (f a) := by
  rw [h]
  rfl

theorem copy_of_le (h : at_ + s.length + 1 ≤ room) :
    copy room at_ s = .ok s := if_pos h

theorem copyBytes_of_le {n : ℕ} (h : at_ + n ≤ room) : copyBytes room at_ n = .ok () :=
  if_pos h

theorem fine_copy_iff :
    Fine (copy room at_ s) ↔ at_ + s.length + 1 ≤ room := by
  unfold copy
  split_ifs with h
  · exact iff_of_true ⟨s, rfl⟩ h
  · exact iff_of_false (fun ⟨_, he⟩ => by cases he) h

/-- A program that copies and goes on. -/
theorem fine_copy_bind_iff {f : List UInt8 → Copying β} :
    Fine (copy room at_ s >>= f) ↔ at_ + s.length + 1 ≤ room ∧ Fine (f s) := by
  rw [fine_bind_iff]
  constructor
  · rintro ⟨a, ha, h⟩
    have hle : at_ + s.length + 1 ≤ room := fine_copy_iff.1 ⟨a, ha⟩
    rw [copy_of_le hle] at ha
    obtain rfl := Except.ok.inj ha
    exact ⟨hle, h⟩
  · rintro ⟨hle, h⟩
    exact ⟨s, copy_of_le hle, h⟩

end Rooms
