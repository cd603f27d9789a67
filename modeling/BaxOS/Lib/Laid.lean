import BaxOS.Lib.Extents
import BaxOS.Lib.Strings

/-!
# Words and strings laid in a store

Eight-byte words one after the other (`putWords`) read back as what was put (`word64_putWords`), and
strings laid one below another (`layDown`) are spelled where they were put, each in a run of its own
(`layDown_spec`).
-/

namespace ByteStore
open Extents

variable {d d' : Store} {a b m n v top : ℕ}

/-- Eight bytes as a little-endian number. -/
def word64 (d : Store) (a : ℕ) : ℕ := word d a + 2 ^ 32 * word d (a + 4)

/-- A number put as eight bytes. -/
def putWord (d : Store) (a v : ℕ) : Store := blit d a 8 (wordBytes v)

/-- Numbers put one after the other, from `a` on. -/
def putWords : Store → ℕ → List ℕ → Store
  | d, _, [] => d
  | d, a, v :: vs => putWords (putWord d a v) (a + 8) vs

/-- A string put with its NUL. -/
def putString (d : Store) (a : ℕ) (s : List UInt8) : Store :=
  blit d a (s.length + 1) fun i => s.getD i 0

/-- Strings put one below another under `top`: where the last begins, and where each does. -/
def layDown : Store → ℕ → List (List UInt8) → Store × ℕ × List ℕ
  | d, top, [] => (d, top, [])
  | d, top, s :: strs =>
    let a := top - (s.length + 1)
    let (d, bottom, as) := layDown (putString d a s) a strs
    (d, bottom, a :: as)

/-! ### Words -/

theorem word64_congr (h : Agree d d' a 8) : word64 d a = word64 d' a := by
  unfold word64
  rw [word_congr (h.mono le_rfl (by omega)), word_congr (h.mono (b := a + 4) (by omega) (by omega))]

theorem word64_putWord (d : Store) (a : ℕ) (hv : v < 2 ^ 64) : word64 (putWord d a v) a = v := by
  have hlow : word (putWord d a v) a = v % 2 ^ 32 := by
    apply word_of_bytes
    intro i hi
    rw [putWord, blit_of_mem (by omega) (by omega), Nat.add_sub_cancel_left]
  have hhigh : word (putWord d a v) (a + 4) = v / 2 ^ 32 % 2 ^ 32 := by
    apply word_of_bytes
    intro i hi
    rw [putWord, blit_of_mem (by omega) (by omega), wordBytes, wordBytes,
      show a + 4 + i - a = 4 + i by omega, Nat.div_div_eq_div_mul, Nat.pow_add]
    rfl
  unfold word64
  rw [hlow, hhigh]
  omega

theorem Agree.putWord (h : a + n ≤ b ∨ b + 8 ≤ a) : Agree (putWord d b v) d a n := Agree.blit h

theorem Agree.putWords {vs : List ℕ} (h : a + n ≤ b ∨ b + 8 * vs.length ≤ a) :
    Agree (putWords d b vs) d a n := by
  induction vs generalizing d b with
  | nil => exact Agree.rfl'
  | cons v vs ih =>
    rw [List.length_cons] at h
    exact (ih (by omega)).trans (Agree.putWord (by omega))

/-- **Words put one after the other** read back. -/
theorem word64_putWords {vs : List ℕ} (hv : ∀ v ∈ vs, v < 2 ^ 64) {i : ℕ} (hi : i < vs.length) :
    word64 (putWords d a vs) (a + 8 * i) = vs[i] := by
  induction vs generalizing d a i with
  | nil => exact absurd hi (Nat.not_lt_zero i)
  | cons v vs ih =>
    cases i with
    | zero =>
      have hrest : Agree (putWords (ByteStore.putWord d a v) (a + 8) vs) (ByteStore.putWord d a v) a 8 :=
        Agree.putWords (by omega)
      exact (word64_congr hrest).trans (word64_putWord d a (hv v List.mem_cons_self))
    | succ i =>
      rw [show a + 8 * (i + 1) = a + 8 + 8 * i by omega]
      exact ih (fun w hw => hv w (List.mem_cons_of_mem v hw)) (by simpa using hi)

/-! ### Strings -/

theorem Agree.putString {s : List UInt8} (h : a + n ≤ b ∨ b + (s.length + 1) ≤ a) :
    Agree (putString d b s) d a n := Agree.blit h

/-- Two strings spelled in one place are one. -/
theorem Spells.unique {s t : List UInt8} (hs : Spells d a s) (ht : Spells d a t) (h0 : 0 ∉ s)
    (h0' : 0 ∉ t) : s = t := by
  have h := hs.cstr (n := s.length + t.length + 1) h0 (by omega)
  rw [ht.cstr h0' (by omega)] at h
  exact h.symm

/-- The run of each string of a list, from where it was put. -/
def runs (as : List ℕ) (strs : List (List UInt8)) : List Run :=
  List.zipWith (fun a s => (a, s.length + 1)) as strs

@[simp] theorem runs_nil (as : List ℕ) : runs as [] = [] := List.zipWith_nil_right

@[simp] theorem runs_cons (a : ℕ) (as : List ℕ) (s : List UInt8) (strs : List (List UInt8)) :
    runs (a :: as) (s :: strs) = (a, s.length + 1) :: runs as strs := rfl

/-- What strings laid under `top` down to `bottom` are: spelled, apart and between the two, and
nothing else is touched. -/
structure Laid (d d' : Store) (top bottom : ℕ) (as : List ℕ) (strs : List (List UInt8)) : Prop where
  bottom_eq : bottom + (packed strs).length = top
  spelled : List.Forall₂ (Spells d') as strs
  apart : (runs as strs).Pairwise Apart
  inside : ∀ r ∈ runs as strs, bottom ≤ r.1 ∧ r.1 + r.2 ≤ top
  below : ∀ {x k}, x + k ≤ bottom ∨ top ≤ x → Agree d' d x k

/-- **Strings laid one below another.** -/
theorem layDown_spec (d : Store) (top : ℕ) {strs : List (List UInt8)}
    (h : (packed strs).length ≤ top) :
    Laid d (layDown d top strs).1 top (layDown d top strs).2.1 (layDown d top strs).2.2 strs := by
  induction strs generalizing d top with
  | nil => exact ⟨rfl, .nil, .nil, by simp [runs, layDown], fun _ => Agree.rfl'⟩
  | cons s strs ih =>
    rw [packed_cons] at h
    simp only [List.length_append, List.length_singleton] at h
    set a := top - (s.length + 1) with ha
    have hbot : (layDown d top (s :: strs)).2.1 = (layDown (putString d a s) a strs).2.1 := rfl
    obtain ⟨hb, hs, hp, hin, hbelow⟩ := ih (putString d a s) a (by omega)
    rw [hbot]
    refine ⟨?_, ?_, ?_, ?_, ?_⟩
    · rw [packed_cons]
      simp only [List.length_append, List.length_singleton]
      omega
    · exact .cons ((Spells.blit d a s).congr (hbelow (Or.inr le_rfl)).symm) hs
    · refine .cons ?_ hp
      intro r hr
      exact Or.inr (Or.inr (Or.inr (hin r hr).2))
    · intro r hr
      rcases List.mem_cons.1 hr with rfl | hr
      · simp only
        omega
      · have := hin r hr
        omega
    · intro x k hx
      refine (hbelow ?_).trans (Agree.putString ?_)
      · omega
      · omega

end ByteStore
