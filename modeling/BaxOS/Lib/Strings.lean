import BaxOS.Lib.Store
import Mathlib.Tactic

/-!
# Strings in a store

`Spells` says that a string and its NUL lie at an address. Strings packed one after the other, each
with its NUL, start at the `offset`s: a store that holds the packed bytes spells each string there
(`spells_packed`).
-/

namespace ByteStore

variable {strs : List (List UInt8)} {i : ℕ}

/-- The characters of `s` and a NUL lie at `a`. -/
structure Spells (d : Store) (a : ℕ) (s : List UInt8) : Prop where
  chars : ∀ i, i < s.length → d (a + i) = s.getD i 0
  nul : d (a + s.length) = 0

namespace Spells

variable {d d' : Store} {a n : ℕ} {s : List UInt8}

theorem cstr (h : Spells d a s) (h0 : 0 ∉ s) (hn : s.length < n) : cstr d a n = s :=
  cstr_of_spelled h0 hn h.chars h.nul

/-- The same bytes spell the same. -/
theorem congr (h : Spells d a s) (hd : Agree d d' a (s.length + 1)) : Spells d' a s where
  chars i hi := by rw [← hd (a + i) (by omega) (by omega), h.chars i hi]
  nul := by rw [← hd (a + s.length) (by omega) (by omega), h.nul]

/-- A string copied with its NUL. -/
theorem blit (d : Store) (a : ℕ) (s : List UInt8) :
    Spells (blit d a (s.length + 1) fun i => s.getD i 0) a s where
  chars i hi := by rw [blit_of_mem (by omega) (by omega), Nat.add_sub_cancel_left]
  nul := by
    rw [blit_of_mem (by omega) (by omega), Nat.add_sub_cancel_left]
    simp

end Spells

/-- Strings one after the other, each with its NUL. -/
def packed (strs : List (List UInt8)) : List UInt8 := strs.flatMap (· ++ [0])

/-- Where string `i` of the packed ones starts. -/
def offset (strs : List (List UInt8)) (i : ℕ) : ℕ := (packed (strs.take i)).length

@[simp] theorem packed_nil : packed [] = [] := rfl

theorem packed_cons (s : List UInt8) (strs : List (List UInt8)) :
    packed (s :: strs) = s ++ [0] ++ packed strs := rfl

theorem packed_append (strs strs' : List (List UInt8)) :
    packed (strs ++ strs') = packed strs ++ packed strs' := List.flatMap_append

theorem packed_concat (strs : List (List UInt8)) (s : List UInt8) :
    packed (strs ++ [s]) = packed strs ++ s ++ [0] := by
  rw [packed_append, packed_cons, packed_nil, List.append_nil, List.append_assoc]

/-- What is left out takes no room. -/
theorem packed_length_le {strs' : List (List UInt8)} (h : strs.Sublist strs') :
    (packed strs).length ≤ (packed strs').length := by
  induction h with
  | slnil => exact le_rfl
  | cons s _ ih =>
    rw [packed_cons, List.length_append]
    omega
  | cons_cons s _ ih =>
    rw [packed_cons, packed_cons, List.length_append]
    simp only [List.length_append] at ih ⊢
    omega

@[simp] theorem offset_zero (strs : List (List UInt8)) : offset strs 0 = 0 := by
  simp [offset]

theorem offset_succ (hi : i < strs.length) :
    offset strs (i + 1) = offset strs i + strs[i].length + 1 := by
  unfold offset
  rw [List.take_succ_eq_append_getElem hi, packed_concat]
  simp only [List.length_append, List.length_singleton]

theorem packed_split (hi : i < strs.length) :
    packed strs = packed (strs.take i) ++ (strs[i] ++ [0]) ++ packed (strs.drop (i + 1)) := by
  conv_lhs => rw [← List.take_append_drop i strs, packed_append, List.drop_eq_getElem_cons hi,
    packed_cons]
  simp only [List.append_assoc]

/-- Each string ends within the packed bytes. -/
theorem offset_lt (hi : i < strs.length) :
    offset strs i + strs[i].length < (packed strs).length := by
  rw [packed_split hi]
  simp only [List.length_append, List.length_singleton, offset]
  omega

/-- **Packed strings are spelled at their offsets.** -/
theorem spells_packed {d : Store} {a : ℕ}
    (hd : ∀ k, k < (packed strs).length → d (a + k) = (packed strs).getD k 0)
    (hi : i < strs.length) : Spells d (a + offset strs i) strs[i] := by
  have hlt := offset_lt hi
  have hget : ∀ k, k ≤ strs[i].length →
      (packed strs).getD (offset strs i + k) 0 = (strs[i] ++ [0]).getD k 0 := by
    intro k hk
    rw [packed_split hi, List.append_assoc]
    simp only [List.getD_eq_getElem?_getD, offset]
    rw [List.getElem?_append_right (by omega), Nat.add_sub_cancel_left,
      List.getElem?_append_left (by simp; omega)]
  constructor
  · intro k hk
    rw [Nat.add_assoc, hd _ (by omega), hget k (by omega)]
    simp only [List.getD_eq_getElem?_getD]
    rw [List.getElem?_append_left hk]
  · rw [Nat.add_assoc, hd _ hlt, hget _ le_rfl]
    simp

end ByteStore
