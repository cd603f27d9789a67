import Mathlib.Tactic

/-!
# Byte stores

A store gives a byte at every address. `blit` copies a run of bytes into one, `word` reads four
bytes as a little-endian number and `cstr` reads a NUL-terminated string; each reading depends
only on the bytes of its own run (`word_congr`, `cstr_congr`) and gives back what was written
there (`word_blit_wordBytes`, `cstr_setString`).
-/

namespace ByteStore

/-- A byte at every address. -/
abbrev Store := ℕ → UInt8

/-- The store `d` with `n` bytes of `src` copied over it from address `a` on. -/
def blit (d : Store) (a n : ℕ) (src : Store) : Store :=
  fun x => if a ≤ x ∧ x < a + n then src (x - a) else d x

/-- Four bytes as a little-endian number. -/
def word (d : Store) (a : ℕ) : ℕ :=
  (d a).toNat + 256 * (d (a + 1)).toNat + 65536 * (d (a + 2)).toNat +
    16777216 * (d (a + 3)).toNat

/-- The bytes of a number, the lowest first. -/
def wordBytes (v : ℕ) : Store := fun i => UInt8.ofNat (v / 256 ^ i)

/-- The string at `a`, up to its NUL and at most `n` bytes. -/
def cstr (d : Store) : ℕ → ℕ → List UInt8
  | _, 0 => []
  | a, n + 1 => if d a = 0 then [] else d a :: cstr d (a + 1) n

/-- The `n` bytes at `a` set to the string `s`, zeros after it. -/
def setString (d : Store) (a n : ℕ) (s : List UInt8) : Store :=
  blit (blit d a n fun _ => 0) a s.length fun i => s.getD i 0

/-! ### Copies -/

section Blit

variable {d src : Store} {a n x : ℕ}

theorem blit_of_mem (h : a ≤ x) (h' : x < a + n) : blit d a n src x = src (x - a) :=
  if_pos ⟨h, h'⟩

theorem blit_of_notMem (h : x < a ∨ a + n ≤ x) : blit d a n src x = d x :=
  if_neg (by omega)

@[simp] theorem blit_zero (d src : Store) (a : ℕ) : blit d a 0 src = d := by
  funext x; exact blit_of_notMem (by omega)

end Blit

/-- Two stores with the same `n` bytes from `a` on. -/
def Agree (d d' : Store) (a n : ℕ) : Prop := ∀ x, a ≤ x → x < a + n → d x = d' x

namespace Agree

variable {d d' d'' src : Store} {a b m n : ℕ}

theorem rfl' : Agree d d a n := fun _ _ _ => rfl

theorem symm (h : Agree d d' a n) : Agree d' d a n := fun x hx hx' => (h x hx hx').symm

theorem trans (h : Agree d d' a n) (h' : Agree d' d'' a n) : Agree d d'' a n :=
  fun x hx hx' => (h x hx hx').trans (h' x hx hx')

/-- Agreement on a run is agreement on every run inside it. -/
theorem mono (h : Agree d d' a n) (hb : a ≤ b) (hm : b + m ≤ a + n) : Agree d d' b m :=
  fun x hx hx' => h x (by omega) (by omega)

/-- A copy changes nothing outside where it goes. -/
theorem blit (h : a + n ≤ b ∨ b + m ≤ a) : Agree (blit d b m src) d a n :=
  fun _ hx hx' => blit_of_notMem (by omega)

end Agree

/-! ### Words -/

theorem word_lt (d : Store) (a : ℕ) : word d a < 2 ^ 32 := by
  have h0 := (d a).toNat_lt
  have h1 := (d (a + 1)).toNat_lt
  have h2 := (d (a + 2)).toNat_lt
  have h3 := (d (a + 3)).toNat_lt
  unfold word
  omega

/-- The same four bytes, wherever they are, are the same number. -/
theorem word_shift {d d' : Store} {a b : ℕ} (h : ∀ i, i < 4 → d (a + i) = d' (b + i)) :
    word d a = word d' b := by
  have h0 := h 0 (by omega)
  rw [Nat.add_zero, Nat.add_zero] at h0
  unfold word
  rw [h0, h 1 (by omega), h 2 (by omega), h 3 (by omega)]

theorem word_congr {d d' : Store} {a : ℕ} (h : Agree d d' a 4) : word d a = word d' a :=
  word_shift fun i hi => h (a + i) (by omega) (by omega)

theorem word_zeros {d : Store} {a : ℕ} (h : ∀ x, a ≤ x → x < a + 4 → d x = 0) : word d a = 0 := by
  unfold word
  rw [h a (by omega) (by omega), h (a + 1) (by omega) (by omega),
    h (a + 2) (by omega) (by omega), h (a + 3) (by omega) (by omega)]
  rfl

/-- Four bytes of a number read as it, modulo `2 ^ 32`. -/
theorem word_of_bytes {d : Store} {a v : ℕ} (h : ∀ i, i < 4 → d (a + i) = wordBytes v i) :
    word d a = v % 2 ^ 32 := by
  have h0 := h 0 (by omega)
  rw [Nat.add_zero] at h0
  unfold word
  rw [h0, h 1 (by omega), h 2 (by omega), h 3 (by omega)]
  simp only [wordBytes, UInt8.toNat_ofNat']
  omega

/-- A number written as four bytes reads back modulo `2 ^ 32`. -/
theorem word_blit_wordBytes (d : Store) (a v : ℕ) :
    word (blit d a 4 (wordBytes v)) a = v % 2 ^ 32 :=
  word_of_bytes fun i hi => by
    rw [blit_of_mem (by omega) (by omega), Nat.add_sub_cancel_left]

/-! ### Strings -/

theorem zero_notMem_cstr (d : Store) (a n : ℕ) : 0 ∉ cstr d a n := by
  induction n generalizing a with
  | zero => simp [cstr]
  | succ n ih =>
    unfold cstr
    split
    · simp
    · rename_i h
      simp only [List.mem_cons, not_or]
      exact ⟨fun h' => h h'.symm, ih (a + 1)⟩

/-- The same bytes, wherever they are, are the same string. -/
theorem cstr_shift {d d' : Store} {a b n : ℕ} (h : ∀ i, i < n → d (a + i) = d' (b + i)) :
    cstr d a n = cstr d' b n := by
  induction n generalizing a b with
  | zero => rfl
  | succ n ih =>
    have h0 := h 0 (by omega)
    rw [Nat.add_zero, Nat.add_zero] at h0
    have hrest : cstr d (a + 1) n = cstr d' (b + 1) n := ih fun i hi => by
      rw [Nat.add_assoc, Nat.add_assoc, Nat.add_comm 1 i]
      exact h (i + 1) (by omega)
    unfold cstr
    rw [h0, hrest]

theorem cstr_congr {d d' : Store} {a n : ℕ} (h : Agree d d' a n) : cstr d a n = cstr d' a n :=
  cstr_shift fun i hi => h (a + i) (by omega) (by omega)

theorem cstr_eq_nil {d : Store} {a n : ℕ} (h : d a = 0) : cstr d a n = [] := by
  cases n with
  | zero => rfl
  | succ n => simp [cstr, h]

/-- Bytes that spell `s` and then a NUL read as `s`. -/
theorem cstr_of_spelled {d : Store} {a n : ℕ} {s : List UInt8} (h0 : 0 ∉ s) (hn : s.length < n)
    (hs : ∀ i, i < s.length → d (a + i) = s.getD i 0) (hz : d (a + s.length) = 0) :
    cstr d a n = s := by
  induction s generalizing a n with
  | nil => exact cstr_eq_nil (by simpa using hz)
  | cons c s ih =>
    obtain ⟨n, rfl⟩ : ∃ k, n = k + 1 := ⟨n - 1, by simp at hn; omega⟩
    have hc : d a = c := by simpa using hs 0 (by simp)
    have hc0 : c ≠ 0 := fun h => h0 (by simp [h])
    have hrest : cstr d (a + 1) n = s := by
      apply ih (fun h => h0 (by simp [h])) (by simp at hn; omega)
      · intro i hi
        have := hs (i + 1) (by simp; omega)
        rw [show a + 1 + i = a + (i + 1) by omega, this]
        simp
      · simp only [List.length_cons] at hz
        rw [show a + 1 + s.length = a + (s.length + 1) by omega, hz]
    unfold cstr
    rw [hc, if_neg hc0, hrest]

/-- A string that leaves room for its NUL reads back as it was set. -/
theorem cstr_setString (d : Store) (a : ℕ) {n : ℕ} {s : List UInt8} (h0 : 0 ∉ s)
    (hn : s.length < n) : cstr (setString d a n s) a n = s := by
  apply cstr_of_spelled h0 hn
  · intro i hi
    rw [setString, blit_of_mem (by omega) (by omega), Nat.add_sub_cancel_left]
  · rw [setString, blit_of_notMem (by omega), blit_of_mem (by omega) (by omega)]

end ByteStore
