import Mathlib.Tactic

/-!
# Range coding

A message is a number in a range, and each decision takes a part of the range, which the number is in. A
range that has become narrow is made 256 times as wide, and another byte of the number is looked at. `span`
is what decisions leave of a range, and where: the numbers there stand for them. Whoever reads such a number
finds it in the part of the first decision (`Holds.inside`), and what is left stands for the others
(`Holds.stay`, `Holds.shift`).
-/

namespace RangeCoder

/-- A part of a range: where it begins, and how wide it is. -/
structure Part where
  start : ℕ
  width : ℕ

/-- What is left of a range: how many more bytes of the number have been looked at, and in numbers of that
many more bytes where it begins and how wide it is. -/
structure Span where
  shifts : ℕ
  low : ℕ
  width : ℕ

/-- A range that is less is made wider. -/
def top : ℕ := 2 ^ 24

/-- What decisions leave of a range, each of which takes a part of it. -/
def span : ℕ → List (ℕ → Part) → Span
  | r, [] => ⟨0, 0, r⟩
  | r, f :: fs =>
    let more := if (f r).width < top then 1 else 0
    let s := span ((f r).width * 256 ^ more) fs
    ⟨s.shifts + more, (f r).start * 256 ^ (s.shifts + more) + s.low, s.width⟩

/-- The parts are within the ranges. -/
def Within (fs : List (ℕ → Part)) : Prop := ∀ f ∈ fs, ∀ r, (f r).start + (f r).width ≤ r

variable {f : ℕ → Part} {fs : List (ℕ → Part)} {r code : ℕ} {bs : List UInt8} {b : UInt8}

theorem within_cons : Within (f :: fs) ↔ (∀ r, (f r).start + (f r).width ≤ r) ∧ Within fs :=
  List.forall_mem_cons

/-- What is left of a range is within it. -/
theorem span_le (h : Within fs) (r : ℕ) :
    (span r fs).low + (span r fs).width ≤ r * 256 ^ (span r fs).shifts := by
  induction fs generalizing r with
  | nil => simp [span]
  | cons f fs ih =>
    obtain ⟨hf, hfs⟩ := within_cons.1 h
    rw [span]
    generalize (if (f r).width < top then 1 else 0) = more
    have hrest := ih hfs ((f r).width * 256 ^ more)
    generalize span ((f r).width * 256 ^ more) fs = s at hrest ⊢
    calc (f r).start * 256 ^ (s.shifts + more) + s.low + s.width
        ≤ (f r).start * 256 ^ (s.shifts + more) + (f r).width * 256 ^ more * 256 ^ s.shifts := by omega
      _ = ((f r).start + (f r).width) * 256 ^ (s.shifts + more) := by rw [pow_add]; ring
      _ ≤ r * 256 ^ (s.shifts + more) := Nat.mul_le_mul_right _ (hf r)

/-! ### Numbers of bytes -/

/-- Bytes as a number, the high one first. -/
def big (l : List UInt8) : ℕ := l.foldl (fun v b => v * 256 + b.toNat) 0

theorem big_from (v : ℕ) (l : List UInt8) :
    l.foldl (fun v b => v * 256 + b.toNat) v = v * 256 ^ l.length + big l := by
  induction l generalizing v with
  | nil => simp [big]
  | cons b l ih =>
    rw [big, List.foldl_cons, List.foldl_cons, ih, ih (0 * 256 + b.toNat), List.length_cons, pow_succ']
    ring

theorem big_cons (b : UInt8) (l : List UInt8) : big (b :: l) = b.toNat * 256 ^ l.length + big l := by
  rw [big, List.foldl_cons, big_from, zero_mul, zero_add]

theorem big_append (l m : List UInt8) : big (l ++ m) = big l * 256 ^ m.length + big m := by
  rw [big, List.foldl_append, big_from]
  rfl

theorem big_lt (l : List UInt8) : big l < 256 ^ l.length := by
  induction l with
  | nil => simp [big]
  | cons b l ih =>
    have hb := b.toNat_lt
    rw [big_cons, List.length_cons, pow_succ']
    calc b.toNat * 256 ^ l.length + big l < (b.toNat + 1) * 256 ^ l.length := by rw [add_one_mul]; omega
      _ ≤ 256 * 256 ^ l.length := Nat.mul_le_mul_right _ (by omega)

/-! ### Reading -/

/-- A number that has been read so far, and the bytes of it that come, stand for decisions about a range. -/
structure Holds (r code : ℕ) (fs : List (ℕ → Part)) (bs : List UInt8) : Prop where
  enough : bs.length = (span r fs).shifts
  low : (span r fs).low ≤ code * 256 ^ bs.length + big bs
  high : code * 256 ^ bs.length + big bs < (span r fs).low + (span r fs).width

namespace Holds

/-- **The number is in the part that was taken.** -/
theorem inside (h : Holds r code (f :: fs) bs) (hw : Within fs) :
    (f r).start ≤ code ∧ code < (f r).start + (f r).width := by
  obtain ⟨henough, hlow, hhigh⟩ := h
  rw [span] at henough hlow hhigh
  generalize (if (f r).width < top then 1 else 0) = more at henough hlow hhigh
  have hle := span_le hw ((f r).width * 256 ^ more)
  generalize span ((f r).width * 256 ^ more) fs = s at henough hlow hhigh hle
  simp only at henough hlow hhigh
  have htail := big_lt bs
  have hpos : 0 < 256 ^ bs.length := by positivity
  rw [← henough] at hlow hhigh
  constructor
  · refine Nat.lt_succ_iff.1 (lt_of_mul_lt_mul_right (a := 256 ^ bs.length) ?_ (Nat.zero_le _))
    rw [Nat.succ_eq_add_one, add_one_mul]
    omega
  · refine lt_of_mul_lt_mul_right (a := 256 ^ bs.length) ?_ (Nat.zero_le _)
    have hwide : (f r).width * 256 ^ more * 256 ^ s.shifts = (f r).width * 256 ^ bs.length := by
      rw [henough, pow_add]
      ring
    rw [add_mul]
    omega

/-- **What is left stands for the other decisions**, where the part is wide. -/
theorem stay (h : Holds r code (f :: fs) bs) (hw : Within fs) (hwide : top ≤ (f r).width) :
    Holds (f r).width (code - (f r).start) fs bs := by
  have hin := (h.inside hw).1
  obtain ⟨henough, hlow, hhigh⟩ := h
  rw [span, if_neg (not_lt.2 hwide)] at henough hlow hhigh
  simp only [pow_zero, mul_one, add_zero] at henough hlow hhigh
  obtain ⟨code, rfl⟩ := Nat.exists_eq_add_of_le hin
  rw [← henough, add_mul] at hlow hhigh
  rw [Nat.add_sub_cancel_left]
  exact ⟨henough, by omega, by omega⟩

/-- And where it is narrow, with another byte. -/
theorem shift (h : Holds r code (f :: fs) bs) (hw : Within fs) (hnarrow : (f r).width < top) :
    ∃ b bs', bs = b :: bs' ∧
      Holds ((f r).width * 256) ((code - (f r).start) * 256 + b.toNat) fs bs' := by
  have hin := (h.inside hw).1
  obtain ⟨henough, hlow, hhigh⟩ := h
  rw [span, if_pos hnarrow] at henough hlow hhigh
  simp only [pow_one] at henough hlow hhigh
  cases bs with
  | nil => exact absurd henough (by simp)
  | cons b bs =>
    refine ⟨b, bs, rfl, ?_⟩
    rw [List.length_cons, Nat.succ_inj] at henough
    obtain ⟨code, rfl⟩ := Nat.exists_eq_add_of_le hin
    rw [← henough, big_cons, List.length_cons, add_mul, pow_succ] at hlow hhigh
    rw [Nat.add_sub_cancel_left]
    have hmul : ∀ k : ℕ, (code * 256 + b.toNat) * 256 ^ k = code * (256 ^ k * 256) + b.toNat * 256 ^ k :=
      fun k => by ring
    refine ⟨henough, ?_, ?_⟩
    · rw [hmul]
      omega
    · rw [hmul]
      omega

/-- No decision is left: nor is any byte of the number. -/
theorem done (h : Holds r code [] bs) : bs = [] := List.eq_nil_of_length_eq_zero h.enough

end Holds

end RangeCoder
