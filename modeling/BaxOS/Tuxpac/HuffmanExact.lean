import BaxOS.Tuxpac.Huffman

/-!
# `decode` reads each code

`decode` goes on as long as the bits taken are past the codes of their length, and finds the symbol
where they are not (`decodeOn_miss`, `decodeOn_hit`); so it finds the symbol whose code the bits ahead
begin with, and none where they begin with no code (`construct_decode`).
-/

namespace BaxOS.Unpack
open Canonical

variable {σ : Type*} {h old : Huff} {lengths : List ℕ} {b : Bits σ} {left : ℤ} {c i k m n s : ℕ}

/-- The next `n` bits are past the codes of `n` bits. -/
def Bits.PastCodes (b : Bits σ) (lengths : List ℕ) (n : ℕ) : Prop :=
  firstOf lengths n + lengths.count n ≤ b.value n

theorem Bits.firstOf_le_iff (hn : 0 < n) :
    firstOf lengths n ≤ b.value n ↔ ∀ m, 0 < m → m < n → b.PastCodes lengths m :=
  b.value_grows.first_le_iff hn

namespace Huff.Tables

/-- One turn of `decode`. -/
theorem decodeOn_cons (t : h.Tables lengths) (b : Bits σ) (m : ℕ) (lens : List ℕ) :
    decodeOn h ((m + 1) :: lens) (b.value m <<< 1) (firstOf lengths (m + 1)) (beforeOf lengths (m + 1))
        (b.drop m) =
      if b.value (m + 1) < firstOf lengths (m + 1) + lengths.count (m + 1) then
        (h.symbolAt (beforeOf lengths (m + 1) + (b.value (m + 1) - firstOf lengths (m + 1)))).map
          fun s => ((s.toNat : ℤ), b.drop (m + 1))
      else decodeOn h lens (b.value (m + 1) <<< 1) (firstOf lengths (m + 2)) (beforeOf lengths (m + 2))
        (b.drop (m + 1)) := by
  have hcode : b.value m <<< 1 ||| (bits 1 (b.drop m)).1 = b.value (m + 1) := by
    rw [← Nat.shiftLeft_add_eq_or_of_lt (bits_lt 1 _), b.value_succ, Nat.shiftLeft_eq]
    omega
  have hfirst : (firstOf lengths (m + 1) + lengths.count (m + 1)) <<< 1 = firstOf lengths (m + 2) := by
    rw [Nat.shiftLeft_eq, pow_one, Nat.mul_comm]
    exact (first_succ _ m.succ_pos).symm
  have htest : (b.value (m + 1) : ℤ) - lengths.count (m + 1) < firstOf lengths (m + 1) ↔
      b.value (m + 1) < firstOf lengths (m + 1) + lengths.count (m + 1) := by
    omega
  rw [decodeOn]
  simp only [hcode, t.count _ m.succ_pos, htest, hfirst, ← b.drop_succ, beforeOf_succ lengths m.succ_pos]

/-- The bits are past the codes of all lengths. -/
theorem decodeOn_miss (t : h.Tables lengths) (hpast : ∀ n, m < n → n ≤ m + k → b.PastCodes lengths n) :
    decodeOn h (List.range' (m + 1) k) (b.value m <<< 1) (firstOf lengths (m + 1))
      (beforeOf lengths (m + 1)) (b.drop m) = some (-1, b.drop (m + k)) := by
  induction k generalizing m with
  | zero => rfl
  | succ k ih =>
    have hthis := hpast (m + 1) m.lt_succ_self (by omega)
    rw [List.range'_succ, t.decodeOn_cons, if_neg (not_lt.2 hthis), ih fun n hmn hn => hpast n (by omega)
      (by omega)]
    congr 3
    omega

/-- They are up to a length, and not past the codes of that one. -/
theorem decodeOn_hit (t : h.Tables lengths) (hk : i < k)
    (hpast : ∀ n, m < n → n < m + i + 1 → b.PastCodes lengths n)
    (hhit : ¬ b.PastCodes lengths (m + i + 1)) :
    decodeOn h (List.range' (m + 1) k) (b.value m <<< 1) (firstOf lengths (m + 1))
        (beforeOf lengths (m + 1)) (b.drop m) =
      (h.symbolAt (beforeOf lengths (m + i + 1) +
        (b.value (m + i + 1) - firstOf lengths (m + i + 1)))).map
          fun s => ((s.toNat : ℤ), b.drop (m + i + 1)) := by
  induction k generalizing m i with
  | zero => exact absurd hk (Nat.not_lt_zero i)
  | succ k ih =>
    rw [List.range'_succ, t.decodeOn_cons]
    cases i with
    | zero => rw [if_pos (not_le.1 hhit)]
    | succ i =>
      have hthis := hpast (m + 1) m.lt_succ_self (by omega)
      have hlen : m + 1 + i + 1 = m + (i + 1) + 1 := by omega
      have ih := ih (m := m + 1) (i := i) (by omega) (fun n hmn hn => hpast n (by omega) (by omega))
        (by rwa [hlen])
      rw [if_neg (not_lt.2 hthis), ih, hlen]

theorem decode_miss (t : h.Tables lengths) (hpast : ∀ n, 0 < n → n ≤ longest → b.PastCodes lengths n) :
    decode h b = some (-1, b.drop longest) := by
  have h := t.decodeOn_miss (b := b) (k := longest) fun n hn hlong => hpast n hn (by omega)
  rwa [Nat.zero_add] at h

theorem code_lt (t : h.Tables lengths) (hc : (s, c) ∈ codes lengths) : c < 2 ^ lengthOf lengths s := by
  obtain ⟨⟨hpos, hlong⟩, hle, hget⟩ := mem_codes.1 hc
  obtain ⟨hlt, -⟩ := List.getElem?_eq_some_iff.1 hget
  rw [List.length_idxsOf] at hlt
  have := t.fits _ hpos hlong
  omega

theorem take_eq_iff (t : h.Tables lengths) (hs : 0 < lengthOf lengths s) :
    b.take (lengthOf lengths s) = codeWord lengths s ↔ b.value (lengthOf lengths s) = codeOf lengths s :=
  Bits.value_eq_iff (t.code_lt (codeOf_mem hs (t.short s)))

/-- **The symbol whose code is ahead.** -/
theorem decode_hit (t : h.Tables lengths) (hn : 0 < n) (hlong : n ≤ longest)
    (hle : firstOf lengths n ≤ b.value n)
    (hget : (lengths.idxsOf n)[b.value n - firstOf lengths n]? = some s) :
    decode h b = some ((s : ℤ), b.drop n) := by
  obtain ⟨m, rfl⟩ := Nat.exists_eq_add_one_of_ne_zero hn.ne'
  obtain ⟨hlt, -⟩ := List.getElem?_eq_some_iff.1 hget
  rw [List.length_idxsOf] at hlt
  have hhit : ¬ b.PastCodes lengths (m + 1) := by
    rw [Bits.PastCodes]
    omega
  have hpast : ∀ n, 0 < n → n < m + 1 → b.PastCodes lengths n := (Bits.firstOf_le_iff hn).1 hle
  have hrun := t.decodeOn_hit (b := b) (m := 0) (k := longest) hlong
  simp only [Nat.zero_add] at hrun
  obtain ⟨u, hu, rfl⟩ := Option.map_eq_some_iff.1 (t.symbol _ _ _ hn hlong hget)
  rw [Nat.cast_sub hle] at hu
  refine (hrun hpast hhit).trans ?_
  rw [hu, Option.map_some]

end Huff.Tables

/-- **Huffman codes are decoded exactly.** Where the bits ahead begin with the code of a symbol, that
symbol is returned and its bits are taken; where they begin with none, -1 is returned. There are no more
symbols than 16 bits tell apart (in the source, no more than 288). -/
theorem construct_decode (hn : lengths.length ≤ 2 ^ 16)
    (hc : construct old lengths = some (left, h)) (hleft : 0 ≤ left) (b : Bits σ) :
    (∀ s, 0 < lengthOf lengths s → b.take (lengthOf lengths s) = codeWord lengths s →
      decode h b = some ((s : ℤ), b.drop (lengthOf lengths s))) ∧
    ((∀ s, 0 < lengthOf lengths s → b.take (lengthOf lengths s) ≠ codeWord lengths s) →
      decode h b = some (-1, b.drop longest)) := by
  have t := construct_tables hc hleft hn
  constructor
  · intro s hs hcode
    obtain ⟨-, hle, hget⟩ := mem_codes.1 (codeOf_mem hs (t.short s))
    rw [← (t.take_eq_iff hs).1 hcode] at hle hget
    exact t.decode_hit hs (t.short s) hle hget
  · intro hnone
    apply t.decode_miss
    intro n
    -- Past the codes of fewer bits, bits that are not past those of `n` are one of them.
    induction n using Nat.strong_induction_on with
    | _ n ih =>
      intro hn hlong
      by_contra hnot
      have hle := (Bits.firstOf_le_iff hn).2 fun m hm hmn => ih m hmn hm (by omega)
      obtain ⟨s, rfl, hmem⟩ := exists_code hn hlong hle (not_le.1 hnot)
      exact hnone s hn ((t.take_eq_iff hn).2 (codeOf_eq hmem).symm)

/-- Bytes that are all in a source's buffer, and no bits of them taken. -/
def Bits.ofBytes (l : List UInt8) : Bits Unit := ⟨⟨l, 0, false, (), fun _ => ([], ())⟩, 0, 0, one_pos⟩

/-- Codes of 2, 1 and 3 bits: 10, 0 and 110, and 111 is none. -/
theorem construct_decode_three :
    ∃ h, construct ⟨fun _ => 0, fun _ => 0⟩ [2, 1, 3] = some (4096, h) ∧
      decode h (Bits.ofBytes [0x03]) = some (2, (Bits.ofBytes [0x03]).drop 3) ∧
      decode h (Bits.ofBytes [0xFF, 0xFF]) = some (-1, (Bits.ofBytes [0xFF, 0xFF]).drop 15) := by
  have hc : construct ⟨fun _ => 0, fun _ => 0⟩ [2, 1, 3] = some (4096, _) := rfl
  refine ⟨_, hc, ?_, ?_⟩
  · exact (construct_decode (by decide) hc (by decide) _).1 2 (by decide) (by decide)
  · refine (construct_decode (by decide) hc (by decide) _).2 ?_
    rintro (_ | _ | _ | s) hs
    · decide
    · decide
    · decide
    · exact absurd hs (by simp [lengthOf])

end BaxOS.Unpack
