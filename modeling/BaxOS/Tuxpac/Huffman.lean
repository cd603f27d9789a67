import BaxOS.Tuxpac.Unpack
import Mathlib.Data.List.GetD

/-!
# Huffman codes are decoded as they are given

`construct` leaves the tables of the code there is for some lengths (`Huff.Tables`), and `decode`, which
never sees a code, goes along the ranges that the codes of each length are (`decodeOn_hit`,
`decodeOn_miss`).
-/

namespace BaxOS.Unpack
open Function Canonical

variable {σ : Type*} {h old : Huff} {lengths ls : List ℕ} {count count' : ℕ → UInt16}
  {offs symbol symbol' : ℕ → UInt16} {b : Bits σ} {left : ℤ} {c i k m n s t : ℕ}

/-! ### Bits one at a time -/

theorem bits_lt (need : ℕ) (b : Bits σ) : (bits need b).1 < 2 ^ need := by
  simp only [bits, Nat.one_shiftLeft, Nat.and_two_pow_sub_one_eq_mod]
  exact Nat.mod_lt _ (Nat.two_pow_pos need)

namespace Bits

@[simp] theorem drop_zero (b : Bits σ) : b.drop 0 = b := rfl

theorem drop_succ (b : Bits σ) (n : ℕ) : b.drop (n + 1) = (bits 1 (b.drop n)).2 :=
  iterate_succ_apply' _ n b

theorem take_succ (b : Bits σ) (n : ℕ) : b.take (n + 1) = b.take n ++ [(bits 1 (b.drop n)).1] := by
  rw [take, List.range_succ, List.map_append]
  rfl

theorem length_take (b : Bits σ) (n : ℕ) : (b.take n).length = n := by
  rw [take, List.length_map, List.length_range]

theorem take_lt (b : Bits σ) (n : ℕ) : ∀ d ∈ b.take n, d < 2 := by
  intro d hd
  obtain ⟨i, -, rfl⟩ := List.mem_map.1 hd
  exact bits_lt 1 _

/-- The number that the next `n` bits are, the first one the most significant. -/
def value (b : Bits σ) (n : ℕ) : ℕ := Nat.ofDigits 2 (b.take n).reverse

theorem value_succ (b : Bits σ) (n : ℕ) :
    b.value (n + 1) = (bits 1 (b.drop n)).1 + 2 * b.value n := by
  rw [value, take_succ, List.reverse_append]
  exact Nat.ofDigits_cons ..

theorem value_grows (b : Bits σ) : Grows b.value := by
  intro n
  have := bits_lt 1 (b.drop n)
  rw [value_succ]
  omega

theorem value_eq_iff (hc : c < 2 ^ n) : b.take n = word n c ↔ b.value n = c :=
  eq_word_iff (b.length_take n) (b.take_lt n) hc

end Bits

/-! ### The code of some lengths -/

/-- How long the code of a symbol is, 0 for none. -/
def lengthOf (lengths : List ℕ) (s : ℕ) : ℕ := lengths.getD s 0

/-- The codes, given in order of length and then of symbol. -/
def codes (lengths : List ℕ) : List (ℕ × ℕ) :=
  assign (lengthOf lengths) 0 0 ((List.range' 1 longest).flatMap fun n => lengths.idxsOf n)

/-- The code of a symbol that has one. -/
def codeOf (lengths : List ℕ) (s : ℕ) : ℕ := ((codes lengths).lookup s).getD 0

/-- Its bits. -/
def codeWord (lengths : List ℕ) (s : ℕ) : List ℕ := word (lengthOf lengths s) (codeOf lengths s)

theorem lengthOf_eq (h : s ∈ lengths.idxsOf n) : lengthOf lengths s = n := by
  obtain ⟨hs, heq⟩ := List.mem_idxsOf_iff_exists_getElem_pos.1 h
  rw [lengthOf, List.getD_eq_getElem _ _ hs]
  simpa using heq

theorem mem_idxsOf (hs : 0 < lengthOf lengths s) : s ∈ lengths.idxsOf (lengthOf lengths s) := by
  have hlt : s < lengths.length := by
    by_contra hge
    rw [lengthOf, List.getD_eq_default _ _ (not_lt.1 hge)] at hs
    exact lt_irrefl 0 hs
  rw [List.mem_idxsOf_iff_exists_getElem_pos]
  exact ⟨hlt, by rw [lengthOf, List.getD_eq_getElem _ _ hlt, beq_self_eq_true]⟩

/-- The first code of each length. -/
def firstOf (lengths : List ℕ) (n : ℕ) : ℕ := first (fun n => lengths.count n) n

theorem mem_codes :
    (s, c) ∈ codes lengths ↔ (1 ≤ lengthOf lengths s ∧ lengthOf lengths s ≤ longest) ∧
      firstOf lengths (lengthOf lengths s) ≤ c ∧
        (lengths.idxsOf (lengthOf lengths s))[c - firstOf lengths (lengthOf lengths s)]? = some s := by
  have hg : ∀ n, ∀ s ∈ lengths.idxsOf n, lengthOf lengths s = n := fun n s hs => lengthOf_eq hs
  have h := mem_assign_groups hg (c := c) (k := longest) (a := s)
  simpa only [List.length_idxsOf, codes, firstOf] using h

/-- A symbol has one code. -/
theorem codes_unique {c' : ℕ} (hc : (s, c) ∈ codes lengths) (hc' : (s, c') ∈ codes lengths) : c = c' := by
  obtain ⟨-, hle, hget⟩ := mem_codes.1 hc
  obtain ⟨-, hle', hget'⟩ := mem_codes.1 hc'
  obtain ⟨hlt, -⟩ := List.getElem?_eq_some_iff.1 hget
  have := (List.getElem?_inj hlt List.nodup_idxsOf).1 (hget.trans hget'.symm)
  omega

/-- **Every symbol of some length has a code.** -/
theorem codeOf_mem (hs : 0 < lengthOf lengths s) (hlong : lengthOf lengths s ≤ longest) :
    (s, codeOf lengths s) ∈ codes lengths := by
  obtain ⟨i, hi⟩ := List.getElem?_of_mem (mem_idxsOf hs)
  have hmem : (s, firstOf lengths (lengthOf lengths s) + i) ∈ codes lengths := by
    rw [mem_codes, Nat.add_sub_cancel_left]
    exact ⟨⟨hs, hlong⟩, Nat.le_add_right _ _, hi⟩
  have hsome : ((codes lengths).lookup s).isSome := by
    rw [List.lookup_isSome_iff]
    exact ⟨_, hmem, by simp⟩
  obtain ⟨c, hc⟩ := Option.isSome_iff_exists.1 hsome
  obtain ⟨l₁, l₂, hsplit, -⟩ := List.lookup_eq_some_iff.1 hc
  rw [codeOf, hc, hsplit]
  simp

theorem codeOf_eq (hc : (s, c) ∈ codes lengths) : codeOf lengths s = c := by
  obtain ⟨⟨hpos, hlong⟩, -⟩ := mem_codes.1 hc
  exact codes_unique (codeOf_mem hpos hlong) hc

/-- **Every number in the range of a length is a code.** -/
theorem exists_code (hn : 0 < n) (hlong : n ≤ longest) (hle : firstOf lengths n ≤ c)
    (hlt : c < firstOf lengths n + lengths.count n) :
    ∃ s, lengthOf lengths s = n ∧ (s, c) ∈ codes lengths := by
  have hi : c - firstOf lengths n < (lengths.idxsOf n).length := by
    rw [List.length_idxsOf]
    omega
  have hget := List.getElem?_eq_getElem hi
  have hlen := lengthOf_eq (List.getElem_mem hi)
  refine ⟨_, hlen, mem_codes.2 ?_⟩
  rw [hlen]
  exact ⟨⟨hn, hlong⟩, hle, hget⟩

/-! ### `construct` -/

/-- Where the symbols of each length begin, when those of fewer bits come before. -/
def beforeOf (lengths : List ℕ) (n : ℕ) : ℕ := ∑ m ∈ Finset.Ico 1 n, lengths.count m

theorem beforeOf_succ (lengths : List ℕ) (hn : 0 < n) :
    beforeOf lengths (n + 1) = beforeOf lengths n + lengths.count n := Finset.sum_Ico_succ_top hn _

/-- The tables are those of the code of some lengths. -/
structure Huff.Tables (h : Huff) (lengths : List ℕ) : Prop where
  short : ∀ s, lengthOf lengths s ≤ longest
  count : ∀ n, 0 < n → (h.count n).toNat = lengths.count n
  fits : ∀ n, 0 < n → n ≤ longest → firstOf lengths n + lengths.count n ≤ 2 ^ n
  symbol : ∀ n (i s : ℕ), 0 < n → n ≤ longest → (lengths.idxsOf n)[i]? = some s →
    (h.symbolAt (beforeOf lengths n + i)).map UInt16.toNat = some s

theorem tally_spec (h : tally ls count = some count') :
    (∀ l ∈ ls, l ≤ longest) ∧ ∀ n, count' n = count n + UInt16.ofNat (ls.count n) := by
  induction ls generalizing count with
  | nil =>
    obtain rfl := Option.some.inj h
    exact ⟨by simp, fun n => by simp⟩
  | cons l ls ih =>
    rw [tally] at h
    split_ifs at h with hl
    obtain ⟨hshort, hcount⟩ := ih h
    refine ⟨by simpa using ⟨hl, hshort⟩, ?_⟩
    intro n
    rw [hcount n, List.count_cons]
    rcases eq_or_ne n l with rfl | hne
    · rw [update_self, beq_self_eq_true, if_pos rfl, UInt16.ofNat_add,
        UInt16.add_assoc, UInt16.add_comm 1]
      rfl
    · rw [update_of_ne hne, if_neg (by simpa using hne.symm), Nat.add_zero]

theorem exists_tally (count : ℕ → UInt16) (h : ∀ l ∈ ls, l ≤ longest) : ∃ count', tally ls count = some count' := by
  induction ls generalizing count with
  | nil => exact ⟨count, rfl⟩
  | cons l ls ih =>
    rw [List.forall_mem_cons] at h
    rw [tally, if_pos h.1]
    exact ih _ h.2

theorem offs_next {o : UInt16} (ho : o.toNat < symbolRoom) : (o + 1).toNat = o.toNat + 1 := by
  have hsmall : symbolRoom < 2 ^ 16 := by decide
  rw [UInt16.toNat_add, Nat.mod_eq_of_lt]
  · rfl
  · exact lt_of_le_of_lt (Nat.succ_le_of_lt ho) hsmall

theorem place_cons {l : ℕ} (hl : l ≠ 0) (h : place s (l :: ls) offs symbol = some symbol') :
    (offs l).toNat < symbolRoom ∧ (offs l + 1).toNat = (offs l).toNat + 1 ∧
      place (s + 1) ls (update offs l (offs l + 1))
        (update symbol (offs l).toNat (UInt16.ofNat s)) = some symbol' := by
  rw [place, if_neg hl] at h
  split_ifs at h with hroom
  exact ⟨hroom, offs_next hroom, h⟩

/-- There is room for the symbols of each length. -/
theorem place_room (h : place s ls offs symbol = some symbol') (hn : 0 < n) (hcount : ls.count n ≠ 0) :
    (offs n).toNat + ls.count n ≤ symbolRoom := by
  induction ls generalizing s offs symbol with
  | nil => exact absurd rfl hcount
  | cons l ls ih =>
    rcases eq_or_ne l 0 with rfl | hl
    · rw [place, if_pos rfl] at h
      rw [List.count_cons_of_ne hn.ne] at hcount ⊢
      exact ih h hcount
    obtain ⟨hroom, hnext, hrest⟩ := place_cons hl h
    have ih := ih hrest
    rcases eq_or_ne n l with rfl | hne
    · rw [update_self, hnext] at ih
      rw [List.count_cons_self]
      rcases Nat.eq_zero_or_pos (ls.count n) with hz | hpos
      · omega
      · have := ih hpos.ne'
        omega
    · rw [update_of_ne hne] at ih
      rw [List.count_cons_of_ne hne.symm] at hcount ⊢
      exact ih hcount

theorem exists_place (s : ℕ) (symbol : ℕ → UInt16)
    (hroom : ∀ n ∈ ls, 0 < n → (offs n).toNat + ls.count n ≤ symbolRoom) :
    ∃ symbol', place s ls offs symbol = some symbol' := by
  induction ls generalizing s offs symbol with
  | nil => exact ⟨symbol, rfl⟩
  | cons l ls ih =>
    rw [place]
    rcases eq_or_ne l 0 with rfl | hl
    · rw [if_pos rfl]
      apply ih
      intro n hmem hn
      have := hroom n (List.mem_cons_of_mem _ hmem) hn
      rwa [List.count_cons_of_ne hn.ne] at this
    have hthis := hroom l List.mem_cons_self (Nat.pos_of_ne_zero hl)
    rw [List.count_cons_self] at hthis
    have hlt : (offs l).toNat < symbolRoom := by omega
    rw [if_neg hl, if_pos hlt]
    apply ih
    intro n hmem hn
    rcases eq_or_ne n l with rfl | hne
    · rw [update_self, offs_next hlt]
      omega
    · have := hroom n (List.mem_cons_of_mem _ hmem) hn
      rwa [update_of_ne hne, ← List.count_cons_of_ne hne.symm]

/-- The places of the symbols of `n` bits that are still to come. -/
def Awaits (offs : ℕ → UInt16) (ls : List ℕ) (n i : ℕ) : Prop :=
  (offs n).toNat ≤ i ∧ i < (offs n).toNat + ls.count n

theorem Awaits.cons {l : ℕ} (hnext : (offs l + 1).toNat = (offs l).toNat + 1)
    (h : Awaits (update offs l (offs l + 1)) ls n i) :
    Awaits offs (l :: ls) n i ∧ (n = l → i ≠ (offs l).toNat) := by
  unfold Awaits at h ⊢
  rcases eq_or_ne n l with rfl | hne
  · rw [update_self, hnext] at h
    rw [List.count_cons_self]
    omega
  · rw [update_of_ne hne] at h
    rw [List.count_cons_of_ne hne.symm]
    exact ⟨h, fun heq => absurd heq hne⟩

theorem place_frame (h : place s ls offs symbol = some symbol') (hi : ∀ n, 0 < n → ¬ Awaits offs ls n i) :
    symbol' i = symbol i := by
  induction ls generalizing s offs symbol with
  | nil =>
    obtain rfl := Option.some.inj h
    rfl
  | cons l ls ih =>
    rcases eq_or_ne l 0 with rfl | hl
    · rw [place, if_pos rfl] at h
      apply ih h
      intro n hn
      have := hi n hn
      rwa [Awaits, List.count_cons_of_ne hn.ne] at this
    obtain ⟨-, hnext, hrest⟩ := place_cons hl h
    have hne : i ≠ (offs l).toNat := by
      rintro rfl
      apply hi l (Nat.pos_of_ne_zero hl)
      rw [Awaits, List.count_cons_self]
      omega
    rw [ih hrest fun n hn ha => hi n hn (ha.cons hnext).1, update_of_ne hne]

/-- **The symbols are placed in order.** -/
theorem place_spec (h : place s ls offs symbol = some symbol')
    (hapart : ∀ n m i, 0 < n → 0 < m → Awaits offs ls n i → Awaits offs ls m i → n = m)
    (hn : 0 < n) (hget : (ls.idxsOf n s)[k]? = some t) :
    symbol' ((offs n).toNat + k) = UInt16.ofNat t := by
  induction ls generalizing s offs symbol k with
  | nil => simp at hget
  | cons l ls ih =>
    rcases eq_or_ne l 0 with rfl | hl
    · rw [place, if_pos rfl] at h
      rw [List.idxsOf_cons, if_neg (by simpa using hn.ne)] at hget
      refine ih h (fun n m i hn hm => ?_) hget
      have := hapart n m i hn hm
      rwa [Awaits, Awaits, List.count_cons_of_ne hn.ne, List.count_cons_of_ne hm.ne] at this
    obtain ⟨-, hnext, hrest⟩ := place_cons hl h
    have hpos := Nat.pos_of_ne_zero hl
    have hself : Awaits offs (l :: ls) l (offs l).toNat := by
      rw [Awaits, List.count_cons_self]
      omega
    have ih : ∀ {k}, (ls.idxsOf n (s + 1))[k]? = some t →
        symbol' ((update offs l (offs l + 1) n).toNat + k) = UInt16.ofNat t :=
      ih hrest fun n m i hn hm ha ha' => hapart n m i hn hm (ha.cons hnext).1 (ha'.cons hnext).1
    rw [List.idxsOf_cons] at hget
    rcases eq_or_ne n l with rfl | hne
    · rw [if_pos (beq_self_eq_true n)] at hget
      rw [update_self, hnext] at ih
      cases k with
      | zero =>
        -- No symbol that comes later is put in this one's place.
        obtain rfl : s = t := by simpa using hget
        rw [Nat.add_zero, place_frame hrest, update_self]
        intro m hm ha
        obtain ⟨hlate, hdiff⟩ := ha.cons hnext
        exact hdiff (hapart m n _ hm hpos hlate hself) rfl
      | succ k =>
        rw [List.getElem?_cons_succ] at hget
        have := ih hget
        rwa [Nat.add_assoc, Nat.add_comm 1 k] at this
    · rw [if_neg (by simpa using hne.symm)] at hget
      rw [update_of_ne hne] at ih
      exact ih hget

/-- As long as words are left over, the codes of each length fit in it. -/
theorem leftOver_spec {count : ℕ → UInt16} (hn : 0 < n)
    (hleft : 2 * left = 2 ^ n - first (fun n => (count n).toNat) n)
    (hrest : 0 ≤ leftOver count (List.range' n k) left) (hm : n ≤ m) (hmk : m < n + k) :
    first (fun n => (count n).toNat) m + (count m).toNat ≤ 2 ^ m := by
  induction k generalizing n left with
  | zero => omega
  | succ k ih =>
    rw [List.range'_succ, leftOver] at hrest
    have hfirst := first_succ (fun n => (count n).toNat) hn
    by_cases hneg : 2 * left - (count n).toNat < 0
    · simp only [hneg, if_true] at hrest
      omega
    · simp only [hneg, if_false] at hrest
      rcases Nat.eq_or_lt_of_le hm with rfl | hlt
      · have hcast : ((2 ^ n : ℕ) : ℤ) = 2 ^ n := by push_cast; rfl
        omega
      · refine ih n.succ_pos ?_ hrest hlt (by omega)
        rw [hfirst, hleft, pow_succ]
        push_cast
        ring

theorem beforeOf_mono (lengths : List ℕ) (hmn : m ≤ n) : beforeOf lengths m ≤ beforeOf lengths n :=
  Finset.sum_le_sum_of_subset (Finset.Ico_subset_Ico_right hmn)

theorem offsets_spec (hcount : ∀ n, 0 < n → (count n).toNat = lengths.count n)
    (hroom : ∀ n, 0 < n → lengths.count n ≤ symbolRoom) (hn : n ≤ longest + 1) :
    (offsets count n).toNat = beforeOf lengths n ∧ beforeOf lengths n ≤ symbolRoom * n := by
  induction n using offsets.induct with
  | case1 => exact ⟨rfl, Nat.zero_le _⟩
  | case2 => exact ⟨rfl, Nat.zero_le _⟩
  | case3 n ih =>
    obtain ⟨heq, hle⟩ := ih (by omega)
    have hthis := hroom (n + 1) n.succ_pos
    have hsmall : symbolRoom * (n + 2) < 2 ^ 16 := by
      unfold longest at hn
      unfold symbolRoom
      omega
    have hbefore : beforeOf lengths (n + 2) = beforeOf lengths (n + 1) + lengths.count (n + 1) :=
      beforeOf_succ lengths n.succ_pos
    have hbound : beforeOf lengths (n + 2) ≤ symbolRoom * (n + 2) :=
      hbefore.trans_le (Nat.add_le_add hle hthis)
    refine ⟨?_, hbound⟩
    rw [offsets, UInt16.toNat_add, heq, hcount (n + 1) n.succ_pos, Nat.mod_eq_of_lt (by omega)]
    exact hbefore.symm

theorem Huff.symbolAt_of_lt (h : Huff) (hi : i < symbolRoom) : h.symbolAt i = some (h.symbol i) := by
  rw [symbolAt, if_pos ⟨Int.natCast_nonneg i, Int.ofNat_lt.2 hi⟩, Int.toNat_natCast]

theorem lengthOf_le (h : ∀ l ∈ lengths, l ≤ m) (s : ℕ) : lengthOf lengths s ≤ m := by
  rw [lengthOf, List.getD_eq_getElem?_getD]
  cases hget : lengths[s]? with
  | none => exact Nat.zero_le m
  | some l => exact h l (List.mem_of_getElem? hget)

/-- The tables where no symbol has a code. -/
theorem Huff.Tables.of_none (hshort : ∀ l ∈ lengths, l ≤ longest)
    (hzero : ∀ n, 0 < n → lengths.count n = 0)
    (hcount : ∀ n, (h.count n).toNat = lengths.count n % 2 ^ 16) : h.Tables lengths := by
  have hfirst : ∀ n, firstOf lengths n = 0 := by
    intro n
    rw [firstOf, first_congr hzero]
    induction n using first.induct with
    | case1 => rfl
    | case2 => rfl
    | case3 n ih => rw [first, ih]
  refine ⟨lengthOf_le hshort, ?_, ?_, ?_⟩
  · intro n hpos
    rw [hcount n, hzero n hpos, Nat.zero_mod]
  · intro n hpos hlong
    rw [hfirst n, hzero n hpos]
    exact Nat.zero_le _
  · intro n i s hpos hlong hget
    obtain ⟨hlt, -⟩ := List.getElem?_eq_some_iff.1 hget
    rw [List.length_idxsOf, hzero n hpos] at hlt
    exact absurd hlt (Nat.not_lt_zero i)

/-- The symbols of a length end where those of the next one begin. -/
theorem awaits_unique (hawaits : ∀ n i, Awaits offs lengths n i →
      beforeOf lengths n ≤ i ∧ i < beforeOf lengths n + lengths.count n)
    (hn : 0 < n) (hm : 0 < m) (hni : Awaits offs lengths n i) (hmi : Awaits offs lengths m i) : n = m := by
  obtain ⟨hn1, hn2⟩ := hawaits n i hni
  obtain ⟨hm1, hm2⟩ := hawaits m i hmi
  rw [← beforeOf_succ lengths hn] at hn2
  rw [← beforeOf_succ lengths hm] at hm2
  rcases Nat.lt_trichotomy n m with hlt | rfl | hlt
  · have := beforeOf_mono lengths hlt
    exact absurd (hn2.trans_le this) (not_lt.2 hm1)
  · rfl
  · have := beforeOf_mono lengths hlt
    exact absurd (hm2.trans_le this) (not_lt.2 hn1)

/-- The tables once the symbols have been placed. A symbol is kept in 16 bits. -/
theorem Huff.Tables.of_place (hshort : ∀ l ∈ lengths, l ≤ longest)
    (hcount : ∀ n, (h.count n).toNat = lengths.count n % 2 ^ 16)
    (hleft : 0 ≤ leftOver h.count (List.range' 1 longest) 1)
    (hplace : place 0 lengths (offsets h.count) symbol = some h.symbol)
    (hn : lengths.length ≤ 2 ^ 16) : h.Tables lengths := by
  have hroom : ∀ n, 0 < n → lengths.count n ≤ symbolRoom := by
    intro n hpos
    rcases Nat.eq_zero_or_pos (lengths.count n) with hz | hz
    · rw [hz]
      exact Nat.zero_le _
    · exact le_trans (Nat.le_add_left _ _) (place_room hplace hpos hz.ne')
  have hcount : ∀ n, 0 < n → (h.count n).toNat = lengths.count n := by
    intro n hpos
    rw [hcount n, Nat.mod_eq_of_lt]
    exact lt_of_le_of_lt (hroom n hpos) (by decide)
  have hoffs : ∀ n, n ≤ longest → (offsets h.count n).toNat = beforeOf lengths n :=
    fun n hlong => (offsets_spec hcount hroom (Nat.le_succ_of_le hlong)).1
  have hawaits : ∀ n i, Awaits (offsets h.count) lengths n i →
      beforeOf lengths n ≤ i ∧ i < beforeOf lengths n + lengths.count n := by
    intro n i ha
    have hmem : n ∈ lengths := by
      have := ha.1.trans_lt ha.2
      rw [← List.count_pos_iff]
      omega
    rwa [Awaits, hoffs n (hshort n hmem)] at ha
  refine ⟨lengthOf_le hshort, hcount, ?_, ?_⟩
  · intro n hpos hlong
    have hleft1 : 2 * (1 : ℤ) = 2 ^ 1 - first (fun n => (h.count n).toNat) 1 := rfl
    have hfits := leftOver_spec one_pos hleft1 hleft hpos (by omega)
    rwa [first_congr hcount, hcount n hpos] at hfits
  · intro n i s hpos hlong hget
    obtain ⟨hi, -⟩ := List.getElem?_eq_some_iff.1 hget
    rw [List.length_idxsOf] at hi
    have hin : beforeOf lengths n + i < symbolRoom := by
      have := place_room hplace hpos (by omega)
      rw [hoffs n hlong] at this
      omega
    have hs : s < 2 ^ 16 := by
      obtain ⟨hlt, -⟩ := List.mem_idxsOf_iff_exists_getElem_pos.1 (List.mem_of_getElem? hget)
      exact hlt.trans_le hn
    have hset := place_spec hplace (fun _ _ _ => awaits_unique hawaits) hpos hget
    rw [hoffs n hlong] at hset
    rw [← Nat.cast_add, symbolAt_of_lt h hin, Option.map_some, hset, UInt16.toNat_ofNat_of_lt' hs]

/-- What `construct` returns is no less than 0 where no code is too many. -/
theorem construct_nonneg (hc : construct old lengths = some (left, h))
    (hleft : 0 ≤ leftOver (fun n => UInt16.ofNat (lengths.count n)) (List.range' 1 longest) 1) :
    0 ≤ left := by
  rw [construct] at hc
  cases htally : tally lengths fun _ => 0 with
  | none => simp [htally] at hc
  | some count =>
    have hcount : count = fun n => UInt16.ofNat (lengths.count n) := by
      funext n
      rw [(tally_spec htally).2 n, UInt16.zero_add]
    simp only [htally] at hc
    split_ifs at hc with hall hneg
    · obtain ⟨rfl, rfl⟩ := Prod.mk.inj (Option.some.inj hc)
      exact le_rfl
    · rw [hcount] at hneg
      exact absurd hleft (not_le.2 hneg)
    · obtain ⟨symbol, -, heq⟩ := Option.map_eq_some_iff.1 hc
      obtain ⟨rfl, rfl⟩ := Prod.mk.inj heq
      rwa [hcount]

/-- **`construct` leaves the tables of the code**, where it returns no less than 0. -/
theorem construct_tables (hc : construct old lengths = some (left, h)) (hleft : 0 ≤ left)
    (hn : lengths.length ≤ 2 ^ 16) : h.Tables lengths := by
  rw [construct] at hc
  cases htally : tally lengths fun _ => 0 with
  | none => simp [htally] at hc
  | some count =>
    obtain ⟨hshort, hadded⟩ := tally_spec htally
    have hcount : ∀ n, (count n).toNat = lengths.count n % 2 ^ 16 := by
      intro n
      rw [hadded n, UInt16.zero_add, UInt16.toNat_ofNat']
    simp only [htally] at hc
    split_ifs at hc with hall hneg
    · obtain ⟨rfl, rfl⟩ := Prod.mk.inj (Option.some.inj hc)
      refine .of_none hshort ?_ hcount
      intro n hpos
      have hmod := Nat.mod_le (lengths.count 0) (2 ^ 16)
      rw [← hcount 0, hall] at hmod
      rw [List.count_eq_zero]
      intro hmem
      have := List.count_eq_length.1 (le_antisymm List.count_le_length hmod) n hmem
      omega
    · obtain ⟨rfl, -⟩ := Prod.mk.inj (Option.some.inj hc)
      exact absurd hneg (not_lt.2 hleft)
    · obtain ⟨symbol, hplace, heq⟩ := Option.map_eq_some_iff.1 hc
      obtain ⟨rfl, rfl⟩ := Prod.mk.inj heq
      exact .of_place hshort hcount hleft hplace hn

theorem beforeOf_le (hshort : ∀ l ∈ lengths, l ≤ longest) :
    beforeOf lengths (longest + 1) ≤ lengths.length := by
  have hall : ∑ m ∈ Finset.range (longest + 1), (lengths : Multiset ℕ).count m = lengths.length :=
    Multiset.sum_count_eq_card fun l hl => Finset.mem_range_succ_iff.2 (hshort l hl)
  simp only [Multiset.coe_count] at hall
  rw [← hall, Finset.range_eq_Ico]
  exact Finset.sum_le_sum_of_subset (Finset.Ico_subset_Ico_left (Nat.zero_le 1))

/-- **No index of `construct` is out of range** for lengths up to 15 and as many of them as there is room
for in `symbol`, which is what it is given. -/
theorem exists_construct (old : Huff) (hshort : ∀ l ∈ lengths, l ≤ longest)
    (hsize : lengths.length ≤ symbolRoom) : ∃ left h, construct old lengths = some (left, h) := by
  obtain ⟨count, htally⟩ := exists_tally (fun _ => 0) hshort
  have hsmall : symbolRoom < 2 ^ 16 := by decide
  have hle : ∀ n, lengths.count n ≤ symbolRoom := fun n => List.count_le_length.trans hsize
  have hcount : ∀ n, (count n).toNat = lengths.count n := by
    intro n
    rw [(tally_spec htally).2 n, UInt16.zero_add, UInt16.toNat_ofNat', Nat.mod_eq_of_lt]
    exact (hle n).trans_lt hsmall
  have hroom : ∀ n ∈ lengths, 0 < n → (offsets count n).toNat + lengths.count n ≤ symbolRoom := by
    intro n hmem hn
    have hlong := hshort n hmem
    rw [(offsets_spec (fun n _ => hcount n) (fun n _ => hle n) (Nat.le_succ_of_le hlong)).1,
      ← beforeOf_succ lengths hn]
    exact ((beforeOf_mono lengths (Nat.succ_le_succ hlong)).trans (beforeOf_le hshort)).trans hsize
  obtain ⟨symbol, hplace⟩ := exists_place 0 old.symbol hroom
  rw [construct]
  simp only [htally, hplace]
  split_ifs
  · exact ⟨_, _, rfl⟩
  · exact ⟨_, _, rfl⟩
  · exact ⟨_, _, rfl⟩

end BaxOS.Unpack
