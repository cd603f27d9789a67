import BaxOS.Fs.Frame

/-!
# Data: what is copied and laid down where

`putData`, `layData` and `moveSectors` write inside the run they are given
(`putData_wrote`, `layData_wrote`, `moveSectors_wrote`), the first two what they are given to write
(`putData_disk`, `layData_disk`). `moveSectors` copies: from a run further
on, or one it does not reach into, the sectors arrive as they were, with zeros after them
(`moveSectors_disk`).
-/

namespace BaxOS.Fs
open ByteStore Extents

variable {count dst fuel held i src start step : ℕ} {data : List UInt8}

/-! ### Where they write -/

theorem putData_wrote {s : State}
    (hc : data.length / 512 ≤ count) (hlt : start + count < 2 ^ 32) :
    Wrote s (putData s start count data) (start, count) := by
  have hwhole : u32 (data.length / sectorSize) = data.length / 512 :=
    u32_of_lt (by simp only [sectorSize]; omega)
  have hput : Wrote s (if 0 < data.length / 512 then put s start (data.length / 512)
      (dataStore data) else s) (start, count) := by
    split_ifs
    · exact (put_wrote s _ _ _).mono le_rfl (by simp only; omega)
    · exact Wrote.refl s _
  unfold putData
  simp only [hwhole]
  by_cases h : data.length / 512 < count
  · rw [if_pos h, u32_of_lt (by omega)]
    exact hput.trans ((put_wrote _ _ _ _).mono (by simp only; omega) (by simp only; omega))
  · rwa [if_neg h]

/-- Laying data down from `done` on writes the sectors it covers. -/
theorem layData_wrote (held : ℕ) {offset need : ℕ}
    (hn : offset + data.length ≤ 512 * need) (hlt : start + need < 2 ^ 32) (fuel done : ℕ)
    (s : State) : Wrote s (layData start held offset data fuel done s) (start, need) := by
  induction fuel generalizing done s with
  | zero => exact Wrote.refl s _
  | succ fuel ih =>
    unfold layData
    split_ifs with hd
    swap
    · exact Wrote.refl s _
    have hat : u32 ((offset + done) / sectorSize) = (offset + done) / 512 := by
      refine u32_of_lt ?_
      simp only [sectorSize]
      omega
    simp only [hat]
    rw [u32_of_lt (n := start + (offset + done) / 512) (by omega)]
    generalize hwhole : (if (offset + done) % sectorSize = 0
      then (data.length - done) / sectorSize else 0) = whole
    by_cases hw : 0 < whole
    · rw [if_pos hw]
      refine Wrote.trans ((put_wrote s _ _ _).mono ?_ ?_) (ih _ _)
      · simp only
        omega
      · have hend : (offset + done) / 512 + whole ≤ need := by
          split_ifs at hwhole
          · simp only [sectorSize] at *
            omega
          · omega
        simp only
        rw [u32_of_lt (by omega)]
        omega
    · rw [if_neg hw]
      refine Wrote.trans ((put_wrote s _ _ _).mono ?_ ?_) (ih _ _)
      · simp only
        omega
      · simp only
        omega

theorem moveSectors_done (h : count ≤ i) (s : State) :
    moveSectors step src held dst count fuel i s = s := by
  cases fuel with
  | zero => rfl
  | succ fuel => rw [moveSectors, if_neg (by omega)]

@[simp] theorem moveSectors_head (step src held dst count fuel i : ℕ) (s : State) :
    (moveSectors step src held dst count fuel i s).head = s.head := by
  induction fuel generalizing i s with
  | zero => rfl
  | succ fuel ih =>
    unfold moveSectors
    by_cases hi : i < count
    · rw [if_pos hi]
      exact ih _ _
    · rw [if_neg hi]

theorem moveSectors_wrote (hlt : dst + count < 2 ^ 32)
    (fuel i : ℕ) (s : State) :
    Wrote s (moveSectors step src held dst count fuel i s) (dst + i, count - i) := by
  induction fuel generalizing i s with
  | zero => exact Wrote.refl s _
  | succ fuel ih =>
    unfold moveSectors
    by_cases hi : i < count
    swap
    · rw [if_neg hi]
      exact Wrote.refl s _
    rw [if_pos hi]
    simp only
    rw [u32_of_lt (n := dst + i) (by omega)]
    have hput : ∀ data, Wrote s (put s (dst + i) (min step (count - i)) data)
        (dst + i, count - i) := fun data =>
      (put_wrote s _ _ _).mono le_rfl (by simp only; omega)
    by_cases hnext : i + step ≤ count
    · exact (hput _).trans ((ih (i + step) _).mono (by simp only; omega) (by simp only; omega))
    · rw [moveSectors_done (by omega)]
      exact hput _

/-! ### What is put down -/

@[simp] theorem dataStore_drop (data : List UInt8) (n i : ℕ) :
    dataStore (data.drop n) i = dataStore data (n + i) := by
  simp [dataStore, List.getD_eq_getElem?_getD]

theorem dataStore_of_le (h : data.length ≤ i) :
    dataStore data i = 0 := by
  simp [dataStore, List.getD_eq_getElem?_getD, List.getElem?_eq_none h]

/-- **Data put down in its sectors is there, with zeros after it.** -/
theorem putData_disk {s : State}
    (hc : count = (data.length + 511) / 512) (hlt : start + count < 2 ^ 32) {k : ℕ}
    (hk : k < 512 * count) :
    (putData s start count data).disk (512 * start + k) = dataStore data k := by
  have hwhole : u32 (data.length / sectorSize) = data.length / 512 :=
    u32_of_lt (by simp only [sectorSize]; omega)
  unfold putData
  simp only [hwhole]
  generalize hs1 : (if 0 < data.length / 512 then put s start (data.length / 512)
    (dataStore data) else s) = s1
  have hfull : k < 512 * (data.length / 512) → s1.disk (512 * start + k) = dataStore data k := by
    intro hk1
    rw [← hs1, if_pos (by omega), put_disk, blit_of_mem (by simp only [sectorSize]; omega)
      (by simp only [sectorSize]; omega)]
    congr 1
    simp only [sectorSize]
    omega
  split_ifs with hlast
  · rw [u32_of_lt (by omega), put_disk]
    by_cases hk1 : k < 512 * (data.length / 512)
    · rw [blit_of_notMem (by simp only [sectorSize]; omega), hfull hk1]
    · rw [blit_of_mem (by simp only [sectorSize]; omega) (by simp only [sectorSize]; omega),
        dataStore_drop]
      congr 1
      simp only [sectorSize]
      omega
  · exact hfull (by omega)

/-- **Data laid down lies at its offset**: the rest of a sector it begins or ends in is what it was,
or zeros where the file did not reach. -/
theorem layData_disk {offset need : ℕ}
    (hn : offset + data.length ≤ 512 * need) (hlt : start + need < 2 ^ 32) {done : ℕ}
    (hf : data.length ≤ done + fuel)
    (hdone : done = 0 ∨ data.length ≤ done ∨ (offset + done) % 512 = 0)
    (s : State) (k : ℕ) :
    (layData start held offset data fuel done s).disk (512 * start + k) =
      if offset + done ≤ k ∧ k < offset + data.length then dataStore data (k - offset)
      else if done < data.length ∧ (offset + done) / 512 ≤ k / 512 ∧
          512 * (k / 512) < offset + data.length ∧ held ≤ k / 512 then 0
      else s.disk (512 * start + k) := by
  induction fuel generalizing done s with
  | zero => rw [layData, if_neg (by omega), if_neg (by omega)]
  | succ fuel ih =>
    unfold layData
    by_cases hd : done < data.length
    swap
    · rw [if_neg hd, if_neg (by omega), if_neg (by omega)]
    rw [if_pos hd]
    have hat : u32 ((offset + done) / sectorSize) = (offset + done) / 512 := by
      refine u32_of_lt ?_
      simp only [sectorSize]
      omega
    simp only [hat]
    rw [u32_of_lt (n := start + (offset + done) / 512) (by omega)]
    generalize hwhole : (if (offset + done) % sectorSize = 0
      then (data.length - done) / sectorSize else 0) = whole
    by_cases hw : 0 < whole
    · -- sectors covered whole: what comes after them is a matter for the rest of the loop
      rw [if_pos hw]
      have h0 : (offset + done) % 512 = 0 := by
        by_contra h0
        rw [if_neg (by simpa only [sectorSize] using h0)] at hwhole
        omega
      have hlen : 512 * whole ≤ data.length - done := by
        rw [if_pos (by simpa only [sectorSize] using h0)] at hwhole
        simp only [sectorSize] at hwhole
        omega
      rw [u32_of_lt (n := whole) (by omega), show sectorSize * whole = 512 * whole from rfl,
        ih (by omega) (by omega)]
      have hput : (put s (start + (offset + done) / 512) whole (dataStore (data.drop done))).disk
          (512 * start + k) = if offset + done ≤ k ∧ k < offset + done + 512 * whole
            then dataStore data (k - offset) else s.disk (512 * start + k) := by
        rw [put_disk]
        by_cases hin : offset + done ≤ k ∧ k < offset + done + 512 * whole
        · rw [if_pos hin, blit_of_mem (by simp only [sectorSize]; omega)
            (by simp only [sectorSize]; omega), dataStore_drop]
          congr 1
          simp only [sectorSize]
          omega
        · rw [if_neg hin, blit_of_notMem (by simp only [sectorSize]; omega)]
      rw [hput]
      split_ifs <;> first | rfl | omega
    · -- part of a sector
      rw [if_neg hw]
      generalize hcut : min (data.length - done) (sectorSize - (offset + done) % sectorSize) = n
      have hn0 : n ≤ data.length - done := by omega
      simp only [sectorSize] at hcut
      have hput : (put s (start + (offset + done) / 512) 1 (blit (fun o =>
          if (offset + done) / 512 < held then s.disk (sectorSize *
            (start + (offset + done) / 512) + o) else 0) ((offset + done) % sectorSize) n
          (dataStore (data.drop done)))).disk (512 * start + k) =
          if offset + done ≤ k ∧ k < offset + done + n then dataStore data (k - offset)
          else if k / 512 = (offset + done) / 512 ∧ held ≤ k / 512 then 0
          else s.disk (512 * start + k) := by
        rw [put_disk]
        by_cases hsec : k / 512 = (offset + done) / 512
        swap
        · rw [blit_of_notMem (by simp only [sectorSize]; omega), if_neg (by omega),
            if_neg (fun h => hsec h.1)]
        rw [blit_of_mem (by simp only [sectorSize]; omega) (by simp only [sectorSize]; omega)]
        by_cases hin : offset + done ≤ k ∧ k < offset + done + n
        · rw [if_pos hin, blit_of_mem (by simp only [sectorSize]; omega)
            (by simp only [sectorSize]; omega), dataStore_drop]
          congr 1
          simp only [sectorSize]
          omega
        · rw [if_neg hin, blit_of_notMem (by simp only [sectorSize]; omega)]
          by_cases hheld : (offset + done) / 512 < held
          · rw [if_pos hheld, if_neg (by omega)]
            congr 1
            simp only [sectorSize]
            omega
          · rw [if_neg hheld, if_pos (by omega)]
      rw [ih (by omega) (by omega), hput]
      split_ifs <;> first | rfl | omega

/-! ### What is moved -/

/-- **Sectors moved arrive as they were, with zeros after them**: to a run no further on, or past
all of them. -/
theorem moveSectors_disk (hstep : 0 < step)
    (hlt : dst + count < 2 ^ 32) (hsrc : src + held < 2 ^ 32)
    (hov : dst ≤ src ∨ src + held ≤ dst) (hf : count ≤ i + fuel) (s : State) {o : ℕ}
    (ho : 512 * i ≤ o) (ho' : o < 512 * count) :
    (moveSectors step src held dst count fuel i s).disk (512 * dst + o) =
      if o < 512 * held then s.disk (512 * src + o) else 0 := by
  induction fuel generalizing i s with
  | zero => omega
  | succ fuel ih =>
    unfold moveSectors
    rw [if_pos (by omega)]
    simp only
    rw [u32_of_lt (n := dst + i) (by omega)]
    generalize hn : min step (count - i) = n
    generalize hold : (if i < held then min (held - i) n else 0) = old
    by_cases hnext : o < 512 * (i + n)
    · -- in the run just moved: what is moved after it lies further on
      have hin : i + n ≤ count := by omega
      rw [((moveSectors_wrote hlt fuel (i + step) _).keep _ (Or.inl (by
        simp only [sectorSize]; omega)))]
      rw [put_disk, blit_of_mem (by simp only [sectorSize]; omega) (by simp only [sectorSize]; omega),
        show 512 * dst + o - sectorSize * (dst + i) = o - 512 * i by
          simp only [sectorSize]
          omega]
      have hcond : o - 512 * i < sectorSize * old ↔ o < 512 * held := by
        simp only [sectorSize]
        rw [← hold]
        split_ifs <;> omega
      by_cases hh : o < 512 * held
      · rw [if_pos (hcond.2 hh), if_pos hh, u32_of_lt (by omega)]
        congr 1
        simp only [sectorSize]
        omega
      · rw [if_neg (fun h => hh (hcond.1 h)), if_neg hh]
    · have hstep' : n = step := by omega
      rw [ih (by omega) _ (by omega)]
      split_ifs with hh
      · rw [put_disk, blit_of_notMem (by simp only [sectorSize]; omega)]
      · rfl

end BaxOS.Fs
