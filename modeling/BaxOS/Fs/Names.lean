import BaxOS.Fs.Ops
import Mathlib.Data.List.TakeWhile

/-!
# What resolving a path gives

Every name `resolve` gives leaves room for its NUL and has none inside (`resolve_ok`).
-/

namespace BaxOS.Fs
open ByteStore

variable {s : State} {follow : Bool} {n path : Name}

/-- A name the table can hold. -/
structure NameOk (n : Name) : Prop where
  ne : n ≠ []
  nul : 0 ∉ n
  fits : n.length < fsNameLen

/-- The working directory is one `fs_chdir` leaves. -/
structure CwdOk (s : State) : Prop where
  nul : 0 ∉ s.cwd
  fits : s.cwd.length < fsNameLen
  folder : s.cwd = [] ∨ s.cwd.getLast? = some slash

theorem slash_ne_zero : slash ≠ 0 := by decide

/-! ### Pieces of a path -/

theorem takeWhile_sublist (p : UInt8 → Bool) (l : List UInt8) : (l.takeWhile p).Sublist l :=
  (List.takeWhile_prefix p).sublist

theorem notMem_of_sublist {a : UInt8} {l l' : List UInt8} (h : l.Sublist l') (ha : a ∉ l') :
    a ∉ l := fun hm => ha (h.subset hm)

theorem upOne_sublist (l : Name) : (upOne l).Sublist l := by
  unfold upOne
  have h := (List.dropWhile_sublist (· ≠ slash) (l := l.dropLast.reverse)).reverse
  rw [List.reverse_reverse] at h
  exact h.trans (List.dropLast_sublist l)

theorem zero_notMem_untilNul (l : List UInt8) : 0 ∉ untilNul l := by
  intro h
  have := List.mem_takeWhile_imp h
  simp at this

/-! ### The walk -/

/-- A walk whose names fit the table. -/
structure WalkOk (w : Walk) : Prop where
  nul : 0 ∉ w.full
  fits : w.full.length < fsNameLen
  walk : 0 ∉ w.walk

/-- One turn keeps to names the table can hold. -/
theorem walkPart_ok {w w' : Walk} (hw : WalkOk w)
    (h : walkPart s follow w = .ok w') : WalkOk w' := by
  have hrest : 0 ∉ w.walk.drop (w.walk.takeWhile (· ≠ slash)).length :=
    notMem_of_sublist (List.drop_sublist _ _) hw.walk
  have hpart := notMem_of_sublist (takeWhile_sublist (· ≠ slash) w.walk) hw.walk
  have hnext := notMem_of_sublist (List.drop_sublist 1 _) hrest
  unfold walkPart at h
  simp only at h
  by_cases h1 : w.walk.takeWhile (· ≠ slash) = []
  · rw [if_pos h1] at h
    cases h
    exact ⟨hw.nul, hw.fits, hnext⟩
  by_cases h2 : w.walk.takeWhile (· ≠ slash) = [dot]
  · rw [if_neg h1, if_pos h2] at h
    cases h
    exact ⟨hw.nul, hw.fits, hnext⟩
  by_cases h3 : w.walk.takeWhile (· ≠ slash) = [dot, dot]
  · rw [if_neg h1, if_neg h2, if_pos h3] at h
    cases h
    exact ⟨notMem_of_sublist (upOne_sublist w.full) hw.nul,
      (upOne_sublist w.full).length_le.trans_lt hw.fits, hnext⟩
  by_cases h4 : fsNameLen < w.full.length + (w.walk.takeWhile (· ≠ slash)).length + 2
  · rw [if_neg h1, if_neg h2, if_neg h3, if_pos h4] at h
    cases h
  rw [if_neg h1, if_neg h2, if_neg h3, if_neg h4] at h
  split at h
  · -- a link: what it holds is walked in its place
    split_ifs at h <;> cases h
    · exact ⟨List.not_mem_nil, by norm_num [fsNameLen], zero_notMem_untilNul _⟩
    · exact ⟨hw.nul, hw.fits, zero_notMem_untilNul _⟩
  · cases h
    rw [not_lt] at h4
    refine ⟨?_, ?_, hnext⟩
    · simp only
      have hname : 0 ∉ w.full ++ w.walk.takeWhile (· ≠ slash) := by
        rw [List.mem_append, not_or]
        exact ⟨hw.nul, hpart⟩
      split_ifs
      · rw [List.mem_append, not_or]
        exact ⟨hname, by simp [slash_ne_zero.symm]⟩
      · exact hname
    · simp only
      split_ifs <;> simp only [List.length_append, List.length_singleton] <;> omega

/-- The walk keeps to names the table can hold. -/
theorem walkOn_ok {fuel : ℕ} {w : Walk} (hw : WalkOk w)
    (h : walkOn s follow fuel w = .ok n) : 0 ∉ n ∧ n.length < fsNameLen := by
  induction fuel generalizing w with
  | zero => cases h
  | succ fuel ih =>
    unfold walkOn at h
    split_ifs at h with hnil
    · cases h
      exact ⟨hw.nul, hw.fits⟩
    · split at h
      · cases h
      · rename_i w' heq
        exact ih (walkPart_ok hw heq) h

theorem resolveAny_ok (hc : CwdOk s) (hp : 0 ∉ path)
    (h : resolveAny s path follow = .ok n) : 0 ∉ n ∧ n.length < fsNameLen := by
  unfold resolveAny at h
  split_ifs at h with h1 h2
  · exact walkOn_ok ⟨List.not_mem_nil, by norm_num [fsNameLen], hp⟩ h
  · exact walkOn_ok ⟨hc.nul, hc.fits, hp⟩ h

theorem resolve_eq_ok :
    resolve s path follow = .ok n ↔ resolveAny s path follow = .ok n ∧ n ≠ [] := by
  unfold resolve
  constructor
  · intro h
    split at h
    · cases h
    · cases h
    · rename_i full hne heq
      cases h
      exact ⟨heq, hne⟩
  · rintro ⟨h, hne⟩
    rw [h]
    cases n with
    | nil => exact absurd rfl hne
    | cons c n => rfl

/-- **A resolved name fits the table.** -/
theorem resolve_ok (hc : CwdOk s) (hp : 0 ∉ path)
    (h : resolve s path follow = .ok n) : NameOk n := by
  obtain ⟨h1, h2⟩ := resolve_eq_ok.1 h
  obtain ⟨h3, h4⟩ := resolveAny_ok hc hp h1
  exact ⟨h2, h3, h4⟩

theorem dirName_eq_ok
    (h : dirName s path follow = .ok n) : ∃ full, resolve s path follow = .ok full ∧
      (full.getLast? = some slash ∧ n = full ∨
        full.getLast? ≠ some slash ∧ n = full ++ [slash] ∧ full.length + 2 ≤ fsNameLen) := by
  unfold dirName at h
  split at h
  · cases h
  · rename_i full heq
    refine ⟨full, heq, ?_⟩
    split_ifs at h with h1 h2
    · exact Or.inl ⟨h1, (Except.ok.inj h).symm⟩
    · exact Or.inr ⟨h1, (Except.ok.inj h).symm, not_lt.1 h2⟩

theorem dirName_ok (hc : CwdOk s) (hp : 0 ∉ path)
    (h : dirName s path follow = .ok n) : NameOk n ∧ n.getLast? = some slash := by
  obtain ⟨full, hr, ⟨h1, rfl⟩ | ⟨h1, rfl, h2⟩⟩ := dirName_eq_ok h
  · exact ⟨resolve_ok hc hp hr, h1⟩
  · have hn := resolve_ok hc hp hr
    refine ⟨⟨by simp, by simp [hn.nul, slash_ne_zero.symm], ?_⟩, by simp⟩
    simp only [List.length_append, List.length_singleton]
    omega

end BaxOS.Fs
