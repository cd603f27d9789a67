import BaxOS.Sys.Exec
import Mathlib.Data.List.TakeWhile

/-!
# The lists copied

`Lists` says that a program's memory holds a list of strings; `fitting` is how much of it `copy_list`
takes, and `copyList_spec` that this is what it takes. `bang_take` says what a `#!` line read in part
tells of the whole.
-/

namespace BaxOS.Exec
open ByteStore

variable {s : Space} {mem line : Store} {a p left room used : ℕ} {w : List UInt8}
  {strs : List (List UInt8)}
variable {n : ℕ} {interp l text : List UInt8} {extra : Option (List UInt8)}

/-! ### What a program hands over -/

/-- A string in the window. -/
structure Given (s : Space) (mem : Store) (a : ℕ) (w : List UInt8) : Prop where
  spells : Spells mem a w
  plain : 0 ∉ w
  held : s.holds a (w.length + 1)

/-- Pointers to strings, and `NULL` after them. -/
inductive Points (s : Space) (mem : Store) : ℕ → List (List UInt8) → Prop
  | nil {p : ℕ} (held : s.holds p 8) (null : word64 mem p = 0) : Points s mem p []
  | cons {p : ℕ} {w : List UInt8} {strs : List (List UInt8)} (held : s.holds p 8) (ne : word64 mem p ≠ 0) (given : Given s mem (word64 mem p) w)
      (rest : Points s mem (p + 8) strs) : Points s mem p (w :: strs)

/-- A list of strings: `NULL` is one of none. -/
def Lists (s : Space) (mem : Store) (list : ℕ) (strs : List (List UInt8)) : Prop :=
  list = 0 ∧ strs = [] ∨ list ≠ 0 ∧ Points s mem list strs

theorem Points.plain (h : Points s mem p strs) : ∀ w ∈ strs, 0 ∉ w := by
  induction h with
  | nil => simp
  | cons _ _ hg _ ih =>
    intro w hw
    rcases List.mem_cons.1 hw with rfl | hw
    · exact hg.plain
    · exact ih w hw

theorem Lists.plain (h : Lists s mem a strs) : ∀ w ∈ strs, 0 ∉ w := by
  rcases h with ⟨-, rfl⟩ | ⟨-, h⟩
  · simp
  · exact h.plain

theorem Space.holds_mono {b m : ℕ} (h : s.holds a n) (hb : a ≤ b) (hm : b + m ≤ a + n) :
    s.holds b m := by
  unfold Space.holds at *
  simp only [Bool.or_eq_true, Option.any_eq_true] at h ⊢
  rcases h with ⟨⟨start, fin⟩, hlow, h⟩ | h
  · left
    refine ⟨(start, fin), hlow, ?_⟩
    simp only [decide_eq_true_eq] at h ⊢
    omega
  · right
    simp only [decide_eq_true_eq] at h ⊢
    omega

theorem Given.tail {c : UInt8} (h : Given s mem a (c :: w)) : Given s mem (a + 1) w where
  spells :=
    { chars := fun i hi => by
        have := h.spells.chars (i + 1) (by simpa using hi)
        rwa [← Nat.add_assoc, Nat.add_right_comm] at this
      nul := by
        have := h.spells.nul
        rwa [List.length_cons, ← Nat.add_assoc, Nat.add_right_comm] at this }
  plain h0 := h.plain (List.mem_cons_of_mem c h0)
  held := Space.holds_mono h.held (by omega) (by simp; omega)

theorem Given.nulWithin (h : Given s mem a w) (n : ℕ) :
    nulWithin s mem n a = decide (w.length < n) := by
  induction n generalizing a w with
  | zero => simp [Exec.nulWithin]
  | succ n ih =>
    have hheld : s.holds a 0 = true := Space.holds_mono h.held le_rfl (by omega)
    unfold Exec.nulWithin
    rw [hheld, Bool.true_and]
    cases w with
    | nil =>
      have h0 : mem a = 0 := h.spells.nul
      simp [h0]
    | cons c w =>
      have hc : mem a = c := h.spells.chars 0 (by simp)
      have hc0 : c ≠ 0 := fun hc => h.plain (by simp [hc])
      rw [ih h.tail, hc]
      simp [hc0]

/-- A string in the window is read if it and its NUL are 4096 bytes at most. -/
theorem Given.userString (h : Given s mem a w) :
    userString s mem a = if w.length < 4096 then some w else none := by
  unfold Exec.userString
  rw [h.nulWithin]
  by_cases hw : w.length < 4096
  · rw [if_pos (by simpa using hw), if_pos hw, h.spells.cstr h.plain hw]
  · rw [if_neg (by simpa using hw), if_neg hw]

theorem userString_plain {addr : ℕ} (h : userString s mem addr = some w) : 0 ∉ w := by
  unfold userString at h
  split_ifs at h
  obtain rfl := Option.some.inj h
  exact zero_notMem_cstr _ _ _

/-! ### What is taken of it -/

/-- The strings there are places and room for, up to the first there is not. -/
def fitting : ℕ → ℕ → List (List UInt8) → List (List UInt8)
  | left + 1, room, w :: strs =>
    if w.length + 1 ≤ room then w :: fitting left (room - (w.length + 1)) strs else []
  | _, _, _ => []

@[simp] theorem fitting_zero (room : ℕ) (strs : List (List UInt8)) : fitting 0 room strs = [] := rfl

@[simp] theorem fitting_nil (left room : ℕ) : fitting left room [] = [] := by
  cases left <;> rfl

theorem fitting_cons (left room : ℕ) (w : List UInt8) (strs : List (List UInt8)) :
    fitting (left + 1) room (w :: strs) =
      if w.length + 1 ≤ room then w :: fitting left (room - (w.length + 1)) strs else [] := rfl

theorem fitting_starts (left room : ℕ) (strs : List (List UInt8)) : fitting left room strs <+: strs := by
  induction left generalizing room strs with
  | zero => simp
  | succ left ih =>
    cases strs with
    | nil => simp
    | cons w strs =>
      rw [fitting_cons]
      split_ifs
      · exact List.cons_prefix_cons.2 ⟨rfl, ih _ _⟩
      · exact List.nil_prefix

theorem fitting_length (left room : ℕ) (strs : List (List UInt8)) :
    (fitting left room strs).length ≤ left ∧ (packed (fitting left room strs)).length ≤ room := by
  induction left generalizing room strs with
  | zero => simp
  | succ left ih =>
    cases strs with
    | nil => simp
    | cons w strs =>
      rw [fitting_cons]
      split_ifs with hw
      · have := ih (room - (w.length + 1)) strs
        rw [packed_cons]
        simp only [List.length_cons, List.length_append, List.length_nil]
        omega
      · simp

/-- All of it is taken where there are places and room for all. -/
theorem fitting_eq_iff : fitting left room strs = strs ↔
    strs.length ≤ left ∧ (packed strs).length ≤ room := by
  constructor
  · intro h
    have := fitting_length left room strs
    rwa [h] at this
  · rintro ⟨hl, hr⟩
    induction strs generalizing left room with
    | nil => simp
    | cons w strs ih =>
      rw [packed_cons] at hr
      simp only [List.length_cons, List.length_append, List.length_nil] at hl hr
      obtain ⟨left, rfl⟩ : ∃ k, left = k + 1 := ⟨left - 1, by omega⟩
      rw [fitting_cons]
      rw [if_pos (by omega), ih (by omega) (by omega)]

/-- Where a copied string is: in `line`, before what is used of it. -/
def Kept (line : Store) (used a : ℕ) (w : List UInt8) : Prop := Spells line a w ∧ a + w.length < used

/-- What a list copied to `line` from `used` on leaves: the strings of `kept`, each where `out` says,
and what was there before them. -/
structure Copied (line : Store) (used : ℕ) (r : Store × ℕ × List ℕ) (kept : List (List UInt8)) :
    Prop where
  used_eq : r.2.1 = used + (packed kept).length
  strings : List.Forall₂ (Kept r.1 r.2.1) r.2.2 kept
  before : ∀ {x k}, x + k ≤ used → Agree r.1 line x k

theorem Copied.none (line : Store) (used : ℕ) : Copied line used (line, used, []) [] :=
  ⟨rfl, .nil, fun _ => Agree.rfl'⟩

theorem copyWords_spec (line : Store) {used : ℕ} (h : Points s mem p strs) (hroom : room ≤ 4096)
    (hused : used ≤ room) :
    Copied line used (copyWords s mem room left p line used) (fitting left (room - used) strs) := by
  induction left generalizing p strs line used with
  | zero =>
    rw [fitting_zero]
    exact Copied.none line used
  | succ left ih =>
    unfold copyWords
    cases h with
    | nil held null =>
      rw [if_pos (Or.inr null), fitting_nil]
      exact Copied.none line used
    | @cons _ w strs held ne given rest =>
      rw [if_neg (by simp [held, ne]), given.userString]
      rw [fitting_cons]
      by_cases hw : w.length + 1 ≤ room - used
      · rw [if_pos (by omega), if_pos hw]
        simp only
        rw [if_neg (by omega)]
        obtain ⟨hu, hs, hb⟩ := ih (putString line used w) rest
          (show used + (w.length + 1) ≤ room by omega)
        rw [show room - (used + (w.length + 1)) = room - used - (w.length + 1) by omega] at hu hs
        refine ⟨?_, .cons ⟨?_, ?_⟩ hs, ?_⟩
        · simp only
          rw [hu, packed_cons]
          simp only [List.length_append, List.length_singleton]
          omega
        · exact (Spells.blit line used w).congr (hb le_rfl).symm
        · exact lt_of_lt_of_eq (by omega) hu.symm
        · intro x k hx
          exact (hb (by omega)).trans (Agree.putString (Or.inl hx))
      · -- no room, or a string that is not read for its length
        rw [if_neg hw]
        by_cases hlong : w.length < 4096
        · rw [if_pos hlong]
          simp only
          rw [if_pos (by omega)]
          exact Copied.none line used
        · rw [if_neg hlong]
          exact Copied.none line used

/-- **What `copy_list` takes.** -/
theorem copyList_spec {list : ℕ} (line : Store) (max : ℕ) (h : Lists s mem list strs)
    (hroom : room ≤ 4096) (hused : used ≤ room) : Copied line used (copyList s mem list line room used max)
      (fitting (max - 1) (room - used) strs) := by
  unfold copyList
  rcases h with ⟨rfl, rfl⟩ | ⟨hne, h⟩
  · rw [if_pos (Or.inl rfl), fitting_nil]
    exact Copied.none line used
  · have hheld : s.holds list 8 = true := by
      cases h with
      | nil held _ => exact held
      | cons held _ _ _ => exact held
    rw [if_neg (by simp [hne, hheld])]
    exact copyWords_spec line h hroom hused

/-- The strings copied are read back. -/
theorem Copied.texts {r : Store × ℕ × List ℕ} {kept : List (List UInt8)} (h : Copied line used r kept)
    (h0 : ∀ w ∈ kept, 0 ∉ w) (hn : r.2.1 ≤ n) {line' : Store}
    (hkeep : ∀ {x k}, x + k ≤ r.2.1 → Agree r.1 line' x k) :
    r.2.2.map (fun a => cstr line' a (n - a)) = kept := by
  obtain ⟨line1, used1, out⟩ := r
  have hs := h.strings
  clear h
  simp only at hs hn hkeep ⊢
  induction hs with
  | nil => rfl
  | @cons a w as ws hw _ ih =>
    rw [List.map_cons, ih (fun x hx => h0 x (List.mem_cons_of_mem w hx))]
    have hlt := hw.2
    have hsp : Spells line' a w := hw.1.congr (hkeep (by omega))
    rw [hsp.cstr (h0 w List.mem_cons_self) (by omega)]

/-! ### A `#!` line read in part -/

theorem takeWhile_prefix_mono {α : Type*} {l l' : List α} (h : l' <+: l) (q : α → Bool) :
    l'.takeWhile q <+: l.takeWhile q := by
  obtain ⟨t, rfl⟩ := h
  rw [List.takeWhile_append]
  split_ifs with hall
  · exact (List.takeWhile_prefix q).trans (List.prefix_append l' _)
  · exact List.prefix_refl _

theorem dropWhile_prefix_mono {α : Type*} {l l' : List α} (h : l' <+: l) (q : α → Bool) :
    l'.dropWhile q <+: l.dropWhile q := by
  obtain ⟨t, rfl⟩ := h
  rw [List.dropWhile_append]
  split_ifs with hnil
  · rw [List.isEmpty_iff.1 hnil]
    exact List.nil_prefix
  · exact List.prefix_append _ _

theorem interpOf_prefix {l' : List UInt8} (h : l' <+: l) : interpOf l' <+: interpOf l :=
  takeWhile_prefix_mono (dropWhile_prefix_mono h _) _

theorem extraOf_prefix {l' : List UInt8} (h : l' <+: l) : extraOf l' <+: extraOf l :=
  takeWhile_prefix_mono
    (dropWhile_prefix_mono (dropWhile_prefix_mono (dropWhile_prefix_mono h _) _) _) _

theorem interpOf_sublist (l : List UInt8) : (interpOf l).Sublist l :=
  (List.takeWhile_sublist _).trans (List.dropWhile_sublist _)

theorem extraOf_sublist (l : List UInt8) : (extraOf l).Sublist l :=
  (List.takeWhile_sublist _).trans ((List.dropWhile_sublist _).trans
    ((List.dropWhile_sublist _).trans (List.dropWhile_sublist _)))

/-- What it is for a text to begin with a `#!` line. -/
theorem bang_eq_some_iff :
    bang text = some (interp, extra) ↔ ∃ l, text.takeWhile (· ≠ 0) = 0x23 :: 0x21 :: l ∧
      interp ≠ [] ∧ interp = interpOf l ∧ extra = if extraOf l = [] then none else some (extraOf l) := by
  unfold bang
  constructor
  · intro h
    split at h
    · rename_i l hl
      by_cases hi : interpOf l = []
      · rw [if_pos hi] at h
        exact absurd h (by simp)
      · rw [if_neg hi] at h
        obtain ⟨rfl, rfl⟩ := Prod.mk.inj (Option.some.inj h)
        exact ⟨l, hl, hi, rfl, rfl⟩
    · exact absurd h (by simp)
  · rintro ⟨l, hl, hi, rfl, rfl⟩
    rw [hl]
    simp only
    rw [if_neg hi]

/-- What a `#!` line says has no NUL. -/
theorem bang_plain
    (h : bang text = some (interp, extra)) : 0 ∉ interp ∧ ∀ x ∈ extra, 0 ∉ x := by
  obtain ⟨l, hl, _, rfl, rfl⟩ := bang_eq_some_iff.1 h
  have h0 : (0 : UInt8) ∉ l := by
    intro hmem
    have hmem' : (0 : UInt8) ∈ text.takeWhile (· ≠ 0) := by
      rw [hl]
      exact List.mem_cons_of_mem _ (List.mem_cons_of_mem _ hmem)
    simpa using List.mem_takeWhile_imp hmem'
  refine ⟨fun hmem => h0 ((interpOf_sublist l).subset hmem), ?_⟩
  intro x hx
  split_ifs at hx
  · exact absurd hx (by simp)
  · obtain rfl := Option.some.inj hx
    exact fun hmem => h0 ((extraOf_sublist l).subset hmem)

/-- **A `#!` line read in part**: one is there, and has an argument if the part has. -/
theorem bang_take
    (h : bang (text.take n) = some (interp, extra)) : ∃ interp' extra',
      bang text = some (interp', extra') ∧ (extra' = none → extra = none) := by
  obtain ⟨l, hl, hi, rfl, rfl⟩ := bang_eq_some_iff.1 h
  have hpre := takeWhile_prefix_mono (List.take_prefix n text) (· ≠ 0)
  rw [hl] at hpre
  obtain ⟨t, ht⟩ := hpre
  have hl' : text.takeWhile (· ≠ 0) = 0x23 :: 0x21 :: (l ++ t) := ht.symm
  have hpi := interpOf_prefix (List.prefix_append l t)
  have hpe := extraOf_prefix (List.prefix_append l t)
  refine ⟨_, _, bang_eq_some_iff.2 ⟨l ++ t, hl', ?_, rfl, rfl⟩, ?_⟩
  · intro hnil
    rw [hnil] at hpi
    exact hi (List.prefix_nil.1 hpi)
  · intro hnone
    split_ifs at hnone with hx
    rw [hx] at hpe
    rw [if_pos (List.prefix_nil.1 hpe)]

theorem dropWhile_take {α : Type*} (q : α → Bool) (l : List α) (n : ℕ) :
    (l.take n).dropWhile q = (l.dropWhile q).take (n - (l.takeWhile q).length) := by
  induction l generalizing n with
  | nil => simp
  | cons c l ih =>
    cases n with
    | zero => simp
    | succ n =>
      rw [List.take_succ_cons, List.dropWhile_cons, List.dropWhile_cons, List.takeWhile_cons]
      split_ifs
      · rw [ih, List.length_cons, Nat.add_sub_add_right]
      · rw [List.length_nil, Nat.sub_zero, List.take_succ_cons]

theorem not_isEnd_of_isBlank {c : UInt8} (h : isBlank c = true) : (! isEnd c) = true := by
  simp only [isBlank, Bool.or_eq_true, beq_iff_eq] at h
  rcases h with rfl | rfl <;> rfl

/-- The parts of a line: blanks, the program it names, blanks, and its argument. -/
structure Parts (l lead gap : List UInt8) : Prop where
  blank : ∀ c ∈ gap, isBlank c = true
  line : l.takeWhile (! isEnd ·) = lead ++ (interpOf l ++ (gap ++ extraOf l))
  interp : ∀ n, interpOf (l.take n) = (interpOf l).take (n - lead.length)
  extra : ∀ n, extraOf (l.take n) =
    (extraOf l).take (n - lead.length - (interpOf l).length - gap.length)

theorem exists_parts (l : List UInt8) : ∃ lead gap, Parts l lead gap := by
  have hword : ∀ c ∈ (l.dropWhile isBlank).takeWhile fun c => ! isEnd c && ! isBlank c,
      (! isEnd c) = true := by
    intro c hc
    have := List.mem_takeWhile_imp hc
    simp only [Bool.and_eq_true] at this
    exact this.1
  refine ⟨l.takeWhile isBlank, ((l.dropWhile isBlank).dropWhile fun c => ! isEnd c && ! isBlank c).takeWhile
    isBlank, fun c hc => List.mem_takeWhile_imp hc, ?_, fun n => ?_, fun n => ?_⟩
  · conv_lhs => rw [← List.takeWhile_append_dropWhile (p := isBlank) (l := l)]
    rw [List.takeWhile_append_of_pos fun c hc => not_isEnd_of_isBlank (List.mem_takeWhile_imp hc)]
    congr 1
    conv_lhs => rw [← List.takeWhile_append_dropWhile (p := fun c => ! isEnd c && ! isBlank c)
      (l := l.dropWhile isBlank)]
    rw [List.takeWhile_append_of_pos hword]
    unfold interpOf
    congr 1
    conv_lhs => rw [← List.takeWhile_append_dropWhile (p := isBlank)
      (l := (l.dropWhile isBlank).dropWhile fun c => ! isEnd c && ! isBlank c)]
    rw [List.takeWhile_append_of_pos fun c hc => not_isEnd_of_isBlank (List.mem_takeWhile_imp hc)]
    rfl
  · unfold interpOf
    rw [dropWhile_take, ← List.take_takeWhile]
  · unfold extraOf interpOf
    rw [dropWhile_take, dropWhile_take, dropWhile_take, ← List.take_takeWhile]

/-- The part of a line that its first `n` bytes leave out says nothing: it is blanks, and the line has no
argument. -/
theorem said_take_iff (hi : interpOf l ≠ []) :
    interpOf (l.take n) = interpOf l ∧ extraOf (l.take n) = extraOf l ↔
      ∀ c ∈ (l.takeWhile (! isEnd ·)).drop n, extraOf l = [] ∧ isBlank c = true := by
  obtain ⟨lead, gap, hparts⟩ := exists_parts l
  have hpos := List.length_pos_of_ne_nil hi
  rw [hparts.interp, hparts.extra, hparts.line, List.take_eq_self_iff, List.take_eq_self_iff]
  constructor
  · rintro ⟨hin, hex⟩ c hc
    rw [List.drop_append, List.drop_eq_nil_of_le (by omega), List.nil_append, List.drop_append,
      List.drop_eq_nil_of_le hin, List.nil_append, List.drop_append, List.drop_eq_nil_of_le hex,
      List.append_nil] at hc
    have hgap := List.length_pos_of_mem hc
    rw [List.length_drop] at hgap
    exact ⟨List.length_eq_zero_iff.1 (by omega), hparts.blank c (List.mem_of_mem_drop hc)⟩
  · intro h
    have hin : (interpOf l).length ≤ n - lead.length := by
      by_contra hlt
      -- the last byte of the program is left out, and is no blank
      have hlast := (interpOf l).getLast_mem hi
      have hmem : (interpOf l).getLast hi ∈
          (lead ++ (interpOf l ++ (gap ++ extraOf l))).drop n := by
        rw [List.drop_append, List.drop_append, List.mem_append, List.mem_append]
        right
        left
        rw [List.mem_drop_iff_getElem]
        exact ⟨(interpOf l).length - 1 - (n - lead.length), by omega, by
          rw [List.getLast_eq_getElem]
          congr 1
          omega⟩
      have hword := List.mem_takeWhile_imp hlast
      simp only [(h _ hmem).2, Bool.not_true, Bool.and_false, Bool.false_eq_true] at hword
    refine ⟨hin, ?_⟩
    by_contra hlt
    have hx : extraOf l ≠ [] := by
      intro hnil
      rw [hnil] at hlt
      exact hlt (Nat.zero_le _)
    have hmem : (extraOf l).getLast hx ∈ (lead ++ (interpOf l ++ (gap ++ extraOf l))).drop n := by
      rw [List.drop_append, List.drop_append, List.drop_append, List.mem_append, List.mem_append,
        List.mem_append]
      right
      right
      right
      rw [List.mem_drop_iff_getElem]
      exact ⟨(extraOf l).length - 1 - (n - lead.length - (interpOf l).length - gap.length), by omega, by
        rw [List.getLast_eq_getElem]
        congr 1
        omega⟩
    exact hx (h _ hmem).1

end BaxOS.Exec
