import BaxOS.Console.Keys
import BaxOS.Lib.Runs

/-!
# Keys arrive whole, where they fit

A key that finds room for part of its text only, in `keys` or in `typed`, is cut, and so is one whose
first characters were taken when `typed` is emptied. Where neither happens keys arrive whole
(`arriveWhole_of_fits`).
-/

namespace BaxOS.Console
open Pieces

variable {s : Keyboard} {p : Piece UInt8}

/-! ### What a key types -/

/-- No character is 0, and none but the last is one that `ISIG` makes a signal. -/
def Plain (w : List UInt8) : Prop := 0 ∉ w ∧ ∀ c ∈ w.dropLast, c ≠ vintr ∧ c ≠ vquit

instance (w : List UInt8) : Decidable (Plain w) := inferInstanceAs (Decidable (_ ∧ _))

theorem greyKey_plain {code : UInt8} {w : List UInt8} (h : greyKey code = some w) : Plain w := by
  unfold greyKey at h
  split at h
  all_goals first
    | (obtain rfl := Option.some.inj h; decide +kernel)
    | exact absurd h (by simp)

theorem functionKey_plain {code : UInt8} {w : List UInt8} (h : functionKey code = some w) :
    Plain w := by
  unfold functionKey at h
  split at h
  all_goals first
    | (obtain rfl := Option.some.inj h; decide +kernel)
    | exact absurd h (by simp)

theorem plain_char {c : UInt8} (hc : c ≠ 0) (alt : Bool) :
    Plain (if alt then [escape, c] else [c]) := by
  cases alt with
  | true => exact ⟨by simp [escape, Ne.symm hc], by simp [escape, vintr, vquit]⟩
  | false => exact ⟨by simp [Ne.symm hc], by simp⟩

theorem plain_nil : Plain [] := ⟨List.not_mem_nil, by simp⟩

theorem keyByte_plain (m : Mods) (code : UInt8) : Plain (keyByte m code).2 := by
  unfold keyByte
  simp only
  by_cases h1 : code = scExtended
  · rw [if_pos h1]
    exact plain_nil
  rw [if_neg h1]
  by_cases h2 : code &&& ~~~ scRelease = scLshift ∨ code &&& ~~~ scRelease = scRshift
  · rw [if_pos h2]
    exact plain_nil
  rw [if_neg h2]
  by_cases h3 : code &&& ~~~ scRelease = scCtrl
  · rw [if_pos h3]
    exact plain_nil
  rw [if_neg h3]
  by_cases h4 : code &&& ~~~ scRelease = scAlt
  · rw [if_pos h4]
    exact plain_nil
  rw [if_neg h4]
  by_cases h5 : ¬ code &&& scRelease = 0
  · rw [if_pos h5]
    exact plain_nil
  rw [if_neg h5]
  by_cases h6 : code = scCaps
  · rw [if_pos h6]
    exact plain_nil
  rw [if_neg h6]
  cases htext : (if m.extended then greyKey code else functionKey code) with
  | some text =>
    simp only
    by_cases hx : m.extended = true
    · rw [if_pos hx] at htext
      exact greyKey_plain htext
    · rw [if_neg hx] at htext
      exact functionKey_plain htext
  | none =>
    simp only
    by_cases hc : plainChar m m.extended code = 0
    · rw [if_pos hc]
      exact plain_nil
    · rw [if_neg hc]
      exact plain_char hc m.alt

theorem Plain.value_ne {w : List UInt8} (h : Plain w) (hp : p ∈ pieces w) : value p ≠ 0 := by
  obtain ⟨rfl, hi⟩ := mem_pieces.1 hp
  intro h0
  apply h.1
  rw [← h0]
  unfold value
  rw [← List.getElem_eq_getD (h := hi)]
  exact List.getElem_mem hi

theorem Plain.last {w : List UInt8} (h : Plain w) (hp : p ∈ pieces w)
    (hc : value p = vintr ∨ value p = vquit) : p.1.length ≤ p.2 + 1 := by
  obtain ⟨rfl, hi⟩ := mem_pieces.1 hp
  by_contra hlt
  have hi' : p.2 < p.1.dropLast.length := by
    rw [List.length_dropLast]
    omega
  have hmem : value p ∈ p.1.dropLast := by
    unfold value
    rw [← List.getElem_eq_getD (h := hi), ← List.getElem_dropLast hi']
    exact List.getElem_mem hi'
  have := h.2 _ hmem
  rcases hc with hc | hc
  · exact this.1 hc
  · exact this.2 hc

/-! ### What is pushed -/

theorem foldl_keyPush_full {keys : List (Piece UInt8)} (h : keysMax ≤ keys.length)
    (l : List (Piece UInt8)) : l.foldl keyPush keys = keys := by
  induction l with
  | nil => rfl
  | cons p l ih =>
    have hp : keyPush keys p = keys := if_neg fun hc => Nat.not_lt.2 h hc.2
    rw [List.foldl_cons, hp, ih]

theorem foldl_keyPush_fits {l keys : List (Piece UInt8)} (h0 : ∀ p ∈ l, value p ≠ 0)
    (h : keys.length + l.length ≤ keysMax) : l.foldl keyPush keys = keys ++ l := by
  induction l generalizing keys with
  | nil => simp
  | cons p l ih =>
    rw [List.length_cons] at h
    have hp : keyPush keys p = keys ++ [p] :=
      if_pos ⟨h0 p List.mem_cons_self, by omega⟩
    rw [List.foldl_cons, hp, ih (fun q hq => h0 q (List.mem_cons_of_mem p hq))
      (by rw [List.length_append, List.length_singleton]; omega), List.append_assoc,
      List.singleton_append]

/-! ### Where keys fit -/

namespace Keyboard

/-- Whether `gather` empties `typed` at this character: the third Ctrl-C in a row that nothing has
read, or one that is a signal. -/
def Empties (s : Keyboard) (p : Piece UInt8) (idle : Bool) : Prop :=
  (forceAfter ≤ (if value p = vintr then (s.unreadIntr + 1) % 2 ^ 32 else 0) ∧ idle) ∨
    (¬ s.keysOff ∧ s.isig ∧ (value p = vintr ∨ value p = vquit))

/-- Whether an event cuts no key: one pressed has room in `keys` for all its text or for none, and so
has one in `typed` when its first character is moved there; and what is in `typed` when it is emptied
does not begin inside one. -/
def Fits (s : Keyboard) : Event → Prop
  | .code b => s.keys.length + (keyByte s.mods b).2.length ≤ keysMax ∨ keysMax ≤ s.keys.length
  | .gather idle => ∀ p ∈ s.keys.head?,
    (s.Empties p idle → Clean s.typed) ∧
      (¬ s.Empties p idle → ¬ s.keysOff → p.2 = 0 →
        s.typed.length + p.1.length ≤ typedMax ∨ typedMax ≤ s.typed.length)
  | .reset => s.keys = [] → Clean s.typed
  | _ => True

instance (s : Keyboard) (p : Piece UInt8) (idle : Bool) : Decidable (s.Empties p idle) :=
  inferInstanceAs (Decidable (_ ∨ _))

instance (s : Keyboard) : ∀ e, Decidable (s.Fits e)
  | .code _ => inferInstanceAs (Decidable (_ ∨ _))
  | .gather idle => inferInstanceAs (Decidable (∀ p ∈ s.keys.head?,
      (s.Empties p idle → Clean s.typed) ∧
        (¬ s.Empties p idle → ¬ s.keysOff → p.2 = 0 → _ ∨ _)))
  | .reset => inferInstanceAs (Decidable (s.keys = [] → _))
  | .take | .signal | .turn _ | .set _ => inferInstanceAs (Decidable True)

/-- What holds in every state of such a run. -/
structure Inv (s : Keyboard) : Prop where
  whole : Whole typedMax (s.keysOff = true) s.pressed s.taken s.typed s.keys
  small : s.typed.length ≤ typedMax
  last : ∀ p ∈ s.keys, value p = vintr ∨ value p = vquit → p.1.length ≤ p.2 + 1

theorem Inv.start : Inv {} where
  whole := Whole.start
  small := Nat.zero_le _
  last := by simp

theorem Inv.code (h : s.Inv) (b : UInt8) (hfit : s.Fits (.code b)) : (s.step (.code b)).Inv := by
  have hplain := keyByte_plain s.mods b
  set text := (keyByte s.mods b).2 with htext
  have hstep : s.step (.code b) = { s with
      mods := (keyByte s.mods b).1, keys := (pieces text).foldl keyPush s.keys
      pressed := s.pressed ++ [text] } := rfl
  rw [hstep]
  rcases hfit with hfit | hfull
  · have hkeys : (pieces text).foldl keyPush s.keys = s.keys ++ pieces text :=
      foldl_keyPush_fits (fun p hp => hplain.value_ne hp) (by rwa [length_pieces])
    rw [hkeys]
    refine ⟨h.whole.send text, h.small, ?_⟩
    intro p hp hc
    rcases List.mem_append.1 hp with hp | hp
    · exact h.last p hp hc
    · exact hplain.last hp hc
  · rw [foldl_keyPush_full hfull]
    exact ⟨h.whole.refuse text, h.small, h.last⟩

/-- A turn of `gather` changes nothing of this but `typed`. -/
theorem gathered_typed (s : Keyboard) (p : Piece UInt8) (idle : Bool) :
    (s.Empties p idle → (s.gathered p idle).typed = []) ∧
    (¬ s.Empties p idle → (s.gathered p idle).typed =
      if ¬ s.keysOff ∧ s.typed.length < typedMax then s.typed ++ [p] else s.typed) := by
  unfold gathered Empties
  simp only
  constructor
  · intro h
    rcases h with h | ⟨hon, h⟩
    · rw [if_pos h]
    · rw [if_neg hon, if_pos h]
      split_ifs <;> rfl
  · intro h
    rw [not_or] at h
    rw [if_neg h.1]
    by_cases hoff : s.keysOff = true
    · simp [hoff]
    · rw [if_neg hoff, if_neg fun hc => h.2 ⟨hoff, hc⟩]
      by_cases hlt : s.typed.length < typedMax
      · simp [hoff, hlt]
      · simp [hlt]

theorem gathered_frame (s : Keyboard) (p : Piece UInt8) (idle : Bool) :
    (s.gathered p idle).keys = s.keys ∧ (s.gathered p idle).keysOff = s.keysOff ∧
      (s.gathered p idle).pressed = s.pressed ∧ (s.gathered p idle).taken = s.taken := by
  unfold gathered
  simp only
  split_ifs <;> exact ⟨rfl, rfl, rfl, rfl⟩

theorem Inv.gather (h : s.Inv) (idle : Bool) (hfit : s.Fits (.gather idle)) :
    (s.step (.gather idle)).Inv := by
  obtain ⟨hw, hs, hl⟩ := h
  unfold step
  cases hk : s.keys with
  | nil =>
    simp only
    exact ⟨hw, hs, hl⟩
  | cons p keys =>
    obtain ⟨hclean, hroom⟩ := hfit p (by rw [hk]; rfl)
    rw [hk] at hw hl
    simp only
    obtain ⟨hkeys, hoff, hpressed, htaken⟩ := gathered_frame { s with keys } p idle
    obtain ⟨hempty, hkept⟩ := gathered_typed { s with keys } p idle
    have hl' : ∀ q ∈ keys, value q = vintr ∨ value q = vquit → q.1.length ≤ q.2 + 1 :=
      fun q hq => hl q (List.mem_cons_of_mem p hq)
    refine ⟨?_, ?_, by rwa [hkeys]⟩
    · rw [hkeys, hoff, hpressed, htaken]
      by_cases he : s.Empties p idle
      · rw [hempty he]
        refine hw.clear (hl p List.mem_cons_self ?_) (hclean he)
        rcases he with ⟨h3, _⟩ | ⟨_, _, hc⟩
        · left
          by_contra hc
          rw [if_neg hc] at h3
          exact absurd h3 (by decide)
        · exact hc
      · rw [hkept he]
        by_cases hst : ¬ s.keysOff ∧ s.typed.length < typedMax
        · rw [if_pos hst]
          refine hw.store hst.1 hst.2 fun h0 => ?_
          rcases hroom he hst.1 h0 with hr | hr
          · exact hr
          · omega
        · rw [if_neg hst]
          apply hw.skip
          by_cases hon : s.keysOff = true
          · exact Or.inr hon
          · exact Or.inl (le_antisymm hs (Nat.le_of_not_lt fun hlt => hst ⟨hon, hlt⟩))
    · by_cases he : s.Empties p idle
      · rw [hempty he]
        exact Nat.zero_le _
      · rw [hkept he]
        split_ifs with hst
        · rw [List.length_append, List.length_singleton]
          exact hst.2
        · exact hs

theorem Inv.take (h : s.Inv) : (s.step .take).Inv := by
  obtain ⟨hw, hs, hl⟩ := h
  unfold step
  cases hk : s.keys with
  | cons q keys => exact ⟨hw, hs, hl⟩
  | nil =>
    cases ht : s.typed with
    | nil => exact ⟨hw, hs, hl⟩
    | cons p typed =>
      simp only
      split_ifs with hsig
      · exact ⟨hw, hs, hl⟩
      · rw [hk, ht] at hw
        rw [ht, List.length_cons] at hs
        exact ⟨hw.take, Nat.le_of_succ_le hs, by simp⟩

theorem Inv.step (h : s.Inv) (e : Event) (hfit : s.Fits e) : (s.step e).Inv := by
  cases e with
  | code b => exact h.code b hfit
  | gather idle => exact h.gather idle hfit
  | take => exact h.take
  | signal =>
    simp only [Keyboard.step]
    split_ifs <;> exact ⟨h.whole, h.small, h.last⟩
  | reset =>
    simp only [Keyboard.step]
    split_ifs with hk
    · exact h
    · have hk : s.keys = [] := not_not.1 hk
      refine ⟨?_, Nat.zero_le _, h.last⟩
      have hw := h.whole
      simp only
      rw [hk] at hw ⊢
      exact hw.reset (hfit hk)
  | turn on =>
    simp only [Keyboard.step]
    split_ifs with hk
    · exact h
    · have hk : s.keys = [] := not_not.1 hk
      refine ⟨?_, h.small, h.last⟩
      have hw := h.whole
      simp only
      rw [hk] at hw ⊢
      exact hw.turn _
  | set isig =>
    simp only [Keyboard.step]
    split_ifs <;> exact ⟨h.whole, h.small, h.last⟩

theorem Inv.arriveWhole (h : s.Inv) : s.ArriveWhole := by
  obtain ⟨ks, rest, hsub, hks, hrest⟩ := h.whole.taken_whole
  refine ⟨ks, rest.map value, hsub, ?_, hrest.map value⟩
  rw [← List.map_append, hks, map_value_flatMap]

/-- **Keys arrive whole** in every run whose events cut none. -/
theorem arriveWhole_of_fits (es : List Event) (h : Runs.Along Fits step {} es) :
    (run es).ArriveWhole :=
  (h.invariant (P := Inv) (fun _ e hs hfit => hs.step e hfit) Inv.start).arriveWhole

/-- An arrow typed, gathered and taken. -/
def arrowTaken : List Event :=
  [.code 0xE0, .code 0x48, .gather false, .gather false, .gather false, .take, .take, .take]

theorem arriveWhole_arrow : (run arrowTaken).ArriveWhole :=
  arriveWhole_of_fits arrowTaken (by decide +kernel)

/-! ### An arrow cut -/

/-- Thirty-one letters typed and then an arrow, and what there is of them taken. -/
def arrowLast : List Event :=
  (List.replicate 31 [.code 0x1E, .gather false]).flatten ++
    [.code 0xE0, .code 0x48, .gather false, .gather false, .gather false] ++
    List.replicate 32 .take

theorem exists_not_arriveWhole : ¬ (run arrowLast).ArriveWhole := by
  rintro ⟨ks, rest, hsub, hks, hrest⟩
  have htyped : (run arrowLast).typed = [] := by decide +kernel
  have htaken : ((run arrowLast).taken.map value).getLast? = some escape := by decide +kernel
  have hpressed : ∀ k ∈ (run arrowLast).pressed, k.getLast? ≠ some escape := by decide +kernel
  rw [htyped, List.map_nil, List.prefix_nil] at hrest
  rw [hrest, List.append_nil] at hks
  -- the last character taken is the last of a key's, and no key ends in Escape
  rw [hks, List.getLast?_flatten] at htaken
  obtain ⟨k, hk, hc⟩ := List.exists_of_findSome?_eq_some htaken
  exact hpressed k (hsub.subset (List.mem_reverse.1 hk)) hc

end Keyboard

end BaxOS.Console
