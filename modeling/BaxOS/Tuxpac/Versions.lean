import BaxOS.Tuxpac.VersionKeys

/-!
# The order of versions

`verrevcmp` and `vcmp` compare keys, so they are total preorders, and `match` finds the same best version
whatever the order of the index's lines; and `verrevcmp`, over texts with a 0 after them, looks at nothing
behind it (`versions_ordered`).
-/

namespace BaxOS.Tuxpac
open Comparisons

/-! ### Within the texts -/

/-- A text in memory, with the 0 after it. -/
def terminated (s : Text) : List UInt8 := s ++ [0]

/-- `order`, of a byte of memory. -/
def orderOf (c : UInt8) : ℤ := if c = 0 then order none else order (some c)

/-- A byte that is neither the end nor a digit. -/
def goesOn (c : UInt8) : Bool := c ≠ 0 && !digit c

/-- `verrevcmp`'s loops over the bytes there are; reading behind them gives nothing. -/
def nondigitsIn : List UInt8 → List UInt8 → Option (ℤ ⊕ List UInt8 × List UInt8)
  | c :: a, d :: b =>
    if goesOn c || goesOn d then
      if orderOf c ≠ orderOf d then some (.inl (orderOf c - orderOf d)) else nondigitsIn a b
    else some (.inr (c :: a, d :: b))
  | _, _ => none

def zerosIn : List UInt8 → Option (List UInt8)
  | c :: a => if c = 48 then zerosIn a else some (c :: a)
  | [] => none

def digitsIn (first : ℤ) : List UInt8 → List UInt8 → Option (ℤ × List UInt8 × List UInt8)
  | c :: a, d :: b =>
    if digit c && digit d then digitsIn (if first ≠ 0 then first else c.toNat - d.toNat) a b
    else some (first, c :: a, d :: b)
  | _, _ => none

/-- `verrevcmp` over the bytes there are, in so many turns. -/
def verrevcmpIn : ℕ → List UInt8 → List UInt8 → Option ℤ
  | n + 1, c :: a, d :: b =>
    if c ≠ 0 ∨ d ≠ 0 then do
      match ← nondigitsIn (c :: a) (d :: b) with
      | .inl r => some r
      | .inr (a, b) =>
        let a ← zerosIn a
        let b ← zerosIn b
        let (first, a, b) ← digitsIn 0 a b
        let c ← a.head?
        let d ← b.head?
        if digit c || digit d then some (if digit c then 1 else -1)
        else if first ≠ 0 then some first
        else verrevcmpIn n a b
    else some 0
  | _, _, _ => none

/-- What a text's loops look at is there, for what it is. -/
theorem terminated_head {s : Text} (h : 0 ∉ s) :
    ∃ c t, terminated s = c :: t ∧ goesOn c = other s ∧ orderOf c = order s.head? ∧
      digit c = s.head?.any digit ∧ (c ≠ 0 ↔ s ≠ []) := by
  cases s with
  | nil => exact ⟨0, [], rfl, rfl, rfl, rfl, by simp⟩
  | cons c s =>
    have hc : c ≠ 0 := fun hc => h (hc ▸ List.mem_cons_self)
    refine ⟨c, s ++ [0], rfl, ?_, if_neg hc, rfl, by simp [hc]⟩
    simp [goesOn, other, hc]

theorem nondigitsIn_turn {a b : Text} (ha : 0 ∉ a) (hb : 0 ∉ b) :
    nondigitsIn (terminated a) (terminated b) =
      if other a || other b then
        if order a.head? ≠ order b.head? then some (.inl (order a.head? - order b.head?))
        else nondigitsIn (terminated a).tail (terminated b).tail
      else some (.inr (terminated a, terminated b)) := by
  obtain ⟨c, t, hc, hgoc, hordc, -⟩ := terminated_head ha
  obtain ⟨d, u, hd, hgod, hordd, -⟩ := terminated_head hb
  rw [hc, hd, ← hgoc, ← hgod, ← hordc, ← hordd]
  rfl

theorem nondigitsIn_eq {a b : Text} (ha : 0 ∉ a) (hb : 0 ∉ b) :
    nondigitsIn (terminated a) (terminated b) =
      some ((nondigits a b).map id fun x => (terminated x.1, terminated x.2)) := by
  induction a generalizing b with
  | nil =>
    rw [nondigitsIn_turn ha hb]
    obtain ⟨h, hne, hr⟩ | ⟨hr, h₁, h₂⟩ | ⟨c, d, a', b', habs, -⟩ := nondigits_turn [] b
    · rw [hr, if_pos h, if_pos hne]
      rfl
    · rw [hr, h₁, h₂]
      rfl
    · exact nomatch habs
  | cons c a ih =>
    rw [nondigitsIn_turn ha hb]
    obtain ⟨h, hne, hr⟩ | ⟨hr, h₁, h₂⟩ | ⟨c, d, a', b', heq, rfl, hc, hd, hcd, hr⟩ :=
      nondigits_turn (c :: a) b
    · rw [hr, if_pos h, if_pos hne]
      rfl
    · rw [hr, h₁, h₂]
      rfl
    · cases heq
      have hother : (other (c :: a) || other (d :: b')) = true := by simp [other, hc]
      rw [hr, if_pos hother, List.head?_cons, List.head?_cons, order_other hc, order_other hd,
        if_neg (not_not_intro hcd)]
      exact ih (fun h => ha (List.mem_cons_of_mem _ h)) (fun h => hb (List.mem_cons_of_mem _ h))

theorem zerosIn_eq (a : Text) : zerosIn (terminated a) = some (terminated (a.dropWhile (· = 48))) := by
  induction a with
  | nil => rfl
  | cons c a ih =>
    by_cases hc : c = 48
    · rw [List.dropWhile_cons_of_pos (by simpa using hc), ← ih]
      exact if_pos hc
    · rw [List.dropWhile_cons_of_neg (by simpa using hc)]
      exact if_neg hc

theorem digitsIn_eq (first : ℤ) (a b : Text) :
    digitsIn first (terminated a) (terminated b) =
      some ((digits first a b).map id fun x => (terminated x.1, terminated x.2)) := by
  induction a generalizing first b with
  | nil => cases b <;> rfl
  | cons c a ih =>
    cases b with
    | nil =>
      have h : (digit c && digit 0) = false := Bool.and_false _
      exact if_neg (by simp [h])
    | cons d b =>
      unfold digits
      by_cases h : (digit c && digit d) = true
      · rw [if_pos h, ← ih]
        exact if_pos h
      · rw [if_neg h]
        exact if_neg h

/-- **Neither loop reads past the 0:** whatever they look at is there. -/
theorem verrevcmpIn_eq {n : ℕ} {a b : Text} (ha : 0 ∉ a) (hb : 0 ∉ b) (hn : a.length + b.length < n) :
    verrevcmpIn n (terminated a) (terminated b) = some (verrevcmp n a b) := by
  induction n generalizing a b with
  | zero => exact absurd hn (Nat.not_lt_zero _)
  | succ n ih =>
    obtain ⟨c, t, hc, -, -, -, hcnil⟩ := terminated_head ha
    obtain ⟨d, u, hd, -, -, -, hdnil⟩ := terminated_head hb
    have hnin := nondigitsIn_eq ha hb
    rw [hc, hd] at hnin ⊢
    unfold verrevcmp verrevcmpIn
    simp only [hcnil, hdnil]
    by_cases hnil : a = [] ∧ b = []
    · rw [if_pos hnil, if_neg (by simp [hnil])]
    · rw [if_neg hnil, if_pos (by tauto), hnin]
      obtain ⟨r, hr, -⟩ | ⟨p, q, a', b', hr, hpa, hqb, hea, heb, -⟩ := nondigits_spec a b
      · rw [hr]
        rfl
      · have ha' : 0 ∉ a' := fun h => ha (hpa ▸ List.mem_append_right _ h)
        have hb' : 0 ∉ b' := fun h => hb (hqb ▸ List.mem_append_right _ h)
        rw [hr]
        obtain ⟨r, a'', b'', hdig, hsa, hsb, -, -, hsame⟩ := digits_signs a' b'
        have ha'' : 0 ∉ a'' := fun h => ha' (hsa.mem h)
        have hb'' : 0 ∉ b'' := fun h => hb' (hsb.mem h)
        have hdin := digitsIn_eq 0 (a'.dropWhile (· = 48)) (b'.dropWhile (· = 48))
        obtain ⟨c', t', hc', -, -, hdc, -⟩ := terminated_head ha''
        obtain ⟨d', u', hd', -, -, hdd, -⟩ := terminated_head hb''
        rw [hdig] at hdin
        simp only [hdig, Sum.map_inr, Option.bind_eq_bind, Option.bind_some, zerosIn_eq, hdin, Prod.map, id_eq,
          hc', hd', List.head?_cons, Bool.or_eq_true, hdc, hdd]
        rw [← hc', ← hd']
        by_cases h₁ : a''.head?.any digit = true
        · rw [if_pos (.inl h₁), if_pos h₁, if_pos h₁]
        · by_cases h₂ : b''.head?.any digit = true
          · rw [if_pos (.inr h₂), if_neg h₁, if_neg h₁, if_pos h₂]
          · rw [if_neg (not_or_intro h₁ h₂), if_neg h₁, if_neg h₂]
            obtain ⟨-, rfl, rfl⟩ := hsame (by simpa using h₁) (by simpa using h₂)
            rw [ih ha'' hb'' (rests_lt hpa hqb hea heb hnil hn)]
            split_ifs <;> rfl

/-- `vcmp`, with `verrevcmp` over the bytes there are. -/
def vcmpIn (a b : Text) : Option ℤ :=
  let (ea, ua, ra) := parts a
  let (eb, ub, rb) := parts b
  if ea ≠ eb then some (if eb < ea then 1 else -1)
  else do
    let r ← verrevcmpIn (ua.length + ub.length + 1) (terminated ua) (terminated ub)
    if r ≠ 0 then some r else verrevcmpIn (ra.length + rb.length + 1) (terminated ra) (terminated rb)

/-- A version's parts are parts of it. -/
theorem parts_subset (v : Text) : (parts v).2.1 ⊆ v ∧ (parts v).2.2 ⊆ v := by
  have hrest : (v.dropWhile (· ≠ colon)).tail ⊆ v :=
    ((List.tail_sublist _).trans (List.dropWhile_sublist _)).subset
  have hsplit : ∀ s : Text,
      (((s.reverse.dropWhile (· ≠ dash)).tail).reverse).take (verRoom - 1) ⊆ s ∧
        (s.reverse.takeWhile (· ≠ dash)).reverse ⊆ s := by
    refine fun s => ⟨fun c hc => ?_, fun c hc => ?_⟩
    · have := List.mem_reverse.1 (List.mem_of_mem_take hc)
      exact List.mem_reverse.1 (((List.tail_sublist _).trans (List.dropWhile_sublist _)).subset this)
    · exact List.mem_reverse.1 ((List.takeWhile_sublist _).subset (List.mem_reverse.1 hc))
  have hboth : ∀ s : Text, s ⊆ v → ∀ e : ℕ, ∀ r : ℕ × Text × Text,
      r = (if dash ∈ s then
        (e, (((s.reverse.dropWhile (· ≠ dash)).tail).reverse).take (verRoom - 1),
          (s.reverse.takeWhile (· ≠ dash)).reverse)
        else (e, s.take (verRoom - 1), [])) → r.2.1 ⊆ v ∧ r.2.2 ⊆ v := by
    intro s hs e r hr
    split_ifs at hr with hd
    · exact hr ▸ ⟨List.Subset.trans (hsplit s).1 hs, List.Subset.trans (hsplit s).2 hs⟩
    · exact hr ▸ ⟨List.Subset.trans (List.take_subset _ s) hs, List.nil_subset v⟩
  by_cases hc : colon ∈ v
  · exact hboth _ hrest (number v) _ (by unfold parts; rw [if_pos hc])
  · exact hboth v (List.Subset.refl v) 0 _ (by unfold parts; rw [if_neg hc])

theorem vcmpIn_eq {a b : Text} (ha : 0 ∉ a) (hb : 0 ∉ b) : vcmpIn a b = some (vcmp a b) := by
  have hpa := parts_subset a
  have hpb := parts_subset b
  unfold vcmpIn vcmp
  generalize parts a = pa at hpa ⊢
  generalize parts b = pb at hpb ⊢
  dsimp only
  rw [verrevcmpIn_eq (fun h => ha (hpa.1 h)) (fun h => hb (hpb.1 h)) (Nat.lt_succ_self _),
    verrevcmpIn_eq (fun h => ha (hpa.2 h)) (fun h => hb (hpb.2 h)) (Nat.lt_succ_self _)]
  simp only [Option.bind_eq_bind, Option.bind_some]
  split_ifs <;> rfl

/-! ### The best line -/

/-- The rank a line answers a want at. -/
def rankOf (kind : Asked) (l : Line) : List Text → ℕ → Option ℕ
  | [], _ => none
  | a :: as, r =>
    if a = l.name then some r
    else if kind ≠ .upgrade ∧ listed l.prov a then some (r + 1)
    else rankOf kind l as (r + 2)

theorem rankOf_ge {kind : Asked} {l : Line} {as : List Text} {r r' : ℕ} (h : rankOf kind l as r = some r') :
    r ≤ r' := by
  induction as generalizing r with
  | nil => exact nomatch h
  | cons a as ih =>
    unfold rankOf at h
    split_ifs at h with h₁ h₂
    · exact (Option.some.inj h).le
    · exact (Nat.le_succ r).trans (Option.some.inj h).le
    · have := ih h
      omega

/-- What a line makes of what was found, where it answers. -/
def takenAt (l : Line) (x : Found) : Option ℕ → Found
  | none => x
  | some r => if r ≤ x.rank then better x r l else x

theorem takenAt_late {kind : Asked} {l : Line} {as : List Text} {r : ℕ} {x : Found} (h : x.rank < r) :
    takenAt l x (rankOf kind l as r) = x := by
  cases hr : rankOf kind l as r with
  | none => rfl
  | some r' => exact if_neg (Nat.not_le.2 (h.trans_le (rankOf_ge hr)))

/-- A line answers at its own rank, where that is no worse than what was found. -/
theorem matchLine_eq (kind : Asked) (l : Line) (as : List Text) (r : ℕ) (x : Found) :
    matchLine kind l as r x = takenAt l x (rankOf kind l as r) := by
  induction as generalizing r with
  | nil => rfl
  | cons a as ih =>
    by_cases hr : x.rank < r
    · rw [takenAt_late hr]
      exact if_pos hr
    · unfold matchLine rankOf
      rw [if_neg hr]
      by_cases hn : a = l.name
      · rw [if_pos hn, if_pos hn]
        exact (if_pos (Nat.not_lt.1 hr)).symm
      · rw [if_neg hn, if_neg hn]
        by_cases hp : kind ≠ .upgrade ∧ listed l.prov a = true
        · rw [if_pos hp]
          by_cases h₁ : r + 1 ≤ x.rank
          · rw [if_pos ⟨hp.1, h₁, hp.2⟩]
            exact (if_pos h₁).symm
          · rw [if_neg (fun h => h₁ h.2.1), ih, takenAt_late (by omega)]
            exact (if_neg h₁).symm
        · rw [if_neg (fun h => hp ⟨h.1, h.2.2⟩), if_neg hp, ih]

/-- What `match` has found in the lines. -/
def found (index : List Line) (x : Want) : Found :=
  index.foldl (fun f l => matchLine x.kind l (alternatives x.text) 0 f) ⟨noRank, none, []⟩

/-- What is found is better at a lower rank, and at the same rank in a newer version. -/
def Found.key (f : Found) : ℕᵒᵈ ×ₗ ℕ ×ₗ Lex (ℕ → ℤ) ×ₗ Lex (ℕ → ℤ) := toLex (OrderDual.toDual f.rank, vkey f.ver)

/-- What each line is as an answer. -/
def answersOf (index : List Line) (x : Want) : List Found :=
  index.filterMap fun l =>
    (rankOf x.kind l (alternatives x.text) 0).map fun r => ⟨r, some l, l.ver.take (verRoom - 1)⟩

/-- What `better` asks, of a rank no worse, is whether the key is greater. -/
theorem key_lt_iff {rank r : ℕ} (ver ver' : Text) (h : r ≤ rank) :
    toLex (OrderDual.toDual rank, vkey ver) < toLex (OrderDual.toDual r, vkey ver') ↔
      r < rank ∨ 0 < vcmp ver' ver := by
  rw [(vcmp_keyed _ _).pos, Prod.Lex.toLex_lt_toLex, OrderDual.toDual_lt_toDual]
  constructor
  · exact fun hk => hk.imp id And.right
  · rintro (hlt | hv)
    · exact .inl hlt
    · rcases h.lt_or_eq with hlt | heq
      · exact .inl hlt
      · exact .inr ⟨congrArg OrderDual.toDual heq.symm, hv⟩

theorem better_eq {x : Found} {r : ℕ} (l : Line) (h : r ≤ x.rank) :
    better x r l =
      if x.key < Found.key ⟨r, some l, l.ver.take (verRoom - 1)⟩ then ⟨r, some l, l.ver.take (verRoom - 1)⟩
      else x := by
  unfold Found.key
  rw [if_congr (key_lt_iff x.ver _ h) rfl rfl]
  rfl

/-- **`match` looks for the greatest answer.** -/
theorem found_eq (index : List Line) (x : Want) :
    found index x = greatest Found.key ⟨noRank, none, []⟩ (answersOf index x) := by
  unfold found answersOf greatest
  rw [List.foldl_filterMap]
  congr 1
  funext f l
  rw [matchLine_eq]
  cases hr : rankOf x.kind l (alternatives x.text) 0 with
  | none => rfl
  | some r =>
    dsimp only [Option.map_some, takenAt]
    by_cases h : r ≤ f.rank
    · rw [if_pos h, better_eq l h]
    · rw [if_neg h, if_neg]
      intro hk
      rcases Prod.Lex.toLex_lt_toLex.1 hk with hlt | ⟨heq, -⟩
      · exact h (OrderDual.toDual_lt_toDual.1 hlt).le
      · exact h (OrderDual.toDual_inj.1 heq).ge

/-- `verrevcmp`, in as many turns as it may take. -/
def verrev (a b : Text) : ℤ := verrevcmp (a.length + b.length + 1) a b

/-- **The order of versions:** `verrevcmp` and `vcmp` are total preorders, read no further than the texts'
ends, and what is found in the index is as good whatever the order of its lines. -/
theorem versions_ordered :
    Comparison verrev ∧ Comparison vcmp ∧
      (∀ a b : Text, 0 ∉ a → 0 ∉ b →
        verrevcmpIn (a.length + b.length + 1) (terminated a) (terminated b) = some (verrev a b) ∧
          vcmpIn a b = some (vcmp a b)) ∧
      ∀ (index index' : List Line) (x : Want), index.Perm index' →
        (found index x).rank = (found index' x).rank ∧ vcmp (found index x).ver (found index' x).ver = 0 := by
  refine ⟨?_, vcmp_keyed.comparison, fun a b ha hb => ?_, fun index index' x h => ?_⟩
  · exact Keyed.comparison fun a b => verrevcmp_signs (Nat.lt_succ_self _)
  · exact ⟨verrevcmpIn_eq ha hb (Nat.lt_succ_self _), vcmpIn_eq ha hb⟩
  · have hkey : (found index x).key = (found index' x).key := by
      rw [found_eq, found_eq]
      exact greatest_perm _ (h.filterMap _) _
    obtain ⟨hrank, hver⟩ := Prod.ext_iff.1 (congrArg ofLex hkey)
    exact ⟨hrank, (vcmp_keyed _ _).eq_zero_iff.2 hver⟩

end BaxOS.Tuxpac
