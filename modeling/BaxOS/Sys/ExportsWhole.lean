import BaxOS.Sys.Exports

/-!
# `export` is all or nothing, where there is room

After any exports the strings of the list lie in the text, one of each name (`exports_kept`). Where
the list is full, or the text has room, `env_set` sets NAME to its value or changes nothing, and the
list ends in `NULL`; where the text has none, the value NAME had is gone and the list ends in the
caller's string (`envSet_allOrNothing_iff`).
-/

namespace BaxOS.Shell
open ByteStore

variable {name : List UInt8} {p : Pair}

/-- NAME=value. -/
structure Pair where
  name : List UInt8
  value : List UInt8
  named : name ≠ []
  plain : equals ∉ name
  nul : 0 ∉ name ∧ 0 ∉ value

def Pair.text (p : Pair) : List UInt8 := p.name ++ equals :: p.value

/-! ### What is asked of a list -/

/-- A string's name: what comes before its `=`. -/
def nameOf (s : List UInt8) : List UInt8 := s.takeWhile (· ≠ equals)

/-- Each string of the list is a NAME=value string that lies in `env_text` with its NUL, no name
occurs twice, and the list ends in `NULL`. -/
structure Whole (e : Env) : Prop where
  count_le : e.count ≤ envMax
  inside : ∀ i, i < e.count → ∃ a, ∃ p : Pair, e.env i = .text a ∧ Spells e.text a p.text ∧
    a + p.text.length < envBytes
  once : (e.strings.map nameOf).Nodup
  ends : e.env e.count = .null

/-- The name has the value and the others what they had, or the strings are those they were. -/
def AllOrNothing (e e' : Env) (p : Pair) : Prop :=
  (shellEnv e' p.name = some p.value ∧
    ∀ name, equals ∉ name → name ≠ p.name → shellEnv e' name = shellEnv e name) ∨
  e'.strings = e.strings

/-- The strings of other names. -/
def others (e : Env) (p : Pair) : List (List UInt8) := e.strings.filter (nameOf · ≠ p.name)

/-- The list is full of others, or the text holds them and the new one. -/
def Room (e : Env) (p : Pair) : Prop :=
  (others e p).length = envMax ∨ (packed (others e p ++ [p.text])).length ≤ envBytes

/-! ### Strings and names -/

theorem nameOf_append (h : equals ∉ name) (rest : List UInt8) :
    nameOf (name ++ equals :: rest) = name := by
  unfold nameOf
  rw [List.takeWhile_append_of_pos fun c hc => by
    simpa using fun hce : c = equals => h (hce ▸ hc)]
  simp

@[simp] theorem nameOf_text (p : Pair) : nameOf p.text = p.name := nameOf_append p.plain p.value

theorem zero_notMem_text (p : Pair) : 0 ∉ p.text := by
  unfold Pair.text
  simp only [List.mem_append, List.mem_cons, not_or]
  exact ⟨p.nul.1, by decide, p.nul.2⟩

/-- A name and an `=` at the front of a string. -/
theorem prefix_equals_iff {s : List UInt8} :
    (name <+: s ∧ s.getD name.length 0 = equals) ↔ ∃ rest, s = name ++ equals :: rest := by
  constructor
  · rintro ⟨⟨t, rfl⟩, h⟩
    cases t with
    | nil => exact absurd h (by simp [equals])
    | cons c rest =>
      refine ⟨rest, ?_⟩
      simp only [List.getD_eq_getElem?_getD, List.getElem?_append_right le_rfl, Nat.sub_self] at h
      simp only [List.getElem?_cons_zero, Option.getD_some] at h
      rw [h]
  · rintro ⟨rest, rfl⟩
    refine ⟨⟨_, rfl⟩, ?_⟩
    simp [List.getD_eq_getElem?_getD]

theorem memcmpN_iff {s t : List UInt8} {n : ℕ} (hs : n ≤ s.length) (ht : n ≤ t.length) :
    memcmpN s t n = true ↔ s.take n = t.take n := by
  induction n generalizing s t with
  | zero => simp [memcmpN]
  | succ n ih =>
    cases s with
    | nil => simp at hs
    | cons a s =>
      cases t with
      | nil => simp at ht
      | cons b t =>
        unfold memcmpN
        split_ifs with hab
        · rw [ih (by simpa using hs) (by simpa using ht)]
          simp [hab]
        · simp [hab]

/-- `env_set` takes out the strings that begin with the name and an `=`. -/
theorem isOf_iff (p : Pair) (s : List UInt8) :
    isOf p.text p.name.length s = true ↔ ∃ rest, s = p.name ++ equals :: rest := by
  have htake : p.text.take p.name.length = p.name := by simp [Pair.text]
  have hlen : p.name.length ≤ p.text.length := by simp [Pair.text]
  rw [← prefix_equals_iff]
  unfold isOf
  simp only [Bool.and_eq_true, decide_eq_true_eq, beq_iff_eq]
  constructor
  · rintro ⟨⟨hlt, heq⟩, hcmp⟩
    rw [memcmpN_iff hlt.le hlen, htake] at hcmp
    exact ⟨hcmp ▸ List.take_prefix _ s, heq⟩
  · rintro ⟨hpre, heq⟩
    have hlt : p.name.length < s.length := by
      by_contra hlt
      rw [List.getD_eq_getElem?_getD, List.getElem?_eq_none (by omega)] at heq
      exact absurd heq (by decide)
    refine ⟨⟨hlt, heq⟩, ?_⟩
    rw [memcmpN_iff hlt.le hlen, htake]
    exact (List.prefix_iff_eq_take.1 hpre).symm

/-- Those are the strings of that name. -/
theorem isOf_text_iff (p q : Pair) :
    isOf p.text p.name.length q.text = true ↔ nameOf q.text = p.name := by
  rw [isOf_iff]
  constructor
  · rintro ⟨rest, h⟩
    rw [h, nameOf_append p.plain]
  · intro h
    rw [nameOf_text] at h
    exact ⟨q.value, by rw [← h]; rfl⟩

/-- Where `strchr` finds the `=`. -/
theorem findIdx_text (p : Pair) : p.text.findIdx? (· = equals) = some p.name.length := by
  unfold Pair.text
  have hname : p.name.findIdx? (· = equals) = none := by
    rw [List.findIdx?_eq_none_iff]
    intro c hc
    simpa using fun h : c = equals => p.plain (h ▸ hc)
  rw [List.findIdx?_append, hname, List.findIdx?_cons]
  simp

/-! ### Values -/

theorem valueIn_cons (p : Pair) (strs : List (List UInt8)) (hn : equals ∉ name) :
    valueIn (p.text :: strs) name = if p.name = name then some p.value else valueIn strs name := by
  unfold valueIn
  rw [List.findSome?_cons]
  by_cases h : p.name = name
  · rw [if_pos (prefix_equals_iff.2 ⟨p.value, by rw [← h]; rfl⟩), if_pos h, ← h]
    simp [Pair.text]
  · rw [if_neg (mt prefix_equals_iff.1 ?_), if_neg h]
    rintro ⟨rest, heq⟩
    apply h
    rw [← nameOf_text, heq, nameOf_append hn]

/-- The new string after those of other names: its name has its value, the others what they had. -/
theorem valueIn_replaced {strs : List (List UInt8)} (h : ∀ s ∈ strs, ∃ q : Pair, s = q.text)
    (p : Pair) (hn : equals ∉ name) :
    valueIn (strs.filter (nameOf · ≠ p.name) ++ [p.text]) name =
      if p.name = name then some p.value else valueIn strs name := by
  induction strs with
  | nil => rw [List.filter_nil, List.nil_append, valueIn_cons p [] hn]
  | cons s strs ih =>
    obtain ⟨q, rfl⟩ := h s List.mem_cons_self
    have ih := ih fun t ht => h t (List.mem_cons_of_mem _ ht)
    by_cases hq : q.name = p.name
    · rw [List.filter_cons_of_neg (by simp [hq]), ih, valueIn_cons q strs hn, hq]
      split_ifs <;> rfl
    · rw [List.filter_cons_of_pos (by simp [hq]), List.cons_append, valueIn_cons q _ hn, ih,
        valueIn_cons q strs hn]
      by_cases hqn : q.name = name
      · rw [if_pos hqn, if_pos hqn, if_neg fun h => hq (hqn.trans h.symm)]
      · rw [if_neg hqn, if_neg hqn]

/-! ### What holds after any exports -/

/-- An entry at a NAME=value string in the text. -/
def Lies (text : Store) (x : Entry) : Prop :=
  ∃ a, ∃ p : Pair, x = .text a ∧ Spells text a p.text ∧ a + p.text.length < envBytes

/-- All but the `NULL` at the end, which is there where the list is full. -/
structure Kept (e : Env) : Prop where
  count_le : e.count ≤ envMax
  inside : ∀ x ∈ e.entries, Lies e.text x
  once : (e.strings.map nameOf).Nodup
  fits : (packed e.strings).length ≤ envBytes
  full : e.count = envMax → e.env e.count = .null

theorem Lies.str {e : Env} {x : Entry} (h : Lies e.text x) : ∃ p : Pair, e.str x = p.text := by
  obtain ⟨a, p, rfl, hsp, hlt⟩ := h
  exact ⟨p, hsp.cstr (zero_notMem_text p) (by omega)⟩

namespace Kept

variable {e : Env}

theorem pairs (h : Kept e) : ∀ s ∈ e.strings, ∃ q : Pair, s = q.text := by
  intro s hs
  rw [strings_eq] at hs
  obtain ⟨x, hx, rfl⟩ := List.mem_map.1 hs
  exact (h.inside x hx).str

theorem whole (h : Kept e) (hends : e.env e.count = .null) : Whole e where
  count_le := h.count_le
  inside i hi := h.inside (e.env i) (List.mem_map.2 ⟨i, List.mem_range.2 hi, rfl⟩)
  once := h.once
  ends := hends

end Kept

/-- What the first loop of `env_set` leaves for a NAME=value string. -/
def dropped (e : Env) (p : Pair) : Env := dropOld p.text p.name.length e.count 0 e

theorem dropped_entries (e : Env) (p : Pair) : (dropped e p).entries =
    e.entries.filter fun x => ! isOf p.text p.name.length (e.str x) := by
  have h := (dropOld_spec p.text p.name.length e.count 0 e (by omega)).2.1
  rw [List.take_zero, List.drop_zero, List.nil_append] at h
  exact h

theorem dropped_text (e : Env) (p : Pair) : (dropped e p).text = e.text :=
  (dropOld_spec p.text p.name.length _ _ _ (by omega)).1

theorem dropped_ends (e : Env) (p : Pair) :
    (dropped e p).env (dropped e p).count = e.env e.count :=
  (dropOld_spec p.text p.name.length _ _ _ (by omega)).2.2

/-- The strings left are those of other names. -/
theorem dropped_strings {e : Env} (h : Kept e) (p : Pair) : (dropped e p).strings = others e p := by
  have hstr : (dropped e p).str = e.str := by
    funext x
    cases x <;> simp [Env.str, dropped_text]
  unfold others
  rw [strings_eq, strings_eq, hstr, dropped_entries, List.filter_map]
  congr 1
  apply List.filter_congr
  intro x hx
  obtain ⟨q, hq⟩ := (h.inside x hx).str
  have hiff := isOf_text_iff p q
  simp only [Function.comp, hq]
  by_cases hn : nameOf q.text = p.name
  · simp [hiff.2 hn, hn]
  · rw [decide_eq_true hn, Bool.not_eq_true']
    exact Bool.eq_false_iff.2 (mt hiff.1 hn)

theorem dropped_count {e : Env} (h : Kept e) (p : Pair) :
    (dropped e p).count = (others e p).length := by
  rw [← dropped_strings h p]
  simp [Env.strings]

theorem dropped_kept {e : Env} (h : Kept e) (p : Pair) : Kept (dropped e p) where
  count_le := by
    rw [dropped_count h]
    refine le_trans (List.length_filter_le _ _) ?_
    simpa [Env.strings] using h.count_le
  inside x hx := by
    rw [dropped_entries] at hx
    rw [dropped_text]
    exact h.inside x (List.mem_filter.1 hx).1
  once := by
    rw [dropped_strings h]
    exact (h.once).sublist (List.filter_sublist.map _)
  fits := by
    rw [dropped_strings h]
    exact (packed_length_le List.filter_sublist).trans h.fits
  full hfull := by
    rw [dropped_ends]
    apply h.full
    have hle := List.length_filter_le (nameOf · ≠ p.name) e.strings
    have hc := h.count_le
    rw [dropped_count h] at hfull
    unfold others at hfull
    simp only [Env.strings, List.length_map, List.length_range] at hle hfull
    omega

theorem envSet_eq (e : Env) (p : Pair) : envSet e p.text =
    if (dropped e p).count = envMax then dropped e p else addNew (dropped e p) p.text := by
  have hn : p.name.length ≠ 0 := by simpa using p.named
  unfold envSet
  rw [findIdx_text]
  cases hl : p.name.length with
  | zero => exact absurd hl hn
  | succ n =>
    simp only
    rw [← hl]
    rfl

/-- A word with an `=` that is not its first character is NAME=value. -/
theorem exists_pair {w : List UInt8} (h0 : 0 ∉ w) {n : ℕ}
    (h : w.findIdx? (· = equals) = some (n + 1)) : ∃ p : Pair, w = p.text := by
  obtain ⟨hlt, heq, hbefore⟩ := List.findIdx?_eq_some_iff_getElem.1 h
  have heq' : w[n + 1] = equals := by simpa using heq
  refine ⟨⟨w.take (n + 1), w.drop (n + 2), ?_, ?_, ?_⟩, ?_⟩
  · intro hnil
    have := congrArg List.length hnil
    simp only [List.length_take, List.length_nil] at this
    omega
  · intro hmem
    obtain ⟨j, hj, hje⟩ := List.mem_take_iff_getElem.1 hmem
    have := hbefore j (by omega)
    simp [hje] at this
  · exact ⟨fun h => h0 (List.mem_of_mem_take h), fun h => h0 (List.mem_of_mem_drop h)⟩
  · show w = w.take (n + 1) ++ equals :: w.drop (n + 2)
    rw [← heq', ← List.drop_eq_getElem_cons hlt, List.take_append_drop]

/-- The new string's place behind the last entry is no entry's. -/
theorem entries_behind (e : Env) (pair : List UInt8) :
    Env.entries { e with env := Function.update e.env e.count (.given pair) } = e.entries := by
  apply List.map_congr_left
  intro i hi
  have hi : i < e.count := List.mem_range.1 hi
  exact Function.update_of_ne (by omega) _ _

theorem strings_behind (e : Env) (pair : List UInt8) :
    Env.strings { e with env := Function.update e.env e.count (.given pair) } = e.strings := by
  rw [strings_eq, strings_eq, entries_behind]
  apply List.map_congr_left
  intro x _
  cases x <;> rfl

theorem kept_given {e : Env} (h : Kept e) (hlt : e.count < envMax) (pair : List UInt8) :
    Kept { e with env := Function.update e.env e.count (.given pair) } := by
  constructor
  · exact h.count_le
  · rw [entries_behind]
    exact h.inside
  · rw [strings_behind]
    exact h.once
  · rw [strings_behind]
    exact h.fits
  · intro hfull
    exact absurd hfull (by simp only; omega)

/-- Strings of different names, packed. -/
theorem kept_addNew {e : Env} (h : Kept e) (hlt : e.count < envMax)
    (hnew : ∀ s ∈ e.strings, nameOf s ≠ p.name)
    (hfit : (packed (e.strings ++ [p.text])).length ≤ envBytes) :
    Kept (addNew e p.text) ∧ (addNew e p.text).strings = e.strings ++ [p.text] ∧
      (addNew e p.text).env (addNew e p.text).count = .null := by
  have hpairs : ∀ s ∈ e.strings ++ [p.text], ∃ q : Pair, s = q.text := by
    intro s hs
    rcases List.mem_append.1 hs with hs | hs
    · exact h.pairs s hs
    · exact ⟨p, List.mem_singleton.1 hs⟩
  have h0 : ∀ s ∈ e.strings ++ [p.text], 0 ∉ s := by
    intro s hs
    obtain ⟨q, rfl⟩ := hpairs s hs
    exact zero_notMem_text q
  obtain ⟨hcount, hat, hends⟩ := addNew_fits h0 hfit
  have hlen : (e.strings ++ [p.text]).length = e.count + 1 := by simp [Env.strings]
  have hstrings : (addNew e p.text).strings = e.strings ++ [p.text] := by
    apply List.ext_getElem
    · rw [hlen, ← hcount]
      simp [Env.strings]
    · intro i hi hi'
      obtain ⟨hi1, hi2⟩ := hat i hi'
      have hoff := offset_lt hi'
      have hget : (addNew e p.text).strings[i] =
          (addNew e p.text).str ((addNew e p.text).env i) := by simp [Env.strings]
      rw [hget, hi1]
      exact hi2.cstr (h0 _ (List.getElem_mem hi')) (by omega)
  refine ⟨⟨?_, ?_, ?_, ?_, ?_⟩, hstrings, ?_⟩
  · rw [hcount]
    omega
  · intro x hx
    obtain ⟨i, hi, rfl⟩ := List.mem_map.1 hx
    rw [List.mem_range, hcount] at hi
    have hin : i < (e.strings ++ [p.text]).length := by omega
    obtain ⟨hi1, hi2⟩ := hat i hin
    obtain ⟨q, hq⟩ := hpairs _ (List.getElem_mem hin)
    have hoff := offset_lt hin
    rw [hq] at hi2 hoff
    exact ⟨_, q, hi1, hi2, by omega⟩
  · rw [hstrings, List.map_append, List.nodup_append]
    refine ⟨h.once, by simp, ?_⟩
    intro a ha b hb
    obtain ⟨s, hs, rfl⟩ := List.mem_map.1 ha
    simp only [List.map_cons, List.map_nil, List.mem_singleton, nameOf_text] at hb
    rw [hb]
    exact hnew s hs
  · rw [hstrings]
    exact hfit
  · intro _
    rw [hcount]
    exact hends
  · rw [hcount]
    exact hends

/-- The strings of other names are of other names. -/
theorem others_ne {e : Env} : ∀ s ∈ others e p, nameOf s ≠ p.name := by
  intro s hs
  simpa using (List.mem_filter.1 hs).2

theorem envSet_kept {e : Env} (h : Kept e) (w : CString) : Kept (envSet e w.1) := by
  cases hw : w.1.findIdx? (· = equals) with
  | none =>
    unfold envSet
    rw [hw]
    exact h
  | some n =>
    cases n with
    | zero =>
      unfold envSet
      rw [hw]
      exact h
    | succ n =>
      obtain ⟨p, hp⟩ := exists_pair w.2 hw
      have hd := dropped_kept h p
      rw [hp, envSet_eq]
      split_ifs with hfull
      · exact hd
      have hlt : (dropped e p).count < envMax := lt_of_le_of_ne hd.count_le hfull
      by_cases hfit : (packed ((dropped e p).strings ++ [p.text])).length ≤ envBytes
      · refine (kept_addNew hd hlt ?_ hfit).1
        rw [dropped_strings h]
        exact others_ne
      · rw [addNew_full (by omega)]
        exact kept_given hd hlt p.text

/-- A pair that fits is the list's last then. -/
theorem envSet_fits {e : Env} (h : Kept e) (hlt : (others e p).length < envMax)
    (hfit : (packed (others e p ++ [p.text])).length ≤ envBytes) :
    Kept (envSet e p.text) ∧ (envSet e p.text).strings = others e p ++ [p.text] ∧
      (envSet e p.text).env (envSet e p.text).count = .null := by
  have hothers := dropped_strings h p
  rw [← dropped_count h p] at hlt
  rw [envSet_eq, if_neg (by omega), ← hothers]
  exact kept_addNew (dropped_kept h p) hlt (hothers ▸ others_ne) (hothers ▸ hfit)

/-- One that does not is gone, and so is what its name had; its string is what the list ends in. -/
theorem envSet_over {e : Env} (h : Kept e) (hlt : (others e p).length < envMax)
    (hover : envBytes < (packed (others e p ++ [p.text])).length) :
    (envSet e p.text).strings = others e p ∧ (envSet e p.text).env (envSet e p.text).count = .given p.text := by
  have hothers := dropped_strings h p
  rw [← dropped_count h p] at hlt
  rw [envSet_eq, if_neg (by omega), addNew_full (by rw [hothers]; exact hover)]
  exact ⟨(strings_behind _ _).trans hothers, Function.update_self _ _ _⟩

theorem exports_kept (words : List CString) : Kept (exports words) := by
  unfold exports
  have hempty : Kept emptyEnv := by
    refine ⟨by decide, ?_, by simp [Env.strings, emptyEnv], ?_, fun _ => rfl⟩
    · intro x hx
      exact absurd hx List.not_mem_nil
    · show (packed []).length ≤ envBytes
      simp
  generalize emptyEnv = e at hempty
  induction words generalizing e with
  | nil => exact hempty
  | cons w words ih => exact ih (envSet e w.1) (envSet_kept hempty w)

/-! ### `export` -/

/-- **`export` is all or nothing**, and leaves the list whole, exactly where there is room: in every
environment that exports lead to, for every NAME=value. -/
theorem envSet_allOrNothing_iff (words : List CString) (p : Pair) :
    (AllOrNothing (exports words) (envSet (exports words) p.text) p ∧
      Whole (envSet (exports words) p.text)) ↔ Room (exports words) p := by
  have h := exports_kept words
  have hd := dropped_kept h p
  generalize exports words = e at h hd
  have hothers := dropped_strings h p
  by_cases hfull : (dropped e p).count = envMax
  · -- the list is full of others, so that none was taken out
    have hsame : others e p = e.strings := by
      apply List.filter_sublist.eq_of_length_le
      have hc := h.count_le
      rw [dropped_count h] at hfull
      unfold others at hfull
      simp only [Env.strings, List.length_map, List.length_range] at hfull ⊢
      omega
    rw [envSet_eq, if_pos hfull]
    constructor
    · intro _
      left
      rw [← dropped_count h, hfull]
    · intro _
      exact ⟨Or.inr (hothers.trans hsame), hd.whole (hd.full hfull)⟩
  have hlt : (others e p).length < envMax := by
    rw [← dropped_count h]
    exact lt_of_le_of_ne hd.count_le hfull
  by_cases hfit : (packed (others e p ++ [p.text])).length ≤ envBytes
  · obtain ⟨hk, hstrings, hends⟩ := envSet_fits h hlt hfit
    constructor
    · intro _
      exact .inr hfit
    · intro _
      refine ⟨Or.inl ⟨?_, ?_⟩, hk.whole hends⟩
      · unfold shellEnv
        rw [hstrings, others, valueIn_replaced h.pairs p p.plain, if_pos rfl]
      · intro name hn hne
        unfold shellEnv
        rw [hstrings, others, valueIn_replaced h.pairs p hn, if_neg (Ne.symm hne)]
  · constructor
    · rintro ⟨-, hw⟩
      have hends := hw.ends
      rw [(envSet_over h hlt (by omega)).2] at hends
      cases hends
    · rintro (hroom | hroom)
      · omega
      · exact absurd hroom hfit

/-- A pair as a word of the shell's. -/
def Pair.word (p : Pair) : CString :=
  ⟨p.text, by
    have he : 0 ≠ equals := by decide
    simpa [Pair.text, p.nul.1, he] using p.nul.2⟩

/-- Pairs of different names that fit are exported as they are. -/
theorem strings_exports {ps : List Pair} (hnames : (ps.map Pair.name).Nodup) (hlen : ps.length ≤ envMax)
    (hfit : (packed (ps.map Pair.text)).length ≤ envBytes) :
    (exports (ps.map Pair.word)).strings = ps.map Pair.text := by
  induction ps using List.reverseRecOn with
  | nil => rfl
  | append_singleton ps p ih =>
    simp only [List.map_append, List.map_cons, List.map_nil] at hnames hfit
    rw [List.length_append, List.length_singleton] at hlen
    have hlast : p.name ∉ ps.map Pair.name := fun h =>
      (List.nodup_append.1 hnames).2.2 _ h _ (List.mem_singleton_self _) rfl
    have hbefore := ih (List.nodup_append.1 hnames).1 (by omega)
      ((packed_length_le (List.sublist_append_left _ _)).trans hfit)
    have hothers : others (exports (ps.map Pair.word)) p = ps.map Pair.text := by
      rw [others, hbefore, List.filter_eq_self]
      intro s hs
      obtain ⟨q, hq, rfl⟩ := List.mem_map.1 hs
      rw [nameOf_text]
      simpa using fun h : q.name = p.name => hlast (h ▸ List.mem_map_of_mem hq)
    have hone : exports ((ps ++ [p]).map Pair.word) = envSet (exports (ps.map Pair.word)) p.text := by
      rw [exports, List.map_append, List.foldl_append]
      rfl
    rw [hone, (envSet_fits (exports_kept _) (by rw [hothers, List.length_map]; omega) (by rwa [hothers])).2.1, hothers,
      List.map_append, List.map_singleton]

/-- A name of one letter, and as many of another for a value. -/
def filler (c : UInt8) (hc : c ≠ equals ∧ c ≠ 0) (n : ℕ) : Pair where
  name := [c]
  value := List.replicate n 0x78
  named := by simp
  plain := by simpa using hc.1.symm
  nul := ⟨by simpa using hc.2.symm, by simp [List.mem_replicate]⟩

/-- One letter for `A`, and two hundred each for `B` and `C`. -/
def exported : List Pair := [filler 0x41 (by decide) 1, filler 0x42 (by decide) 200, filler 0x43 (by decide) 200]

/-- Two hundred letters for `A` then, which the text has no room for: the old value is gone, and the list ends in
the new string. -/
theorem exists_not_allOrNothing : ∃ words p, ¬ (AllOrNothing (exports words)
    (envSet (exports words) p.text) p ∧ Whole (envSet (exports words) p.text)) := by
  have hstrings : (exports (exported.map Pair.word)).strings = exported.map Pair.text :=
    strings_exports (by decide) (by decide) (by decide +kernel)
  have hothers : others (exports (exported.map Pair.word)) (filler 0x41 (by decide) 200) =
      [(filler 0x42 (by decide) 200).text, (filler 0x43 (by decide) 200).text] := by
    rw [others, hstrings]
    rfl
  refine ⟨exported.map Pair.word, filler 0x41 (by decide) 200, ?_⟩
  rintro ⟨h, -⟩
  have hnow : shellEnv (envSet (exports (exported.map Pair.word)) (filler 0x41 (by decide) 200).text) [0x41] = none := by
    rw [shellEnv, (envSet_over (exports_kept _) (by rw [hothers]; decide) (by rw [hothers]; decide +kernel)).1, hothers]
    decide
  have hbefore : shellEnv (exports (exported.map Pair.word)) [0x41] = some [0x78] := by
    rw [shellEnv, hstrings]
    decide
  rcases h with ⟨hvalue, -⟩ | hsame
  · exact absurd (hnow.symm.trans hvalue) (by simp)
  · unfold shellEnv at hnow hbefore
    rw [hsame, hbefore] at hnow
    exact absurd hnow (by simp)

end BaxOS.Shell
