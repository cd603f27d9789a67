import BaxOS.Tuxpac.Http
import Mathlib.Data.Nat.Digits.Defs

/-!
# Heads as they are written

A head is a status line and fields, each ended by CR LF, and a blank line (`Head.text`). The first blank
line of what arrives is where such a head ends (`headEnd_text`), its status is found (`statusOf_init`), and
so is a field by its name, but for a tab before its value (`lengthOf_init`).
-/

namespace BaxOS.Tuxpac

variable {h : Head} {n : ℕ}

/-! ### The grammar -/

/-- The end of a line. -/
def crlf : List UInt8 := [13, 10]

/-- What a text is made of: letters, blanks, and what is not ASCII. -/
def Printed (c : UInt8) : Prop := c = tab ∨ 32 ≤ c ∧ c ≠ 127

/-- What a name is made of. -/
def Visible (c : UInt8) : Prop := 32 < c ∧ c < 127 ∧ c ≠ colon

instance : DecidablePred Printed := fun _ => inferInstanceAs (Decidable (_ ∨ _))

instance : DecidablePred Visible := fun _ => inferInstanceAs (Decidable (_ ∧ _))

theorem forall_of_all {p : UInt8 → Prop} [DecidablePred p] {s : Text} (h : s.all fun c => decide (p c)) :
    ∀ c ∈ s, p c :=
  fun c hc => of_decide_eq_true (List.all_eq_true.1 h c hc)

/-- A field: a name, and a value with blanks about it. -/
structure Field where
  name : Text
  before : Text
  value : Text
  after : Text
  spelled : name ≠ [] ∧ ∀ c ∈ name, Visible c
  blank : ∀ c ∈ before ++ after, c = space ∨ c = tab
  printed : ∀ c ∈ value, Printed c

/-- A head. -/
structure Head where
  minor : UInt8
  code : Text
  reason : Text
  fields : List Field
  digits : digit minor = true ∧ ∀ c ∈ code, digit c = true
  printed : ∀ c ∈ reason, Printed c

/-- A field's line. -/
def Field.line (f : Field) : List UInt8 := f.name ++ colon :: (f.before ++ f.value ++ f.after)

/-- The status line. -/
def Head.statusLine (h : Head) : List UInt8 :=
  text "HTTP/1." ++ h.minor :: space :: (h.code ++ space :: h.reason)

/-- Lines, each with its end, and what is after them. -/
def ended (ls : List (List UInt8)) (more : List UInt8) : List UInt8 := ls.foldr (fun l s => l ++ crlf ++ s) more

/-- How a head is written. -/
def Head.text (h : Head) : List UInt8 := ended (h.statusLine :: h.fields.map Field.line) crlf

/-- A decimal number. -/
def Numeral (s : Text) (n : ℕ) : Prop :=
  s ≠ [] ∧ (∀ c ∈ s, digit c = true) ∧ n = Nat.ofDigits 10 (s.reverse.map fun c => c.toNat - 48)

/-- A letter of a name, small or capital. -/
def Alike (c d : UInt8) : Prop := c = d ∨ 65 ≤ c ∧ c ≤ 90 ∧ d = c + 32

instance : DecidableRel Alike := fun _ _ => inferInstanceAs (Decidable (_ ∨ _))

/-- It is the field of a name, which is given in small letters. -/
def Field.Is (f : Field) (name : String) : Prop := List.Forall₂ Alike f.name (Tuxpac.text name)

instance (f : Field) (name : String) : Decidable (f.Is name) := inferInstanceAs (Decidable (List.Forall₂ _ _ _))

/-- A head says how long its body is: its length is given, once or always the same, and no coding with
which it would not count. -/
structure Head.Says (h : Head) (n : ℕ) : Prop where
  given : ∃ f ∈ h.fields, f.Is "content-length"
  same : ∀ f ∈ h.fields, f.Is "content-length" → Numeral f.value n
  uncoded : ∀ f ∈ h.fields, ¬f.Is "transfer-encoding"

/-- There is a tab before the length. -/
def Head.tabbed (h : Head) : Bool :=
  (h.fields.find? fun f => decide (f.Is "content-length")).any fun f => decide (tab ∈ f.before)

/-! ### Lines -/

/-- No end of a line is in it, and no end of a string. -/
def Plain (l : List UInt8) : Prop := ∀ c ∈ l, c ≠ 13 ∧ c ≠ 10 ∧ c ≠ 0

section Lines

variable {l s more : List UInt8} {ls : List (List UInt8)} {c : UInt8}

theorem Printed.plain (h : Printed c) : c ≠ 13 ∧ c ≠ 10 ∧ c ≠ 0 := by
  rcases h with rfl | ⟨h, -⟩
  · decide
  · refine ⟨?_, ?_, ?_⟩ <;> rintro rfl <;> revert h <;> decide

theorem Visible.printed (h : Visible c) : Printed c := by
  refine Or.inr ⟨UInt8.le_of_lt h.1, ?_⟩
  rintro rfl
  exact absurd h.2.1 (by decide)

theorem digit_printed (h : digit c = true) : Printed c := by
  unfold digit at h
  rw [Bool.and_eq_true, decide_eq_true_eq, decide_eq_true_eq] at h
  refine Or.inr ⟨UInt8.le_trans (by decide) h.1, ?_⟩
  rintro rfl
  exact absurd h.2 (by decide)

theorem blank_printed (h : c = space ∨ c = tab) : Printed c := by
  rcases h with rfl | rfl
  · exact Or.inr (by decide)
  · exact Or.inl rfl

theorem Plain.append {t : List UInt8} (hs : Plain s) (ht : Plain t) : Plain (s ++ t) := fun c hc =>
  (List.mem_append.1 hc).elim (hs c) (ht c)

theorem Plain.cons (hc : Printed c) (hs : Plain s) : Plain (c :: s) := fun d hd =>
  (List.mem_cons.1 hd).elim (fun heq => heq ▸ hc.plain) (hs d)

theorem Field.plain (f : Field) : Plain f.line := by
  have hname : Plain f.name := fun c hc => (f.spelled.2 c hc).printed.plain
  have hbefore : Plain f.before := fun c hc => (blank_printed (f.blank c (List.mem_append_left _ hc))).plain
  have hafter : Plain f.after := fun c hc => (blank_printed (f.blank c (List.mem_append_right _ hc))).plain
  have hvalue : Plain f.value := fun c hc => (f.printed c hc).plain
  exact hname.append (.cons (Or.inr (by decide)) ((hbefore.append hvalue).append hafter))

theorem Field.line_ne (f : Field) : f.line ≠ [] := by
  unfold Field.line
  simp [f.spelled.1]

theorem Head.plain (h : Head) : Plain h.statusLine := by
  have hcode : Plain h.code := fun c hc => (digit_printed (h.digits.2 c hc)).plain
  have hreason : Plain h.reason := fun c hc => (h.printed c hc).plain
  have hversion : Plain (Tuxpac.text "HTTP/1.") := forall_of_all (by decide)
  have hspace : Printed space := Or.inr (by decide)
  exact hversion.append (.cons (digit_printed h.digits.1) (.cons hspace (hcode.append (.cons hspace hreason))))

/-- The lines of a head, each of something. -/
theorem Head.lines (h : Head) : ∀ l ∈ h.statusLine :: h.fields.map Field.line, l ≠ [] ∧ Plain l := by
  intro l hl
  rcases List.mem_cons.1 hl with rfl | hl
  · exact ⟨by simp [Head.statusLine], h.plain⟩
  · obtain ⟨f, -, rfl⟩ := List.mem_map.1 hl
    exact ⟨f.line_ne, f.plain⟩

@[simp] theorem ended_nil (more : List UInt8) : ended [] more = more := rfl

@[simp] theorem ended_cons (l : List UInt8) (ls : List (List UInt8)) (more : List UInt8) :
    ended (l :: ls) more = l ++ crlf ++ ended ls more := rfl

theorem ended_append (ls : List (List UInt8)) (more t : List UInt8) :
    ended ls more ++ t = ended ls (more ++ t) := by
  induction ls with
  | nil => rfl
  | cons l ls ih => rw [ended_cons, ended_cons, List.append_assoc, ih]

theorem ended_length (ls : List (List UInt8)) (more : List UInt8) :
    (ended ls more).length = (ended ls []).length + more.length := by
  rw [← List.length_append, ended_append, List.nil_append]

/-! ### The first blank line -/

theorem blankAt_iff {i : ℕ} : blankAt s i = true ↔
    s[i]? = some 13 ∧ s[i + 1]? = some 10 ∧ s[i + 2]? = some 13 ∧ s[i + 3]? = some 10 := by
  unfold blankAt blankLine
  rw [decide_eq_true_eq]
  generalize ht : s.drop i = t
  have hget : ∀ k, s[i + k]? = t[k]? := fun k => by rw [← ht, List.getElem?_drop]
  rw [← Nat.add_zero i, hget 0, Nat.add_zero, hget 1, hget 2, hget 3]
  rcases t with _ | ⟨a, _ | ⟨b, _ | ⟨c, _ | ⟨d, t⟩⟩⟩⟩ <;> simp

/-- Before its last two letters no blank line begins in a line that another follows. -/
theorem blankAt_line (hl : Plain l) (hs : s.head? ≠ some 13) {i : ℕ} (hi : i < l.length + 2) :
    blankAt (l ++ crlf ++ s) i = false := by
  refine Bool.eq_false_iff.2 fun h => ?_
  obtain ⟨h0, -, h2, -⟩ := blankAt_iff.1 h
  rw [List.append_assoc] at h0 h2
  rcases Nat.lt_trichotomy i l.length with hlt | rfl | hgt
  · rw [List.getElem?_append_left hlt, List.getElem?_eq_getElem hlt] at h0
    exact (hl _ (List.getElem_mem hlt)).1 (Option.some.inj h0)
  · rw [List.getElem?_append_right (Nat.le_add_right _ 2), Nat.add_sub_cancel_left] at h2
    exact hs ((List.head?_eq_getElem? ..).trans h2)
  · obtain rfl : i = l.length + 1 := by omega
    rw [List.getElem?_append_right (Nat.le_add_right _ 1), Nat.add_sub_cancel_left] at h0
    exact absurd h0 (by simp [crlf])

theorem blankAt_later (l s : List UInt8) (i : ℕ) : blankAt (l ++ s) (l.length + i) = blankAt s i := by
  unfold blankAt
  rw [List.drop_length_add_append]

/-- **The first blank line** after lines of something is right after them. -/
theorem blank_first (hl : Plain l) (hls : ∀ k ∈ ls, k ≠ [] ∧ Plain k) :
    ∃ i, i + 2 = (ended (l :: ls) []).length ∧ blankAt (ended (l :: ls) (crlf ++ s)) i = true ∧
      ∀ j < i, blankAt (ended (l :: ls) (crlf ++ s)) j = false := by
  induction ls generalizing l with
  | nil =>
    refine ⟨l.length, by simp [crlf], ?_, fun j hj => ?_⟩
    · rw [ended_cons, List.append_assoc, ← Nat.add_zero l.length, blankAt_later]
      simp [blankAt, blankLine, crlf]
    · refine Bool.eq_false_iff.2 fun h => ?_
      obtain ⟨h0, -⟩ := blankAt_iff.1 h
      rw [ended_cons, List.append_assoc, List.getElem?_append_left hj, List.getElem?_eq_getElem hj] at h0
      exact (hl _ (List.getElem_mem hj)).1 (Option.some.inj h0)
  | cons k ls ih =>
    obtain ⟨hne, hk⟩ := hls k List.mem_cons_self
    obtain ⟨i, hlen, hat, hbefore⟩ := ih hk fun m hm => hls m (List.mem_cons_of_mem _ hm)
    have hhead : (ended (k :: ls) (crlf ++ s)).head? ≠ some 13 := by
      rw [ended_cons]
      obtain ⟨c, k, rfl⟩ := List.exists_cons_of_ne_nil hne
      rw [List.cons_append, List.cons_append, List.head?_cons]
      exact fun h => (hk c List.mem_cons_self).1 (Option.some.inj h)
    have hll : (l ++ crlf).length = l.length + 2 := by simp [crlf]
    refine ⟨l.length + 2 + i, ?_, ?_, fun j hj => ?_⟩
    · rw [ended_cons, List.length_append, hll, ← hlen, Nat.add_assoc]
    · rw [ended_cons, ← hll, blankAt_later]
      exact hat
    · rw [ended_cons]
      rcases Nat.lt_or_ge j (l.length + 2) with hlt | hge
      · exact blankAt_line hl hhead hlt
      · obtain ⟨j, rfl⟩ := Nat.exists_eq_add_of_le hge
        rw [← hll, blankAt_later]
        exact hbefore j (by omega)

end Lines

/-! ### Fields -/

section Fields

variable {l s : List UInt8} {ls : List (List UInt8)} {f : Field} {fs : List Field} {name fullName : String}

/-- What `header` looks at: a head to its last newline. -/
def Head.init (h : Head) : Text := ended (h.statusLine :: h.fields.map Field.line) [13]

theorem cstr_plain {s : List UInt8} (h : ∀ c ∈ s, c ≠ 0) : cstr s = s :=
  List.takeWhile_eq_self_iff.2 fun c hc => decide_eq_true (h c hc)

theorem mem_ended {c : UInt8} {more : List UInt8} (hc : c ∈ ended ls more) :
    (∃ l ∈ ls, c ∈ l) ∨ c ∈ crlf ∨ c ∈ more := by
  induction ls with
  | nil => exact Or.inr (Or.inr hc)
  | cons l ls ih =>
    rw [ended_cons, List.mem_append, List.mem_append] at hc
    rcases hc with (hc | hc) | hc
    · exact Or.inl ⟨l, List.mem_cons_self, hc⟩
    · exact Or.inr (Or.inl hc)
    · exact (ih hc).imp_left fun ⟨k, hk, hck⟩ => ⟨k, List.mem_cons_of_mem _ hk, hck⟩

/-- The string that is left of what begins with a head. -/
theorem cstr_init {s : List UInt8} (hs : h.text <+: s) :
    cstr (s.take (h.text.length - 1)) = h.init := by
  obtain ⟨t, rfl⟩ := hs
  have htext : h.text = h.init ++ [10] := by
    unfold Head.text Head.init
    rw [ended_append]
    rfl
  rw [htext, List.length_append, List.length_singleton, Nat.add_sub_cancel, List.append_assoc,
    List.take_left']
  · refine cstr_plain fun c hc => ?_
    rcases mem_ended hc with ⟨l, hl, hcl⟩ | hc | hc
    · exact ((h.lines l hl).2 c hcl).2.2
    · exact @forall_of_all (· ≠ 0) _ crlf (by decide) c hc
    · exact @forall_of_all (· ≠ 0) _ [13] (by decide) c hc
  · rfl

theorem afterNewlines_plain (hl : Plain l) (s : List UInt8) :
    afterNewlines (l ++ crlf ++ s) = s :: afterNewlines s := by
  induction l with
  | nil => rfl
  | cons c l ih =>
    have hc : c ≠ newline := (hl c List.mem_cons_self).2.1
    show (if c = newline then _ else _) = _
    rw [if_neg hc]
    exact ih fun d hd => hl d (List.mem_cons_of_mem _ hd)

/-- What is after a header's name, where a line begins with it. -/
def headerAt (name : String) (line : Text) : Option Text :=
  if (Tuxpac.text name).isPrefixOf (line.map lower) then
    some ((line.drop (Tuxpac.text name).length).dropWhile (· = space))
  else none

theorem header_ended (hl : Plain l) (ls : List (List UInt8)) (name : String) :
    header (ended (l :: ls) [13]) name =
      (headerAt name (l ++ crlf ++ ended ls [13])).or (header (ended ls [13]) name) := by
  unfold header
  rw [ended_cons, afterNewlines_plain hl, List.findSome?_cons]
  cases h : headerAt name (l ++ crlf ++ ended ls [13]) with
  | none =>
    unfold headerAt at h
    rw [h]
    rfl
  | some v =>
    unfold headerAt at h
    rw [h]
    rfl

/-- A name in small letters, and how it is looked for: with the colon after it. -/
structure Small (name fullName : String) : Prop where
  full : Tuxpac.text fullName = Tuxpac.text name ++ [colon]
  small : ∀ d ∈ Tuxpac.text name, ¬(65 ≤ d ∧ d ≤ 90) ∧ d ≠ colon

theorem alike_iff {c d : UInt8} (hd : ¬(65 ≤ d ∧ d ≤ 90)) : Alike c d ↔ lower c = d := by
  unfold Alike lower
  split_ifs with hc
  · constructor
    · rintro (rfl | ⟨-, -, rfl⟩)
      · exact absurd hc hd
      · rfl
    · rintro rfl
      exact Or.inr ⟨hc.1, hc.2, rfl⟩
  · exact or_iff_left fun h => hc ⟨h.1, h.2.1⟩

theorem forall₂_alike {a b : Text} (hb : ∀ d ∈ b, ¬(65 ≤ d ∧ d ≤ 90)) :
    List.Forall₂ Alike a b ↔ a.map lower = b := by
  induction b generalizing a with
  | nil => cases a <;> simp
  | cons d b ih =>
    cases a with
    | nil => simp
    | cons c a =>
      rw [List.forall₂_cons, List.map_cons, List.cons.injEq, alike_iff (hb d List.mem_cons_self),
        ih fun e he => hb e (List.mem_cons_of_mem _ he)]

theorem lower_colon {c : UInt8} (hc : c ≠ colon) : lower c ≠ colon := by
  unfold lower
  split_ifs with h
  · rintro heq
    have h1 := UInt8.le_iff_toNat_le.1 h.1
    have h2 := UInt8.le_iff_toNat_le.1 h.2
    have h3 := congrArg UInt8.toNat heq
    rw [UInt8.toNat_add] at h3
    simp only [UInt8.reduceToNat, colon] at h1 h2 h3
    omega
  · exact hc

theorem takeWhile_colon {a : Text} (ha : colon ∉ a) (r : Text) :
    (a ++ colon :: r).takeWhile (· ≠ colon) = a := by
  have hne : ∀ c ∈ a, decide (c ≠ colon) = true := fun c hc =>
    decide_eq_true fun heq => ha (by rwa [← heq])
  rw [List.takeWhile_append_of_pos hne]
  simp

/-- A field is found by its name. -/
theorem headerAt_field (hn : Small name fullName) (f : Field) (s : List UInt8) :
    headerAt fullName (f.line ++ s) =
      if f.Is name then some ((f.before ++ f.value ++ f.after ++ s).dropWhile (· = space)) else none := by
  have hlow : colon ∉ f.name.map lower := fun hc => by
    obtain ⟨c, hc, heq⟩ := List.mem_map.1 hc
    exact lower_colon (f.spelled.2 c hc).2.2 heq
  have hline : f.line ++ s = f.name ++ colon :: (f.before ++ f.value ++ f.after ++ s) := by
    unfold Field.line
    rw [List.append_assoc, List.cons_append]
  have hpre : (Tuxpac.text fullName).isPrefixOf ((f.line ++ s).map lower) = true ↔ f.Is name := by
    rw [List.isPrefixOf_iff_prefix, hn.full, hline, List.map_append, List.map_cons,
      show lower colon = colon from rfl]
    unfold Field.Is
    rw [forall₂_alike fun d hd => (hn.small d hd).1]
    constructor
    · rintro ⟨r, hr⟩
      have htake := congrArg (List.takeWhile (· ≠ colon)) hr
      rw [List.append_assoc, List.singleton_append, takeWhile_colon fun hc => (hn.small _ hc).2 rfl,
        takeWhile_colon hlow] at htake
      exact htake.symm
    · intro heq
      rw [heq]
      exact ⟨_, by rw [List.append_assoc, List.singleton_append]⟩
  unfold headerAt
  by_cases his : f.Is name
  · have hlen : (Tuxpac.text fullName).length = f.name.length + 1 := by
      rw [hn.full, List.length_append, List.length_singleton, ← List.Forall₂.length_eq his]
    rw [if_pos (hpre.2 his), if_pos his, hline, hlen, List.drop_length_add_append]
    rfl
  · rw [if_neg (mt hpre.1 his), if_neg his]

/-- A field that is not there is not found. -/
theorem header_none (hn : Small name fullName) (h : ∀ f ∈ fs, ¬f.Is name) :
    header (ended (fs.map Field.line) [13]) fullName = none := by
  induction fs with
  | nil =>
    have hno : (Tuxpac.text fullName).isPrefixOf (([13] : Text).map lower) ≠ true := fun hp => by
      have hin : colon ∈ ([13] : Text).map lower := (List.isPrefixOf_iff_prefix.1 hp).subset (by
        rw [hn.full]
        exact List.mem_append_right _ (List.mem_singleton_self _))
      exact absurd hin (by decide)
    have hat : headerAt fullName [13] = none := if_neg hno
    show (([13] : Text) :: afterNewlines [13]).findSome? (headerAt fullName) = none
    simp [afterNewlines, newline, hat]
  | cons f fs ih =>
    rw [List.map_cons, header_ended f.plain, List.append_assoc, headerAt_field hn,
      if_neg (h f List.mem_cons_self), ih fun g hg => h g (List.mem_cons_of_mem _ hg)]
    rfl

/-- The first field of its name is found, to the end of the head. -/
theorem header_some (hn : Small name fullName) (h : fs.find? (fun f => decide (f.Is name)) = some f) :
    ∃ more, header (ended (fs.map Field.line) [13]) fullName =
      some ((f.before ++ (f.value ++ (f.after ++ 13 :: more))).dropWhile (· = space)) := by
  induction fs with
  | nil => exact nomatch h
  | cons g fs ih =>
    rw [List.map_cons, header_ended g.plain, List.append_assoc, headerAt_field hn]
    rw [List.find?_cons] at h
    by_cases hg : g.Is name
    · rw [decide_eq_true hg] at h
      obtain rfl := Option.some.inj h
      rw [if_pos hg]
      simp only [crlf, List.append_assoc, List.cons_append, List.nil_append, Option.some_or]
      exact ⟨_, rfl⟩
    · rw [decide_eq_false hg] at h
      rw [if_neg hg]
      exact ih h

/-- The status line is not a header's. -/
theorem header_init (h : Head) (hn : Small name fullName) (hfirst : (Tuxpac.text fullName).head? ≠ some 104) :
    header h.init fullName = header (ended (h.fields.map Field.line) [13]) fullName := by
  unfold Head.init
  rw [header_ended h.plain]
  have hno : headerAt fullName (h.statusLine ++ crlf ++ ended (h.fields.map Field.line) [13]) = none := by
    refine if_neg fun hp => hfirst ?_
    obtain ⟨d, r, hd⟩ := List.exists_cons_of_ne_nil (show Tuxpac.text fullName ≠ [] by simp [hn.full])
    obtain ⟨t, ht⟩ := List.isPrefixOf_iff_prefix.1 hp
    have hhead := congrArg List.head? ht
    rw [hd, List.cons_append, List.head?_cons] at hhead
    rw [hd, List.head?_cons, hhead]
    rfl
  rw [hno]
  rfl

/-! ### Numbers -/

theorem decimal_numeral {s : Text} (hs : Numeral s n) {c : UInt8} (hc : digit c = false) (more : Text) :
    decimal (s ++ c :: more) = n := by
  obtain ⟨-, hdigits, rfl⟩ := hs
  unfold decimal
  rw [List.takeWhile_append_of_pos hdigits, List.takeWhile_cons, hc, if_neg Bool.false_ne_true,
    List.append_nil]
  clear hdigits
  induction s using List.reverseRecOn with
  | nil => rfl
  | append_singleton s d ih =>
    rw [List.foldl_append, ih, List.reverse_append, List.map_append, List.reverse_singleton, List.map_singleton,
      List.singleton_append, Nat.ofDigits_cons]
    simp only [List.foldl_cons, List.foldl_nil]
    ring

theorem Numeral.not_blank {s : Text} (hs : Numeral s n) : ∃ c r, s = c :: r ∧ c ≠ space ∧ c ≠ tab := by
  obtain ⟨c, r, rfl⟩ := List.exists_cons_of_ne_nil hs.1
  have hc := hs.2.1 c List.mem_cons_self
  refine ⟨c, r, rfl, ?_, ?_⟩ <;> rintro rfl <;> exact absurd hc (by decide)

/-- What is after a field's name is its number, if no tab is before that. -/
theorem decimal_field {f : Field} (hf : Numeral f.value n) (more : Text) :
    decimal ((f.before ++ (f.value ++ (f.after ++ 13 :: more))).dropWhile (· = space)) =
      if tab ∈ f.before then 0 else n := by
  obtain ⟨d, r, hd, hspace, -⟩ := hf.not_blank
  have hblank : ∀ c ∈ f.before, c = space ∨ c = tab := fun c hc => f.blank c (List.mem_append_left _ hc)
  split_ifs with htab
  · -- the spaces before the first tab are left out, and no digit begins what is left
    obtain ⟨a, b, hab, ha⟩ := List.eq_append_cons_of_mem htab
    have hspaces : ∀ c ∈ a, decide (c = space) = true := fun c hc => by
      refine decide_eq_true ((hblank c (hab ▸ List.mem_append_left _ hc)).resolve_right ?_)
      rintro rfl
      exact ha hc
    rw [hab, List.append_assoc, List.dropWhile_append_of_pos hspaces, List.cons_append]
    rfl
  · have hspaces : ∀ c ∈ f.before, decide (c = space) = true := fun c hc => by
      refine decide_eq_true ((hblank c hc).resolve_right ?_)
      rintro rfl
      exact htab hc
    have hstays : (f.value ++ (f.after ++ 13 :: more)).dropWhile (· = space) =
        f.value ++ (f.after ++ 13 :: more) := by
      rw [hd, List.cons_append, List.dropWhile_cons, decide_eq_false hspace, if_neg Bool.false_ne_true]
    rw [List.dropWhile_append_of_pos hspaces, hstays]
    cases hafter : f.after with
    | nil => exact decimal_numeral hf (by decide) more
    | cons c s =>
      refine decimal_numeral hf ?_ _
      rcases f.blank c (List.mem_append_right _ (hafter ▸ List.mem_cons_self)) with rfl | rfl <;> decide

/-! ### What is found of a head -/

/-- The status. -/
theorem statusOf_init (hcode : Numeral h.code n) (hn : n < 2 ^ 32) :
    statusOf h.init = n := by
  have hversion : ∀ c ∈ Tuxpac.text "HTTP/1." ++ [h.minor], decide (c ≠ space) = true := fun c hc => by
    refine decide_eq_true ?_
    rcases List.mem_append.1 hc with hc | hc
    · exact @forall_of_all (· ≠ space) _ (Tuxpac.text "HTTP/1.") (by decide) c hc
    · rw [List.mem_singleton.1 hc]
      intro heq
      exact absurd h.digits.1 (heq ▸ by decide)
  have hinit : ∃ more, h.init = (Tuxpac.text "HTTP/1." ++ [h.minor]) ++ space :: (h.code ++ space :: more) := by
    unfold Head.init Head.statusLine
    rw [ended_cons]
    simp only [List.append_assoc, List.cons_append, List.nil_append]
    exact ⟨_, rfl⟩
  obtain ⟨more, hmore⟩ := hinit
  unfold statusOf
  rw [hmore, List.dropWhile_append_of_pos hversion]
  exact (congrArg (· % 2 ^ 32) (decimal_numeral hcode (by decide) more)).trans (Nat.mod_eq_of_lt hn)

/-- The length, unless a tab is before it. -/
theorem lengthOf_init (hmeant : h.Says n) :
    lengthOf h.init = some (if h.tabbed then 0 else n) := by
  have hn : Small "content-length" "content-length:" := ⟨by decide, forall_of_all (by decide)⟩
  obtain ⟨g, hg, his⟩ := hmeant.given
  obtain ⟨f, hf⟩ : ∃ f, h.fields.find? (fun f => decide (f.Is "content-length")) = some f := by
    rw [← Option.isSome_iff_exists, List.find?_isSome]
    exact ⟨g, hg, decide_eq_true his⟩
  obtain ⟨more, hmore⟩ := header_some hn hf
  have hfis : f.Is "content-length" := by simpa using List.find?_some hf
  have hnum := hmeant.same f (List.mem_of_find?_eq_some hf) hfis
  unfold lengthOf
  rw [header_init h hn (by decide), hmore, Option.map_some, decimal_field hnum]
  have htab : h.tabbed = decide (tab ∈ f.before) := by
    unfold Head.tabbed
    rw [hf]
    rfl
  rw [htab]
  simp only [decide_eq_true_eq]

/-- No coding. -/
theorem chunked_init (hmeant : h.Says n) : chunked h.init = false := by
  have hn : Small "transfer-encoding" "transfer-encoding:" := ⟨by decide, forall_of_all (by decide)⟩
  unfold chunked
  rw [header_init h hn (by decide), header_none hn hmeant.uncoded]
  rfl

end Fields

end BaxOS.Tuxpac
