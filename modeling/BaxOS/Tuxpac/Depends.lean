import BaxOS.Tuxpac.Configure
import Mathlib.Data.List.DropRight

/-!
# The lists of a record

`deps_add` writes the names of a field of a record after those of the fields before it. A list that does
not fit its buffer ends where the buffer does, which may be in the middle of a name: whole names are kept
exactly where the list fits, or is cut between two names and no later field brings a name into the room
that is left (`record_keepsWhole_iff`).
-/

namespace BaxOS.Tuxpac

variable {c : UInt8} {l s v : Text} {room : ℕ}

/-! ### A record's lines -/

def space : UInt8 := 32
def carriage : UInt8 := 13

/-- The sizes of `r_deps` and `r_prov`. -/
def depsRoom : ℕ := 3072
def provRoom : ℕ := 1024

/-- What is between two names. -/
def separator (c : UInt8) : Bool := c = comma || c = bar

/-- `(`, `[` or `<`. -/
def opens (c : UInt8) : Bool := c = 40 || c = 91 || c = 60

/-- What closes a bracket. -/
def closing (c : UInt8) : UInt8 := if c = 40 then 41 else if c = 91 then 93 else 62

/-- `deps_add`'s loop, with `n` bytes written: those it writes. -/
def addOn (cap : ℕ) : ℕ → UInt8 → Bool → Text → Text
  | _, _, _, [] => []
  | n, close, qualifier, c :: cs =>
    if c = 0 ∨ c = carriage ∨ ¬n + 1 < cap then []
    else if close ≠ 0 then addOn cap n (if c = close then 0 else close) qualifier cs
    else if opens c then addOn cap n (closing c) qualifier cs
    else if c = space then addOn cap n 0 qualifier cs
    else
      let qualifier := if separator c then false else if c = colon then true else qualifier
      if qualifier then addOn cap n 0 qualifier cs else c :: addOn cap (n + 1) 0 qualifier cs

/-- What is left of a text without the separators at its end. -/
def trim (s : Text) : Text := s.rdropWhile separator

/-- `deps_add`. -/
def depsAdd (list : Text) (cap : ℕ) (v : Text) : Text :=
  let list := if 0 < list.length ∧ list.length + 1 < cap then list ++ [comma] else list
  trim (list ++ addOn cap list.length 0 false v)

/-- `take`. -/
def takeField (cap : ℕ) (v : Text) : Text :=
  ((v.dropWhile (· = space)).takeWhile fun c => c ≠ 0 ∧ c ≠ carriage).take (cap - 1)

/-- The record that is being read. -/
structure Record where
  name : Text := []
  ver : Text := []
  file : Text := []
  size : Text := []
  isize : Text := []
  deps : Text := []
  prov : Text := []
  desc : Text := []
  ess : Text := []
  deriving DecidableEq

/-- The index as it is written: the record, what `ix_put` was given and `r_count`. -/
structure Indexing where
  record : Record := {}
  ix : Text := []
  count : ℕ := 0

/-- `record_end`, of a mirror. -/
def recordEnd (mirror : ℕ) (s : Indexing) : Indexing :=
  let r := s.record
  if r.name ≠ [] ∧ r.file ≠ [] then
    let m := [UInt8.ofNat (48 + mirror)]
    let e := if r.ess = text "yes" then text "e" else []
    let f := [r.name, r.ver, m, r.size, r.isize, r.file, r.deps, r.prov, r.desc, e]
    ⟨{}, s.ix ++ [tab].intercalate f ++ [newline], s.count + 1⟩
  else { s with record := {} }

/-- `field`: what is after a field's name. -/
def field (l : Text) (name : String) : Option Text := l.dropPrefix? (text name)

/-- `record_line`. -/
def recordLine (mirror : ℕ) (s : Indexing) (l : Text) : Indexing :=
  let r := s.record
  if l = [] then recordEnd mirror s
  else if l.head? = some space then s
  else if let some v := field l "Package:" then { s with record := { r with name := takeField 128 v } }
  else if let some v := field l "Version:" then { s with record := { r with ver := takeField 128 v } }
  else if let some v := field l "Filename:" then { s with record := { r with file := takeField 256 v } }
  else if let some v := field l "Size:" then { s with record := { r with size := takeField 16 v } }
  else if let some v := field l "Installed-Size:" then
    { s with record := { r with isize := takeField 16 v } }
  else if let some v := field l "Description:" then
    { s with record := { r with desc := takeField 160 v } }
  else if let some v := (field l "Depends:").or (field l "Pre-Depends:") then
    { s with record := { r with deps := depsAdd r.deps depsRoom v } }
  else if let some v := field l "Provides:" then
    { s with record := { r with prov := depsAdd r.prov provRoom v } }
  else if let some v := field l "Essential:" then { s with record := { r with ess := takeField 8 v } }
  else s

/-- The record and the index after these lines. -/
def recordLines (mirror : ℕ) (ls : List Text) : Indexing := ls.foldl (recordLine mirror) {}

/-! ### The names of a field -/

/-- A field, up to a 0 or a carriage return. -/
def upTo (v : Text) : Text := v.takeWhile fun c => c ≠ 0 ∧ c ≠ carriage

/-- A text without what is in brackets: versions, architectures and restrictions. -/
def unbracketed : Text → Text
  | [] => []
  | c :: cs =>
    if opens c then unbracketed ((cs.dropWhile (· ≠ closing c)).drop 1) else c :: unbracketed cs
  termination_by s => s.length
  decreasing_by
    · have := (cs.dropWhile_suffix (· ≠ closing c)).length_le
      grind
    · simp

/-- A name without its qualifier and the spaces around it. -/
def bareName (s : Text) : Text := (s.takeWhile (· ≠ colon)).filter (· ≠ space)

/-- Names, with the separators there were between them. -/
def rejoined : List Text → Text → Text
  | [], _ => []
  | n :: _, [] => n
  | n :: ns, s :: ss => n ++ s :: rejoined ns ss

/-- The names of a field, separated as there. -/
def written (v : Text) : Text :=
  let s := unbracketed (upTo v)
  rejoined ((s.splitOnP separator).map bareName) (s.filter separator)

/-- A list, and after it the names of one more field. -/
def joinedWith (list v : Text) : Text := list ++ (if list = [] then [] else [comma]) ++ written v

/-- The names of these fields, with nothing after the last one. -/
def wholeOf (vs : List Text) : Text := vs.foldl (fun list v => trim (joinedWith list v)) []

/-- Whether a list has a separator there. -/
def separates (w : Text) (i : ℕ) : Prop := ∃ c, w[i]? = some c ∧ separator c = true

/-- A list keeps whole names of `w`: all of them where they fit in `room`, and otherwise the first ones,
up to the end or to a separator. -/
def KeepsWhole (w : Text) (room : ℕ) (list : Text) : Prop :=
  (w.length ≤ room → list = w) ∧ list <+: w ∧ (list = w ∨ list = [] ∨ separates w list.length)

/-- A field has nothing but separators for the room that is left after a list. -/
def AddsNothing (room : ℕ) (list u : Text) : Prop :=
  ∀ c ∈ ((joinedWith list u).take room).drop list.length, separator c = true

/-- The names of these fields fit in `room`; or it ends between two of the names, and no field after
those that do not fit brings one into what is left of it. -/
def CutBetween (room : ℕ) (vs : List Text) : Prop :=
  (wholeOf vs).length ≤ room ∨
    (separates (wholeOf vs) room ∨ separates (wholeOf vs) (room - 1)) ∧
      ∀ us u ws, vs = us ++ u :: ws → room < (wholeOf us).length →
        AddsNothing room (trim ((wholeOf vs).take room)) u

/-- The lines of the record that is being read. -/
def lastRecord (ls : List Text) : List Text := ls.rtakeWhile (· ≠ [])

/-- The fields of these lines that say what the package needs, and what it stands in for. -/
def dependsIn (ls : List Text) : List Text :=
  ls.filterMap fun l => (field l "Depends:").or (field l "Pre-Depends:")
def providesIn (ls : List Text) : List Text := ls.filterMap (field · "Provides:")

/-- Both lists of a record keep whole names. -/
def RecordKeeps (ls : List Text) (r : Record) : Prop :=
  KeepsWhole (wholeOf (dependsIn ls)) (depsRoom - 1) r.deps ∧
    KeepsWhole (wholeOf (providesIn ls)) (provRoom - 1) r.prov

/-! ### One field -/

/-- The names of a text, separated as there, without what goes on of a qualifier in it. -/
def tidyOn (qualifier : Bool) (s : Text) : Text :=
  rejoined (((s.splitOnP separator).map bareName).modifyHead fun n => if qualifier then [] else n)
    (s.filter separator)

/-- What is after a bracket that is still open, if one is. -/
def afterClose (close : UInt8) (s : Text) : Text :=
  if close = 0 then s else (s.dropWhile (· ≠ close)).drop 1

theorem rejoined_cons (c : UInt8) (n : Text) (ns : List Text) (ss : Text) :
    rejoined ((c :: n) :: ns) ss = c :: rejoined (n :: ns) ss := by cases ss <;> rfl

theorem splitOnP_ne (s : Text) : ∃ n ns, s.splitOnP separator = n :: ns :=
  List.exists_cons_of_ne_nil (List.splitOnP_ne_nil _ _)

theorem bareName_cons (c : UInt8) (s : Text) :
    bareName (c :: s) = if c = colon then [] else if c = space then bareName s else c :: bareName s := by
  unfold bareName
  by_cases hcolon : c = colon
  · simp [hcolon]
  · by_cases hspace : c = space <;> simp [hcolon, hspace]
    simp [space, colon]

@[simp] theorem tidyOn_nil (q : Bool) : tidyOn q [] = [] := by
  cases q <;> rfl

theorem tidyOn_separator (hc : separator c = true) (q : Bool) (s : Text) :
    tidyOn q (c :: s) = c :: tidyOn false s := by
  obtain ⟨n, ns, hs⟩ := splitOnP_ne s
  cases q <;> simp [tidyOn, List.splitOnP_cons_eq_if_modifyHead, hc, hs, rejoined, bareName]

theorem tidyOn_true (hc : separator c = false) (s : Text) :
    tidyOn true (c :: s) = tidyOn true s := by
  obtain ⟨n, ns, hs⟩ := splitOnP_ne s
  simp [tidyOn, List.splitOnP_cons_eq_if_modifyHead, hc, hs]

theorem tidyOn_false (hc : separator c = false) (s : Text) :
    tidyOn false (c :: s) =
      if c = colon then tidyOn true s else if c = space then tidyOn false s
      else c :: tidyOn false s := by
  obtain ⟨n, ns, hs⟩ := splitOnP_ne s
  have hjoin : tidyOn false (c :: s) =
      rejoined (bareName (c :: n) :: ns.map bareName) (s.filter separator) := by
    simp [tidyOn, List.splitOnP_cons_eq_if_modifyHead, hc, hs]
  have hfalse : tidyOn false s = rejoined (bareName n :: ns.map bareName) (s.filter separator) := by
    simp [tidyOn, hs]
  have htrue : tidyOn true s = rejoined ([] :: ns.map bareName) (s.filter separator) := by
    simp [tidyOn, hs]
  rw [hjoin, hfalse, htrue, bareName_cons]
  split_ifs
  · rfl
  · rfl
  · exact rejoined_cons _ _ _ _

theorem written_eq (v : Text) : written v = tidyOn false (unbracketed (upTo v)) := by
  obtain ⟨n, ns, hs⟩ := splitOnP_ne (unbracketed (upTo v))
  simp [written, tidyOn, hs]

/-- The loop writes the names that are ahead of it, as far as there is room. -/
theorem addOn_eq (cap : ℕ) (v : Text) : ∀ n close q,
    addOn cap n close q v = (tidyOn q (unbracketed (afterClose close (upTo v)))).take (cap - 1 - n) := by
  induction v with
  | nil =>
    intro n close q
    simp [addOn, upTo, afterClose, unbracketed]
  | cons c cs ih =>
    intro n close q
    unfold addOn
    by_cases hstop : c = 0 ∨ c = carriage
    · have hup : upTo (c :: cs) = [] := by
        rcases hstop with rfl | rfl <;> simp [upTo]
      rw [if_pos (by tauto), hup]
      simp [afterClose, unbracketed]
    · by_cases hroom : n + 1 < cap
      swap
      · rw [if_pos (by tauto), show cap - 1 - n = 0 by omega, List.take_zero]
      have hup : upTo (c :: cs) = c :: upTo cs := by
        unfold upTo
        rw [List.takeWhile_cons_of_pos (by simpa using not_or.1 hstop)]
      rw [if_neg (by tauto), hup]
      by_cases hclose : close = 0
      swap
      · rw [if_pos hclose, ih]
        congr 3
        by_cases hc : c = close
        · simp [afterClose, hc, hclose]
        · simp [afterClose, hc, hclose]
      subst hclose
      rw [if_neg (by simp)]
      by_cases hopens : opens c = true
      · have hne : closing c ≠ 0 := by unfold closing; split_ifs <;> decide
        rw [if_pos hopens, ih]
        simp [afterClose, unbracketed, hopens, hne]
      have hleft : unbracketed (afterClose 0 (c :: upTo cs)) = c :: unbracketed (upTo cs) := by
        simp [afterClose, unbracketed, hopens]
      rw [if_neg hopens, hleft]
      have hzero : ∀ s, afterClose 0 s = s := fun s => by simp [afterClose]
      have htake : ∀ s : Text, c :: s.take (cap - 1 - (n + 1)) = (c :: s).take (cap - 1 - n) := by
        intro s
        rw [show cap - 1 - n = cap - 1 - (n + 1) + 1 by omega, List.take_succ_cons]
      simp only [ih, hzero]
      by_cases hsep : separator c = true
      · have : c ≠ space := by rintro rfl; exact absurd hsep (by decide)
        rw [if_neg this, tidyOn_separator hsep]
        simp [hsep, htake]
      · cases q with
        | true =>
          rw [tidyOn_true (by simpa using hsep)]
          simp [hsep]
        | false =>
          rw [tidyOn_false (by simpa using hsep)]
          by_cases hcolon : c = colon
          · have : colon ≠ space := by decide
            simp_all
          · by_cases hspace : c = space
            · simp_all
            · simp_all
/-! ### Trimmed lists -/

theorem trim_starts (s : Text) : trim s <+: s := List.rdropWhile_prefix _ _

theorem trim_trim (s : Text) : trim (trim s) = trim s := List.rdropWhile_idempotent _ _

theorem trim_append_singleton (s : Text) (c : UInt8) :
    trim (s ++ [c]) = if separator c then trim s else s ++ [c] := List.rdropWhile_concat _ _ _

/-- A list that ends in a name is not shortened with what comes after it. -/
theorem prefix_trim {x : Text} (hs : trim s = s) (h : s <+: x) : s <+: trim x := by
  obtain ⟨t, rfl⟩ := h
  induction t using List.reverseRecOn with
  | nil => rw [List.append_nil, hs]
  | append_singleton t c ih =>
    rw [← List.append_assoc, trim_append_singleton]
    split_ifs
    · exact ih
    · exact ⟨t ++ [c], (List.append_assoc _ _ _).symm⟩

theorem trim_append {t : Text} (ht : ∀ c ∈ t, separator c = true) : trim (s ++ t) = trim s := by
  induction t using List.reverseRecOn with
  | nil => rw [List.append_nil]
  | append_singleton t c ih =>
    rw [← List.append_assoc, trim_append_singleton, if_pos (ht c (by simp)),
      ih fun b hb => ht b (List.mem_append_left _ hb)]

/-- What trimming leaves out. -/
theorem exists_trim (s : Text) : ∃ t, s = trim s ++ t ∧ ∀ c ∈ t, separator c = true :=
  ⟨s.rtakeWhile separator, List.rdropWhile_append_rtakeWhile.symm,
    fun _ => List.mem_rtakeWhile_imp⟩

theorem separator_of_trim {i : ℕ} (hle : (trim s).length ≤ i)
    (hi : s[i]? = some c) : separator c = true := by
  obtain ⟨t, hs, ht⟩ := exists_trim s
  rw [hs, List.getElem?_append_right hle] at hi
  exact ht c (List.mem_of_getElem? hi)

/-- The last byte of a trimmed list is not a separator. -/
theorem not_separator_last (hs : trim s = s)
    (hc : s[s.length - 1]? = some c) : separator c = false := by
  induction s using List.reverseRecOn with
  | nil => simp at hc
  | append_singleton s b =>
    rw [trim_append_singleton] at hs
    obtain rfl : b = c := by simpa using hc
    by_contra hb
    rw [if_pos (by simpa using hb)] at hs
    have hle := (trim_starts s).length_le
    rw [hs] at hle
    simp at hle

theorem trim_take {c : Text} (h : (trim c).length ≤ room) : trim (c.take room) = trim c := by
  obtain ⟨t, hc, ht⟩ := exists_trim c
  have : c.take room = trim c ++ t.take (room - (trim c).length) := by
    conv_lhs => rw [hc, List.take_append, List.take_of_length_le h]
  rw [this, trim_append fun b hb => ht b (List.mem_of_mem_take hb), trim_trim]

/-! ### Field after field -/

theorem depsAdd_eq {list : Text} {cap : ℕ} (hlist : list.length ≤ cap - 1) (v : Text) :
    depsAdd list cap v = trim ((joinedWith list v).take (cap - 1)) := by
  have hadd : ∀ n, addOn cap n 0 false v = (written v).take (cap - 1 - n) := by
    intro n
    rw [addOn_eq, written_eq]
    rfl
  unfold depsAdd joinedWith
  rcases eq_or_ne list [] with rfl | hne
  · simp [hadd]
  have hpos := List.length_pos_iff.2 hne
  by_cases hroom : list.length + 1 < cap
  · simp only [hadd, hpos, hroom, and_self, if_true, if_neg hne]
    congr 1
    have hle : (list ++ [comma]).length ≤ cap - 1 := by simpa using Nat.le_sub_one_of_lt hroom
    rw [List.take_append, List.take_of_length_le hle]
  · simp only [hadd, hpos, hroom, and_false, if_false, if_neg hne]
    have hfull : cap - 1 - list.length = 0 := by omega
    rw [hfull, List.take_zero, List.append_nil, List.append_assoc, List.take_append,
      List.take_of_length_le hlist, hfull, List.take_zero, List.append_nil]

/-- The list that is left of these fields. -/
def keptOf (room : ℕ) (vs : List Text) : Text :=
  vs.foldl (fun list v => trim ((joinedWith list v).take room)) []

theorem wholeOf_snoc (vs : List Text) (v : Text) :
    wholeOf (vs ++ [v]) = trim (joinedWith (wholeOf vs) v) := by
  simp [wholeOf]

theorem keptOf_snoc (room : ℕ) (vs : List Text) (v : Text) :
    keptOf room (vs ++ [v]) = trim ((joinedWith (keptOf room vs) v).take room) := by
  simp [keptOf]

theorem prefix_joinedWith (list v : Text) : list <+: joinedWith list v := by
  unfold joinedWith
  rw [List.append_assoc]
  exact List.prefix_append _ _

theorem trim_wholeOf (vs : List Text) : trim (wholeOf vs) = wholeOf vs := by
  induction vs using List.reverseRecOn with
  | nil => rfl
  | append_singleton vs v => rw [wholeOf_snoc, trim_trim]

theorem trim_keptOf (room : ℕ) (vs : List Text) : trim (keptOf room vs) = keptOf room vs := by
  induction vs using List.reverseRecOn with
  | nil => rfl
  | append_singleton vs v => rw [keptOf_snoc, trim_trim]

theorem length_keptOf (room : ℕ) (vs : List Text) : (keptOf room vs).length ≤ room := by
  induction vs using List.reverseRecOn with
  | nil => exact Nat.zero_le _
  | append_singleton vs v =>
    rw [keptOf_snoc]
    exact (trim_starts _).length_le.trans (List.length_take_le _ _)

theorem wholeOf_starts_snoc (vs : List Text) (v : Text) : wholeOf vs <+: wholeOf (vs ++ [v]) := by
  rw [wholeOf_snoc]
  exact prefix_trim (trim_wholeOf vs) (prefix_joinedWith _ _)

theorem wholeOf_starts (vs ws : List Text) : wholeOf vs <+: wholeOf (vs ++ ws) := by
  induction ws using List.reverseRecOn with
  | nil => rw [List.append_nil]
  | append_singleton ws w ih =>
    rw [← List.append_assoc]
    exact ih.trans (wholeOf_starts_snoc _ _)

theorem keptOf_prefix_snoc (room : ℕ) (vs : List Text) (v : Text) :
    keptOf room vs <+: keptOf room (vs ++ [v]) := by
  rw [keptOf_snoc]
  refine prefix_trim (trim_keptOf room vs) ?_
  exact List.prefix_take_iff.2 ⟨prefix_joinedWith _ _, length_keptOf room vs⟩

/-! ### Whole names -/

/-- As long as the names fit, all of them are kept. -/
theorem keptOf_fits {vs : List Text} (h : (wholeOf vs).length ≤ room) :
    keptOf room vs = wholeOf vs := by
  induction vs using List.reverseRecOn with
  | nil => rfl
  | append_singleton vs v ih =>
    rw [keptOf_snoc, ih ((wholeOf_starts_snoc vs v).length_le.trans h), wholeOf_snoc]
    rw [wholeOf_snoc] at h
    exact trim_take h

theorem addsNothing_iff {list u : Text} (hlist : trim list = list) (hle : list.length ≤ room) :
    AddsNothing room list u ↔ trim ((joinedWith list u).take room) = list := by
  have hpre : list <+: (joinedWith list u).take room :=
    List.prefix_take_iff.2 ⟨prefix_joinedWith _ _, hle⟩
  unfold AddsNothing
  constructor
  · intro h
    rw [List.prefix_append_drop hpre, trim_append h, hlist]
  · intro h c hc
    obtain ⟨i, hi⟩ := List.mem_iff_getElem?.1 hc
    rw [List.getElem?_drop] at hi
    exact separator_of_trim (by rw [h]; omega) hi

/-- Once the names do not fit, what is kept starts with what is in front of the cut; it is no more than
that as long as no later field adds a name. -/
theorem keptOf_overflow {vs : List Text} (h : room < (wholeOf vs).length) :
    trim ((wholeOf vs).take room) <+: keptOf room vs ∧
      (keptOf room vs = trim ((wholeOf vs).take room) ↔
        ∀ us u ws, vs = us ++ u :: ws → room < (wholeOf us).length →
          AddsNothing room (trim ((wholeOf vs).take room)) u) := by
  induction vs using List.reverseRecOn with
  | nil => simp [wholeOf] at h
  | append_singleton vs v ih =>
    have hpre := wholeOf_starts_snoc vs v
    rcases Nat.lt_or_ge room (wholeOf vs).length with hover | hfits
    · -- It did not fit before: the cut is where it was.
      have htake : (wholeOf (vs ++ [v])).take room = (wholeOf vs).take room := by
        obtain ⟨t, ht⟩ := hpre
        rw [← ht, List.take_append_of_le_length hover.le]
      obtain ⟨hkept, hiff⟩ := ih hover
      have hcut : (trim ((wholeOf vs).take room)).length ≤ room :=
        (trim_starts _).length_le.trans (List.length_take_le _ _)
      have hgrow := keptOf_prefix_snoc room vs v
      rw [htake]
      refine ⟨hkept.trans hgrow, ?_⟩
      constructor
      · intro hsame
        have hbefore : keptOf room vs = trim ((wholeOf vs).take room) :=
          (hkept.eq_of_length_le (by rw [← hsame]; exact hgrow.length_le)).symm
        intro us u ws hvs hus
        rcases List.eq_nil_or_concat ws with rfl | ⟨ws, w, rfl⟩
        · obtain ⟨rfl, rfl⟩ := List.append_singleton_inj.1 hvs
          rw [addsNothing_iff (trim_trim _) hcut]
          rwa [keptOf_snoc, hbefore] at hsame
        · have hvs : vs ++ [v] = (us ++ u :: ws) ++ [w] := by simpa using hvs
          exact hiff.1 hbefore us u ws (List.append_singleton_inj.1 hvs).1 hus
      · intro hlater
        have hbefore := hiff.2 fun us u ws hvs hus => hlater us u (ws ++ [v]) (by simp [hvs]) hus
        rw [keptOf_snoc, hbefore]
        exact (addsNothing_iff (trim_trim _) hcut).1 (hlater vs v [] rfl hover)
    · -- It fitted before: this field is cut.
      have hkept : keptOf room (vs ++ [v]) = trim ((wholeOf (vs ++ [v])).take room) := by
        rw [keptOf_snoc, keptOf_fits hfits]
        obtain ⟨t, ht⟩ := trim_starts (joinedWith (wholeOf vs) v)
        rw [wholeOf_snoc] at h ⊢
        conv_lhs => rw [← ht, List.take_append_of_le_length h.le]
      refine ⟨hkept ▸ List.prefix_refl _, fun _ us u ws hvs hus => ?_, fun _ => hkept⟩
      have hus' : us <+: vs := by
        rcases List.eq_nil_or_concat ws with rfl | ⟨ws, w, rfl⟩
        · exact (List.append_singleton_inj.1 hvs).1 ▸ List.prefix_refl _
        · have hvs : vs ++ [v] = (us ++ u :: ws) ++ [w] := by simpa using hvs
          rw [(List.append_singleton_inj.1 hvs).1]
          exact List.prefix_append _ _
      obtain ⟨t, rfl⟩ := hus'
      exact absurd ((wholeOf_starts us t).length_le.trans hfits) (by omega)

theorem separates_of_trim {w : Text} {i : ℕ} (hle : (trim w).length ≤ i) (hi : i < w.length) :
    separates w i :=
  ⟨w[i], List.getElem?_eq_getElem hi, separator_of_trim hle (List.getElem?_eq_getElem hi)⟩

/-- A list that is too long is kept as whole names where it ends between two of them. -/
theorem keepsWhole_iff (hroom : 0 < room) (vs : List Text) :
    KeepsWhole (wholeOf vs) room (keptOf room vs) ↔ CutBetween room vs := by
  unfold KeepsWhole CutBetween
  rcases Nat.lt_or_ge room (wholeOf vs).length with hover | hfits
  swap
  · rw [keptOf_fits hfits]
    exact ⟨fun _ => .inl hfits, fun _ => ⟨fun _ => rfl, List.prefix_refl _, .inl rfl⟩⟩
  obtain ⟨hpre, hiff⟩ := keptOf_overflow hover
  rw [← hiff, or_iff_right (b := _) (Nat.not_le.2 hover)]
  have hlen := length_keptOf room vs
  have hne : keptOf room vs ≠ wholeOf vs := fun h => by rw [h] at hlen; omega
  set w := wholeOf vs
  set k := trim (w.take room) with hk
  have hkle : k.length ≤ room := (trim_starts _).length_le.trans (List.length_take_le _ _)
  have hget : ∀ i < room, (w.take room)[i]? = w[i]? := fun i hi => List.getElem?_take_of_lt hi
  constructor
  · rintro ⟨-, hstarts, hends⟩
    have hsame : keptOf room vs = k :=
      List.IsPrefix.eq_of_length_le
        (prefix_trim (trim_keptOf room vs) (List.prefix_take_iff.2 ⟨hstarts, hlen⟩)) hpre.length_le
    refine ⟨?_, hsame⟩
    rcases hkle.lt_or_eq with hlt | heq
    · have := separates_of_trim (w := w.take room) (i := room - 1) (by rw [← hk]; omega)
        (by simp; omega)
      rw [separates, hget _ (by omega)] at this
      exact .inr this
    · rcases hends with h | h | h
      · exact absurd h hne
      · rw [hsame] at h
        rw [h] at heq
        exact absurd heq (by simp; omega)
      · rw [hsame, heq] at h
        exact .inl h
  · rintro ⟨hsep, hsame⟩
    refine ⟨fun h => by omega, hsame ▸ (trim_starts _).trans (List.take_prefix _ _), .inr (.inr ?_)⟩
    rw [hsame]
    rcases hkle.lt_or_eq with hlt | heq
    · have := separates_of_trim (w := w.take room) (i := k.length) (by rw [← hk]) (by simp; omega)
      rwa [separates, hget _ hlt] at this
    · rw [heq]
      refine hsep.resolve_right fun ⟨c, hc, hcsep⟩ => ?_
      have hwhole : k = w.take room :=
        (trim_starts _).eq_of_length (by rw [← hk, heq]; simp; omega)
      have hlast : k[k.length - 1]? = some c := by
        rw [heq, hwhole, hget _ (by omega), hc]
      rw [not_separator_last (trim_trim _) hlast] at hcsep
      exact absurd hcsep (by simp)

/-! ### Records -/

/-- A line has one field's name. -/
theorem field_other {a b : String} (h : field l a = some v)
    (hne : ¬text a <+: text b ∧ ¬text b <+: text a) : field l b = none := by
  by_contra hb
  obtain ⟨u, hu⟩ := Option.ne_none_iff_exists'.1 hb
  obtain ⟨p, hp, hpa⟩ := List.dropPrefix?_eq_some_iff.1 h
  obtain ⟨q, hq, hqb⟩ := List.dropPrefix?_eq_some_iff.1 hu
  rw [eq_of_beq hpa] at hp
  rw [eq_of_beq hqb] at hq
  have ha : text a <+: l := ⟨v, hp.symm⟩
  have hb : text b <+: l := ⟨u, hq.symm⟩
  exact (List.prefix_or_prefix_of_prefix ha hb).elim hne.1 hne.2

theorem field_space {a : String} (h : field l a = some v)
    (hne : (text a).head?.any (· ≠ space)) : l.head? ≠ some space := by
  obtain ⟨p, rfl, hpa⟩ := List.dropPrefix?_eq_some_iff.1 h
  rw [eq_of_beq hpa]
  cases hp : text a with
  | nil => simp [hp] at hne
  | cons c cs => simpa [hp] using hne

theorem recordLine_deps (mirror : ℕ) (s : Indexing) (hl : l ≠ []) :
    (recordLine mirror s l).record.deps =
      match (field l "Depends:").or (field l "Pre-Depends:") with
      | some v => depsAdd s.record.deps depsRoom v
      | none => s.record.deps := by
  cases h : (field l "Depends:").or (field l "Pre-Depends:") with
  | none =>
    unfold recordLine
    simp only [h, if_neg hl]
    split_ifs <;> (repeat' split) <;> rfl
  | some v =>
    have hname : field l "Depends:" = some v ∨ field l "Pre-Depends:" = some v := by
      rcases Option.or_eq_some_iff.1 h with h | ⟨-, h⟩
      · exact .inl h
      · exact .inr h
    have hother : ∀ b ∈ ["Package:", "Version:", "Filename:", "Size:", "Installed-Size:", "Description:"],
        field l b = none := by
      intro b hb
      rcases hname with h | h
      · exact field_other h (by revert b; decide)
      · exact field_other h (by revert b; decide)
    have hspace : l.head? ≠ some space := by
      rcases hname with h | h
      · exact field_space h (by decide)
      · exact field_space h (by decide)
    simp only [List.forall_mem_cons] at hother
    obtain ⟨h1, h2, h3, h4, h5, h6, -⟩ := hother
    simp only [recordLine, if_neg hl, if_neg hspace, h1, h2, h3, h4, h5, h6, h]

theorem recordLine_prov (mirror : ℕ) (s : Indexing) (hl : l ≠ []) :
    (recordLine mirror s l).record.prov =
      match field l "Provides:" with
      | some v => depsAdd s.record.prov provRoom v
      | none => s.record.prov := by
  cases h : field l "Provides:" with
  | none =>
    unfold recordLine
    simp only [h, if_neg hl]
    split_ifs <;> (repeat' split) <;> rfl
  | some v =>
    have hother : ∀ b ∈ ["Package:", "Version:", "Filename:", "Size:", "Installed-Size:", "Description:",
        "Depends:", "Pre-Depends:"], field l b = none := fun b hb =>
      field_other h (by revert b; decide)
    have hspace : l.head? ≠ some space := field_space h (by decide)
    simp only [List.forall_mem_cons] at hother
    obtain ⟨h1, h2, h3, h4, h5, h6, h7, h8, -⟩ := hother
    simp only [recordLine, if_neg hl, if_neg hspace, h1, h2, h3, h4, h5, h6, h7, h8, h, Option.or_none]

theorem recordLine_nil (mirror : ℕ) (s : Indexing) : (recordLine mirror s []).record = {} := by
  unfold recordLine recordEnd
  simp only [if_true]
  split_ifs <;> rfl

theorem recordLines_snoc (mirror : ℕ) (ls : List Text) (l : Text) :
    recordLines mirror (ls ++ [l]) = recordLine mirror (recordLines mirror ls) l := by
  simp [recordLines]

theorem lastRecord_snoc (ls : List Text) (l : Text) :
    lastRecord (ls ++ [l]) = if l = [] then [] else lastRecord ls ++ [l] := by
  unfold lastRecord
  rw [List.rtakeWhile_concat]
  by_cases hl : l = [] <;> simp [hl]

/-- A list that a line of some name adds to, of the record after these lines. -/
theorem recordLines_list {mirror : ℕ} {list : Record → Text} {named : Text → Option Text} {cap : ℕ}
    (hempty : list {} = [])
    (hline : ∀ s l, l ≠ [] → list (recordLine mirror s l).record =
      match named l with
      | some v => depsAdd (list s.record) cap v
      | none => list s.record) (ls : List Text) :
    list (recordLines mirror ls).record = keptOf (cap - 1) ((lastRecord ls).filterMap named) := by
  induction ls using List.reverseRecOn with
  | nil => exact hempty
  | append_singleton ls l ih =>
    rw [recordLines_snoc, lastRecord_snoc]
    split_ifs with hl
    · rw [hl, recordLine_nil, hempty]
      rfl
    · have hin : (lastRecord ls ++ [l]).filterMap named =
          (lastRecord ls).filterMap named ++ (named l).toList := by
        rw [List.filterMap_append]
        cases h : named l <;> simp [h]
      rw [hline _ _ hl, hin, ih]
      cases named l with
      | none => simp
      | some v =>
        rw [Option.toList_some, keptOf_snoc]
        exact depsAdd_eq (length_keptOf _ _) v

/-- A record keeps whole names of what it needs and of what it stands in for exactly where both lists
fit or are cut between two names. -/
theorem record_keepsWhole_iff (mirror : ℕ) (ls : List Text) :
    RecordKeeps (lastRecord ls) (recordLines mirror ls).record ↔
      CutBetween (depsRoom - 1) (dependsIn (lastRecord ls)) ∧
        CutBetween (provRoom - 1) (providesIn (lastRecord ls)) := by
  unfold RecordKeeps
  have hdeps : (recordLines mirror ls).record.deps = keptOf (depsRoom - 1) (dependsIn (lastRecord ls)) :=
    recordLines_list rfl (fun s _ hl => recordLine_deps mirror s hl) ls
  have hprov : (recordLines mirror ls).record.prov = keptOf (provRoom - 1) (providesIn (lastRecord ls)) :=
    recordLines_list rfl (fun s _ hl => recordLine_prov mirror s hl) ls
  rw [hdeps, hprov, keepsWhole_iff (by decide), keepsWhole_iff (by decide)]

/-- A text without brackets, qualifiers and spaces is written as it is. -/
theorem written_plain
    (hv : ∀ c ∈ v, c ≠ 0 ∧ c ≠ carriage ∧ opens c = false ∧ c ≠ colon ∧ c ≠ space) : written v = v := by
  rw [written_eq]
  induction v with
  | nil => simp [upTo, unbracketed]
  | cons c cs ih =>
    obtain ⟨⟨h0, hcr, hopens, hcolon, hspace⟩, hcs⟩ := List.forall_mem_cons.1 hv
    have hup : upTo (c :: cs) = c :: upTo cs := by simp [upTo, h0, hcr]
    have hout : unbracketed (c :: upTo cs) = c :: unbracketed (upTo cs) := by
      rw [unbracketed, if_neg (by simp [hopens])]
    rw [hup, hout]
    cases hsep : separator c with
    | true => rw [tidyOn_separator hsep, ih hcs]
    | false => rw [tidyOn_false hsep, if_neg hcolon, if_neg hspace, ih hcs]

/-- Names of six letters, more than there is room for. -/
def manyNames : Text := (List.replicate 171 (text "libfoo,")).flatten ++ text "libbar"

/-- A record that stands in for all of them keeps one name cut short. -/
theorem exists_not_recordKeeps : ∃ ls, ¬RecordKeeps (lastRecord ls) (recordLines 0 ls).record := by
  refine ⟨[text "Package:a", text "Provides:" ++ manyNames], fun h => ?_⟩
  rw [record_keepsWhole_iff] at h
  have hin : providesIn (lastRecord [text "Package:a", text "Provides:" ++ manyNames]) = [manyNames] := by
    rfl
  have hall : manyNames.all
      (fun c => c ≠ 0 ∧ c ≠ carriage ∧ opens c = false ∧ c ≠ colon ∧ c ≠ space) = true := by
    decide +kernel
  have hplain : ∀ c ∈ manyNames, c ≠ 0 ∧ c ≠ carriage ∧ opens c = false ∧ c ≠ colon ∧ c ≠ space :=
    fun c hc => of_decide_eq_true (List.all_eq_true.1 hall c hc)
  have hwhole : wholeOf [manyNames] = manyNames := by
    unfold wholeOf joinedWith
    simp only [List.foldl_cons, List.foldl_nil, if_true, List.nil_append]
    rw [written_plain hplain]
    decide +kernel
  have hcut := h.2
  unfold CutBetween separates at hcut
  rw [hin, hwhole] at hcut
  have hlen : manyNames.length = 1203 := by decide +kernel
  have hat : manyNames[provRoom - 1]? = some 105 := by decide +kernel
  have hbefore : manyNames[provRoom - 1 - 1]? = some 108 := by decide +kernel
  rw [hlen, hat, hbefore] at hcut
  rcases hcut with hfits | ⟨⟨c, hc, hsep⟩ | ⟨c, hc, hsep⟩, -⟩
  · exact absurd hfits (by decide)
  · rw [← Option.some.inj hc] at hsep
    exact absurd hsep (by decide)
  · rw [← Option.some.inj hc] at hsep
    exact absurd hsep (by decide)

end BaxOS.Tuxpac
