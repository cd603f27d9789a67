import BaxOS.Tuxpac.Tar

/-!
# The names of an archive fit

`tar_entry` puts together an entry's name, its path and what it links to in arrays of their own sizes.
Long names and links are kept to 255 bytes, which every array takes, except where a hard link's target of
255 bytes is given a slash in front and copied back to where it was (`tarSink_fits_iff`).
-/

namespace BaxOS.Tuxpac
open Feeding

variable {σ : Type*}

/-- A heading lays down a hard link. -/
def Heading.hardLink (h : Heading) : Bool := h.lays && typeOf h.hdr = 49

/-- The strings `tar_entry` builds fit their arrays, each with its 0: as it writes them, and as it copies
a hard link's target back. -/
structure Heading.Fits (h : Heading) : Prop where
  name : h.name.length < nameRoom
  path : (rooted h.name).length < absoluteRoom
  link : h.link.length < linkRoom
  target : h.hardLink → (rooted h.link).length < nameRoom ∧ (absolute h.link).length < linkRoom

/-- A link as long as links are kept that `absolute` puts a slash in front of and takes none off. -/
def longest (link : Text) : Prop :=
  link.length = longRoom - 1 ∧ link.head? ≠ some slash ∧
    ¬(link.head? = some dot ∧ link.tail.head? = some slash) ∧ link.getLast? ≠ some slash

instance (link : Text) : Decidable (longest link) := inferInstanceAs (Decidable (_ ∧ _ ∧ _ ∧ _))

/-- A name is as long as names are kept, at most. -/
def Kept255 (name : Option Text) : Prop := ∀ n, name = some n → n.length ≤ longRoom - 1

/-- The long names are. -/
structure NamesKept (t : Tar σ) : Prop where
  longname : t.longname.length ≤ longRoom - 1
  longlink : t.longlink.length ≤ longRoom - 1
  headings : ∀ h ∈ t.headings, Kept255 h.longname ∧ Kept255 h.longlink

/-! ### Lengths -/

theorem length_cstr_le (bytes : List UInt8) : (cstr bytes).length ≤ bytes.length :=
  (List.takeWhile_prefix _).length_le

theorem length_beneath_le (name : Text) : (beneath name).length ≤ name.length := by
  unfold beneath
  simp only
  split_ifs <;> (simp; try omega)

theorem length_rooted_le (name : Text) : (rooted name).length ≤ name.length + 1 := by
  simpa [rooted] using length_beneath_le name

/-- The name in a header is shorter than the longest one kept. -/
theorem length_name_le {h : Heading} (hkept : Kept255 h.longname) : h.name.length ≤ longRoom := by
  unfold Heading.name
  cases hname : h.longname with
  | some n => exact (hkept n hname).trans (by decide)
  | none =>
    have h1 := length_cstr_le ((h.hdr.drop 345).take 155)
    have h2 := length_cstr_le (h.hdr.take 100)
    have h3 := List.length_take_le 155 (h.hdr.drop 345)
    have h4 := List.length_take_le 100 h.hdr
    unfold longRoom
    simp only
    split_ifs
    · rw [List.length_append, List.length_append, List.length_singleton]
      omega
    · rw [List.nil_append]
      omega

theorem length_link_le {h : Heading} (hkept : Kept255 h.longlink) : h.link.length ≤ longRoom - 1 := by
  unfold Heading.link
  cases hlink : h.longlink with
  | some l => exact hkept l hlink
  | none =>
    have h1 := length_cstr_le ((h.hdr.drop 157).take 100)
    have h2 := List.length_take_le 100 (h.hdr.drop 157)
    unfold longRoom
    simp only
    omega

/-- Nothing is in front of a name but what `beneath` takes off. -/
theorem beneath_self {name : Text} (hslash : name.head? ≠ some slash)
    (hdot : ¬(name.head? = some dot ∧ name.tail.head? = some slash)) (hlen : 1 < name.length) :
    beneath name = name := by
  have htail : name.tail ≠ [] := by
    rw [← List.length_pos_iff, List.length_tail]
    omega
  have hfirst : ¬(name.head? = some dot ∧ (name.tail.head? = some slash ∨ name.tail = [])) := by
    tauto
  unfold beneath
  simp only [if_neg hfirst, if_neg hslash]

theorem length_beneath_lt {name : Text}
    (h : name.head? = some slash ∨ name.head? = some dot ∧ name.tail.head? = some slash) :
    (beneath name).length < name.length := by
  obtain ⟨c, cs, rfl⟩ : ∃ c cs, name = c :: cs := by
    cases name with
    | nil => simp at h
    | cons c cs => exact ⟨c, cs, rfl⟩
  simp only [List.head?_cons, List.tail_cons, Option.some.injEq] at h
  unfold beneath
  simp only [List.head?_cons, List.tail_cons, Option.some.injEq]
  rcases h with rfl | ⟨rfl, hcs⟩
  · have hfirst : ¬(slash = dot ∧ (cs.head? = some slash ∨ cs = [])) := fun h => absurd h.1 (by decide)
    simp [if_neg hfirst]
  · simp [hcs]

/-- Of the links that are kept, the longest one made absolute is a byte too long. -/
theorem absolute_fits_iff {link : Text} (hlink : link.length ≤ longRoom - 1) :
    (absolute link).length < linkRoom ↔ ¬longest link := by
  have hle := length_beneath_le link
  have htrim : ((beneath link).rdropWhile (· = slash)).length ≤ (beneath link).length :=
    (List.rdropWhile_prefix _ _).length_le
  have hlen : (absolute link).length = ((beneath link).rdropWhile (· = slash)).length + 1 := rfl
  constructor
  · rintro hfits ⟨hlong, hslash, hdot, hlast⟩
    have hself : (beneath link).rdropWhile (· = slash) = link := by
      rw [beneath_self hslash hdot (by rw [hlong]; decide), List.rdropWhile_eq_self_iff]
      intro hne
      rw [List.getLast?_eq_getLast_of_ne_nil hne] at hlast
      simpa using hlast
    rw [hlen, hself, hlong] at hfits
    exact absurd hfits (by decide)
  · intro hlong
    by_contra hfits
    rw [hlen] at hfits
    unfold longRoom at hlink
    unfold linkRoom at hfits
    have hfront : ¬(link.head? = some slash ∨ link.head? = some dot ∧ link.tail.head? = some slash) := by
      intro h
      have := length_beneath_lt h
      omega
    have hself := beneath_self (fun h => hfront (.inl h)) (fun h => hfront (.inr h)) (by omega)
    refine hlong ⟨by unfold longRoom; omega, fun h => hfront (.inl h), fun h => hfront (.inr h), ?_⟩
    have hwhole : link.rdropWhile (· = slash) = link := by
      rw [hself] at htrim hfits
      exact (List.rdropWhile_prefix _ _).eq_of_length_le (by omega)
    intro hlast
    have hne : link ≠ [] := by
      rintro rfl
      simp at hlast
    rw [List.rdropWhile_eq_self_iff] at hwhole
    rw [List.getLast?_eq_getLast_of_ne_nil hne, Option.some.injEq] at hlast
    exact hwhole hne (by simpa using hlast)

/-- **One heading.** -/
theorem fits_iff {h : Heading} (hname : Kept255 h.longname) (hlink : Kept255 h.longlink) :
    h.Fits ↔ ¬(h.hardLink ∧ longest h.link) := by
  have hn := length_name_le hname
  have hl := length_link_le hlink
  have hpath := length_rooted_le h.name
  have htarget := length_rooted_le h.link
  have hiff := absolute_fits_iff hl
  unfold longRoom at hn hl
  constructor
  · rintro hfits ⟨hhard, hlong⟩
    exact hiff.1 (hfits.target hhard).2 hlong
  · intro hnot
    refine ⟨?_, ?_, ?_, fun hhard => ⟨?_, hiff.2 fun hlong => hnot ⟨hhard, hlong⟩⟩⟩
    · unfold nameRoom
      omega
    · unfold absoluteRoom pathRoom
      omega
    · unfold linkRoom
      omega
    · unfold nameRoom
      omega

/-! ### Every stream -/

/-- What an entry changes. -/
theorem enter_eq (os : Os σ) (pkg : Text) (h : Heading) (t : Tar σ) :
    ∃ kind fd first laid, enter os pkg h t = { t with kind, fd, first, laid } := by
  unfold enter
  cases h.mode with
  | control =>
    simp only
    split_ifs
    · exact ⟨_, _, _, _, rfl⟩
    · split
      · exact ⟨_, _, _, _, rfl⟩
      · exact ⟨_, _, _, _, rfl⟩
  | data =>
    simp only
    split_ifs <;> exact ⟨_, _, _, _, rfl⟩

theorem kept_cstr {b : Bool} {bytes : List UInt8} (h : bytes.length ≤ longRoom - 1) :
    Kept255 (if b then some (cstr bytes) else none) := by
  intro n hn
  split_ifs at hn
  rw [← Option.some.inj hn]
  exact (length_cstr_le _).trans h

theorem NamesKept.tarEntry {t : Tar σ} (h : NamesKept t) (os : Os σ) (mode : Mode) (pkg : Text)
    (hdr : List UInt8) : NamesKept (tarEntry os mode pkg t hdr) := by
  unfold Tuxpac.tarEntry
  simp only
  split_ifs
  · exact ⟨h.longname, h.longlink, h.headings⟩
  · exact ⟨h.longname, h.longlink, h.headings⟩
  · exact ⟨h.longname, h.longlink, h.headings⟩
  · exact ⟨h.longname, h.longlink, h.headings⟩
  · obtain ⟨kind, fd, first, laid, heq⟩ := enter_eq os pkg _ _
    rw [heq]
    refine ⟨h.longname, h.longlink, fun g hg => ?_⟩
    rcases List.mem_append.1 hg with hg | hg
    · exact h.headings g hg
    · obtain rfl := List.mem_singleton.1 hg
      exact ⟨kept_cstr h.longname, kept_cstr h.longlink⟩

theorem NamesKept.tarData {t : Tar σ} (h : NamesKept t) (os : Os σ) (d : List UInt8) :
    NamesKept (tarData os t d) := by
  unfold Tuxpac.tarData
  simp only
  split
  · split_ifs <;> exact ⟨h.longname, h.longlink, h.headings⟩
  · exact ⟨List.length_take_le _ _, h.longlink, h.headings⟩
  · exact ⟨h.longname, List.length_take_le _ _, h.headings⟩
  · exact ⟨h.longname, h.longlink, h.headings⟩
  · split_ifs <;> exact ⟨h.longname, h.longlink, h.headings⟩
  · split_ifs <;> exact ⟨h.longname, h.longlink, h.headings⟩
  · exact ⟨h.longname, h.longlink, h.headings⟩

theorem NamesKept.turn {t : Tar σ} (h : NamesKept t) (os : Os σ) (mode : Mode) (pkg : Text)
    (d : List UInt8) : NamesKept (tarTurn os mode pkg t d).1 := by
  unfold tarTurn
  split_ifs
  · exact h.tarData os _
  · exact ⟨h.longname, h.longlink, h.headings⟩
  · simp only
    split_ifs
    · exact NamesKept.tarEntry (t := { t with hdr := [] }) ⟨h.longname, h.longlink, h.headings⟩ os mode pkg _
    · exact ⟨h.longname, h.longlink, h.headings⟩

/-- **No entry of an archive overruns a buffer, except a hard link to a target as long as one can be**:
for every stream, cut in any way, in either mode, whatever the system does, the strings of every entry fit
their arrays exactly where none of the entries is a hard link that is laid down and whose target is 255
bytes with nothing for `absolute` to take off. -/
theorem tarSink_fits_iff (os : Os σ) (mode : Mode) (pkg : Text) (o : Laid σ) (ps : List (List UInt8)) :
    (∀ h ∈ (ps.foldl (tarSink os mode pkg) (fresh o)).headings, h.Fits) ↔
      ∀ h ∈ (ps.foldl (tarSink os mode pkg) (fresh o)).headings, ¬(h.hardLink ∧ longest h.link) := by
  have hkept : NamesKept (ps.foldl (tarSink os mode pkg) (fresh o)) :=
    pieces_invariant (P := NamesKept) (fun t d h => NamesKept.turn h os mode pkg d)
      (⟨Nat.zero_le _, Nat.zero_le _, fun h hh => (nomatch hh)⟩ : NamesKept (fresh o)) ps
  refine forall₂_congr fun h hh => ?_
  obtain ⟨hname, hlink⟩ := hkept.headings h hh
  exact fits_iff hname hlink

/-- A header: its name, its size in octal and its type. -/
def headerOf (name size : Text) (type : UInt8) : List UInt8 :=
  name ++ List.replicate (124 - name.length) 0 ++ size ++ List.replicate (32 - size.length) 0 ++
    [type] ++ List.replicate 355 0

/-- A system that lets nothing be done. -/
def inert : Os Unit where
  mkdir := fun _ s => (-1, s)
  lstat := fun _ _ => none
  present := fun _ _ => false
  unlink := fun _ s => s
  symlink := fun _ _ s => (-1, s)
  create := fun _ _ s => (-1, s)
  write := fun _ _ s => (-1, s)
  close := fun _ s => s
  alloc := fun _ s => (false, s)

/-- A long link of 255 bytes, and a hard link that it applies to. -/
def longHardLink : List UInt8 :=
  headerOf (text "././@LongLink") (text "377") longLinkType ++ (List.replicate 255 97 ++ List.replicate 257 0) ++
    headerOf (text "./b") (text "0") 49

/-- **A byte past the end of `link`.** -/
theorem exists_not_fits :
    ∃ h ∈ (tarSink inert .data [] (fresh ⟨[], [], [], 0, 0, ()⟩) longHardLink).headings, ¬h.Fits := by
  have hany : ((tarSink inert .data [] (fresh ⟨[], [], [], 0, 0, ()⟩) longHardLink).headings.any fun h =>
      h.hardLink && ¬(absolute h.link).length < linkRoom) = true := by decide +kernel
  obtain ⟨h, hh, hlong⟩ := List.any_eq_true.1 hany
  rw [Bool.and_eq_true, decide_eq_true_iff] at hlong
  exact ⟨h, hh, fun hfits => hlong.2 (hfits.target hlong.1).2⟩

end BaxOS.Tuxpac
