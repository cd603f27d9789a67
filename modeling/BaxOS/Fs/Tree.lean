import BaxOS.Fs.Index
import BaxOS.Lib.Forest

/-!
# The folder tree, as a set of names

What the calls are for, seen from outside: the filesystem is a set of names, and a call puts one
in, takes one out, or moves one. A name is in a folder when the folder's name, which ends in a
slash, comes before it; `upName` is the folder right above. `NameStep` says what each call may do
to the set. It keeps the tree (`NameStep.rooted`) as long as no folder goes with something in it,
and keeps files and folders apart (`NameStep.separate`) as long as no file takes a folder's name.
-/

namespace BaxOS.Fs
open Forest

/-! ### Names of folders -/

/-- A name that is a folder's. -/
abbrev FolderName (n : Name) : Prop := n.getLast? = some slash

/-- The folder a name is in, none for what is at the root. -/
def upName (n : Name) : Option Name := if parentOf n = [] then none else some (parentOf n)

/-- A folder's name that comes before another name is the name of a folder it is in. -/
def Inside (d n : Name) : Prop := FolderName d ∧ d <+: n ∧ d ≠ n

theorem parentOf_cases (n : Name) : parentOf n = [] ∨ FolderName (parentOf n) := by
  unfold parentOf FolderName
  simp only
  generalize (if n.getLast? = some slash then n.dropLast else n) = m
  rw [List.getLast?_reverse]
  cases h : m.reverse.dropWhile (· ≠ slash) with
  | nil => exact Or.inl rfl
  | cons c rest =>
    right
    have hc := List.head?_dropWhile_not (fun x => decide (x ≠ slash)) m.reverse
    rw [h] at hc
    simpa using hc

theorem dropToSlash_le (l : Name) : (l.reverse.dropWhile (· ≠ slash)).reverse <+: l := by
  rw [← List.reverse_suffix, List.reverse_reverse]
  exact List.dropWhile_suffix _

theorem parentOf_le (n : Name) : parentOf n <+: n := by
  unfold parentOf
  simp only
  split_ifs
  · exact (dropToSlash_le _).trans (List.dropLast_prefix n)
  · exact dropToSlash_le n

theorem parentOf_ne {n : Name} (hn : n ≠ []) : parentOf n ≠ n := by
  intro h
  by_cases hslash : FolderName n
  · have hle : (parentOf n).length ≤ n.dropLast.length := by
      unfold parentOf
      simp only
      rw [if_pos hslash]
      exact (dropToSlash_le _).length_le
    rw [h, List.length_dropLast] at hle
    have := List.length_pos_of_ne_nil hn
    omega
  · rcases parentOf_cases n with h0 | h0
    · exact hn (h ▸ h0)
    · exact hslash (h ▸ h0)

theorem parentOf_length_lt {n : Name} (hn : n ≠ []) : (parentOf n).length < n.length := by
  refine lt_of_le_of_ne (parentOf_le n).length_le fun h => parentOf_ne hn ?_
  exact (parentOf_le n).eq_of_length h

/-- The folder cut back to is the last one before the name. -/
theorem dropToSlash_ge {d l : Name} (hd : FolderName d) (h : d <+: l) :
    d <+: (l.reverse.dropWhile (· ≠ slash)).reverse := by
  obtain ⟨t, rfl⟩ := h
  obtain ⟨d, rfl⟩ : ∃ d', d = d' ++ [slash] := List.getLast?_eq_some_iff.1 hd
  rw [List.reverse_append, List.reverse_append, List.reverse_singleton, List.singleton_append,
    List.dropWhile_append]
  split_ifs
  · rw [List.dropWhile_cons_of_neg (by simp), List.reverse_cons, List.reverse_reverse]
  · rw [List.reverse_append, List.reverse_cons, List.reverse_reverse]
    exact List.prefix_append _ _

theorem Inside.le_parentOf {d n : Name} (h : Inside d n) : d <+: parentOf n := by
  obtain ⟨hd, hp, hne⟩ := h
  unfold parentOf
  simp only
  split_ifs with hslash
  · refine dropToSlash_ge hd ?_
    obtain ⟨n, rfl⟩ : ∃ n', n = n' ++ [slash] := List.getLast?_eq_some_iff.1 hslash
    rw [List.dropLast_concat]
    rcases List.prefix_concat_iff.1 hp with heq | hp
    · exact absurd heq hne
    · exact hp
  · exact dropToSlash_ge hd hp

/-- What is inside a folder is below it. -/
theorem Inside.below {d n : Name} (h : Inside d n) : Below upName d n := by
  induction hk : n.length using Nat.strong_induction_on generalizing n with
  | _ k ih =>
    have hp := h.le_parentOf
    have hd0 : d ≠ [] := by
      rintro rfl
      cases h.1
    have hn0 : n ≠ [] := by
      rintro rfl
      exact hd0 (List.prefix_nil.1 h.2.1)
    have hp0 : parentOf n ≠ [] := fun h0 => hd0 (List.prefix_nil.1 (h0 ▸ hp))
    have hup : upName n = some (parentOf n) := if_neg hp0
    by_cases heq : d = parentOf n
    · exact Below.child (heq ▸ hup)
    · exact Below.deeper hup (ih _ (hk ▸ parentOf_length_lt hn0) ⟨h.1, hp, heq⟩ rfl)

/-! ### Steps -/

/-- The folder a name is in is there, or the name is at the root. -/
def Housed (S : Set Name) (n : Name) : Prop := ∀ p, upName n = some p → p ∈ S

/-- What a call is asked to do to the set of names, once its paths are whole. -/
inductive NameOp
  | file (n : Name)
  | link (n : Name)
  | folder (n : Name)
  | unlink (n : Name)
  | rmdir (n : Name)
  | move (was name : Name)

/-- What a call may do to the set of names. -/
inductive NameStep (S : Set Name) : NameOp → Set Name → Prop
  | file (n : Name) (hslash : ¬ FolderName n) (hparent : Housed S n) (hnew : n ∉ S) :
      NameStep S (.file n) (insert n S)
  | link (n : Name) (hslash : ¬ FolderName n) (hparent : Housed S n) (hnew : n ∉ S)
      (hdir : n ++ [slash] ∉ S) : NameStep S (.link n) (insert n S)
  | folder (n : Name) (hslash : FolderName n) (hparent : Housed S n) (hnew : n ∉ S)
      (hfile : n.dropLast ∉ S) : NameStep S (.folder n) (insert n S)
  | unlink (n : Name) (hn : n ∈ S) : NameStep S (.unlink n) (S \ {n})
  | rmdir (n : Name) (hn : n ∈ S) (hempty : ∀ m ∈ S, upName m ≠ some n) :
      NameStep S (.rmdir n) (S \ {n})
  | move (was name : Name) (hwas : was ∈ S) (hslash : ¬ FolderName was)
      (hslash' : ¬ FolderName name) (hne : was ≠ name) (hparent : Housed S name) :
      NameStep S (.move was name) (insert name (S \ {was}))

/-! ### The tree stays a tree -/

/-- A folder that goes is empty, also where no one looks. -/
def Emptied (S : Set Name) : NameOp → Prop
  | .unlink n => FolderName n → ∀ m ∈ S, ¬ Inside n m
  | _ => True

/-- Whoever has a name below it is a folder. -/
theorem upName_folder {n p : Name} (h : upName n = some p) : FolderName p := by
  unfold upName at h
  split_ifs at h with h0
  cases h
  exact (parentOf_cases n).resolve_left h0

theorem upName_inside {n p : Name} (hn : n ≠ []) (h : upName n = some p) : Inside p n := by
  have hp := upName_folder h
  unfold upName at h
  split_ifs at h with h0
  cases h
  exact ⟨hp, parentOf_le n, parentOf_ne hn⟩

/-- **What a call does keeps the tree.** -/
theorem NameStep.rooted {S S' : Set Name} {op : NameOp} (h : NameStep S op S')
    (hS : Rooted upName S) (hne : [] ∉ S) (hop : Emptied S op) : Rooted upName S' := by
  cases h with
  | file n hslash hparent hnew => exact hS.insert hparent
  | link n hslash hparent hnew hdir => exact hS.insert hparent
  | folder n hslash hparent hnew hfile => exact hS.insert hparent
  | unlink n hn =>
    refine hS.erase fun m hm hup => hop (upName_folder hup) m hm (upName_inside ?_ hup)
    rintro rfl
    exact hne hm
  | rmdir n hn hempty => exact hS.erase hempty
  | move was name hwas hslash hslash' hneq hparent =>
    have hleaf : ∀ m, upName m ≠ some was := fun m hup => hslash (upName_folder hup)
    refine (hS.erase fun m _ => hleaf m).insert fun p hp => ⟨hparent p hp, ?_⟩
    rintro rfl
    exact hleaf name hp

/-! ### A name is a file's or a folder's -/

/-- No file or link has the name that, with a slash, is a folder's. -/
def Separate (S : Set Name) : Prop := ∀ d ∈ S, ¬ FolderName d → d ++ [slash] ∉ S

/-- No file is to have the name of a folder there is. -/
def Clear (S : Set Name) : NameOp → Prop
  | .file n => n ∉ S → ¬ FolderName n → n ++ [slash] ∉ S
  | .move was name => was ≠ name → ¬ FolderName name → name ++ [slash] ∉ S
  | _ => True

namespace Separate

variable {S T : Set Name} {n : Name}

theorem mono (h : Separate S) (hT : T ⊆ S) : Separate T :=
  fun d hd hslash hds => h d (hT hd) hslash (hT hds)

theorem insert_file (h : Separate S) (hslash : ¬ FolderName n) (hn : n ++ [slash] ∉ S) :
    Separate (insert n S) := by
  rintro d (rfl | hd) hd' (heq | hds)
  · simp at heq
  · exact hn hds
  · exact hslash (heq ▸ by simp [FolderName])
  · exact h d hd hd' hds

theorem insert_folder (h : Separate S) (hslash : FolderName n) (hn : n.dropLast ∉ S) :
    Separate (insert n S) := by
  rintro d (rfl | hd) hd' (heq | hds)
  · exact hd' hslash
  · exact hd' hslash
  · refine hn ?_
    rw [← heq, List.dropLast_concat]
    exact hd
  · exact h d hd hd' hds

end Separate

/-- **What a call does keeps files and folders apart.** -/
theorem NameStep.separate {S S' : Set Name} {op : NameOp} (h : NameStep S op S')
    (hS : Separate S) (hop : Clear S op) : Separate S' := by
  cases h with
  | file n hslash hparent hnew => exact hS.insert_file hslash (hop hnew hslash)
  | link n hslash hparent hnew hdir => exact hS.insert_file hslash hdir
  | folder n hslash hparent hnew hfile => exact hS.insert_folder hslash hfile
  | unlink n hn => exact hS.mono Set.sdiff_subset
  | rmdir n hn hempty => exact hS.mono Set.sdiff_subset
  | move was name hwas hslash hslash' hneq hparent =>
    exact (hS.mono Set.sdiff_subset).insert_file hslash' fun h => hop hneq hslash' h.1

end BaxOS.Fs
