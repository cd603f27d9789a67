import BaxOS.Sys.PathCalls

/-!
# Which calls overrun an array

`at_path` spells a path or says it does not fit (`atPath_eq`), and `proc_fd_target` has room in the
arrays of most calls (`procFdTarget_eq`). What is left is an old path for `link` that is used as it
is, a folder for `O_TMPFILE`, and the program's own path for `execve` (`run_fine_iff`).
-/

namespace BaxOS.PathCalls
open Rooms

variable {k : Kernel} {name : Str} {max dirfd fd : ℕ}

/-! ### The paths themselves -/

/-- What a path is spelled as. -/
def spelled (k : Kernel) (dirfd : ℕ) (path : Option Str) (max : ℕ) : Option Str :=
  path.bind fun name =>
    match relativeTo k dirfd name with
    | none => some name
    | some base => if max < base.length + name.length + 1 then none else some (base ++ name)

theorem atPath_eq (k : Kernel) (dirfd : ℕ) (path : Option Str) (max : ℕ) :
    atPath k dirfd path max = .ok (spelled k dirfd path max) := by
  unfold atPath spelled
  cases path with
  | none => rfl
  | some name =>
    simp only [Option.bind_some]
    cases relativeTo k dirfd name with
    | none => rfl
    | some base =>
      simp only
      split_ifs with hlong
      · rfl
      · rw [copy_of_le (show 0 + base.length + 1 ≤ max by omega)]
        change copy max base.length name >>= _ = _
        rw [copy_of_le (show base.length + name.length + 1 ≤ max by omega)]
        rfl

/-- A path that is not used as it is has room. -/
theorem spelled_length {s : Str} (h : spelled k dirfd (some name) max = some s)
    (hrel : relativeTo k dirfd name ≠ none) : s.length + 1 ≤ max := by
  unfold spelled at h
  simp only [Option.bind_some] at h
  cases hr : relativeTo k dirfd name with
  | none => exact absurd hr hrel
  | some base =>
    rw [hr] at h
    simp only at h
    split_ifs at h with hlong
    obtain rfl := Option.some.inj h
    rw [List.length_append]
    omega

/-- The path a descriptor has. -/
def pathOf (k : Kernel) (fd : ℕ) : Option Str :=
  let rooted (name : Str) : Option Str := some (0x2F :: unrooted name)
  match k.handle fd with
  | none => none
  | some .console => rooted (lit "dev/tty1")
  | some (.procdir folder) => rooted
      (if folder = 0 then lit "ctl" else if folder = 5 then lit "proc"
        else if folder = 2 then lit "dev/input" else if folder = 3 then lit "dev/pts"
        else lit "dev")
  | some (.dev name) => name.bind fun name => rooted name.1
  | some (.pipe n) => some (lit "pipe:[" ++ decimal n ++ lit "]")
  | some (.sock n) => some (lit "socket:[" ++ decimal n ++ lit "]")
  | some (.writing name) => rooted name.1
  | some .mem => rooted (lit "memfd:shm (deleted)")
  | some (.folder 0) => rooted []
  | some (.folder (n + 1)) | some (.file (n + 1)) => (k.table n).bind fun name => rooted (untrailed name.1)
  | some (.file 0) | some .other => none

/-- What a path of the caller's own in `/proc` names. -/
def targetOf (k : Kernel) (name : Str) : Option Str :=
  match magic k name with
  | none => none
  | some .exe => if k.exe.1 = [] then none else some (0x2F :: unrooted k.exe.1)
  | some (.fd n) => pathOf k n

theorem length_unrooted (s : Str) : (unrooted s).length ≤ s.length := by
  unfold unrooted
  split_ifs
  · simp
  · exact le_rfl

theorem length_untrailed (s : Str) : (untrailed s).length ≤ s.length := by
  unfold untrailed
  split_ifs
  · simp
  · exact le_rfl

theorem length_decimal {n : ℕ} (h : n < 2 ^ 32) : (decimal n).length ≤ 10 := by
  unfold decimal
  rw [List.length_map, Nat.length_toDigits_le_iff (by decide) (by decide)]
  omega

/-- A path with its slash, in an array of `FS_NAME_LEN + 16`. -/
theorem rooted_eq {s : Str} (hmax : fsNameLen + 16 ≤ max) (hs : s.length ≤ fsNameLen) :
    (do let rest ← copy max 1 (unrooted s); pure (some (0x2F :: rest)) : Copying (Option Str)) =
      .ok (some (0x2F :: unrooted s)) := by
  have := length_unrooted s
  rw [copy_of_le (show 1 + (unrooted s).length + 1 ≤ max by omega)]
  rfl

/-- A pipe's or a socket's. -/
theorem numbered_eq {pre : Str} (hmax : fsNameLen + 16 ≤ max) (hpre : pre.length ≤ 8) (n : Fin (2 ^ 32)) :
    (do let out ← copy max 0 (pre ++ decimal n ++ lit "]"); pure (some out) : Copying (Option Str)) =
      .ok (some (pre ++ decimal n ++ lit "]")) := by
  have hlen := length_decimal n.2
  have hend : (lit "]").length = 1 := rfl
  have hfit : 0 + (pre ++ decimal n ++ lit "]").length + 1 ≤ max := by
    simp only [List.length_append, hend]
    unfold fsNameLen at hmax
    omega
  rw [copy_of_le hfit]
  rfl

/-- **`fd_path` has room** where it looks at all. -/
theorem fdPath_eq (hmax : fsNameLen + 16 ≤ max) (fd : ℕ) : fdPath k fd max = .ok (pathOf k fd) := by
  unfold fdPath pathOf
  cases k.handle fd with
  | none => rfl
  | some h =>
    simp only
    rw [if_neg (by omega)]
    have hname : ∀ name : Name, name.1.length ≤ fsNameLen := fun name => name.2.le
    cases h with
    | console => exact rooted_eq hmax (by decide)
    | procdir folder =>
      apply rooted_eq hmax
      split_ifs <;> decide
    | dev name =>
      cases name with
      | none => rfl
      | some name => exact rooted_eq hmax (hname name)
    | pipe n => exact numbered_eq hmax (by decide) n
    | sock n => exact numbered_eq hmax (by decide) n
    | writing name => exact rooted_eq hmax (hname name)
    | mem => exact rooted_eq hmax (by decide)
    | folder n =>
      cases n with
      | zero => exact rooted_eq hmax (by decide)
      | succ n =>
        simp only
        cases k.table n with
        | none => rfl
        | some name => exact rooted_eq hmax ((length_untrailed name.1).trans (hname name))
    | file n =>
      cases n with
      | zero => rfl
      | succ n =>
        simp only
        cases k.table n with
        | none => rfl
        | some name => exact rooted_eq hmax ((length_untrailed name.1).trans (hname name))
    | other => rfl

/-- **`proc_fd_target` has room** in an array of `FS_NAME_LEN + 16`. -/
theorem procFdTarget_eq (k : Kernel) (name : Str) :
    procFdTarget k name (fsNameLen + 16) = .ok (targetOf k name) := by
  unfold procFdTarget targetOf
  cases magic k name with
  | none => rfl
  | some m =>
    cases m with
    | exe =>
      simp only
      split_ifs
      · rfl
      · exact rooted_eq le_rfl k.exe.2.le
    | fd n => exact fdPath_eq le_rfl n

/-! ### The condition -/

/-- Whether the name `open` settles on fits: a folder that a file with no name is to be made in. -/
def FitsTmpfile (k : Kernel) (name : Str) (flags : ℕ) : Prop :=
  ¬ (hasAll flags (oCreat ||| oExcl) && taken k name flags) →
  ¬ (flags &&& oNofollow ≠ 0 && (k.lstat name).any Entry.link) →
  special k name flags = none → flags &&& oAccmode ≠ 0 → k.ofdFree → hasAll flags oTmpfile →
  k.folderAt name → (scratchName k name).length < fsNameLen

/-- The same of the name it is given, which may be of a descriptor. -/
def FitsOpen (k : Kernel) (name : Str) (flags : ℕ) : Prop :=
  reopened k name = none → FitsTmpfile k ((targetOf k name).getD name) flags

/-- Whether an old path for `link` fits: one that is used as it is. -/
def FitsLink (k : Kernel) (olddir : ℕ) (name : Str) : Prop :=
  relativeTo k olddir name = none → name ≠ [] → targetOf k name = none → name.length < fsNameLen + 16

/-- Whether the program's own path fits, where `execve` is given it. -/
def FitsExecve (k : Kernel) (name : Str) : Prop :=
  name.length < fsNameLen → k.alloc → (magic k name).any Magic.isExe →
    (unrooted k.exe.1).length + 2 ≤ fsNameLen

/-- **Whether a call overruns no array.** -/
def Fits (k : Kernel) : Call → Prop
  | .open (some path) flags => FitsOpen k path flags
  | .openat dirfd path flags => ∀ name ∈ spelled k dirfd path fsNameLen, FitsOpen k name flags
  | .linkat olddir (some path) _ _ => FitsLink k olddir path
  | .link (some path) _ => FitsLink k atFdcwd path
  | .execve (some path) _ => FitsExecve k path
  | _ => True

/-! ### `open` -/

theorem openKept_fine (k : Kernel) (name : Str) (empty : Bool) : Fine (openKept k name empty) := by
  unfold openKept
  split_ifs
  · exact fine_pure _
  · exact fine_pure _
  · exact fine_pure _
  · exact fine_pure _
  · rw [fine_bind_of_ok (copyBytes_of_le (by omega))]
    exact fine_pure _

theorem openWrite_fine_iff (flags : ℕ) : Fine (openWrite k name flags) ↔
    (k.ofdFree → hasAll flags oTmpfile → k.folderAt name → (scratchName k name).length < fsNameLen) := by
  unfold openWrite
  cases k.ofdFree with
  | false => simp
  | true =>
    simp only [Bool.not_true, Bool.false_eq_true, if_false, true_imp_iff]
    by_cases hflags : hasAll flags oTmpfile = true
    · rw [if_pos hflags]
      cases k.folderAt name with
      | false => simp
      | true =>
        simp only [Bool.not_true, Bool.false_eq_true, if_false, true_imp_iff]
        rw [fine_copy_bind_iff, and_iff_left (openKept_fine _ _ _)]
        constructor
        · intro h _
          omega
        · intro h
          have := h hflags
          omega
    · rw [if_neg hflags]
      refine iff_of_true ?_ fun h => absurd h hflags
      cases k.stat name with
      | none =>
        simp only
        split_ifs
        · exact fine_pure _
        · exact openKept_fine _ _ _
      | some file => exact openKept_fine _ _ _

theorem openNamed_fine_iff (flags : ℕ) : Fine (openNamed k name flags) ↔ FitsTmpfile k name flags := by
  unfold openNamed FitsTmpfile
  by_cases hexcl : (hasAll flags (oCreat ||| oExcl) && taken k name flags) = true
  · rw [if_pos hexcl]
    exact iff_of_true (fine_pure _) fun h => absurd hexcl h
  rw [if_neg hexcl]
  by_cases hlink : (flags &&& oNofollow ≠ 0 && (k.lstat name).any Entry.link) = true
  · rw [if_pos hlink]
    exact iff_of_true (fine_pure _) fun _ h => absurd hlink h
  rw [if_neg hlink]
  cases special k name flags with
  | some r => exact iff_of_true (fine_pure _) fun _ _ h => absurd h (by simp)
  | none =>
    simp only
    by_cases hacc : flags &&& oAccmode ≠ 0
    · rw [if_pos hacc, openWrite_fine_iff]
      exact ⟨fun h _ _ _ _ => h, fun h => h hexcl hlink trivial hacc⟩
    · rw [if_neg hacc]
      exact iff_of_true (fine_pure _) fun _ _ _ h => absurd h hacc

theorem openName_fine_iff (flags : ℕ) :
    Fine (openName k (some name) flags) ↔ FitsOpen k name flags := by
  unfold openName FitsOpen
  simp only
  cases reopened k name with
  | some n => exact iff_of_true (fine_pure _) fun h => absurd h (by simp)
  | none =>
    simp only [true_imp_iff]
    rw [fine_bind_of_ok (procFdTarget_eq k name), openNamed_fine_iff]

/-! ### `link` -/

theorem linkCopy_fine (k : Kernel) (source dest : Option Str) : Fine (linkCopy k source dest) := by
  unfold linkCopy
  cases source with
  | none => exact fine_pure _
  | some source =>
    cases dest with
    | none => exact fine_pure _
    | some dest =>
      simp only
      cases k.stat source with
      | none => exact fine_pure _
      | some file =>
        simp only
        split_ifs with _ _ _ _ hlen
        · exact fine_pure _
        · exact fine_pure _
        · exact fine_pure _
        · exact fine_pure _
        · rw [fine_copy_bind_iff, fine_copy_bind_iff]
          exact ⟨by omega, by omega, fine_pure _⟩
        · exact fine_pure _

theorem linkFrom_fine_iff (newdir : ℕ) (newpath : Option Str) : Fine (linkFrom k name newdir newpath) ↔
    (targetOf k name = none → name.length < fsNameLen + 16) := by
  unfold linkFrom
  rw [fine_bind_of_ok (procFdTarget_eq k name)]
  cases targetOf k name with
  | some a =>
    refine iff_of_true ?_ fun h => absurd h (by simp)
    simp only
    rw [fine_bind_of_ok (atPath_eq _ _ _ _)]
    by_cases htmp : ((spelled k newdir newpath fsNameLen).isSome &&
        (leafOf a).any fun leaf => lit "/.tmp" <+: leaf) = true
    · rw [if_pos htmp]
      exact fine_pure _
    · rw [if_neg htmp, fine_bind_of_ok (atPath_eq _ _ _ _)]
      exact linkCopy_fine _ _ _
  | none =>
    simp only [true_imp_iff]
    rw [fine_copy_bind_iff, fine_bind_of_ok (atPath_eq _ _ _ _), and_iff_left (linkCopy_fine _ _ _)]
    omega

/-- An empty path is the descriptor's, whose number has room. -/
theorem linkEmpty_fine (k : Kernel) (olddir newdir : ℕ) (newpath : Option Str) :
    Fine (do
      let fd ← copy 32 0 (lit "/proc/self/fd/" ++ decimal (olddir % 2 ^ 32))
      linkFrom k fd newdir newpath) := by
  have hlen := length_decimal (Nat.mod_lt olddir (show 0 < 2 ^ 32 by decide))
  have hpre : (lit "/proc/self/fd/").length = 14 := by decide
  have hfd : (lit "/proc/self/fd/" ++ decimal (olddir % 2 ^ 32)).length ≤ 24 := by
    rw [List.length_append]
    omega
  rw [fine_copy_bind_iff, linkFrom_fine_iff]
  unfold fsNameLen
  exact ⟨by omega, fun _ => by omega⟩

theorem sysLinkat_fine_iff (olddir newdir : ℕ) (newpath : Option Str) :
    Fine (sysLinkat k olddir (some name) newdir newpath) ↔ FitsLink k olddir name := by
  unfold sysLinkat FitsLink
  rw [fine_bind_of_ok (atPath_eq _ _ _ _)]
  by_cases hrel : relativeTo k olddir name = none
  · -- the path is used as it is
    rw [show spelled k olddir (some name) (fsNameLen + 16) = some name by simp [spelled, hrel]]
    cases name with
    | nil => exact iff_of_true (linkEmpty_fine _ _ _ _) fun _ h => absurd rfl h
    | cons c rest =>
      simp only
      rw [linkFrom_fine_iff]
      exact ⟨fun h _ _ => h, fun h => h hrel (by simp)⟩
  · refine iff_of_true ?_ fun h => absurd h hrel
    cases hs : spelled k olddir (some name) (fsNameLen + 16) with
    | none =>
      simp only
      rw [fine_bind_of_ok (atPath_eq _ _ _ _)]
      exact linkCopy_fine _ _ _
    | some source =>
      have hlen := spelled_length hs hrel
      cases source with
      | nil => exact linkEmpty_fine _ _ _ _
      | cons c rest =>
        simp only
        rw [linkFrom_fine_iff]
        exact fun _ => by omega

theorem sysLinkat_none_fine (k : Kernel) (olddir newdir : ℕ) (newpath : Option Str) :
    Fine (sysLinkat k olddir none newdir newpath) := by
  unfold sysLinkat
  rw [fine_bind_of_ok (atPath_eq _ _ _ _)]
  simp only [spelled, Option.bind_none]
  rw [fine_bind_of_ok (atPath_eq _ _ _ _)]
  exact linkCopy_fine _ _ _

/-! ### `execve` -/

theorem processNamed_fine (path : Str) : Fine (processNamed path) := by
  unfold processNamed traceName
  simp only
  rw [fine_bind_of_ok (copyBytes_of_le (by omega)), copyBytes_of_le (by omega)]
  exact fine_ok _

theorem fillCmdline_fine {n done : ℕ} (h : done ≤ n) (strs : List Str) :
    Fine (fillCmdline n done strs) := by
  induction strs generalizing done with
  | nil => exact fine_pure _
  | cons s strs ih =>
    unfold fillCmdline
    split_ifs
    · exact fine_pure _
    · simp only
      rw [fine_bind_of_ok (copyBytes_of_le (by omega))]
      exact ih (by omega)

theorem processCmdline_fine (k : Kernel) (words : List Str) : Fine (processCmdline k words) := by
  unfold processCmdline
  simp only
  split_ifs with hn
  · exact fine_pure _
  · obtain ⟨a, ha⟩ := fillCmdline_fine (Nat.zero_le _) words
    rw [fine_bind_of_ok ha, copyBytes_of_le (by omega)]
    exact fine_ok _

theorem execLoaded_fine (k : Kernel) (name : Str) (words : List Str) :
    Fine (execLoaded k name words) := by
  unfold execLoaded
  cases k.load name with
  | none => exact fine_pure _
  | some file =>
    obtain ⟨a, ha⟩ := processNamed_fine (words.headD [])
    obtain ⟨b, hb⟩ := processCmdline_fine k words
    have hfile : 0 + file.1.length + 1 ≤ fsNameLen := by
      have := file.2
      omega
    simp only
    rw [fine_bind_of_ok ha, fine_bind_of_ok hb, fine_copy_bind_iff]
    exact ⟨hfile, fine_pure _⟩

theorem execInterp_fine (k : Kernel) (interp : Str) (words : List Str) :
    Fine (execInterp k interp words) := by
  unfold execInterp
  split_ifs with hlong
  · exact fine_pure _
  · rw [fine_copy_bind_iff]
    refine ⟨by omega, ?_⟩
    split_ifs
    · exact fine_pure _
    · exact execLoaded_fine _ _ _

theorem execNamed_fine_iff (args : List Str) :
    Fine (execNamed k name args) ↔ name.length + 1 ≤ fsNameLen := by
  unfold execNamed
  rw [fine_copy_bind_iff, Nat.zero_add]
  refine and_iff_left_of_imp fun hname => ?_
  simp only
  by_cases hbuiltin : k.builtin name = true
  · rw [if_pos hbuiltin]
    exact fine_pure _
  rw [if_neg hbuiltin]
  by_cases hstat : (k.stat name).isNone = true
  · rw [if_pos hstat]
    exact fine_pure _
  rw [if_neg hstat]
  cases k.bang name with
  | none => exact execLoaded_fine _ _ _
  | some x =>
    obtain ⟨interp, extra⟩ := x
    simp only
    rw [fine_copy_bind_iff]
    exact ⟨by omega, execInterp_fine _ _ _⟩

/-- In an array of `FS_NAME_LEN` it is only the program's own path that is copied. -/
theorem procFdTarget_short (k : Kernel) (name : Str) : procFdTarget k name fsNameLen =
    if (magic k name).any Magic.isExe ∧ k.exe.1 ≠ [] then
      (do let rest ← copy fsNameLen 1 (unrooted k.exe.1); pure (some (0x2F :: rest)))
    else .ok none := by
  unfold procFdTarget
  cases magic k name with
  | none => rfl
  | some m =>
    cases m with
    | exe =>
      by_cases hexe : k.exe.1 = []
      · simp [hexe]
        rfl
      · simp [hexe, Magic.isExe]
    | fd n =>
      simp only [Option.any_some, Magic.isExe, Bool.false_eq_true, false_and, if_false]
      unfold fdPath
      cases k.handle n with
      | none => rfl
      | some h =>
        simp only
        rw [if_pos (by omega)]
        rfl

theorem sysExecve_fine_iff (args : List Str) :
    Fine (sysExecve k (some name) args) ↔ FitsExecve k name := by
  unfold sysExecve FitsExecve
  simp only
  by_cases hlong : fsNameLen < name.length + 1
  · rw [if_pos hlong]
    exact iff_of_true (fine_pure _) fun h => by omega
  rw [if_neg hlong]
  cases k.alloc with
  | false => exact iff_of_true (fine_pure _) fun _ h => absurd h (by simp)
  | true =>
    simp only [Bool.not_true, Bool.false_eq_true, if_false]
    rw [fine_copy_bind_iff, and_iff_right (show 0 + name.length + 1 ≤ fsNameLen by omega),
      procFdTarget_short]
    by_cases hexe : (magic k name).any Magic.isExe ∧ k.exe.1 ≠ []
    · rw [if_pos hexe]
      have hbind : (do
          let target ← (do
            let rest ← copy fsNameLen 1 (unrooted k.exe.1)
            pure (some (0x2F :: rest)) : Copying (Option Str))
          execNamed k (target.getD name) args) =
          (copy fsNameLen 1 (unrooted k.exe.1) >>= fun rest => execNamed k (0x2F :: rest) args) := by
        rw [bind_assoc]
        rfl
      rw [hbind, fine_copy_bind_iff, execNamed_fine_iff, List.length_cons]
      constructor
      · rintro ⟨h, -⟩ - - -
        omega
      · intro h
        have := h (by omega) trivial hexe.1
        omega
    · rw [if_neg hexe, fine_bind_of_ok rfl, Option.getD_none, execNamed_fine_iff]
      refine iff_of_true (by omega) fun _ _ h => ?_
      have hnil : k.exe.1 = [] := not_not.1 fun hne => hexe ⟨h, hne⟩
      rw [hnil]
      decide

/-! ### The rest -/

theorem renameFrom_fine {new : Copying (Option Str)} (hnew : Fine new) (old : Option Str) :
    Fine (renameFrom k old new) := by
  obtain ⟨a, ha⟩ := hnew
  unfold renameFrom
  cases old with
  | none => exact fine_pure _
  | some old =>
    simp only
    split_ifs
    · exact fine_pure _
    · rw [fine_bind_of_ok (copyBytes_of_le (by omega)), fine_bind_of_ok ha]
      exact fine_pure _

theorem sysSymlinkat_fine (k : Kernel) (target : Option Str) (dirfd : ℕ) (path : Option Str) :
    Fine (sysSymlinkat k target dirfd path) := by
  unfold sysSymlinkat
  cases target with
  | none => exact fine_pure _
  | some dest =>
    simp only
    split_ifs
    · exact fine_pure _
    · rw [fine_copy_bind_iff, fine_bind_of_ok (atPath_eq _ _ _ _)]
      exact ⟨by omega, fine_pure _⟩

theorem sysMknodat_fine (k : Kernel) (dirfd : ℕ) (path : Option Str) (mode : ℕ) :
    Fine (sysMknodat k dirfd path mode) := by
  unfold sysMknodat
  rw [fine_bind_of_ok (atPath_eq _ _ _ _)]
  cases spelled k dirfd path fsNameLen with
  | none => exact fine_pure _
  | some name =>
    simp only
    split_ifs <;> exact fine_pure _

theorem sysReadlinkat_fine (k : Kernel) (dirfd : ℕ) (path : Option Str) (size : ℕ) :
    Fine (sysReadlinkat k dirfd path size) := by
  unfold sysReadlinkat
  rw [fine_bind_of_ok (atPath_eq _ _ _ _)]
  cases spelled k dirfd path fsNameLen with
  | none => exact fine_pure _
  | some name =>
    simp only
    by_cases hrange : (! k.userRange) = true
    · rw [if_pos hrange]
      exact fine_pure _
    rw [if_neg hrange, fine_bind_of_ok (procFdTarget_eq k name)]
    cases targetOf k name with
    | none => exact fine_pure _
    | some target =>
      simp only
      rw [fine_bind_of_ok (copyBytes_of_le (by omega))]
      exact fine_pure _

theorem statCore_fine (k : Kernel) (dirfd : ℕ) (path : Option Str) (flags : ℕ) (bad : Errno) (own : Str → Bool) :
    Fine (statCore k dirfd path flags bad own) := by
  unfold statCore
  rw [fine_bind_of_ok (atPath_eq _ _ _ _)]
  cases spelled k dirfd path fsNameLen with
  | none => exact fine_pure _
  | some name =>
    simp only
    by_cases hrange : (! k.userRange) = true
    · rw [if_pos hrange]
      exact fine_pure _
    · rw [if_neg hrange, fine_bind_of_ok (procFdTarget_eq k name)]
      exact fine_pure _

theorem sysStatx_fine (k : Kernel) (dirfd : ℕ) (path : Option Str) (flags : ℕ) :
    Fine (sysStatx k dirfd path flags) := by
  obtain ⟨r, hr⟩ : Fine (statxCore k dirfd path flags) := statCore_fine _ _ _ _ _ _
  unfold sysStatx
  rw [fine_bind_of_ok hr]
  cases r with
  | error e => exact fine_pure _
  | ok n =>
    simp only
    by_cases hpath : path = some []
    · rw [if_pos hpath]
      exact fine_pure _
    · rw [if_neg hpath, fine_bind_of_ok (atPath_eq _ _ _ _)]
      exact fine_pure _

theorem sysNewfstatat_fine (k : Kernel) (dirfd : ℕ) (path : Option Str) (flags : ℕ) :
    Fine (sysNewfstatat k dirfd path flags) := by
  obtain ⟨r, hr⟩ : Fine (newfstatatCore k dirfd path flags) := statCore_fine _ _ _ _ _ _
  unfold sysNewfstatat
  rw [fine_bind_of_ok hr, fine_bind_of_ok (atPath_eq _ _ _ _)]
  exact fine_pure _

/-- **Which calls overrun no array.** -/
theorem run_fine_iff (k : Kernel) (c : Call) : Fine (c.run k) ↔ Fits k c := by
  cases c with
  | «open» path flags =>
    cases path with
    | none => exact iff_of_true (fine_pure _) trivial
    | some path => exact openName_fine_iff flags
  | openat dirfd path flags =>
    unfold Call.run Fits sysOpenat
    simp only
    rw [fine_bind_of_ok (atPath_eq _ _ _ _)]
    cases spelled k dirfd path fsNameLen with
    | none => exact iff_of_true (fine_pure _) (by simp)
    | some name =>
      rw [openName_fine_iff]
      simp
  | linkat olddir oldpath newdir newpath =>
    cases oldpath with
    | none => exact iff_of_true (sysLinkat_none_fine _ _ _ _) trivial
    | some old => exact sysLinkat_fine_iff _ _ _
  | link oldpath newpath =>
    cases oldpath with
    | none => exact iff_of_true (sysLinkat_none_fine _ _ _ _) trivial
    | some old => exact sysLinkat_fine_iff _ _ _
  | execve path args =>
    cases path with
    | none => exact iff_of_true (fine_pure _) trivial
    | some path => exact sysExecve_fine_iff args
  | symlinkat target dirfd path => exact iff_of_true (sysSymlinkat_fine _ _ _ _) trivial
  | rename oldpath newpath => exact iff_of_true (renameFrom_fine (fine_pure _) _) trivial
  | renameat olddir oldpath newdir newpath =>
    refine iff_of_true ?_ trivial
    unfold Call.run sysRenameat
    simp only
    rw [fine_bind_of_ok (atPath_eq _ _ _ _)]
    exact renameFrom_fine ⟨_, atPath_eq _ _ _ _⟩ _
  | unlinkat dirfd path =>
    refine iff_of_true ?_ trivial
    unfold Call.run sysUnlinkat
    simp only
    rw [fine_bind_of_ok (atPath_eq _ _ _ _)]
    exact fine_pure _
  | mkdirat dirfd path mode =>
    refine iff_of_true ?_ trivial
    unfold Call.run sysMkdirat
    simp only
    rw [fine_bind_of_ok (atPath_eq _ _ _ _)]
    exact fine_pure _
  | mknodat dirfd path mode => exact iff_of_true (sysMknodat_fine _ _ _ _) trivial
  | statx dirfd path flags => exact iff_of_true (sysStatx_fine _ _ _ _) trivial
  | newfstatat dirfd path flags => exact iff_of_true (sysNewfstatat_fine _ _ _ _) trivial
  | readlinkat dirfd path size => exact iff_of_true (sysReadlinkat_fine _ _ _ _) trivial

/-- A machine with nothing on its disk and nothing open. -/
def bare : Kernel where
  handle _ := none
  table _ := none
  pid := 1
  exe := ⟨[], by decide⟩
  stat _ := none
  lstat _ := none
  folderAt _ := false
  write _ := false
  written _ := false
  rename _ _ := .error .enoent
  symlink _ _ := .error .enoent
  readlink _ _ := .error .enoent
  remove _ := .error .enoent
  mkdir _ _ := .error .enoent
  setMode _ _ := .error .enoent
  memReopen _ := .error .enoent
  opsOpen _ _ := none
  devOpen _ _ := none
  fifoOpen _ _ := none
  openRead _ _ := .error .enoent
  giveHandle := .error .enfile
  ofdFree := true
  tmpfiles := 0
  alloc := true
  canCopy _ := true
  userRange := true
  statOf _ _ := .error .enoent
  statOfHandle _ := .error .enoent
  bang _ := none
  builtin _ := false
  load _ := none
  execAlloc := true

/-- `link` of a path of 136 bytes, which would be answered with `ENOENT`. -/
theorem exists_not_fine : ∃ (k : Kernel) (c : Call), ¬ Fine (c.run k) :=
  ⟨bare, .link (some (0x2F :: List.replicate 135 0x61)) (some [0x2F, 0x62]), by decide +kernel⟩

end BaxOS.PathCalls
