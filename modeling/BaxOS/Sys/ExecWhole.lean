import BaxOS.Sys.ExecLists
import BaxOS.Sys.ExecStack

/-!
# `execve` hands over what fits

A program that starts finds on its stack what `copy_list` and `shebang` took of the lists
(`execve_handedOver`). That is the lists given, whole, where they fit in `line` and in their places
(`execve_handsOver_iff`); where they do not, what is over is dropped and the program starts all the
same.
-/

namespace BaxOS.Exec
open ByteStore

variable {w : World} {name : List UInt8} {args env : List (List UInt8)} {mem : Store} {rsp : ℕ}
variable {f : File} {given interp : List UInt8} {extra : Option (List UInt8)} {n : ℕ} {h h' : Held}
  {kept : List (List UInt8)}

/-! ### What is due and what is handed over -/

/-- What the `#!` line of the file of that name says, if it has one. -/
def World.bangOf (w : World) (name : List UInt8) : Option (List UInt8 × Option (List UInt8)) :=
  (found w name).bind fun f => bang f.content

/-- The same as `execve` reads it. -/
def World.shebangOf (w : World) (name : List UInt8) : Option (List UInt8 × Option (List UInt8)) :=
  (found w name).bind fun f => shebang f (fsNameLen * 2)

/-- The list for a script: the interpreter, its argument if there is one, the script's path, and
`rest`. -/
def scriptList (name interp : List UInt8) (extra : Option (List UInt8)) (rest : List (List UInt8)) :
    List (List UInt8) := interp :: (extra.toList ++ [name] ++ rest)

/-- The list that a program is due. -/
def World.due (w : World) (name : List UInt8) (args : List (List UInt8)) : List (List UInt8) :=
  match w.bangOf name with
  | none => args
  | some (interp, extra) => scriptList name interp extra (args.drop 1)

/-- What is copied of the arguments. -/
def keptArgs (args : List (List UInt8)) : List (List UInt8) := fitting (execArgs - 1) execLine args

/-- What is copied of the environment after them. -/
def keptEnv (args env : List (List UInt8)) : List (List UInt8) :=
  fitting (execEnv - 1) (execLine - (packed (keptArgs args)).length) env

/-- The arguments copied, or the name where there are none. -/
def orName (name : List UInt8) (kept : List (List UInt8)) : List (List UInt8) :=
  if kept = [] then [name] else kept

/-- The list a program is handed. -/
def World.handed (w : World) (name : List UInt8) (args : List (List UInt8)) : List (List UInt8) :=
  match w.shebangOf name with
  | none => orName name (keptArgs args)
  | some (interp, extra) => scriptList name interp extra
      (((orName name (keptArgs args)).drop 1).take (execArgs - 3 - extra.toList.length))

/-- Whether the arguments that are to be handed over have their places and fit in `line`. -/
def ArgsFit (args : List (List UInt8)) : Option (List UInt8 × Option (List UInt8)) → Prop
  | none => args ≠ [] ∧ args.length < execArgs ∧ (packed args).length ≤ execLine
  | some (_, extra) => args.length ≤ 1 ∨
      args.length + 1 + extra.toList.length < execArgs ∧ (packed args).length ≤ execLine

/-- The first line of a text. -/
def firstLine (text : List UInt8) : List UInt8 := text.takeWhile fun c => ! isEnd c && c ≠ 0

/-- The first `n` bytes of a file tell what its `#!` line says, if it has one: the file can be read, and its
line ends there, but for blanks after a program without an argument. -/
def TellsIn (f : File) (n : ℕ) : Prop :=
  match bang f.content with
  | none => True
  | some (_, extra) =>
    f.readable = true ∧ ∀ c ∈ (firstLine f.content).drop n, extra = none ∧ isBlank c = true

/-- **The lists fit**: a `#!` line ends in the bytes that are read of it, the arguments fit, and so do the
environment's strings in the places they have and what the arguments leave of `line`. -/
structure Fits (w : World) (name : List UInt8) (args env : List (List UInt8)) : Prop where
  bang : ∀ f, found w name = some f → TellsIn f (fsNameLen * 2 - 1)
  argsFit : ArgsFit args (w.bangOf name)
  envFit : env.length < execEnv ∧ (packed env).length +
    (if (packed args).length ≤ execLine then (packed args).length else 0) ≤ execLine

/-! ### The script's list -/

theorem shebang_some {max : ℕ}
    (h : shebang f max = some (interp, extra)) : bang (f.content.take (max - 1)) = some (interp, extra) := by
  unfold shebang at h
  split_ifs at h
  exact h

/-- A `#!` line read in part says what it says where no more is said past that part. -/
theorem bang_take_eq_iff {text : List UInt8}
    (h : bang text = some (interp, extra)) : bang (text.take (n + 2)) = bang text ↔
      ∀ c ∈ (firstLine text).drop (n + 2), extra = none ∧ isBlank c = true := by
  obtain ⟨l, hl, hi, rfl, rfl⟩ := bang_eq_some_iff.1 h
  have hfirst : firstLine text = 0x23 :: 0x21 :: l.takeWhile (! isEnd ·) := by
    have hboth := List.takeWhile_takeWhile (fun c => ! isEnd c) (· ≠ 0) text
    rw [hl, List.takeWhile_cons_of_pos rfl, List.takeWhile_cons_of_pos rfl] at hboth
    unfold firstLine
    simpa using hboth.symm
  have hcut : (text.take (n + 2)).takeWhile (· ≠ 0) = 0x23 :: 0x21 :: l.take n := by
    rw [← List.take_takeWhile, hl]
    rfl
  have hnone : (if extraOf l = [] then none else some (extraOf l)) = none ↔ extraOf l = [] := by
    simp
  rw [hfirst, List.drop_succ_cons, List.drop_succ_cons, hnone, ← said_take_iff hi, h, bang_eq_some_iff]
  constructor
  · rintro ⟨l', hl', -, hinterp, hextra⟩
    obtain rfl : l.take n = l' := by
      rw [hcut] at hl'
      simpa using hl'
    refine ⟨hinterp.symm, ?_⟩
    split_ifs at hextra with h1 h2 h2
    · rw [h1, h2]
    · exact (Option.some.inj hextra).symm
  · rintro ⟨hinterp, hextra⟩
    exact ⟨l.take n, hcut, hi, hinterp.symm, by rw [hextra]⟩

/-- **What `execve` reads of a `#!` line is what it says** exactly where the file can be read and the line
ends in what is read of it. -/
theorem shebang_eq_iff : shebang f (fsNameLen * 2) = bang f.content ↔ TellsIn f (fsNameLen * 2 - 1) := by
  unfold TellsIn
  cases hb : bang f.content with
  | none =>
    refine iff_of_true ?_ trivial
    cases hs : shebang f (fsNameLen * 2) with
    | none => rfl
    | some x =>
      obtain ⟨_, _, hsome, -⟩ := bang_take (shebang_some hs)
      rw [hb] at hsome
      cases hsome
  | some x =>
    obtain ⟨interp, extra⟩ := x
    simp only
    have hlong : 3 ≤ f.content.length := by
      obtain ⟨l, hl, hi, rfl, -⟩ := bang_eq_some_iff.1 hb
      have hle := (List.takeWhile_sublist (l := f.content) (· ≠ 0)).length_le
      have hpos := (List.length_pos_of_ne_nil hi).trans_le (interpOf_sublist l).length_le
      rw [hl] at hle
      simp only [List.length_cons] at hle
      omega
    have hsaid := bang_take_eq_iff (n := fsNameLen * 2 - 3) hb
    rw [show fsNameLen * 2 - 3 + 2 = fsNameLen * 2 - 1 from rfl] at hsaid
    unfold shebang
    rw [← hsaid, hb]
    cases hr : f.readable with
    | false => simp
    | true => simp [Nat.not_lt.2 hlong]

theorem length_orName_drop (name : List UInt8) (args : List (List UInt8)) :
    ((orName name (keptArgs args)).drop 1).length ≤ (args.drop 1).length := by
  have := (fitting_starts (execArgs - 1) execLine args).length_le
  unfold orName keptArgs
  rw [List.length_drop, List.length_drop]
  split_ifs
  · simp
  · omega

/-- The list of a script is whole where its parts are. -/
theorem scriptList_inj {interp' : List UInt8} {extra' : Option (List UInt8)}
    {rest rest' : List (List UInt8)} (hx : extra' = none → extra = none)
    (hle : rest.length ≤ rest'.length) :
    scriptList name interp extra rest = scriptList name interp' extra' rest' ↔
      (some (interp, extra) = some (interp', extra')) ∧ rest = rest' := by
  unfold scriptList
  constructor
  · intro h
    obtain ⟨rfl, h⟩ := List.cons.inj h
    cases extra' with
    | none =>
      obtain rfl := hx rfl
      simpa using h
    | some x' =>
      cases extra with
      | none =>
        -- an argument that was not read would leave the list too short
        have := congrArg List.length h
        simp at this
        omega
      | some x =>
        simp only [Option.toList_some, List.cons_append, List.nil_append, List.cons.injEq, true_and] at h
        exact ⟨by rw [h.1], h.2⟩
  · rintro ⟨h, rfl⟩
    obtain ⟨rfl, rfl⟩ := Prod.mk.inj (Option.some.inj h)
    rfl

theorem keptArgs_eq_iff : keptArgs args = args ↔
    args.length < execArgs ∧ (packed args).length ≤ execLine := by
  unfold keptArgs
  rw [fitting_eq_iff]
  simp only [execArgs]
  omega

/-- An argument that was not copied is not the name's. -/
theorem orName_eq_iff (hn : name.length + 1 ≤ execLine) : orName name (keptArgs args) = args ↔
    args ≠ [] ∧ keptArgs args = args := by
  unfold orName
  split_ifs with hk
  · constructor
    · rintro rfl
      unfold keptArgs at hk
      rw [fitting_eq_iff.2 (by simp [packed, execArgs, execLine] at hn ⊢; omega)] at hk
      exact absurd hk (by simp)
    · rintro ⟨hne, h⟩
      exact absurd (h.symm.trans hk) hne
  · constructor
    · intro h
      exact ⟨fun hnil => hk (h.trans hnil), h⟩
    · exact And.right

/-- The arguments from the second on are handed over whole where there are none, or all fit. -/
theorem drop_eq_iff {m : ℕ} (hm : m + 1 < execArgs) :
    ((orName name (keptArgs args)).drop 1).take m = args.drop 1 ↔
      args.length ≤ 1 ∨ args.length ≤ m + 1 ∧ (packed args).length ≤ execLine := by
  have hpre := fitting_starts (execArgs - 1) execLine args
  rw [show fitting (execArgs - 1) execLine args = keptArgs args from rfl] at hpre
  constructor
  · intro h
    by_cases h1 : args.length ≤ 1
    · exact Or.inl h1
    · right
      have hlen := congrArg List.length h
      have hle := hpre.length_le
      unfold orName at hlen
      rw [List.length_take, List.length_drop, List.length_drop] at hlen
      split_ifs at hlen with hk
      · simp at hlen
        omega
      · have heq : keptArgs args = args := hpre.eq_of_length (by omega)
        exact ⟨by rw [heq] at hlen; omega, (keptArgs_eq_iff.1 heq).2⟩
  · rintro (h1 | ⟨hl, hs⟩)
    · have hle := length_orName_drop name args
      rw [List.drop_eq_nil_of_le h1] at hle ⊢
      rw [List.length_eq_zero_iff.1 (Nat.le_zero.1 hle), List.take_nil]
    · have heq : keptArgs args = args := keptArgs_eq_iff.2 ⟨by omega, hs⟩
      rw [heq]
      unfold orName
      split_ifs with hk
      · rw [hk]
        simp
      · exact List.take_of_length_le (by simp; omega)

theorem bang_of_shebang
    (h : w.shebangOf name = some (interp, extra)) : ∃ interp' extra',
      w.bangOf name = some (interp', extra') ∧ (extra' = none → extra = none) := by
  unfold World.shebangOf at h
  unfold World.bangOf
  cases hf : found w name with
  | none =>
    rw [hf] at h
    exact absurd h (by simp)
  | some f =>
    rw [hf] at h
    exact bang_take (shebang_some h)

/-- What is read of the `#!` line of the file of that name is what it says. -/
theorem shebangOf_eq_iff : w.shebangOf name = w.bangOf name ↔
    ∀ f, found w name = some f → TellsIn f (fsNameLen * 2 - 1) := by
  unfold World.shebangOf World.bangOf
  cases hf : found w name with
  | none => simp
  | some f => simpa using shebang_eq_iff

/-- **What is handed over is what is due** where it fits. -/
theorem handed_eq_due_iff (hn : name.length + 1 ≤ execLine) :
    w.handed name args = w.due name args ↔
      w.shebangOf name = w.bangOf name ∧ ArgsFit args (w.bangOf name) := by
  unfold World.handed World.due
  cases hs : w.shebangOf name with
  | none =>
    cases hb : w.bangOf name with
    | none =>
      simp only [true_and, ArgsFit]
      rw [orName_eq_iff hn, keptArgs_eq_iff]
    | some x =>
      -- a line that was not read: the list is too short for a script's
      obtain ⟨interp, extra⟩ := x
      simp only [reduceCtorEq, false_and, iff_false]
      intro h
      have hlen := congrArg List.length h
      have hle := length_orName_drop name args
      simp [scriptList] at hlen hle
      omega
  | some x =>
    obtain ⟨interp, extra⟩ := x
    obtain ⟨interp', extra', hb, hx⟩ := bang_of_shebang hs
    rw [hb]
    simp only [ArgsFit]
    have hle := length_orName_drop name args
    have hextra : extra.toList.length ≤ 1 := by cases extra <;> simp
    rw [scriptList_inj hx ((List.length_take_le' _ _).trans hle)]
    rw [drop_eq_iff (by unfold execArgs; omega)]
    constructor
    · rintro ⟨heq, h⟩
      obtain ⟨rfl, rfl⟩ := Prod.mk.inj (Option.some.inj heq)
      refine ⟨rfl, h.imp_right fun h => ⟨?_, h.2⟩⟩
      have := h.1
      unfold execArgs at *
      omega
    · rintro ⟨heq, h⟩
      obtain ⟨rfl, rfl⟩ := Prod.mk.inj (Option.some.inj heq)
      refine ⟨rfl, h.imp_right fun h => ⟨?_, h.2⟩⟩
      have := h.1
      unfold execArgs at *
      omega

/-- What the arguments leave of `line`. -/
theorem packed_keptArgs {bang : Option (List UInt8 × Option (List UInt8))} (h : ArgsFit args bang) :
    (packed (keptArgs args)).length =
      if (packed args).length ≤ execLine then (packed args).length else 0 := by
  have hone : args.length ≤ 1 ∨ keptArgs args = args := by
    cases bang with
    | none => exact Or.inr (keptArgs_eq_iff.2 h.2)
    | some x => exact h.imp_right fun h => keptArgs_eq_iff.2 ⟨by omega, h.2⟩
  rcases hone with h1 | heq
  · cases args with
    | nil => simp [keptArgs]
    | cons a as =>
      obtain rfl : as = [] := List.length_eq_zero_iff.1 (by simpa using h1)
      by_cases hfit : (packed [a]).length ≤ execLine
      · rw [if_pos hfit, keptArgs_eq_iff.2 ⟨by simp [execArgs], hfit⟩]
      · have hlen : (packed [a]).length = a.length + 1 := by simp [packed]
        rw [if_neg hfit]
        unfold keptArgs
        rw [show execArgs - 1 = 62 + 1 from rfl, fitting_cons, if_neg (by omega)]
        rfl
  · rw [heq, if_pos (keptArgs_eq_iff.1 heq).2]

theorem keptEnv_eq_iff {bang : Option (List UInt8 × Option (List UInt8))} (h : ArgsFit args bang) :
    keptEnv args env = env ↔ env.length < execEnv ∧ (packed env).length +
      (if (packed args).length ≤ execLine then (packed args).length else 0) ≤ execLine := by
  unfold keptEnv
  rw [fitting_eq_iff, packed_keptArgs h]
  unfold execEnv
  split_ifs <;> omega

/-! ### The call -/

/-- What the copies are: the pointers to them, and the strings they are to. -/
structure HeldAs (h : Held) (name : List UInt8) (kept env : List (List UInt8)) : Prop where
  name_eq : h.name = name
  lines : ∃ l : List ℕ, h.words = if l = [] then [.name] else l.map .line
  envLines : ∃ l : List ℕ, h.env = l.map .line
  words : h.words.map h.text = orName name kept
  env : h.env.map h.text = env

theorem held_spec {argv envp : ℕ} (ha : Lists w.space w.mem argv args)
    (he : Lists w.space w.mem envp env) :
    HeldAs (held w given argv envp) (w.named given) (keptArgs args) (keptEnv args env) := by
  have hroom : execLine ≤ 4096 := le_rfl
  have h1 := copyList_spec (fun _ => 0) execArgs ha hroom (Nat.zero_le _)
  have hlen := (fitting_length (execArgs - 1) (execLine - 0) args).2
  have hle : (copyList w.space w.mem argv (fun _ => 0) execLine 0 execArgs).2.1 ≤ execLine := by
    rw [h1.used_eq]
    omega
  have h2 := copyList_spec (copyList w.space w.mem argv (fun _ => 0) execLine 0 execArgs).1 execEnv he
    hroom hle
  unfold held
  simp only
  generalize copyList w.space w.mem argv (fun _ => 0) execLine 0 execArgs = r1 at *
  generalize copyList w.space w.mem envp r1.1 execLine r1.2.1 execEnv = r2 at *
  have hused : r1.2.1 = (packed (keptArgs args)).length := by rw [h1.used_eq, Nat.zero_add]; rfl
  have hkept : r1.2.2.map (fun a => cstr r2.1 a (execLine - a)) = keptArgs args :=
    h1.texts (fun x hx => ha.plain x ((fitting_starts _ _ _).subset hx)) hle
      fun hx => (h2.before hx).symm
  refine ⟨rfl, ⟨r1.2.2, rfl⟩, ⟨r2.2.2, rfl⟩, ?_, ?_⟩
  · have hnil : r1.2.2 = [] ↔ keptArgs args = [] := by
      rw [← hkept, List.map_eq_nil_iff]
    unfold orName
    by_cases hn : r1.2.2 = []
    · rw [if_pos hn, if_pos (hnil.1 hn)]
      rfl
    · rw [if_neg hn, if_neg fun h => hn (hnil.2 h), ← hkept, List.map_map]
      rfl
  · rw [List.map_map]
    have hroom : execLine - r1.2.1 = execLine - (packed (keptArgs args)).length := by rw [hused]
    rw [hroom] at h2
    have hle2 : r2.2.1 ≤ execLine := by
      have := (fitting_length (execEnv - 1) (execLine - (packed (keptArgs args)).length) env).2
      rw [h2.used_eq]
      omega
    exact h2.texts (fun x hx => he.plain x ((fitting_starts _ _ _).subset hx)) hle2
      fun _ => Agree.rfl'

/-- Pointers past the first are into `line`, which the `#!` line leaves as it is. -/
theorem HeldAs.map_drop (hh : HeldAs h name kept env)
    (hline : h'.line = h.line) (m : ℕ) :
    ((h.words.drop 1).take m).map h'.text = ((orName name kept).drop 1).take m := by
  rw [← hh.words, ← List.map_drop, ← List.map_take]
  apply List.map_congr_left
  intro r hr
  obtain ⟨l, hl⟩ := hh.lines
  rw [hl] at hr
  have hr' := List.mem_of_mem_take hr
  split_ifs at hr'
  · simp at hr'
  · obtain ⟨a, -, rfl⟩ := List.mem_map.1 (List.mem_of_mem_drop hr')
    simp only [Held.text, hline]

/-- The strings of a script's list. -/
theorem HeldAs.map_script (hh : HeldAs h name kept env)
    (hline : h'.line = h.line) (hscript : h'.script = name) (interp : List UInt8)
    (extra : Option (List UInt8)) {m : ℕ} (hm : m = n) :
    (Ref.shebang interp :: (extra.toList.map Ref.shebang ++ [Ref.script]) ++
      (h.words.drop 1).take m).map h'.text =
    scriptList name interp extra (((orName name kept).drop 1).take n) := by
  have hlead : (extra.toList.map Ref.shebang).map h'.text = extra.toList := by
    cases extra <;> rfl
  rw [List.map_append, List.map_cons, List.map_append, hlead, hh.map_drop hline m, List.map_singleton,
    hm]
  simp only [Held.text, hscript, scriptList, List.cons_append, List.append_assoc, List.nil_append]

/-- The environment's are too. -/
theorem HeldAs.map_env (hh : HeldAs h name kept env)
    (hline : h'.line = h.line) : h.env.map h'.text = env := by
  rw [← hh.env]
  obtain ⟨l, hl⟩ := hh.envLines
  rw [hl, List.map_map, List.map_map]
  apply List.map_congr_left
  intro a _
  simp only [Function.comp, Held.text, hline]

theorem become_handedOver {strs : List (List UInt8)}
    (hs : become w h f = .started mem rsp) (hw : h.words.map h.text = strs)
    (he : h.env.map h.text = env) (hl : strs.length ≤ execArgs) (hl' : env.length ≤ execEnv)
    (hsize : (packed (strs ++ env)).length ≤ 0x10000) : HandedOver w.space.top mem rsp strs env := by
  unfold become at hs
  rw [hw, he] at hs
  split_ifs at hs
  cases hload : w.load f with
  | none =>
    rw [hload] at hs
    exact absurd hs (by simp)
  | some l =>
    rw [hload] at hs
    simp only at hs
    cases hb : buildStack w.space l w.stackAlloc w.random strs env with
    | none =>
      rw [hb] at hs
      exact absurd hs (by simp)
    | some x =>
      rw [hb] at hs
      obtain ⟨rfl, rfl⟩ := Outcome.started.inj hs
      exact buildStack_handedOver hl hl' hsize hb

/-! ### Sizes -/

theorem packed_orName (hn : name.length ≤ fsNameLen) (args : List (List UInt8)) :
    (orName name (keptArgs args)).length < execArgs ∧
      (packed (orName name (keptArgs args))).length ≤ execLine := by
  have h := fitting_length (execArgs - 1) execLine args
  unfold orName keptArgs
  unfold execArgs execLine fsNameLen at *
  split_ifs
  · simp [packed]
    omega
  · omega

theorem keptEnv_length (args env : List (List UInt8)) :
    (keptEnv args env).length < execEnv ∧ (packed (keptEnv args env)).length ≤ execLine := by
  have h := fitting_length (execEnv - 1) (execLine - (packed (keptArgs args)).length) env
  unfold keptEnv
  unfold execEnv execLine at *
  omega

/-- The argument of a `#!` line is in what was read of it. -/
theorem bang_extra_length {text : List UInt8}
    (h : bang (text.take n) = some (interp, extra)) : ∀ x ∈ extra, x.length ≤ n := by
  obtain ⟨l, hl, _, _, rfl⟩ := bang_eq_some_iff.1 h
  intro x hx
  split_ifs at hx
  · exact absurd hx (by simp)
  · obtain rfl := Option.some.inj hx
    have h1 := (extraOf_sublist l).length_le
    have h2 := congrArg List.length hl
    have h3 := (List.takeWhile_sublist (l := text.take n) (· ≠ 0)).length_le
    have h4 := List.length_take_le n text
    simp only [List.length_cons] at h2
    omega

theorem packed_scriptList
    (hn : name.length ≤ fsNameLen) (hi : interp.length ≤ fsNameLen)
    (hx : ∀ x ∈ extra, x.length ≤ 2 * fsNameLen) (rest : List (List UInt8)) :
    (packed (scriptList name interp extra rest)).length ≤ 1000 + (packed rest).length := by
  unfold fsNameLen at *
  unfold scriptList
  cases extra with
  | none =>
    simp [packed]
    omega
  | some x =>
    have := hx x rfl
    simp [packed]
    omega

theorem start_handedOver (hh : HeldAs h name (keptArgs args) (keptEnv args env))
    (hn : name.length ≤ fsNameLen) (hs : start w h = .started mem rsp) :
    HandedOver w.space.top mem rsp (w.handed name args) (keptEnv args env) := by
  have hname := hh.name_eq
  have hargs := packed_orName hn args
  have henv := keptEnv_length args env
  unfold start at hs
  rw [hname] at hs
  split_ifs at hs
  unfold World.handed World.shebangOf
  cases hf : found w name with
  | none =>
    rw [hf] at hs
    exact absurd hs (by simp)
  | some f =>
    rw [hf] at hs
    simp only [Option.bind_some] at hs ⊢
    cases hb : shebang f (fsNameLen * 2) with
    | none =>
      rw [hb] at hs
      simp only at hs ⊢
      refine become_handedOver hs hh.words hh.env hargs.1.le henv.1.le ?_
      rw [packed_append, List.length_append]
      unfold execLine at *
      omega
    | some x =>
      obtain ⟨interp, extra⟩ := x
      rw [hb] at hs
      simp only at hs ⊢
      split_ifs at hs with hlong
      cases hf' : found w interp with
      | none =>
        rw [hf'] at hs
        exact absurd hs (by simp)
      | some f' =>
        rw [hf'] at hs
        simp only at hs
        have hx : ∀ x ∈ extra, x.length ≤ 2 * fsNameLen := by
          intro x hx
          have := bang_extra_length (shebang_some hb) x hx
          omega
        have hextra : extra.toList.length ≤ 1 := by cases extra <;> simp
        have hdrop := (List.drop_sublist 1 (orName name (keptArgs args)))
        have hrest := (List.take_sublist (execArgs - 3 - extra.toList.length) _).trans hdrop
        have hpacked := packed_length_le hrest
        have hlead : execArgs - 1 - (Ref.shebang interp ::
            (extra.toList.map Ref.shebang ++ [Ref.script])).length =
            execArgs - 3 - extra.toList.length := by
          simp
          omega
        generalize hh' : Held.mk h.line interp name _ h.env = h' at hs
        have hline : h'.line = h.line := by rw [← hh']
        have hscript : h'.script = name := by rw [← hh']
        have hwords := hh.map_script hline hscript interp extra hlead
        have henvs : h'.env.map h'.text = keptEnv args env := by
          rw [show h'.env = h.env by rw [← hh'], hh.map_env hline]
        refine become_handedOver hs ((congrArg _ ?_).trans hwords) henvs ?_ henv.1.le ?_
        · rw [← hh']
        · have := List.length_take_le (execArgs - 3 - extra.toList.length)
            ((orName name (keptArgs args)).drop 1)
          simp only [scriptList, List.length_cons, List.length_append, List.length_nil]
          unfold execArgs at *
          omega
        · have := packed_scriptList hn (show interp.length ≤ fsNameLen by omega) hx
            (((orName name (keptArgs args)).drop 1).take (execArgs - 3 - extra.toList.length))
          rw [packed_append, List.length_append]
          unfold execLine at *
          omega

/-- The name a call is for fits its array and has no NUL. -/
theorem named_short {path : ℕ} (hp : userString w.space w.mem path = some given)
    (hlt : given.length < fsNameLen) : (w.named given).length ≤ fsNameLen ∧ 0 ∉ w.named given := by
  unfold World.named
  cases ht : w.fdTarget given with
  | none => exact ⟨hlt.le, userString_plain hp⟩
  | some t => exact w.fdTarget_short given t ht

/-- **What a program that starts is handed.** -/
theorem execve_handedOver {path argv envp : ℕ}
    (hp : userString w.space w.mem path = some given) (ha : Lists w.space w.mem argv args)
    (he : Lists w.space w.mem envp env) (h : execve w path argv envp = .started mem rsp) :
    HandedOver w.space.top mem rsp (w.handed (w.named given) args) (keptEnv args env) := by
  unfold execve at h
  rw [hp] at h
  simp only at h
  split_ifs at h with hlong halloc
  exact start_handedOver (held_spec ha he) (named_short hp (by omega)).1 h

/-! ### What is in the lists -/

theorem scriptList_plain (h0 : 0 ∉ name)
    (hb : 0 ∉ interp ∧ ∀ x ∈ extra, 0 ∉ x) {rest : List (List UInt8)} (hr : ∀ x ∈ rest, 0 ∉ x) :
    ∀ x ∈ scriptList name interp extra rest, 0 ∉ x := by
  intro x hx
  simp only [scriptList, List.mem_cons, List.mem_append, Option.mem_toList, List.not_mem_nil,
    or_false] at hx
  rcases hx with rfl | (hx | rfl) | hx
  · exact hb.1
  · exact hb.2 x hx
  · exact h0
  · exact hr x hx

theorem bangOf_plain
    (h : w.bangOf name = some (interp, extra)) : 0 ∉ interp ∧ ∀ x ∈ extra, 0 ∉ x := by
  obtain ⟨f, -, hf⟩ := Option.bind_eq_some_iff.1 h
  exact bang_plain hf

theorem shebangOf_plain
    (h : w.shebangOf name = some (interp, extra)) : 0 ∉ interp ∧ ∀ x ∈ extra, 0 ∉ x := by
  obtain ⟨f, -, hf⟩ := Option.bind_eq_some_iff.1 h
  exact bang_plain (shebang_some hf)

theorem due_plain (h0 : 0 ∉ name) (ha : ∀ x ∈ args, 0 ∉ x) : ∀ x ∈ w.due name args, 0 ∉ x := by
  unfold World.due
  cases hb : w.bangOf name with
  | none => exact ha
  | some x =>
    exact scriptList_plain h0 (bangOf_plain hb) fun y hy => ha y (List.mem_of_mem_drop hy)

theorem handed_plain (h0 : 0 ∉ name) (ha : ∀ x ∈ args, 0 ∉ x) : ∀ x ∈ w.handed name args, 0 ∉ x := by
  have hk : ∀ x ∈ orName name (keptArgs args), 0 ∉ x := by
    unfold orName
    split_ifs
    · simpa using h0
    · exact fun x hx => ha x ((fitting_starts _ _ _).subset hx)
  unfold World.handed
  cases hs : w.shebangOf name with
  | none => exact hk
  | some x =>
    exact scriptList_plain h0 (shebangOf_plain hs) fun y hy =>
      hk y (List.mem_of_mem_drop (List.mem_of_mem_take hy))

/-- **`execve` hands its lists over whole** where they fit, and only there. -/
theorem execve_handsOver_iff {path argv envp : ℕ} {given : List UInt8}
    (hp : userString w.space w.mem path = some given) (ha : Lists w.space w.mem argv args)
    (he : Lists w.space w.mem envp env) (h : execve w path argv envp = .started mem rsp) :
    HandedOver w.space.top mem rsp (w.due (w.named given) args) env ↔
      Fits w (w.named given) args env := by
  have hgiven := execve_handedOver hp ha he h
  have hshort : given.length < fsNameLen := by
    unfold execve at h
    rw [hp] at h
    simp only at h
    split_ifs at h with hlong
    omega
  obtain ⟨hn, h0⟩ := named_short (w := w) hp hshort
  have htop : userStackBytes < w.space.top := by
    unfold Space.top userStackBytes userStack
    omega
  have hwhole : HandedOver w.space.top mem rsp (w.due (w.named given) args) env ↔
      w.handed (w.named given) args = w.due (w.named given) args ∧ keptEnv args env = env := by
    constructor
    · intro hdue
      refine hgiven.unique hdue htop ?_ ?_
      · intro x hx
        rcases List.mem_append.1 hx with hx | hx
        · exact handed_plain h0 ha.plain x hx
        · exact he.plain x ((fitting_starts _ _ _).subset hx)
      · intro x hx
        rcases List.mem_append.1 hx with hx | hx
        · exact due_plain h0 ha.plain x hx
        · exact he.plain x hx
    · rintro ⟨h1, h2⟩
      rwa [h1, h2] at hgiven
  rw [hwhole, handed_eq_due_iff (by unfold fsNameLen execLine at *; omega)]
  constructor
  · rintro ⟨⟨hb, hfit⟩, henv⟩
    exact ⟨shebangOf_eq_iff.1 hb, hfit, (keptEnv_eq_iff hfit).1 henv⟩
  · rintro ⟨hb, hfit, henv⟩
    exact ⟨⟨shebangOf_eq_iff.2 hb, hfit⟩, (keptEnv_eq_iff hfit).2 henv⟩

/-! ### Sixty-four arguments -/

/-- A program whose memory holds the string "a" and, a page on, `n` pointers to it; any file there
is can be loaded. -/
def letters (n : ℕ) : World where
  space := ⟨1, none, Nat.one_pos, one_lt_slots⟩
  mem := putWords (putString (fun _ => 0) slotSize [0x61]) (slotSize + 4096)
    (List.replicate n slotSize ++ [0])
  alloc := true
  fdTarget _ := none
  fdTarget_short := by simp
  command _ := false
  stat _ := some ⟨[0x7F], true⟩
  spaceNew := true
  load _ := some ⟨fun _ => 0, 0, 0, 0, 0, 0⟩
  stackAlloc := true
  random _ := 0

def Outcome.isStarted : Outcome → Bool
  | .started _ _ => true
  | _ => false

theorem Outcome.exists_started {o : Outcome} (h : o.isStarted = true) :
    ∃ mem rsp, o = .started mem rsp := by
  cases o with
  | started mem rsp => exact ⟨mem, rsp, rfl⟩
  | error => exact absurd h (by decide)
  | builtin => exact absurd h (by decide)
  | died => exact absurd h (by decide)

/-- As many pointers to one string. -/
theorem points_replicate {s : Space} {p a : ℕ} {x : List UInt8} (hg : Given s mem a x) (ha : a ≠ 0)
    (hw : ∀ i < n, s.holds (p + 8 * i) 8 = true ∧ word64 mem (p + 8 * i) = a)
    (he : s.holds (p + 8 * n) 8 = true ∧ word64 mem (p + 8 * n) = 0) :
    Points s mem p (List.replicate n x) := by
  induction n generalizing p with
  | zero => exact .nil he.1 he.2
  | succ n ih =>
    have h0 := hw 0 (by omega)
    rw [Nat.mul_zero, Nat.add_zero] at h0
    have hnext : ∀ i, p + 8 + 8 * i = p + 8 * (i + 1) := by
      intro i
      omega
    refine .cons h0.1 (by rwa [h0.2]) (by rwa [h0.2]) (ih ?_ ?_)
    · intro i hi
      rw [hnext]
      exact hw (i + 1) (by omega)
    · rwa [hnext]

theorem letters_holds (n : ℕ) {a size : ℕ} (ha : slotSize ≤ a) (hs : a + size ≤ slotSize + slotSize) :
    (letters n).space.holds a size = true := by
  unfold Space.holds
  have hbase : (letters n).space.base = slotSize := Nat.one_mul slotSize
  rw [hbase, Bool.or_eq_true]
  right
  simp only [decide_eq_true_eq]
  omega

theorem letters_lists (hn : n ≤ 64) :
    Lists (letters n).space (letters n).mem (slotSize + 4096) (List.replicate n [0x61]) := by
  have hlt : ∀ v ∈ List.replicate n slotSize ++ [0], v < 2 ^ 64 := by
    intro v hv
    rcases List.mem_append.1 hv with hv | hv
    · rw [List.eq_of_mem_replicate hv]
      decide
    · rw [List.mem_singleton.1 hv]
      decide
  have hword : ∀ i (hi : i < (List.replicate n slotSize ++ [0]).length),
      word64 (letters n).mem (slotSize + 4096 + 8 * i) = (List.replicate n slotSize ++ [0])[i] :=
    fun i hi => word64_putWords hlt hi
  have hpage : 4096 + 8 * 65 ≤ slotSize := by decide
  have hgiven : Given (letters n).space (letters n).mem slotSize [0x61] := by
    refine ⟨?_, by decide, letters_holds n le_rfl (by simp; omega)⟩
    exact (Spells.blit (fun _ => 0) slotSize [0x61]).congr (Agree.putWords (Or.inl (by simp))).symm
  refine Or.inr ⟨by decide, points_replicate hgiven (by decide) ?_ ?_⟩
  · intro i hi
    refine ⟨letters_holds n (by omega) (by omega), ?_⟩
    rw [hword i (by simp; omega), List.getElem_append_left (by simpa using hi), List.getElem_replicate]
  · refine ⟨letters_holds n (by omega) (by omega), ?_⟩
    rw [hword n (by simp)]
    simp

theorem execve_handsOver_one : ∃ mem rsp,
    execve (letters 1) slotSize (slotSize + 4096) 0 = .started mem rsp ∧
      (HandedOver (letters 1).space.top mem rsp ((letters 1).due [0x61] [[0x61]]) [] ↔
        Fits (letters 1) [0x61] [[0x61]] []) := by
  obtain ⟨mem, rsp, h⟩ := Outcome.exists_started
    (show (execve (letters 1) slotSize (slotSize + 4096) 0).isStarted = true by decide)
  have hp : userString (letters 1).space (letters 1).mem slotSize = some [0x61] := by decide
  exact ⟨mem, rsp, h, execve_handsOver_iff hp (letters_lists (n := 1) (by decide)) (Or.inl ⟨rfl, rfl⟩) h⟩

/-- A sixty-fourth argument is dropped, and the program starts. -/
theorem exists_not_handedOver : ∃ (w : World) (path argv envp : ℕ) (given : List UInt8)
    (args env : List (List UInt8)) (mem : Store) (rsp : ℕ),
    userString w.space w.mem path = some given ∧ Lists w.space w.mem argv args ∧
      Lists w.space w.mem envp env ∧ execve w path argv envp = .started mem rsp ∧
      ¬ HandedOver w.space.top mem rsp (w.due (w.named given) args) env := by
  obtain ⟨mem, rsp, h⟩ := Outcome.exists_started
    (show (execve (letters 64) slotSize (slotSize + 4096) 0).isStarted = true by decide +kernel)
  have hp : userString (letters 64).space (letters 64).mem slotSize = some [0x61] := by decide
  have ha := letters_lists (n := 64) le_rfl
  have he : Lists (letters 64).space (letters 64).mem 0 [] := Or.inl ⟨rfl, rfl⟩
  refine ⟨letters 64, slotSize, slotSize + 4096, 0, [0x61], _, _, mem, rsp, hp, ha, he, h, ?_⟩
  intro hdue
  -- the vector says sixty-three
  have hgiven := execve_handedOver hp ha he h
  have hargc := hgiven.argc.symm.trans hdue.argc
  have hkept : ((letters 64).handed [0x61] (List.replicate 64 [0x61])).length < execArgs :=
    (packed_orName (by decide) _).1
  exact absurd (hargc ▸ hkept) (by decide)

end BaxOS.Exec
