import BaxOS.Lib.Strings

/-!
# The shell's environment

`export` sets NAME=value strings that every program the shell starts is handed. The list points
into one text, which is packed again for each `export`. Each loop of `env_set` has one lemma:
`dropOld_spec`, `pack_eq`, `point_spec`.
-/

namespace BaxOS.Shell
open ByteStore

/-- `ENV_MAX` -/
def envMax : ℕ := 16
/-- `ENV_BYTES` -/
def envBytes : ℕ := 512
/-- `=` -/
def equals : UInt8 := 0x3D

/-- An entry of `env`: `NULL`, a place in `env_text`, or a string of the caller's. -/
inductive Entry
  | null
  | text (at_ : ℕ)
  | given (s : List UInt8)
  deriving DecidableEq

/-- `env_text`, `env` and `env_count`. -/
structure Env where
  text : Store
  env : ℕ → Entry
  count : ℕ

/-- The string an entry points to. None is asked for at `NULL`. -/
def Env.str (e : Env) : Entry → List UInt8
  | .null => []
  | .text a => cstr e.text a (envBytes - a)
  | .given s => s

/-- The strings of the list. -/
def Env.strings (e : Env) : List (List UInt8) := (List.range e.count).map fun i => e.str (e.env i)

/-- The value a list of NAME=value strings has for a name. -/
def valueIn (strs : List (List UInt8)) (name : List UInt8) : Option (List UInt8) :=
  strs.findSome? fun s =>
    if name <+: s ∧ s.getD name.length 0 = equals then some (s.drop (name.length + 1)) else none

/-- `shell_env` -/
def shellEnv (e : Env) (name : List UInt8) : Option (List UInt8) := valueIn e.strings name

/-- `memcmp_n`: whether the first `n` characters are the same. -/
def memcmpN : List UInt8 → List UInt8 → ℕ → Bool
  | _, _, 0 => true
  | a :: s, b :: t, n + 1 => if a = b then memcmpN s t n else false
  | _, _, _ + 1 => false

/-- Whether a string is of the name that is the first `n` characters of `pair`. -/
def isOf (pair : List UInt8) (n : ℕ) (s : List UInt8) : Bool :=
  n < s.length && s.getD n 0 == equals && memcmpN s pair n

/-- The entries from `i + 1` on moved down by one. -/
def Env.remove (e : Env) (i : ℕ) : Env :=
  { e with
    env := fun k => if i ≤ k ∧ k < e.count then e.env (k + 1) else e.env k
    count := e.count - 1 }

/-- The first loop of `env_set`, from entry `i` on: what the name had is taken out. -/
def dropOld (pair : List UInt8) (n : ℕ) : ℕ → ℕ → Env → Env
  | 0, _, e => e
  | fuel + 1, i, e =>
    if i < e.count then
      if isOf pair n (e.str (e.env i)) then dropOld pair n fuel i (e.remove i)
      else dropOld pair n fuel (i + 1) e
    else e

/-- The second: the strings from entry `i` on packed, unless they do not fit. -/
def pack (e : Env) : ℕ → ℕ → List UInt8 → Option (List UInt8)
  | 0, _, packed => some packed
  | fuel + 1, i, packed =>
    if i < e.count then
      let s := e.str (e.env i)
      if envBytes < packed.length + (s.length + 1) then none
      else pack e fuel (i + 1) (packed ++ s ++ [0])
    else some packed

/-- The third: the entries from `i` on pointed at the text, of which the next string is at `at_`. -/
def point : ℕ → ℕ → ℕ → Env → Env
  | 0, _, _, e => e
  | fuel + 1, i, at_, e =>
    if i < e.count then
      point fuel (i + 1) (at_ + (cstr e.text at_ (envBytes - at_)).length + 1)
        { e with env := Function.update e.env i (.text at_) }
    else e

/-- What `env_set` does with the new string once there is an entry for it. -/
def addNew (e : Env) (pair : List UInt8) : Env :=
  let e := { e with env := Function.update e.env e.count (.given pair), count := e.count + 1 }
  match pack e e.count 0 [] with
  | none => { e with count := e.count - 1 }
  | some packed =>
    let e := { e with text := blit e.text 0 packed.length fun i => packed.getD i 0 }
    let e := point e.count 0 0 e
    { e with env := Function.update e.env e.count .null }

/-- `env_set` -/
def envSet (e : Env) (pair : List UInt8) : Env :=
  match pair.findIdx? (· = equals) with
  | none => e
  | some 0 => e
  | some n =>
    let e := dropOld pair n e.count 0 e
    if e.count = envMax then e else addNew e pair

/-- The environment as the kernel starts. -/
def emptyEnv : Env := ⟨fun _ => 0, fun _ => .null, 0⟩

/-- A string: no NUL before its end. -/
abbrev CString := { s : List UInt8 // 0 ∉ s }

/-- One `export` after another, each of a word: NAME=value or not. -/
def exports (words : List CString) : Env := words.foldl (fun e w => envSet e w.1) emptyEnv

/-! ### The loops -/

/-- The entries of the list. -/
def Env.entries (e : Env) : List Entry := (List.range e.count).map e.env

theorem strings_eq (e : Env) : e.strings = e.entries.map e.str := by
  unfold Env.strings Env.entries
  rw [List.map_map]
  rfl

@[simp] theorem entries_length (e : Env) : e.entries.length = e.count := by
  simp [Env.entries]

theorem entries_get {e : Env} {i : ℕ} (hi : i < e.count) :
    e.entries[i]? = some (e.env i) := by
  simp [Env.entries, hi]

theorem str_remove (e : Env) (i : ℕ) : (e.remove i).str = e.str := by
  funext x
  cases x <;> rfl

theorem entries_remove {e : Env} {i : ℕ} (hi : i < e.count) :
    (e.remove i).entries = e.entries.eraseIdx i := by
  apply List.ext_getElem?
  intro k
  rw [List.getElem?_eraseIdx]
  by_cases hk : k < e.count - 1
  · rw [entries_get (e := e.remove i) hk]
    by_cases hki : k < i
    · rw [if_pos hki, entries_get (by omega)]
      simp [Env.remove, show ¬ i ≤ k by omega]
    · rw [if_neg hki, entries_get (by omega)]
      simp [Env.remove, show i ≤ k ∧ k < e.count by omega]
  · rw [List.getElem?_eq_none (by rw [entries_length]; exact not_lt.1 hk)]
    split_ifs
    · rw [List.getElem?_eq_none (by simp; omega)]
    · rw [List.getElem?_eq_none (by simp; omega)]

theorem filter_done {e : Env} {i : ℕ} (keep : Entry → Bool) (hi : e.count ≤ i) :
    e.entries = e.entries.take i ++ (e.entries.drop i).filter keep := by
  rw [List.take_of_length_le (by simpa using hi), List.drop_eq_nil_of_le (by simpa using hi)]
  simp

/-- **What the first loop leaves**: the entries of other names, the text as it was, and what came
after the last entry. -/
theorem dropOld_spec (pair : List UInt8) (n fuel i : ℕ) (e : Env)
    (hf : e.count ≤ i + fuel) :
    (dropOld pair n fuel i e).text = e.text ∧
    (dropOld pair n fuel i e).entries = e.entries.take i ++
      (e.entries.drop i).filter (fun x => ! isOf pair n (e.str x)) ∧
    (dropOld pair n fuel i e).env (dropOld pair n fuel i e).count = e.env e.count := by
  induction fuel generalizing i e with
  | zero =>
    unfold dropOld
    exact ⟨rfl, filter_done _ hf, rfl⟩
  | succ fuel ih =>
    unfold dropOld
    by_cases hi : i < e.count
    · have hlen : i < e.entries.length := by simpa using hi
      have hget : e.entries[i] = e.env i := Option.some.inj
        ((List.getElem?_eq_getElem hlen).symm.trans (entries_get hi))
      rw [if_pos hi, List.drop_eq_getElem_cons hlen, hget]
      by_cases hof : isOf pair n (e.str (e.env i)) = true
      · -- the entry goes, and the next one is in its place
        have hcount : (e.remove i).count = e.count - 1 := rfl
        obtain ⟨h1, h2, h3⟩ := ih i (e.remove i) (by omega)
        rw [if_pos hof, List.filter_cons_of_neg (by simp [hof])]
        refine ⟨h1, ?_, ?_⟩
        · rw [h2, entries_remove hi, str_remove, List.take_eraseIdx_eq_take_of_le _ _ _ le_rfl,
            List.eraseIdx_eq_take_drop_succ, List.drop_append_of_le_length (by simp; omega)]
          simp
        · rw [h3]
          simp only [Env.remove]
          rw [if_pos (by omega), Nat.sub_add_cancel (by omega)]
      · obtain ⟨h1, h2, h3⟩ := ih (i + 1) e (by omega)
        rw [if_neg hof, List.filter_cons_of_pos (by simpa using hof)]
        refine ⟨h1, ?_, h3⟩
        rw [h2, List.take_succ_eq_append_getElem hlen, hget]
        simp
    · rw [if_neg hi]
      exact ⟨rfl, filter_done _ (by omega), rfl⟩

/-- The second loop packs the strings, where they fit. -/
theorem pack_eq (e : Env) {fuel i : ℕ} (hf : e.count ≤ i + fuel) (sofar : List UInt8)
    (hs : sofar.length ≤ envBytes) :
    pack e fuel i sofar =
      if envBytes < (sofar ++ packed (e.strings.drop i)).length then none
      else some (sofar ++ packed (e.strings.drop i)) := by
  have hlen : e.strings.length = e.count := by simp [Env.strings]
  induction fuel generalizing i sofar with
  | zero =>
    rw [List.drop_eq_nil_of_le (by omega), packed_nil, List.append_nil, if_neg (by omega)]
    rfl
  | succ fuel ih =>
    unfold pack
    by_cases hi : i < e.count
    · have hin : i < e.strings.length := by omega
      have hget : e.strings[i] = e.str (e.env i) := by simp [Env.strings]
      rw [if_pos hi, List.drop_eq_getElem_cons hin, hget, packed_cons]
      simp only
      by_cases hfit : envBytes < sofar.length + ((e.str (e.env i)).length + 1)
      · rw [if_pos hfit, if_pos]
        simp only [List.length_append, List.length_singleton]
        omega
      · rw [if_neg hfit, ih (by omega) _ (by simp; omega)]
        simp only [List.append_assoc]
    · rw [if_neg hi, List.drop_eq_nil_of_le (by omega), packed_nil, List.append_nil,
        if_neg (by omega)]

/-- The third points each entry from `i` on at its string. -/
theorem point_spec {strs : List (List UInt8)} (h0 : ∀ s ∈ strs, 0 ∉ s)
    (hfit : (packed strs).length ≤ envBytes) (fuel i : ℕ) (e : Env) (hf : e.count ≤ i + fuel)
    (hc : e.count = strs.length)
    (htext : ∀ k, k < (packed strs).length → e.text k = (packed strs).getD k 0) :
    (point fuel i (offset strs i) e).text = e.text ∧
    (point fuel i (offset strs i) e).count = e.count ∧
    ∀ k, (point fuel i (offset strs i) e).env k =
      if i ≤ k ∧ k < e.count then .text (offset strs k) else e.env k := by
  induction fuel generalizing i e with
  | zero =>
    unfold point
    refine ⟨rfl, rfl, fun k => ?_⟩
    rw [if_neg (by omega)]
  | succ fuel ih =>
    unfold point
    by_cases hi : i < e.count
    · have hin : i < strs.length := by omega
      have hsp : Spells e.text (0 + offset strs i) strs[i] :=
        spells_packed (a := 0) (fun k hk => by rw [Nat.zero_add]; exact htext k hk) hin
      rw [Nat.zero_add] at hsp
      have hlt := offset_lt hin
      have hread : cstr e.text (offset strs i) (envBytes - offset strs i) = strs[i] :=
        hsp.cstr (h0 _ (List.getElem_mem hin)) (by omega)
      rw [if_pos hi, hread, ← offset_succ hin]
      obtain ⟨h1, h2, h3⟩ := ih (i + 1)
        { e with env := Function.update e.env i (.text (offset strs i)) } (by simp only; omega)
        hc htext
      refine ⟨h1, h2, fun k => ?_⟩
      rw [h3 k]
      simp only
      by_cases hk : k = i
      · subst hk
        rw [if_neg (by omega), Function.update_self, if_pos (by omega)]
      · rw [Function.update_of_ne hk]
        split_ifs <;> first | rfl | omega
    · rw [if_neg hi]
      refine ⟨rfl, rfl, fun k => ?_⟩
      rw [if_neg (by omega)]

/-! ### The new string -/

/-- The new string's entry after the others. -/
theorem strings_given (e : Env) (pair : List UInt8) :
    Env.strings { e with env := Function.update e.env e.count (.given pair), count := e.count + 1 } =
      e.strings ++ [pair] := by
  unfold Env.strings
  rw [List.range_succ, List.map_append]
  congr 1
  · apply List.map_congr_left
    intro i hi
    rw [List.mem_range] at hi
    simp only
    rw [Function.update_of_ne (by omega)]
    cases e.env i <;> rfl
  · simp [Env.str]

/-- Where the strings do not fit, the new one's entry stays behind the last. -/
theorem addNew_full {e : Env} {pair : List UInt8}
    (h : envBytes < (packed (e.strings ++ [pair])).length) :
    addNew e pair = { e with env := Function.update e.env e.count (.given pair) } := by
  unfold addNew
  simp only
  rw [pack_eq _ (by simp only; omega) [] (by simp), List.drop_zero, strings_given, List.nil_append,
    if_pos h]
  rfl

/-- Where they do, the text holds them all, and the list ends in `NULL`. -/
theorem addNew_fits {e : Env} {pair : List UInt8} (h0 : ∀ s ∈ e.strings ++ [pair], 0 ∉ s)
    (h : (packed (e.strings ++ [pair])).length ≤ envBytes) :
    (addNew e pair).count = e.count + 1 ∧
    (∀ i (hi : i < (e.strings ++ [pair]).length),
      (addNew e pair).env i = .text (offset (e.strings ++ [pair]) i) ∧
      Spells (addNew e pair).text (offset (e.strings ++ [pair]) i) (e.strings ++ [pair])[i]) ∧
    (addNew e pair).env (e.count + 1) = .null := by
  have hlen : (e.strings ++ [pair]).length = e.count + 1 := by simp [Env.strings]
  unfold addNew
  simp only
  rw [pack_eq _ (by simp only; omega) [] (by simp), List.drop_zero, strings_given, List.nil_append,
    if_neg (by omega)]
  simp only
  set strs := e.strings ++ [pair] with hstrs
  set e2 : Env := ⟨blit e.text 0 (packed strs).length fun i => (packed strs).getD i 0,
    Function.update e.env e.count (.given pair), e.count + 1⟩ with he2
  have htext : ∀ k, k < (packed strs).length → e2.text k = (packed strs).getD k 0 := by
    intro k hk
    rw [he2]
    simp only
    rw [blit_of_mem (by omega) (by omega), Nat.sub_zero]
  obtain ⟨h1, h2, h3⟩ := point_spec h0 h (e.count + 1) 0 e2
    (by rw [he2]; simp only; omega) (by rw [hlen]) htext
  rw [offset_zero] at h1 h2 h3
  refine ⟨h2, fun i hi => ⟨?_, ?_⟩, ?_⟩
  · rw [Function.update_of_ne (by rw [h2]; simp only [he2]; omega), h3, if_pos]
    simp only [he2]
    omega
  · rw [h1]
    have hsp := spells_packed (d := e2.text) (a := 0) (fun k hk => by
      rw [Nat.zero_add]
      exact htext k hk) hi
    rwa [Nat.zero_add] at hsp
  · rw [h2]
    exact Function.update_self _ _ _

end BaxOS.Shell
