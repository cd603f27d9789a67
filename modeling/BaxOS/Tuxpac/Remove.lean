import BaxOS.Lib.Marks
import BaxOS.Tuxpac.Packages

/-!
# Removing a package

`tuxpac -r` marks what the packages asked for need, all the way down, but for the one that is to go,
and takes away the rest. For what a package says it needs that breaks nothing; what it needs without
saying so, and nothing else says it needs, is taken from under it (`exists_broken`).
`cmdRemove_unbroken_iff` says exactly when.
-/

namespace BaxOS.Tuxpac
open Relation

/-! ### The command -/

/-- Whether package `i` of the database is installed. -/
def live (db : List Inst) (i : ℕ) : Bool := db[i]?.any fun p => !p.gone

/-- `needs`: whether package `i` depends on package `k`. -/
def needs (db : List Inst) (i k : ℕ) : Bool :=
  match db[i]?, db[k]? with
  | some p, some q => (pieces [comma, bar] p.deps).any (answers q)
  | _, _ => false

/-- `mark`: what the packages asked for, all but `skip`, depend on, all the way down. -/
def mark (db : List Inst) (skip : ℕ) : ℕ → Bool :=
  Marks.marks (fun i j => live db j && needs db i j) db.length (db.length + 1) fun i =>
    db[i]?.any (fun p => !p.gone && p.asked) && i != skip

/-- What `cmd_remove` says. -/
inductive Removal
  | notInstalled
  | neededBy (i : ℕ)
  | removed
  deriving DecidableEq

/-- `cmd_remove`, of a package by its name. -/
def cmdRemove (db : List Inst) (name : Text) : List Inst × Removal :=
  match findInst db name with
  | none => (db, .notInstalled)
  | some k =>
    let m := mark db k
    let by_ := (List.range db.length).find? fun i => m i && i != k && needs db i k
    match if m k then by_ else none with
    | some i => (db, .neededBy i)
    | none => (db.mapIdx fun i p => { p with gone := p.gone || !m i }, .removed)

/-! ### What it says -/

/-- Package `j` is one that package `i` needs without saying so. -/
def Implied (db : List Inst) (i j : ℕ) : Prop :=
  ∃ p q, db[i]? = some p ∧ db[j]? = some q ∧ ∃ x ∈ implied, p.name = x.1 ∧ answers q x.2 = true

/-- Package `j` answers one of package `i`'s dependencies, or of what it needs besides. -/
def Depends (db : List Inst) (i j : ℕ) : Prop := needs db i j = true ∨ Implied db i j

/-- **Nothing is broken**: what stays has what it had of what it depends on, what was asked for stays,
and a command that refuses changes nothing. -/
structure Unbroken (db : List Inst) (name : Text) : Prop where
  keeps : ∀ i j, live (cmdRemove db name).1 i = true → Depends db i j →
    live (cmdRemove db name).1 j = true
  asked : ∀ i p, db[i]? = some p → p.gone = false → p.asked = true → findInst db name ≠ some i →
    live (cmdRemove db name).1 i = true
  refuses : (cmdRemove db name).2 ≠ .removed → (cmdRemove db name).1 = db

/-- What a package asked for, but for package `k`, is or depends on, as packages say. -/
def Kept (db : List Inst) (k i : ℕ) : Prop :=
  ∃ r p, db[r]? = some p ∧ p.gone = false ∧ p.asked = true ∧ r ≠ k ∧
    ReflTransGen (fun a b => live db b = true ∧ needs db a b = true) r i

/-- **When that is so**: the package is kept by others, or whatever one that is kept needs without
saying so is kept too. -/
def Closed (db : List Inst) (k : ℕ) : Prop :=
  Kept db k k ∨ ∀ i j, Kept db k i → Implied db i j → Kept db k j

variable {db : List Inst} {name : Text} {i j k : ℕ}

theorem live_iff : live db i = true ↔ ∃ p, db[i]? = some p ∧ p.gone = false := by
  unfold live
  rw [Option.any_eq_true]
  simp

/-- What a need is answered by is installed. -/
theorem Depends.live (h : Depends db i j) : live db j = true := by
  rw [live_iff]
  have hanswers : ∀ {q : Inst} {a : Text}, answers q a = true → q.gone = false := fun {q a} ha => by
    rw [answers, Bool.and_eq_true] at ha
    simpa using ha.1
  rcases h with hneeds | ⟨p, q, hp, hq, x, -, -, ha⟩
  · unfold needs at hneeds
    cases hp : db[i]? with
    | none =>
      rw [hp] at hneeds
      exact Bool.noConfusion hneeds
    | some p =>
      cases hq : db[j]? with
      | none =>
        rw [hp, hq] at hneeds
        exact Bool.noConfusion hneeds
      | some q =>
        rw [hp, hq] at hneeds
        obtain ⟨a, -, ha⟩ := List.any_eq_true.1 hneeds
        exact ⟨q, rfl, hanswers ha⟩
  · exact ⟨q, hq, hanswers ha⟩

theorem lt_of_live (h : live db i = true) : i < db.length := by
  obtain ⟨p, hp, -⟩ := live_iff.1 h
  exact (List.getElem?_eq_some_iff.1 hp).1

/-- **`mark` marks what is kept.** -/
theorem mark_iff : mark db k i = true ↔ Kept db k i := by
  have hroot : ∀ r, ((db[r]?.any fun p => !p.gone && p.asked) && r != k) = true ↔
      ∃ p, db[r]? = some p ∧ p.gone = false ∧ p.asked = true ∧ r ≠ k := fun r => by
    rw [Bool.and_eq_true, Option.any_eq_true, bne_iff_ne]
    simp only [Bool.and_eq_true, Bool.not_eq_true']
    exact ⟨fun ⟨⟨p, hp, hgone, hasked⟩, hne⟩ => ⟨p, hp, hgone, hasked, hne⟩,
      fun ⟨p, hp, hgone, hasked, hne⟩ => ⟨⟨p, hp, hgone, hasked⟩, hne⟩⟩
  have hstep : (fun a b => b < db.length ∧ (live db b && needs db a b) = true) =
      fun a b => live db b = true ∧ needs db a b = true := by
    funext a b
    rw [Bool.and_eq_true]
    exact propext ⟨fun h => h.2, fun h => ⟨lt_of_live h.1, h⟩⟩
  unfold mark
  rw [Marks.marks_iff]
  · rw [hstep]
    constructor
    · rintro ⟨r, hr, hreach⟩
      obtain ⟨p, hp, hgone, hasked, hne⟩ := (hroot r).1 hr
      exact ⟨r, p, hp, hgone, hasked, hne, hreach⟩
    · rintro ⟨r, p, hp, hgone, hasked, hne, hreach⟩
      exact ⟨r, (hroot r).2 ⟨p, hp, hgone, hasked, hne⟩, hreach⟩
  · intro r hr
    obtain ⟨p, hp, -⟩ := (hroot r).1 hr
    exact (List.getElem?_eq_some_iff.1 hp).1

theorem Kept.live (h : Kept db k i) : live db i = true := by
  obtain ⟨r, p, hp, hgone, -, -, hreach⟩ := h
  cases hreach with
  | refl => exact live_iff.2 ⟨p, hp, hgone⟩
  | tail _ hstep => exact hstep.1

theorem Kept.needs (h : Kept db k i) (hj : Depends db i j) (hn : needs db i j = true) :
    Kept db k j := by
  obtain ⟨r, p, hp, hgone, hasked, hne, hreach⟩ := h
  exact ⟨r, p, hp, hgone, hasked, hne, hreach.tail ⟨hj.live, hn⟩⟩

/-- A package that is kept and is to go is needed by one that is kept and stays. -/
theorem exists_needs_of_kept (h : Kept db k k) :
    ∃ i, i < db.length ∧ mark db k i = true ∧ i ≠ k ∧ Tuxpac.needs db i k = true := by
  obtain ⟨r, p, hp, hgone, hasked, hne, hreach⟩ := h
  have hroot : Kept db k r := ⟨r, p, hp, hgone, hasked, hne, .refl⟩
  -- the step by which the path first comes to `k`
  have hfirst : ∀ i, ReflTransGen (fun a b => Tuxpac.live db b = true ∧ Tuxpac.needs db a b = true) r i →
      (∃ i, Kept db k i ∧ i ≠ k ∧ Tuxpac.needs db i k = true) ∨ i ≠ k := fun i hi => by
    induction hi with
    | refl => exact Or.inr hne
    | @tail a b ha hab ih =>
      rcases ih with hdone | hak
      · exact Or.inl hdone
      · by_cases hbk : b = k
        · subst hbk
          exact Or.inl ⟨a, ⟨r, p, hp, hgone, hasked, hne, ha⟩, hak, hab.2⟩
        · exact Or.inr hbk
  obtain ⟨i, hi, hik, hn⟩ := (hfirst k hreach).resolve_right fun h => h rfl
  exact ⟨i, lt_of_live hi.live, mark_iff.2 hi, hik, hn⟩

/-! ### What the command does -/

theorem cmdRemove_none (h : findInst db name = none) : cmdRemove db name = (db, .notInstalled) := by
  unfold cmdRemove
  rw [h]

/-- A package that is kept by others is not removed. -/
theorem cmdRemove_kept (h : findInst db name = some k) (hk : Kept db k k) :
    ∃ i, cmdRemove db name = (db, .neededBy i) := by
  obtain ⟨i, hi, hmark, hik, hn⟩ := exists_needs_of_kept hk
  unfold cmdRemove
  rw [h]
  simp only
  rw [if_pos (mark_iff.2 hk)]
  cases hfind : (List.range db.length).find? fun i => mark db k i && i != k && needs db i k with
  | some j => exact ⟨j, rfl⟩
  | none =>
    have hno := List.find?_eq_none.1 hfind i (List.mem_range.2 hi)
    rw [hmark, hn, bne_iff_ne.2 hik] at hno
    exact absurd rfl hno

/-- Any other is, with all that is not kept. -/
theorem cmdRemove_not_kept (h : findInst db name = some k) (hk : ¬Kept db k k) :
    (cmdRemove db name).2 = .removed ∧
      ∀ i, live (cmdRemove db name).1 i = true ↔ live db i = true ∧ Kept db k i := by
  unfold cmdRemove
  rw [h]
  simp only
  rw [if_neg fun hm => hk (mark_iff.1 hm)]
  refine ⟨rfl, fun i => ?_⟩
  rw [live_iff, live_iff, ← mark_iff]
  simp only [List.getElem?_mapIdx, Option.map_eq_some_iff]
  constructor
  · rintro ⟨p', ⟨p, hp, rfl⟩, hgone⟩
    simp only [Bool.or_eq_false_iff, Bool.not_eq_false'] at hgone
    exact ⟨⟨p, hp, hgone.1⟩, hgone.2⟩
  · rintro ⟨⟨p, hp, hgone⟩, hm⟩
    exact ⟨_, ⟨p, hp, rfl⟩, by simp only [hgone, hm, Bool.not_true, Bool.or_false]⟩

/-- **Removing a package breaks nothing** exactly where what is kept has what it needs without saying
so kept. -/
theorem cmdRemove_unbroken_iff (db : List Inst) (name : Text) :
    Unbroken db name ↔ ∀ k, findInst db name = some k → Closed db k := by
  constructor
  · intro h k hk
    by_cases hkk : Kept db k k
    · exact Or.inl hkk
    · obtain ⟨-, hlive⟩ := cmdRemove_not_kept hk hkk
      refine Or.inr fun i j hi hij => ?_
      exact ((hlive j).1 (h.keeps i j ((hlive i).2 ⟨hi.live, hi⟩) (Or.inr hij))).2
  · intro h
    cases hk : findInst db name with
    | none =>
      have heq := cmdRemove_none hk
      refine ⟨fun i j _ hij => ?_, fun i p hp hgone _ _ => ?_, fun _ => ?_⟩
      · rw [heq]
        exact hij.live
      · rw [heq]
        exact live_iff.2 ⟨p, hp, hgone⟩
      · rw [heq]
    | some k =>
      by_cases hkk : Kept db k k
      · obtain ⟨m, heq⟩ := cmdRemove_kept hk hkk
        refine ⟨fun i j _ hij => ?_, fun i p hp hgone _ _ => ?_, fun _ => ?_⟩
        · rw [heq]
          exact hij.live
        · rw [heq]
          exact live_iff.2 ⟨p, hp, hgone⟩
        · rw [heq]
      · obtain ⟨hremoved, hlive⟩ := cmdRemove_not_kept hk hkk
        refine ⟨fun i j hi hij => ?_, fun i p hp hgone hasked hne => ?_, fun hno => absurd hremoved hno⟩
        · obtain ⟨-, hkept⟩ := (hlive i).1 hi
          refine (hlive j).2 ⟨hij.live, ?_⟩
          rcases hij with hn | himplied
          · exact hkept.needs (Or.inl hn) hn
          · exact ((h k hk).resolve_left hkk) i j hkept himplied
        · refine (hlive i).2 ⟨live_iff.2 ⟨p, hp, hgone⟩, i, p, hp, hgone, hasked, fun hik => hne ?_, .refl⟩
          rw [hk, hik]

/-- `curl` was asked for, `ca-certificates` came with it, and another package goes. -/
def withCurl : List Inst :=
  [⟨text "curl", [], [], [], true, false⟩, ⟨text "ca-certificates", [], [], [], false, false⟩,
    ⟨text "nano", [], [], [], true, false⟩]

theorem exists_broken : ∃ db name, ¬Unbroken db name := by
  refine ⟨withCurl, text "nano", fun h => ?_⟩
  have hgone := h.keeps 0 1 (by decide) (Or.inr ⟨_, _, rfl, rfl, _, List.mem_cons_self, rfl,
    by decide⟩)
  exact absurd hgone (by decide)

end BaxOS.Tuxpac
