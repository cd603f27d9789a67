import Mathlib.Tactic

/-!
# Programs that come to an end

A program changes a state and may fail: where an index is out of range, say, or where a loop has had all
the turns it is allowed. `Gives m s Q` says that from `s` it does not fail, and what it leaves. A loop
whose every turn but the last leaves a lower bound on the turns to come needs no more turns than that
(`Gives.loop`). One way to have such a bound is a supply that turns use up (`Drains`).
-/

namespace Programs

variable {S T α β ι : Type}

/-- A program with the state `S`. -/
abbrev Prog (S α : Type) : Type := StateT S Option α

/-- From `s` the program does not fail, and `Q` is so of what it returns and of the state it leaves. -/
def Gives (m : Prog S α) (s : S) (Q : α → S → Prop) : Prop := ∃ a t, m.run s = some (a, t) ∧ Q a t

section rules

variable {m : Prog S α} {f : α → Prog S β} {s : S} {Q R : α → S → Prop} {Q' : β → S → Prop} {a : α}

theorem Gives.mono (h : Gives m s Q) (hQ : ∀ a t, Q a t → R a t) : Gives m s R := by
  obtain ⟨a, t, hrun, hq⟩ := h
  exact ⟨a, t, hrun, hQ a t hq⟩

theorem gives_run {t : S} (h : m.run s = some (a, t)) : Gives m s Q ↔ Q a t := by
  constructor
  · rintro ⟨a', t', hrun, hq⟩
    obtain ⟨rfl, rfl⟩ := Prod.mk.inj (Option.some.inj (h.symm.trans hrun))
    exact hq
  · intro hq
    exact ⟨a, t, h, hq⟩

@[simp] theorem gives_pure : Gives (pure a) s Q ↔ Q a s := gives_run rfl

@[simp] theorem gives_bind : Gives (m >>= f) s Q' ↔ Gives m s fun a t => Gives (f a) t Q' := by
  constructor
  · rintro ⟨b, u, hrun, hq⟩
    obtain ⟨⟨a, t⟩, hm, hf⟩ := Option.bind_eq_some_iff.1 hrun
    exact ⟨a, t, hm, b, u, hf, hq⟩
  · rintro ⟨a, t, hm, b, u, hf, hq⟩
    exact ⟨b, u, Option.bind_eq_some_iff.2 ⟨(a, t), hm, hf⟩, hq⟩

@[simp] theorem gives_map {g : α → β} : Gives (g <$> m) s Q' ↔ Gives m s fun a t => Q' (g a) t := by
  rw [← bind_pure_comp, gives_bind]
  simp only [gives_pure]

@[simp] theorem gives_get {Q : S → S → Prop} : Gives get s Q ↔ Q s s := gives_run rfl

@[simp] theorem gives_set {t : S} {Q : PUnit → S → Prop} : Gives (set t) s Q ↔ Q ⟨⟩ t := gives_run rfl

@[simp] theorem gives_modify {g : S → S} {Q : PUnit → S → Prop} : Gives (modify g) s Q ↔ Q ⟨⟩ (g s) :=
  gives_run rfl

@[simp] theorem gives_ite {c : Prop} [Decidable c] {m' : Prog S α} :
    Gives (if c then m else m') s Q ↔ (c → Gives m s Q) ∧ (¬ c → Gives m' s Q) := by
  split_ifs with h
  · simp [h]
  · simp [h]

end rules

/-- A program that is run only if a condition holds. -/
def given (c : Prop) [Decidable c] (m : Prog S Unit) : Prog S Unit := if c then m else pure ()

@[simp] theorem gives_given {c : Prop} [Decidable c] {m : Prog S Unit} {s : S} {Q : Unit → S → Prop} :
    Gives (given c m) s Q ↔ (c → Gives m s Q) ∧ (¬ c → Q () s) := by
  rw [given, gives_ite, gives_pure]

/-! ### Part of a state -/

/-- A program on the part of the state that `get` reads and `put` replaces. -/
def onPart (get : S → T) (put : T → S → S) (m : Prog T α) : Prog S α :=
  fun s => (m.run (get s)).map fun r => (r.1, put r.2 s)

@[simp] theorem gives_onPart {get : S → T} {put : T → S → S} {m : Prog T α} {s : S} {Q : α → S → Prop} :
    Gives (onPart get put m) s Q ↔ Gives m (get s) fun a t => Q a (put t s) := by
  constructor
  · rintro ⟨a, s', hrun, hq⟩
    obtain ⟨⟨b, t⟩, hm, heq⟩ := Option.map_eq_some_iff.1 hrun
    obtain ⟨rfl, rfl⟩ := Prod.mk.inj heq
    exact ⟨b, t, hm, hq⟩
  · rintro ⟨a, t, hm, hq⟩
    exact ⟨a, put t s, Option.map_eq_some_iff.2 ⟨(a, t), hm, rfl⟩, hq⟩

/-! ### Loops -/

/-- How a turn of a loop ends: it goes on with `i`, or leaves the loop with `a`. -/
inductive Turn (ι α : Type)
  | again (i : ι)
  | leave (a : α)

/-- What is so of a turn that goes on, and of one that leaves. -/
def Turn.Ends (goes : ι → Prop) (leaves : α → Prop) : Turn ι α → Prop
  | again i => goes i
  | leave a => leaves a

@[simp] theorem Turn.ends_again {goes : ι → Prop} {leaves : α → Prop} {i : ι} :
    (Turn.again i).Ends goes leaves ↔ goes i := Iff.rfl

@[simp] theorem Turn.ends_leave {goes : ι → Prop} {leaves : α → Prop} {a : α} :
    (Turn.leave a).Ends goes leaves ↔ leaves a := Iff.rfl

/-- A loop, of no more than so many turns. -/
def loop (body : ι → Prog S (Turn ι α)) : ℕ → ι → Prog S α
  | 0, _ => failure
  | n + 1, i => do
    match ← body i with
    | .again i => loop body n i
    | .leave a => pure a

/-- **A loop ends** if every turn but the last leaves fewer turns to come. -/
theorem Gives.loop {body : ι → Prog S (Turn ι α)} {I : ℕ → ι → S → Prop} {Q : α → S → Prop}
    (hbody : ∀ k i s, I k i s →
      Gives (body i) s fun r t => r.Ends (fun j => ∃ l < k, I l j t) fun a => Q a t) :
    ∀ {n k i s}, k < n → I k i s → Gives (loop body n i) s Q := by
  intro n
  induction n with
  | zero => exact fun hk => absurd hk (Nat.not_lt_zero _)
  | succ n ih =>
    intro k i s hk hI
    rw [Programs.loop, gives_bind]
    refine (hbody k i s hI).mono ?_
    rintro (j | a) t hr
    · obtain ⟨l, hlk, hl⟩ := hr
      exact ih (by omega) hl
    · exact gives_pure.2 hr

/-- **A loop over a list ends**: each turn but the last takes the first that is left. -/
theorem Gives.loop_list {κ : Type} {body : ι → Prog S (Turn ι α)} {I : List κ → ι → S → Prop}
    {Q : α → S → Prop}
    (hcons : ∀ x xs i s, I (x :: xs) i s →
      Gives (body i) s fun r t => r.Ends (fun j => I xs j t) fun a => Q a t)
    (hnil : ∀ i s, I [] i s → Gives (body i) s fun r t => r.Ends (fun _ => False) fun a => Q a t)
    {xs : List κ} {n : ℕ} {i : ι} {s : S} (hn : xs.length < n) (hI : I xs i s) :
    Gives (Programs.loop body n i) s Q := by
  refine Gives.loop (I := fun k i s => ∃ xs : List κ, xs.length = k ∧ I xs i s) ?_ hn ⟨xs, rfl, hI⟩
  rintro _ i s ⟨xs, rfl, hI⟩
  cases xs with
  | nil =>
    refine (hnil i s hI).mono ?_
    rintro (j | a) t hr
    · exact hr.elim
    · exact hr
  | cons x xs =>
    refine (hcons x xs i s hI).mono ?_
    rintro (j | a) t hr
    · exact ⟨xs.length, Nat.lt_succ_self _, xs, rfl, hr⟩
    · exact hr

/-! ### Supplies -/

section supplies

/-- What is left of a supply, `Left s n` where it is no more than `n`, or it has run out. -/
def Lasts (Left : S → ℕ → Prop) (Dry : S → Prop) (s : S) (n : ℕ) : Prop := Dry s ∨ Left s n

/-- From `s` to `t` at least `k` of a supply is used, unless it has run out. -/
structure Drains (Left : S → ℕ → Prop) (Dry : S → Prop) (k : ℕ) (s t : S) : Prop where
  dry : Dry s → Dry t
  left : ∀ n, ¬ Dry t → Left s n → k ≤ n ∧ Left t (n - k)

/-- From `s` to `t` some of a supply is used, which had not run out. -/
def Uses (Left : S → ℕ → Prop) (Dry : S → Prop) (s t : S) : Prop :=
  ∀ n, Lasts Left Dry s n → 0 < n ∧ Lasts Left Dry t (n - 1)

variable {Left : S → ℕ → Prop} {Dry : S → Prop} {s t u : S} {j k n : ℕ}

namespace Drains

theorem refl (s : S) : Drains Left Dry 0 s s := ⟨id, fun n _ h => ⟨n.zero_le, h⟩⟩

theorem trans (hst : Drains Left Dry j s t) (htu : Drains Left Dry k t u) :
    Drains Left Dry (j + k) s u := by
  refine ⟨fun h => htu.dry (hst.dry h), ?_⟩
  intro n hu hn
  obtain ⟨hj, ht⟩ := hst.left n (mt htu.dry hu) hn
  obtain ⟨hk, hleft⟩ := htu.left (n - j) hu ht
  refine ⟨by omega, ?_⟩
  rwa [Nat.sub_sub] at hleft

theorem zero (hmono : ∀ {t : S} {m n : ℕ}, Left t m → m ≤ n → Left t n) (h : Drains Left Dry k s t) :
    Drains Left Dry 0 s t := by
  refine ⟨h.dry, ?_⟩
  intro n ht hn
  exact ⟨n.zero_le, hmono (h.left n ht hn).2 (Nat.sub_le_sub_left k.zero_le n)⟩

theorem lasts (h : Drains Left Dry 0 s t) (hs : Lasts Left Dry s n) : Lasts Left Dry t n := by
  by_cases ht : Dry t
  · exact .inl ht
  · exact .inr (h.left n ht (hs.resolve_left (mt h.dry ht))).2

/-- What is used while the supply has not run out. -/
theorem uses (hst : Drains Left Dry 1 s t) (ht : ¬ Dry t) (htu : Drains Left Dry 0 t u) :
    Uses Left Dry s u := by
  intro n hs
  obtain ⟨hn, hleft⟩ := hst.left n ht (hs.resolve_left (mt hst.dry ht))
  exact ⟨hn, htu.lasts (.inr hleft)⟩

end Drains

/-- **A loop ends** if every turn but the last uses some of a supply. -/
theorem Gives.loop_uses {body : ι → Prog S (Turn ι α)} {I : ι → S → Prop} {Q : α → S → Prop}
    (hbody : ∀ i s, I i s →
      Gives (body i) s fun r t => r.Ends (fun j => I j t ∧ Uses Left Dry s t) fun a => Q a t)
    {i : ι} (hI : I i s) (hs : Lasts Left Dry s k) (hk : k < n) : Gives (Programs.loop body n i) s Q := by
  refine Gives.loop (I := fun k i s => I i s ∧ Lasts Left Dry s k) ?_ hk ⟨hI, hs⟩
  rintro k i s ⟨hI, hs⟩
  refine (hbody i s hI).mono ?_
  rintro (j | a) t hr
  · obtain ⟨hpos, hleft⟩ := hr.2 k hs
    exact ⟨k - 1, by omega, hr.1, hleft⟩
  · exact hr

end supplies

end Programs
