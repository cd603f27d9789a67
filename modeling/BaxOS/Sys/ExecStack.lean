import BaxOS.Sys.Exec

/-!
# The stack a program starts on

`HandedOver` is what a program finds of two lists on its stack, and what `build_stack` lays out of
the lists it is given (`buildStack_handedOver`). A stack tells what lists it holds
(`HandedOver.unique`).
-/

namespace BaxOS.Exec
open ByteStore Extents

variable {top rsp i n : ℕ} {mem : Store} {args env args' env' : List (List UInt8)}

/-- Word `i` of the vector. -/
def slotAt (mem : Store) (rsp i : ℕ) : ℕ := word64 mem (rsp + 8 * i)

/-- The `n` words from word `i` on. -/
def slots (mem : Store) (rsp i n : ℕ) : List ℕ := (List.range n).map fun k => slotAt mem rsp (i + k)

/-- The auxiliary vector, which begins at word `i` and has `n` pairs before its `AT_NULL`. -/
structure AuxAt (mem : Store) (rsp i n randomAt : ℕ) : Prop where
  pairs : ∀ k, k < n → slotAt mem rsp (i + 2 * k) ≠ atNull
  ends : slotAt mem rsp (i + 2 * n) = atNull
  random : ∃ k, k < n ∧ slotAt mem rsp (i + 2 * k) = atRandom ∧
    slotAt mem rsp (i + 2 * k + 1) = randomAt

/-- The vector with its `n` pairs and `AT_NULL`, the random bytes, and the strings. -/
def regions (mem : Store) (rsp : ℕ) (args env : List (List UInt8)) (n randomAt : ℕ) : List Run :=
  (rsp, 8 * (args.length + env.length + 3 + 2 * (n + 1))) :: (randomAt, 16) ::
    runs (slots mem rsp 1 args.length ++ slots mem rsp (args.length + 2) env.length) (args ++ env)

/-- **The stack holds the lists**: how many arguments there are, pointers to them, `NULL`, pointers
to the environment's strings, `NULL`, and the auxiliary vector; nothing of it overlaps, and it is all
inside the stack that ends at `top`. -/
structure HandedOver (top : ℕ) (mem : Store) (rsp : ℕ) (args env : List (List UInt8)) : Prop where
  aligned : rsp % 16 = 0
  argc : slotAt mem rsp 0 = args.length
  argsAt : List.Forall₂ (Spells mem) (slots mem rsp 1 args.length) args
  argsEnd : slotAt mem rsp (args.length + 1) = 0
  envAt : List.Forall₂ (Spells mem) (slots mem rsp (args.length + 2) env.length) env
  envEnd : slotAt mem rsp (args.length + env.length + 2) = 0
  rest : ∃ n randomAt, AuxAt mem rsp (args.length + env.length + 3) n randomAt ∧
    (regions mem rsp args env n randomAt).Pairwise Apart ∧
    ∀ r ∈ regions mem rsp args env n randomAt, top - userStackBytes ≤ r.1 ∧ r.1 + r.2 ≤ top

@[simp] theorem length_slots (mem : Store) (rsp i n : ℕ) : (slots mem rsp i n).length = n := by
  simp [slots]

/-! ### What a stack tells -/

/-- What is spelled at the same places is the same. -/
theorem forall₂_spells_unique {as : List ℕ} (h : List.Forall₂ (Spells mem) as args)
    (h' : List.Forall₂ (Spells mem) as args') (h0 : ∀ s ∈ args, 0 ∉ s) (h0' : ∀ s ∈ args', 0 ∉ s) :
    args = args' := by
  induction h generalizing args' with
  | nil =>
    cases h'
    rfl
  | @cons a s as strs hs _ ih =>
    cases h' with
    | @cons _ s' _ strs' hs' hrest =>
      rw [hs.unique hs' (h0 s List.mem_cons_self) (h0' s' List.mem_cons_self),
        ih hrest (fun t ht => h0 t (List.mem_cons_of_mem s ht))
          (fun t ht => h0' t (List.mem_cons_of_mem s' ht))]

/-- A pointer to a string of the environment is not `NULL`. -/
theorem HandedOver.env_ne (h : HandedOver top mem rsp args env) (htop : userStackBytes < top)
    (hi : i < env.length) : slotAt mem rsp (args.length + 2 + i) ≠ 0 := by
  obtain ⟨n, randomAt, _, _, hin⟩ := h.rest
  have hmem : (slotAt mem rsp (args.length + 2 + i), env[i].length + 1) ∈
      runs (slots mem rsp 1 args.length ++ slots mem rsp (args.length + 2) env.length)
        (args ++ env) := by
    apply List.mem_iff_getElem.2
    refine ⟨args.length + i, by simp [runs]; omega, ?_⟩
    simp [runs, slots]
  have := hin _ (List.mem_cons_of_mem _ (List.mem_cons_of_mem _ hmem))
  simp only at this
  omega

/-- **A stack holds two lists only.** -/
theorem HandedOver.unique (h : HandedOver top mem rsp args env)
    (h' : HandedOver top mem rsp args' env') (htop : userStackBytes < top)
    (h0 : ∀ s ∈ args ++ env, 0 ∉ s) (h0' : ∀ s ∈ args' ++ env', 0 ∉ s) : args = args' ∧ env = env' := by
  have hlen : args.length = args'.length := h.argc.symm.trans h'.argc
  have hargs := h'.argsAt
  rw [← hlen] at hargs
  have hargs' : args = args' := forall₂_spells_unique h.argsAt hargs
    (fun s hs => h0 s (List.mem_append_left env hs))
    (fun s hs => h0' s (List.mem_append_left env' hs))
  subst hargs'
  -- each environment ends at its own first `NULL`
  have hle : ¬ env.length < env'.length := by
    intro hlt
    apply h'.env_ne htop hlt
    rw [← h.envEnd, Nat.add_right_comm]
  have hge : ¬ env'.length < env.length := by
    intro hlt
    apply h.env_ne htop hlt
    rw [← h'.envEnd, Nat.add_right_comm]
  have henv := h'.envAt
  rw [show env'.length = env.length by omega] at henv
  exact ⟨rfl, forall₂_spells_unique h.envAt henv (fun s hs => h0 s (List.mem_append_right args hs))
    fun s hs => h0' s (List.mem_append_right args hs)⟩

/-! ### What `build_stack` lays out -/

theorem forall₂_runs {R : ℕ → List UInt8 → Prop} {P : Run → Prop} {as : List ℕ}
    (h : List.Forall₂ R as args) (hP : ∀ r ∈ runs as args, P r) :
    List.Forall₂ (fun a s => R a s ∧ P (a, s.length + 1)) as args := by
  induction h with
  | nil => exact .nil
  | cons ha _ ih =>
    rw [runs_cons] at hP
    exact .cons ⟨ha, hP _ List.mem_cons_self⟩ (ih fun r hr => hP r (List.mem_cons_of_mem _ hr))

/-- A run of words that were put is read as they are. -/
theorem slots_putWords (d : Store) (rsp : ℕ) {pre seg post : List ℕ}
    (hv : ∀ v ∈ pre ++ seg ++ post, v < 2 ^ 64) :
    slots (putWords d rsp (pre ++ seg ++ post)) rsp pre.length seg.length = seg := by
  apply List.ext_getElem
  · simp
  · intro k hk hk'
    simp only [slots, slotAt, List.getElem_map, List.getElem_range]
    rw [word64_putWords hv (by simp; omega)]
    simp [hk']

theorem slotAt_putWords (d : Store) (rsp : ℕ) {pre post : List ℕ} {v : ℕ}
    (hv : ∀ w ∈ pre ++ v :: post, w < 2 ^ 64) :
    slotAt (putWords d rsp (pre ++ v :: post)) rsp pre.length = v := by
  unfold slotAt
  rw [word64_putWords hv (by simp)]
  simp

theorem slotAt_of_slots {l : List ℕ} (h : slots mem rsp i n = l) {k : ℕ} (hk : k < n) :
    slotAt mem rsp (i + k) = l.getD k 0 := by
  rw [← h]
  simp [slots, hk]

/-- The words of the vector: `argc`, the pointers with a `NULL` after each list's, and what the
auxiliary vector is. -/
def vector (a : ℕ) (strings aux : List ℕ) : List ℕ :=
  a :: strings.take a ++ 0 :: strings.drop a ++ 0 :: aux

/-- The vector as it is read. -/
structure Vector (mem : Store) (rsp a e : ℕ) (strings aux : List ℕ) : Prop where
  argc : slotAt mem rsp 0 = a
  args : slots mem rsp 1 a = strings.take a
  argsEnd : slotAt mem rsp (a + 1) = 0
  env : slots mem rsp (a + 2) e = strings.drop a
  envEnd : slotAt mem rsp (a + e + 2) = 0
  aux : slots mem rsp (a + e + 3) aux.length = aux

theorem vector_put (d : Store) (rsp : ℕ) {a e : ℕ} {strings aux : List ℕ}
    (hlen : strings.length = a + e) (hv : ∀ v ∈ vector a strings aux, v < 2 ^ 64) :
    Vector (putWords d rsp (vector a strings aux)) rsp a e strings aux := by
  have htake : (strings.take a).length = a := by simp; omega
  have hdrop : (strings.drop a).length = e := by simp; omega
  have h1 : vector a strings aux =
      [] ++ a :: (strings.take a ++ 0 :: strings.drop a ++ 0 :: aux) := by simp [vector]
  have h2 : vector a strings aux =
      [a] ++ strings.take a ++ (0 :: strings.drop a ++ 0 :: aux) := by simp [vector]
  have h3 : vector a strings aux =
      (a :: strings.take a) ++ 0 :: (strings.drop a ++ 0 :: aux) := by simp [vector]
  have h4 : vector a strings aux =
      (a :: strings.take a ++ [0]) ++ strings.drop a ++ (0 :: aux) := by simp [vector]
  have h5 : vector a strings aux =
      (a :: strings.take a ++ 0 :: strings.drop a) ++ 0 :: aux := by simp [vector]
  have h6 : vector a strings aux =
      (a :: strings.take a ++ 0 :: strings.drop a ++ [0]) ++ aux ++ [] := by simp [vector]
  constructor
  · rw [h1] at hv ⊢
    exact slotAt_putWords d rsp hv
  · rw [h2] at hv ⊢
    have := slots_putWords d rsp hv
    rwa [htake] at this
  · rw [h3] at hv ⊢
    have := slotAt_putWords d rsp hv
    rwa [List.length_cons, htake] at this
  · rw [h4] at hv ⊢
    have := slots_putWords d rsp hv
    rwa [hdrop, List.length_append, List.length_cons, htake, List.length_singleton] at this
  · rw [h5] at hv ⊢
    have := slotAt_putWords d rsp hv
    rwa [List.length_append, List.length_cons, List.length_cons, htake, hdrop,
      show a + 1 + (e + 1) = a + e + 2 by omega] at this
  · rw [h6] at hv ⊢
    have := slots_putWords d rsp hv
    rwa [List.length_append, List.length_append, List.length_cons, List.length_cons, htake, hdrop,
      List.length_singleton, show a + 1 + (e + 1) + 1 = a + e + 3 by omega] at this

/-! ### The auxiliary vector -/

/-- The words of the auxiliary vector. -/
def auxWords (l : Loaded) (randomAt execfn : ℕ) : List ℕ :=
  (auxv l randomAt execfn).flatMap fun (type, value) => [type, value]

@[simp] theorem length_auxWords (l : Loaded) (randomAt execfn : ℕ) :
    (auxWords l randomAt execfn).length = 34 := rfl

theorem auxWords_lt {l : Loaded} {randomAt execfn : ℕ} (hr : randomAt < 2 ^ 64)
    (hx : execfn < 2 ^ 64) : ∀ v ∈ auxWords l randomAt execfn, v < 2 ^ 64 := by
  intro v hv
  simp only [auxWords, auxv, atRandom, atNull, List.flatMap_cons, List.flatMap_nil, List.cons_append,
    List.nil_append, List.mem_cons, List.not_mem_nil, or_false] at hv
  have h1 := l.phdr.2
  have h2 := l.phent.2
  have h3 := l.phnum.2
  have h4 := l.base.2
  have h5 := l.entry.2
  omega

theorem auxAt_of_slots {l : Loaded} {randomAt execfn : ℕ}
    (h : slots mem rsp i 34 = auxWords l randomAt execfn) : AuxAt mem rsp i 16 randomAt where
  pairs k hk := by
    rw [slotAt_of_slots h (by omega)]
    interval_cases k <;> exact Nat.succ_ne_zero _
  ends := slotAt_of_slots h (k := 32) (by omega)
  random := ⟨14, by omega, slotAt_of_slots h (k := 28) (by omega),
    slotAt_of_slots h (k := 29) (by omega)⟩

/-! ### What `build_stack` lays out -/

/-- **What `build_stack` lays out of two lists**, which leave room for what goes below them. -/
theorem buildStack_handedOver {s : Space} {l : Loaded} {alloc : Bool} {random : Store}
    (ha : args.length ≤ execArgs) (he : env.length ≤ execEnv)
    (hsize : (packed (args ++ env)).length ≤ 0x10000)
    (h : buildStack s l alloc random args env = some (mem, rsp)) :
    HandedOver s.top mem rsp args env := by
  unfold buildStack at h
  split_ifs at h
  simp only [List.take_of_length_le ha, List.take_of_length_le he] at h
  have hbase : 2 ^ 39 ≤ s.base ∧ s.base < 2 ^ 47 := by
    have h1 := s.slot_pos
    have h2 := s.slot_lt
    unfold Space.base slotSize
    omega
  have htop : s.top = s.base + 0x01040000 := rfl
  have hL := layDown_spec l.mem s.top (hsize.trans (by omega))
  generalize layDown l.mem s.top (args ++ env) = laid at h hL
  obtain ⟨m1, bottom, strings⟩ := laid
  simp only at h hL
  obtain ⟨hbot, hspell, hapart, hin, hbelow⟩ := hL
  have hlen : strings.length = args.length + env.length := by
    rw [hspell.length_eq, List.length_append]
  set randomAt := (bottom - 16) / 16 * 16 with hr
  have hwords : ((auxv l randomAt (strings.headD 0)).flatMap fun x => [x.1, x.2]) =
      auxWords l randomAt (strings.headD 0) := rfl
  have hcount : (auxv l randomAt (strings.headD 0)).length = 17 := rfl
  rw [hwords, hcount] at h
  set R := (randomAt - (1 + args.length + 1 + env.length + 1 + 17 * 2) * 8) / 16 * 16 with hR
  simp only [Option.some.injEq, Prod.mk.injEq] at h
  obtain ⟨hmem, rfl⟩ := h
  set m2 := blit m1 randomAt 16 random with hm2
  have hbelow_top : ∀ a ∈ strings, bottom ≤ a ∧ a < s.top := by
    intro a hmem
    obtain ⟨i, hi, rfl⟩ := List.mem_iff_getElem.1 hmem
    have hi' : i < (args ++ env).length := by rwa [← hspell.length_eq]
    have hrun : (strings[i], (args ++ env)[i].length + 1) ∈ runs strings (args ++ env) := by
      apply List.mem_iff_getElem.2
      exact ⟨i, by simp [runs]; omega, by simp [runs]⟩
    have := hin _ hrun
    omega
  have hfirst : strings.headD 0 < 2 ^ 64 := by
    cases strings with
    | nil => decide
    | cons a as =>
      have := hbelow_top a List.mem_cons_self
      simp only [List.headD_cons]
      omega
  have hv : ∀ v ∈ vector args.length strings (auxWords l randomAt (strings.headD 0)), v < 2 ^ 64 := by
    intro v hv
    simp only [vector, List.mem_append, List.mem_cons] at hv
    rcases hv with ((rfl | hv) | rfl | hv) | rfl | hv
    · have : args.length ≤ 64 := ha
      omega
    · have := hbelow_top v (List.mem_of_mem_take hv)
      omega
    · decide
    · have := hbelow_top v (List.mem_of_mem_drop hv)
      omega
    · decide
    · exact auxWords_lt (by omega) hfirst v hv
  have hlenv : (vector args.length strings (auxWords l randomAt (strings.headD 0))).length =
      args.length + env.length + 37 := by
    simp [vector]
    omega
  have hvec := vector_put m2 R hlen hv
  have hmem' : putWords m2 R (vector args.length strings (auxWords l randomAt (strings.headD 0))) =
    mem := hmem
  rw [hmem'] at hvec
  have hA : args.length ≤ 64 := ha
  have hE : env.length ≤ 64 := he
  -- what goes below the strings leaves them as they were laid
  have hkeep : ∀ {x k}, bottom ≤ x → Agree m1 mem x k := by
    intro x k hx
    rw [← hmem']
    refine ((Agree.putWords ?_).trans (Agree.blit ?_)).symm
    · rw [hlenv]
      omega
    · omega
  have hspell' : List.Forall₂ (Spells mem) strings (args ++ env) :=
    (forall₂_runs hspell hin).imp fun a t h => h.1.congr (hkeep h.2.1)
  have hptrs : slots mem R 1 args.length ++ slots mem R (args.length + 2) env.length = strings := by
    rw [hvec.args, hvec.env, List.take_append_drop]
  refine ⟨by omega, hvec.argc, ?_, hvec.argsEnd, ?_, hvec.envEnd, 16, randomAt, ?_, ?_, ?_⟩
  · rw [hvec.args]
    exact List.forall₂_take_append _ _ _ hspell'
  · rw [hvec.env]
    exact List.forall₂_drop_append _ _ _ hspell'
  · exact auxAt_of_slots hvec.aux
  · unfold regions
    rw [hptrs]
    refine .cons ?_ (.cons ?_ hapart)
    · intro r hr
      rcases List.mem_cons.1 hr with rfl | hr
      · exact Or.inr (Or.inr (Or.inl (by simp only; omega)))
      · have := hin r hr
        exact Or.inr (Or.inr (Or.inl (by simp only; omega)))
    · intro r hr
      have := hin r hr
      exact Or.inr (Or.inr (Or.inl (by simp only; omega)))
  · unfold regions
    rw [hptrs]
    have hbytes : userStackBytes = 0x800000 := rfl
    intro r hr
    rcases List.mem_cons.1 hr with rfl | hr
    · simp only
      omega
    rcases List.mem_cons.1 hr with rfl | hr
    · simp only
      omega
    · have := hin r hr
      omega

end BaxOS.Exec
