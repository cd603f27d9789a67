import BaxOS.Proc.Fork

/-!
# A fork that fails

`fork_on` that returns an error leaves the table, the memory and the counts as they were, but for
the ended processes nobody waits for, which every fork forgets first, and for the tables of `share.c`,
which stay as large as `vm_fork` has made them (`forkOn_undone`): except where there is no memory for
the descriptor table or for the mappings, where it returns with the child in the table
(`forkOn_noTrace_iff`).
-/

namespace BaxOS.Proc
open Function

/-- The tables that there are. -/
def Shared.blocks (t : Shared) : List ℕ := t.entries.toList ++ t.byKey.toList ++ t.byFrame.toList

/-- Blocks not yet handed out are nobody's. -/
structure Sound (s : State) : Prop where
  taken : ∀ b, s.next ≤ b → s.taken b = false
  shared : ∀ b ∈ s.shared.blocks, b < s.next

/-- **Nothing is left of a fork**: the processes, the memory and the counts are as they were, and
`wait4` answers as it would have. -/
structure NoTrace (s s' : State) (caller : Process) : Prop where
  procs : s'.procs = s.procs
  taken : s'.taken = s.taken
  refs : s'.refs = s.refs
  waits : ∀ want, wait4 s' caller want = wait4 s caller want

/-- **What it leaves its child by**: there is a slot, and memory for the process and its first
descriptors, but none for the parent's descriptors, or none for its mappings. -/
def Stranded (s : State) (self : ℕ) (parent : Process) : Prop :=
  let big := decide (firstFiles < parent.filesRoom)
  (∃ i < processes, s.procs i = none ∨ orphan s self i) ∧ s.memory 0 = true ∧ s.memory 1 = true ∧
    (big = true ∧ s.memory 2 = false ∨
      (big = true → s.memory 2 = true) ∧ parent.maps.isSome ∧
        s.memory (2 + big.toNat + parent.cmdline.isSome.toNat) = false)

/-- There is a slot, and memory for a process and its first descriptors. -/
def Room (s : State) (self : ℕ) : Prop :=
  (∃ i < processes, s.procs i = none ∨ orphan s self i) ∧ s.memory 0 = true ∧ s.memory 1 = true

/-- For a page past the free entries, of those to be shared, there is memory for three tables: `k` answers
of `mem_alloc`'s come before, and three for each such page before it. -/
def Grows (memory : ℕ → Bool) (k pages free : ℕ) : Prop :=
  ∃ i, free + i < pages ∧ memory (k + 3 * i) = true ∧ memory (k + 3 * i + 1) = true ∧
    memory (k + 3 * i + 2) = true

/-- **What it leaves larger tables by**: a fork that makes a child in memory of its own comes to more
pages to share than `share.c` has free entries, and there is memory for more. -/
def Enlarges (s : State) (self : ℕ) (parent : Process) (share : Bool) (v : VmFork) : Prop :=
  share = false ∧ Room s self ∧ Grows s.memory (2 + (decide (firstFiles < parent.filesRoom)).toNat +
    parent.cmdline.isSome.toNat + parent.maps.isSome.toNat) v.pages v.free

/-! ### The table -/

section Table

variable {s : State} {self i : ℕ}

/-- What is given back with a process. -/
def Process.blocks (p : Process) : List ℕ :=
  (p.maps.map Block.at_).toList ++ [p.files.at_] ++ p.filesOld.toList ++
    (p.cmdline.map Block.at_).toList ++ [p.at_]

theorem memFree_taken (s : State) (o : Option ℕ) (b : ℕ) :
    (memFree s o).taken b = (s.taken b && !decide (b ∈ o.toList)) := by
  cases o with
  | none => simp [memFree]
  | some a =>
    show update s.taken a false b = _
    rcases eq_or_ne b a with rfl | hne
    · simp
    · rw [update_of_ne hne]
      simp [hne]

theorem memFree_other (s : State) (o : Option ℕ) :
    (memFree s o).procs = s.procs ∧ (memFree s o).next = s.next ∧ (memFree s o).nextId = s.nextId ∧
      (memFree s o).memory = s.memory ∧ (memFree s o).refs = s.refs ∧
      (memFree s o).shared = s.shared := by
  cases o <;> exact ⟨rfl, rfl, rfl, rfl, rfl, rfl⟩

/-- A step of the table that gives memory back and leaves all but the slot as it is. -/
theorem procFree_spec {p : Process} (hp : s.procs i = some p) :
    (procFree s i).procs = update s.procs i none ∧
      (∀ b, (procFree s i).taken b = (s.taken b && !decide (b ∈ p.blocks))) ∧
      (procFree s i).next = s.next ∧ (procFree s i).nextId = s.nextId ∧
      (procFree s i).memory = s.memory ∧ (procFree s i).refs = s.refs ∧
      (procFree s i).shared = s.shared := by
  unfold procFree
  rw [hp]
  simp only [memFree_other, true_and, and_true]
  intro b
  simp only [memFree_taken, Process.blocks, List.mem_append, Option.toList_some]
  cases s.taken b <;> simp [Bool.and_assoc]

theorem procFree_sound (hs : Sound s) (i : ℕ) : Sound (procFree s i) := by
  cases hp : s.procs i with
  | none =>
    unfold procFree
    rw [hp]
    exact hs
  | some p =>
    obtain ⟨-, htaken, hnext, -, -, -, hshared⟩ := procFree_spec hp
    refine ⟨fun b hb => ?_, fun b hb => ?_⟩
    · rw [htaken, hs.taken b (hnext ▸ hb), Bool.false_and]
    · rw [hshared] at hb
      exact hnext ▸ hs.shared b hb

theorem procFree_none (hp : s.procs i = none) : procFree s i = s := by
  unfold procFree
  rw [hp]

/-- What forgetting some of the processes leaves. -/
theorem forget_upto (n : ℕ) :
    let s' := (List.range n).foldl (fun s i => if orphan s self i then procFree s i else s) s
    (∀ i, s'.procs i = if i < n ∧ orphan s self i then none else s.procs i) ∧
      (∀ b, s'.taken b = true → s.taken b = true) ∧ s'.next = s.next ∧ s'.nextId = s.nextId ∧
      s'.memory = s.memory ∧ s'.refs = s.refs ∧ s'.shared = s.shared := by
  induction n with
  | zero => exact ⟨fun i => by simp, fun _ h => h, rfl, rfl, rfl, rfl, rfl⟩
  | succ n ih =>
    intro s'
    obtain ⟨h1, h2, h3, h4, h5, h6, h7⟩ := ih
    obtain ⟨t, ht⟩ : ∃ t, t = (List.range n).foldl
      (fun s i => if orphan s self i then procFree s i else s) s := ⟨_, rfl⟩
    have hs' : s' = if orphan t self n then procFree t n else t := by
      show List.foldl _ _ _ = _
      rw [List.range_succ, List.foldl_append, ← ht]
      rfl
    rw [← ht] at h1 h2 h3 h4 h5 h6 h7
    have hn : t.procs n = s.procs n := by
      rw [h1, if_neg]
      exact fun h => Nat.lt_irrefl n h.1
    have horphan : orphan t self n = orphan s self n := by
      unfold orphan
      rw [hn]
    have hstep : ∀ i, (if i < n + 1 ∧ orphan s self i then none else s.procs i) =
        if i = n ∧ orphan s self n then none else t.procs i := by
      intro i
      rw [h1]
      rcases eq_or_ne i n with rfl | hne
      · simp
      · have : i < n + 1 ↔ i < n := by omega
        simp [hne, this]
    rw [hs']
    simp only [hstep]
    rw [horphan]
    by_cases ho : orphan s self n = true
    · rw [if_pos ho]
      cases hp : t.procs n with
      | none =>
        rw [procFree_none hp]
        refine ⟨fun i => ?_, h2, h3, h4, h5, h6, h7⟩
        split_ifs with hi
        · rw [hi.1, hp]
        · rfl
      | some p =>
        obtain ⟨k1, k2, k3, k4, k5, k6, k7⟩ := procFree_spec hp
        refine ⟨fun i => ?_, fun b hb => ?_, k3.trans h3, k4.trans h4, k5.trans h5, k6.trans h6,
          k7.trans h7⟩
        · rw [k1]
          rcases eq_or_ne i n with rfl | hne
          · rw [update_self, if_pos ⟨rfl, ho⟩]
          · rw [update_of_ne hne, if_neg fun hc => hne hc.1]
        · rw [k2, Bool.and_eq_true] at hb
          exact h2 b hb.1
    · rw [if_neg ho]
      exact ⟨fun i => by rw [if_neg fun hc => ho hc.2], h2, h3, h4, h5, h6, h7⟩

theorem forget_spec (s : State) (self : ℕ) :
    (∀ i, (forget s self).procs i = if i < processes ∧ orphan s self i then none else s.procs i) ∧
      (∀ b, (forget s self).taken b = true → s.taken b = true) ∧
      (forget s self).next = s.next ∧ (forget s self).nextId = s.nextId ∧
      (forget s self).memory = s.memory ∧ (forget s self).refs = s.refs ∧
      (forget s self).shared = s.shared :=
  forget_upto processes

/-- Nobody waits for an orphan. -/
theorem wait4_forget {caller : Process} (hpid : caller.pid ≠ 0) (want : Want) :
    wait4 (forget s self) caller want = wait4 s caller want := by
  have hlist : ((List.range processes).filterMap (forget s self).procs).filter (wanted caller want) =
      ((List.range processes).filterMap s.procs).filter (wanted caller want) := by
    obtain ⟨hprocs, -⟩ := forget_spec s self
    have : ∀ l : List ℕ, (∀ i ∈ l, i < processes) →
        (l.filterMap (forget s self).procs).filter (wanted caller want) =
          (l.filterMap s.procs).filter (wanted caller want) := by
      intro l hl
      induction l with
      | nil => rfl
      | cons i l ih =>
        have hih := ih fun j hj => hl j (List.mem_cons_of_mem _ hj)
        rw [List.filterMap_cons, List.filterMap_cons, hprocs]
        by_cases ho : orphan s self i = true
        · rw [if_pos ⟨hl i List.mem_cons_self, ho⟩]
          unfold orphan at ho
          cases hp : s.procs i with
          | none =>
            rw [hp] at ho
            simp at ho
          | some p =>
            rw [hp] at ho
            simp only [Option.any_some, Bool.and_eq_true, decide_eq_true_eq] at ho
            have hno : wanted caller want p = false := by
              unfold wanted
              rw [ho.2.2, decide_eq_false (fun h => hpid h.symm), Bool.false_and]
            simp only [List.filter_cons, hno]
            exact hih
        · rw [if_neg fun hc => ho hc.2]
          cases s.procs i with
          | none => exact hih
          | some p =>
            simp only [List.filter_cons]
            rw [hih]
    exact this _ fun i hi => List.mem_range.1 hi
  unfold wait4
  rw [hlist]

end Table

/-! ### The child on its way -/

/-- A child as far as it is made: in its slot, with blocks of its own and maybe memory to run in, and
nothing else touched. `s0` is the state it was begun in, with `k` answers of `mem_alloc`'s taken. -/
structure Half (s0 s : State) (slot : ℕ) (c : Process) (own : Option ℕ) (k : ℕ) : Prop where
  bound : slot < processes
  free : s0.procs slot = none
  procs : s.procs = update s0.procs slot (some c)
  taken : ∀ b, s.taken b = (s0.taken b || decide (b ∈ c.blocks ++ own.toList))
  fresh : ∀ b ∈ c.blocks ++ own.toList, s0.next ≤ b ∧ b < s.next
  clear : ∀ b ∈ c.blocks ++ own.toList, s0.taken b = false
  past : ∀ b, s.next ≤ b → s0.taken b = false
  tables : ∀ b ∈ s.shared.blocks, b < s.next ∧ b ∉ c.blocks ++ own.toList
  next : s0.next ≤ s.next
  nextId : s.nextId = s0.nextId + 1
  memory : ∀ n, s.memory n = s0.memory (n + k)
  refs : s.refs = s0.refs

/-- The same process, whatever else is copied into it. -/
structure Kin (c c' : Process) : Prop where
  pid : c'.pid = c.pid
  ppid : c'.ppid = c.ppid
  zombie : c'.zombie = c.zombie
  borrowed : c'.borrowed = c.borrowed
  space : c'.space = c.space

theorem Kin.refl (c : Process) : Kin c c := ⟨rfl, rfl, rfl, rfl, rfl⟩

theorem Kin.trans {c c' c'' : Process} (h : Kin c c') (h' : Kin c' c'') : Kin c c'' :=
  ⟨h'.pid.trans h.pid, h'.ppid.trans h.ppid, h'.zombie.trans h.zombie,
    h'.borrowed.trans h.borrowed, h'.space.trans h.space⟩

/-- As it was begun, but for what was handed out and given back. -/
structure Undone (s0 s : State) : Prop where
  procs : s.procs = s0.procs
  taken : s.taken = s0.taken
  refs : s.refs = s0.refs
  next : s0.next ≤ s.next
  nextId : s0.nextId ≤ s.nextId
  sound : Sound s

namespace Half

variable {s0 s : State} {slot k : ℕ} {c : Process} {own : Option ℕ}

theorem at_slot (h : Half s0 s slot c own k) : s.procs slot = some c := by
  rw [h.procs, update_self]

/-- A change of the child that leaves its blocks. -/
theorem setProc (h : Half s0 s slot c own k) {f : Process → Process}
    (hf : (f c).blocks = c.blocks) : Half s0 (s.setProc slot f) slot (f c) own k where
  bound := h.bound
  free := h.free
  procs := by
    show update s.procs slot ((s.procs slot).map f) = _
    rw [h.at_slot, h.procs, update_idem]
    rfl
  taken := by
    rw [hf]
    exact h.taken
  fresh := by
    rw [hf]
    exact h.fresh
  clear := by
    rw [hf]
    exact h.clear
  past := h.past
  tables := by
    rw [hf]
    exact h.tables
  next := h.next
  nextId := h.nextId
  memory := h.memory
  refs := h.refs

/-- No memory: an answer of `mem_alloc`'s gone. -/
theorem refused (h : Half s0 s slot c own k) (hm : s.memory 0 = false) :
    (memAlloc s).1 = none ∧ Half s0 (memAlloc s).2 slot c own (k + 1) := by
  unfold memAlloc
  rw [hm]
  exact ⟨rfl, h.bound, h.free, h.procs, h.taken, h.fresh, h.clear, h.past, h.tables, h.next, h.nextId,
    fun n => (h.memory (n + 1)).trans (by rw [Nat.add_assoc, Nat.add_comm 1]), h.refs⟩

/-- A block handed out that is the child's or its memory's then, maybe for one of theirs. -/
theorem given (h : Half s0 s slot c own k) {s' : State} {c' : Process} {own' : Option ℕ} {k' : ℕ}
    (gone : Option ℕ) (hgone : ∀ b ∈ gone, b ∈ c.blocks ++ own.toList)
    (hmem : ∀ b, b ∈ c'.blocks ++ own'.toList ↔ b = s.next ∨ b ∈ c.blocks ++ own.toList ∧ b ∉ gone)
    (hprocs : s'.procs = update s.procs slot (some c')) (hnext : s'.next = s.next + 1)
    (htaken : ∀ b, s'.taken b = (!decide (b ∈ gone) && (decide (b = s.next) || s.taken b)))
    (hid : s'.nextId = s.nextId) (hmemory : ∀ n, s'.memory n = s0.memory (n + k')) (hrefs : s'.refs = s.refs)
    (hshared : s'.shared = s.shared) : Half s0 s' slot c' own' k' where
  bound := h.bound
  free := h.free
  procs := by rw [hprocs, h.procs, update_idem]
  taken b := by
    rw [htaken, h.taken]
    simp only [hmem]
    by_cases hb : b ∈ gone
    · have hne : b ≠ s.next := (h.fresh b (hgone b hb)).2.ne
      simp [hb, hne, h.clear b (hgone b hb)]
    · have hno : gone ≠ some b := hb
      rcases eq_or_ne b s.next with rfl | hn <;> simp [*]
  fresh b hb := by
    rw [hnext]
    rcases (hmem b).1 hb with rfl | ⟨hb, -⟩
    · exact ⟨h.next, Nat.lt_succ_self _⟩
    · exact ⟨(h.fresh b hb).1, Nat.lt_succ_of_lt (h.fresh b hb).2⟩
  clear b hb := by
    rcases (hmem b).1 hb with rfl | ⟨hb, -⟩
    · exact h.past _ le_rfl
    · exact h.clear b hb
  past b hb := h.past b (by omega)
  tables b hb := by
    obtain ⟨hlt, hno⟩ := h.tables b (hshared ▸ hb)
    exact ⟨by omega, fun hin => ((hmem b).1 hin).elim hlt.ne fun hin => hno hin.1⟩
  next := hnext ▸ Nat.le_succ_of_le h.next
  nextId := hid.trans h.nextId
  memory := hmemory
  refs := hrefs.trans h.refs

/-- A block of `mem_alloc`'s, put in the child. -/
theorem alloc (h : Half s0 s slot c own k) (hm : s.memory 0 = true) {f : Process → Process}
    (hf : ∀ b, b ∈ (f c).blocks ↔ b = s.next ∨ b ∈ c.blocks) :
    (memAlloc s).1 = some s.next ∧ Half s0 ((memAlloc s).2.setProc slot f) slot (f c) own (k + 1) := by
  unfold memAlloc
  rw [hm]
  refine ⟨rfl, h.given none (by simp) (fun b => ?_) ?_ rfl (fun b => ?_) rfl (fun n => ?_) rfl rfl⟩
  · simp [hf, or_assoc]
  · exact congrArg (fun p => update s.procs slot (p.map f)) h.at_slot
  · rcases eq_or_ne b s.next with rfl | hne <;> simp [State.setProc, update, *]
  · exact (h.memory (n + 1)).trans (by rw [Nat.add_assoc, Nat.add_comm 1])

/-- A block of `mem_alloc`'s, put in the child for one of its own. -/
theorem replaced (h : Half s0 s slot c own k) (hm : s.memory 0 = true)
    {f : Process → Process} (old : ℕ) (hold : old ∈ c.blocks) (hown : old ∉ own.toList)
    (hf : ∀ b, b ∈ (f c).blocks ↔ b = s.next ∨ b ∈ c.blocks ∧ b ≠ old) :
    Half s0 ((memFree (memAlloc s).2 (some old)).setProc slot f) slot (f c) own (k + 1) := by
  unfold memAlloc
  rw [hm]
  refine h.given (some old) (by simp [hold]) (fun b => ?_) ?_ rfl (fun b => ?_) rfl (fun n => ?_) rfl rfl
  · have hne : b ∈ own.toList → b ≠ old := fun hb heq => hown (heq ▸ hb)
    rw [List.mem_append, hf, List.mem_append, Option.mem_some_iff, eq_comm (a := old)]
    tauto
  · exact congrArg (fun p => update s.procs slot (p.map f)) h.at_slot
  · rcases eq_or_ne b old with rfl | hbo
    · simp [State.setProc, memFree]
    · rcases eq_or_ne b s.next with rfl | hne <;> simp [State.setProc, memFree, update, hbo.symm, *]
  · exact (h.memory (n + 1)).trans (by rw [Nat.add_assoc, Nat.add_comm 1])

/-- Blocks not yet handed out are still nobody's. -/
theorem sound (h : Half s0 s slot c own k) : Sound s where
  taken b hb := by
    rw [h.taken, h.past b hb, Bool.false_or]
    exact decide_eq_false fun hmem => absurd (h.fresh b hmem).2 (Nat.not_lt.2 hb)
  shared b hb := (h.tables b hb).1

/-- **`proc_free`**: the state it was begun in, but for what `mem_alloc` answered. -/
theorem undone (h : Half s0 s slot c own k) : Undone s0 (procFree (memFree s own) slot) := by
  obtain ⟨hprocs, hnext, hid, -, hrefs, hshared⟩ := memFree_other s own
  obtain ⟨h1, h2, h3, h4, -, h6, h7⟩ := procFree_spec (hprocs ▸ h.at_slot)
  have htaken : (procFree (memFree s own) slot).taken = s0.taken := funext fun b => by
    rw [h2, memFree_taken, h.taken]
    by_cases hb : b ∈ c.blocks ++ own.toList
    · rw [h.clear b hb]
      rw [List.mem_append] at hb
      rcases hb with hb | hb <;> simp [hb]
    · rw [decide_eq_false hb]
      rw [List.mem_append, not_or] at hb
      simp [hb.1, hb.2]
  refine ⟨?_, htaken, h6.trans (hrefs.trans h.refs), ?_, ?_, ⟨fun b hb => ?_, fun b hb => ?_⟩⟩
  · rw [h1, hprocs, h.procs, update_idem, ← h.free, update_eq_self]
  · rw [h3, hnext]
    exact h.next
  · rw [h4, hid, h.nextId]
    exact Nat.le_succ _
  · rw [htaken]
    exact h.past b (by rwa [h3, hnext] at hb)
  · rw [h3, hnext]
    exact (h.tables b (by rwa [h7, hshared] at hb)).1

end Half

/-! ### The tables of `share.c` -/

section Tables

variable {s s0 t : State} {slot k pages free : ℕ} {c : Process} {own : Option ℕ} {kept : ℕ → Bool}
  {grown grown' : Prop}

/-- There is memory for three tables. -/
def had (s : State) : Bool := s.memory 0 && s.memory 1 && s.memory 2

theorem grow_other (s : State) :
    (grow s).1 = had s ∧ (grow s).2.procs = s.procs ∧ (grow s).2.nextId = s.nextId ∧
      (grow s).2.memory = (fun n => s.memory (n + 3)) ∧ (grow s).2.refs = s.refs ∧
      s.next ≤ (grow s).2.next := by
  unfold grow had memAlloc
  cases h0 : s.memory 0 <;> cases h1 : s.memory 1 <;> cases h2 : s.memory 2 <;>
    simp [h1, h2, memFree_other] <;> omega

/-- Without memory for all three, what there was for one is given back. -/
theorem grow_none (hs : Sound s) (hm : had s = false) :
    (grow s).2.taken = s.taken ∧ (grow s).2.shared = s.shared := by
  have hclear := hs.taken
  unfold had at hm
  unfold grow memAlloc
  cases h0 : s.memory 0 <;> cases h1 : s.memory 1 <;> cases h2 : s.memory 2 <;>
    simp [h1, h2, memFree] <;> simp_all
  all_goals
    funext b
    simp [update_apply]
    grind

/-- What is taken with three new blocks for the tables there are. -/
def regrown (s : State) (taken : ℕ → Bool) (b : ℕ) : Bool :=
  decide (s.next ≤ b ∧ b < s.next + 3) || taken b && !decide (b ∈ s.shared.blocks)

/-- Three blocks for those there were. -/
theorem grow_had (hs : Sound s) (hm : had s = true) :
    (∀ b, (grow s).2.taken b = regrown s s.taken b) ∧ (grow s).2.next = s.next + 3 ∧
      (grow s).2.shared.blocks = [s.next, s.next + 1, s.next + 2] := by
  unfold regrown
  unfold had at hm
  simp only [Bool.and_eq_true] at hm
  obtain ⟨⟨h0, h1⟩, h2⟩ := hm
  unfold grow memAlloc
  simp [h0, h1, h2, memFree_other, Shared.blocks, memFree_taken]
  intro b
  have hold := hs.shared b
  have hclear := hs.taken b
  simp [Shared.blocks] at hold
  simp [update_apply]
  grind

/-- **What is left of memory**, the child's aside, when the tables have grown or have not. -/
structure Kept (s : State) (grown : Prop) (kept : ℕ → Bool) : Prop where
  same : ¬grown → kept = s.taken
  more : grown → ∃ b, s.next ≤ b ∧ kept b = true
  back : ∀ b, kept b = true → s.taken b = true ∨ s.next ≤ b

theorem Kept.start (s : State) (h : ¬grown) : Kept s grown s.taken :=
  ⟨fun _ => rfl, fun hg => absurd hg h, fun _ hb => Or.inl hb⟩

theorem Kept.congr (h : Kept s grown kept) (hg : grown ↔ grown') : Kept s grown' kept :=
  propext hg ▸ h

theorem grows_succ_succ {m : ℕ → Bool} : Grows m k (pages + 1) (free + 1) ↔ Grows m k pages free := by
  unfold Grows
  simp only [Nat.add_right_comm free 1, Nat.add_lt_add_iff_right]

/-- The first page there is no entry for, or a later one. -/
theorem grows_succ_zero : Grows s.memory 0 (pages + 1) 0 ↔
    had s = true ∨ Grows (fun n => s.memory (n + 3)) 0 pages 0 := by
  unfold Grows had
  simp only [Nat.zero_add, Bool.and_eq_true]
  constructor
  · rintro ⟨i, hi, h0, h1, h2⟩
    cases i with
    | zero => exact Or.inl ⟨⟨h0, h1⟩, h2⟩
    | succ i => exact Or.inr ⟨i, Nat.lt_of_succ_lt_succ hi, h0, h1, h2⟩
  · rintro (⟨⟨h0, h1⟩, h2⟩ | ⟨i, hi, h0, h1, h2⟩)
    · exact ⟨0, Nat.succ_pos _, h0, h1, h2⟩
    · exact ⟨i + 1, Nat.succ_lt_succ hi, h0, h1, h2⟩

/-- What `mem_alloc` will answer, seen from where the child was begun. -/
theorem grows_of_half (h : Half s0 s slot c own k) :
    Grows s.memory 0 pages free ↔ Grows s0.memory k pages free := by
  unfold Grows
  simp only [h.memory, Nat.zero_add, Nat.add_comm k, Nat.add_right_comm _ k]

/-- With the tables as they were. -/
theorem Half.with_taken (h : Half s0 s slot c own k) (hk : kept = s0.taken) :
    Half { s0 with taken := kept } s slot c own k := by
  rw [hk]
  exact h

theorem Undone.with_taken (h : Undone s0 s) (hk : kept = s0.taken) :
    Undone { s0 with taken := kept } s := by
  rw [hk]
  exact h

namespace Half

/-- Tables that do not grow. -/
theorem grow_none (h : Half s0 s slot c own k) (hm : had s = false) :
    Half s0 (grow s).2 slot c own (k + 3) := by
  obtain ⟨-, hprocs, hid, hmem, hrefs, hnext⟩ := grow_other s
  obtain ⟨htaken, hshared⟩ := Proc.grow_none h.sound hm
  refine ⟨h.bound, h.free, hprocs.trans h.procs, fun b => htaken ▸ h.taken b,
    fun b hb => ⟨(h.fresh b hb).1, (h.fresh b hb).2.trans_le hnext⟩, h.clear,
    fun b hb => h.past b (hnext.trans hb), fun b hb => ?_, h.next.trans hnext, hid.trans h.nextId,
    fun n => ?_, hrefs.trans h.refs⟩
  · rw [hshared] at hb
    exact ⟨(h.tables b hb).1.trans_le hnext, (h.tables b hb).2⟩
  · rw [hmem]
    exact (h.memory (n + 3)).trans (by rw [Nat.add_assoc, Nat.add_comm 3])

/-- Tables that grow: as if the child had been begun with the larger ones there. -/
theorem grow_had (h : Half s0 s slot c own k) (hm : had s = true) :
    Half { s0 with taken := regrown s s0.taken } (grow s).2 slot c own (k + 3) := by
  obtain ⟨-, hprocs, hid, hmem, hrefs, -⟩ := grow_other s
  obtain ⟨htaken, hnext, hblocks⟩ := Proc.grow_had h.sound hm
  refine ⟨h.bound, h.free, hprocs.trans h.procs, fun b => ?_, fun b hb => ?_, fun b hb => ?_,
    fun b hb => ?_, fun b hb => ?_, ?_, hid.trans h.nextId, fun n => ?_, hrefs.trans h.refs⟩
  · rw [htaken]
    unfold regrown
    rw [h.taken]
    have hno := fun hb => (h.tables b hb).2
    by_cases hin : b ∈ c.blocks ++ own.toList
    · rw [decide_eq_true hin, decide_eq_false fun hb => hno hb hin]
      simp
    · rw [decide_eq_false hin]
      simp
  · obtain ⟨hle, hlt⟩ := h.fresh b hb
    rw [hnext]
    exact ⟨hle, by omega⟩
  · have hlt := (h.fresh b hb).2
    show regrown s s0.taken b = false
    unfold regrown
    rw [h.clear b hb, decide_eq_false (by omega)]
    rfl
  · rw [hnext] at hb
    show regrown s s0.taken b = false
    unfold regrown
    rw [h.past b (by omega), decide_eq_false (by omega)]
    rfl
  · rw [hblocks] at hb
    rw [hnext]
    have hb : s.next ≤ b ∧ b < s.next + 3 := by
      simp only [List.mem_cons, List.not_mem_nil, or_false] at hb
      omega
    exact ⟨hb.2, fun hin => Nat.not_lt.2 hb.1 (h.fresh b hin).2⟩
  · rw [hnext]
    exact h.next.trans (Nat.le_add_right _ 3)
  · rw [hmem]
    exact (h.memory (n + 3)).trans (by rw [Nat.add_assoc, Nat.add_comm 3])

/-- **`shared_adopt`, of page after page.** -/
theorem adoptPages (pages free : ℕ) (h : Half { t with taken := kept } s slot c own k)
    (hk : Kept t grown kept) : ∃ kept' k',
      Half { t with taken := kept' } (adoptPages pages free s) slot c own k' ∧
        Kept t (grown ∨ Grows s.memory 0 pages free) kept' := by
  induction pages generalizing free s kept k grown with
  | zero =>
    refine ⟨kept, k, h, hk.congr (or_iff_left ?_).symm⟩
    rintro ⟨i, hi, -⟩
    exact Nat.not_lt_zero _ hi
  | succ pages ih =>
    cases free with
    | succ free =>
      obtain ⟨kept', k', hhalf, hkept⟩ := ih free h hk
      exact ⟨kept', k', hhalf, hkept.congr (or_congr_right grows_succ_succ.symm)⟩
    | zero =>
      obtain ⟨hgrew, -, -, hmem, -⟩ := grow_other s
      rw [show Proc.adoptPages (pages + 1) 0 s = Proc.adoptPages pages
        (if (grow s).1 then (grow s).2.shared.room - s.shared.room - 1 else 0) (grow s).2 from rfl,
        grows_succ_zero, ← or_assoc]
      cases hm : had s with
      | false =>
        rw [hm] at hgrew
        obtain ⟨kept', k', hhalf, hkept⟩ := ih 0 (h.grow_none hm) hk
        rw [hmem] at hkept
        rw [hgrew, if_neg Bool.false_ne_true]
        exact ⟨kept', k', hhalf, hkept.congr (by simp)⟩
      | true =>
        rw [hm] at hgrew
        -- from here on they have grown, whatever comes after
        have hgrown : Kept t True (regrown s kept) := by
          unfold regrown
          refine ⟨fun hno => absurd trivial hno, fun _ => ⟨s.next, h.next, ?_⟩, fun b hb => ?_⟩
          · rw [decide_eq_true ⟨le_rfl, Nat.lt_add_of_pos_right three_pos⟩, Bool.true_or]
          · rw [Bool.or_eq_true, decide_eq_true_eq, Bool.and_eq_true] at hb
            rcases hb with hb | hb
            · exact Or.inr (h.next.trans hb.1)
            · exact hk.back b hb.1
        obtain ⟨kept', k', hhalf, hkept⟩ := ih _ (h.grow_had hm) hgrown
        rw [hgrew, if_pos rfl]
        exact ⟨kept', k', hhalf, hkept.congr (by simp)⟩

end Half

end Tables

/-! ### The steps of a fork -/

section Steps

variable {s0 s : State} {self slot k : ℕ} {c parent : Process}

theorem forget_sound (hs : Sound s) : Sound (forget s self) := by
  obtain ⟨-, htaken, hnext, -, -, -, hshared⟩ := forget_spec s self
  refine ⟨fun b hb => ?_, fun b hb => ?_⟩
  · rw [hnext] at hb
    exact Bool.eq_false_iff.2 fun ht => Bool.eq_false_iff.1 (hs.taken b hb) (htaken b ht)
  · rw [hshared] at hb
    rw [hnext]
    exact hs.shared b hb

theorem forget_eq_none {i : ℕ} (hi : i < processes) :
    (forget s self).procs i = none ↔ s.procs i = none ∨ orphan s self i := by
  rw [(forget_spec s self).1 i]
  by_cases ho : orphan s self i = true
  · rw [if_pos ⟨hi, ho⟩]
    exact iff_of_true rfl (Or.inr ho)
  · rw [if_neg fun h => ho h.2]
    exact ⟨Or.inl, fun h => h.resolve_right ho⟩

/-- `proc_new`: nothing, or an empty child in a free slot. -/
theorem procNew_spec (hs : Sound s) {r : Option ℕ} {s' : State} (hr : procNew s self = (r, s')) :
    match r with
    | none => ¬Room s self ∧ Undone (forget s self) s'
    | some slot => Room s self ∧ ∃ c, Half (forget s self) s' slot c none 2 ∧ c.maps = none ∧
        c.filesOld = none ∧ c.cmdline = none ∧ c.files.at_ ≠ c.at_ ∧ c.pid = s.nextId ∧
        c.ppid = 0 ∧ c.zombie = false ∧ c.borrowed = false ∧ c.space = none := by
  have hsound : Sound (forget s self) := forget_sound hs
  have hmemory : (forget s self).memory = s.memory := (forget_spec s self).2.2.2.2.1
  have hid : (forget s self).nextId = s.nextId := (forget_spec s self).2.2.2.1
  have hslot : ∀ i < processes, ((forget s self).procs i).isNone = true ↔
      s.procs i = none ∨ orphan s self i := fun i hi =>
    Option.isNone_iff_eq_none.trans (forget_eq_none hi)
  unfold procNew at hr
  simp only at hr
  obtain ⟨s0, hs0⟩ : ∃ s0, forget s self = s0 := ⟨_, rfl⟩
  rw [hs0] at hsound hmemory hid hslot hr ⊢
  cases hfind : (List.range processes).find? fun i => (s0.procs i).isNone with
  | none =>
    rw [hfind] at hr
    obtain ⟨rfl, rfl⟩ := hr
    refine ⟨fun ⟨⟨i, hi, hfree⟩, _⟩ => ?_, rfl, rfl, rfl, le_refl _, le_refl _, hsound⟩
    exact List.find?_eq_none.1 hfind i (List.mem_range.2 hi) ((hslot i hi).2 hfree)
  | some slot =>
    rw [hfind] at hr
    have hlt : slot < processes := List.mem_range.1 (List.mem_of_find?_eq_some hfind)
    have hnone := List.find?_some hfind
    have hfree : s0.procs slot = none := Option.isNone_iff_eq_none.1 hnone
    simp only [memAlloc] at hr
    cases h0 : s0.memory 0 with
    | false =>
      rw [h0] at hr
      obtain ⟨rfl, rfl⟩ := hr
      refine ⟨fun ⟨_, hm, _⟩ => ?_, rfl, rfl, rfl, le_refl _, le_refl _, hsound.taken, hsound.shared⟩
      rw [← hmemory, h0] at hm
      exact Bool.false_ne_true hm
    | true =>
      rw [h0] at hr
      cases h1 : s0.memory 1 with
      | false =>
        simp only [if_true, zero_add, h1, Bool.false_eq_true, if_false] at hr
        obtain ⟨rfl, rfl⟩ := hr
        have htaken : update (update s0.taken s0.next true) s0.next false = s0.taken := by
          rw [update_idem, ← hsound.taken s0.next (le_refl _), update_eq_self]
        refine ⟨fun ⟨_, _, hm⟩ => ?_, ?_, htaken, rfl, Nat.le_succ _, le_refl _, fun b hb => ?_,
          fun b hb => Nat.lt_succ_of_lt (hsound.shared b hb)⟩
        · rw [← hmemory, h1] at hm
          exact Bool.false_ne_true hm
        · show update s0.procs slot none = _
          rw [← hfree, update_eq_self]
        · exact (congrFun htaken b).trans (hsound.taken b (Nat.le_of_succ_le hb))
      | true =>
        simp only [if_true, zero_add, h1] at hr
        obtain ⟨rfl, rfl⟩ := hr
        have hblocks : ∀ b, b ∈ [s0.next + 1, s0.next] ++ (none : Option ℕ).toList ↔
            b = s0.next + 1 ∨ b = s0.next := fun b => by simp
        refine ⟨⟨⟨slot, hlt, (hslot slot hlt).1 hnone⟩, hmemory ▸ h0, hmemory ▸ h1⟩, _,
          ⟨hlt, hfree, rfl, fun b => ?_, fun b hb => ?_, fun b hb => ?_,
            fun b hb => hsound.taken b (Nat.le_of_succ_le (Nat.le_of_succ_le hb)), fun b hb => ?_,
            Nat.le_add_right _ 2, rfl, fun n => rfl, rfl⟩,
          rfl, rfl, rfl, Nat.succ_ne_self _, hid, rfl, rfl, rfl, rfl⟩
        · show update (update s0.taken s0.next true) (s0.next + 1) true b =
            (s0.taken b || decide (b ∈ [s0.next + 1, s0.next] ++ (none : Option ℕ).toList))
          simp only [hblocks]
          rcases eq_or_ne b (s0.next + 1) with rfl | h2
          · simp
          · rw [update_of_ne h2]
            rcases eq_or_ne b s0.next with rfl | h3
            · simp
            · rw [update_of_ne h3]
              simp [h2, h3]
        · have hb := (hblocks b).1 hb
          show s0.next ≤ b ∧ b < s0.next + 1 + 1
          omega
        · have hb := (hblocks b).1 hb
          exact hsound.taken b (by omega)
        · have hlt := hsound.shared b hb
          refine ⟨?_, fun hin => ?_⟩
          · show b < s0.next + 1 + 1
            omega
          · have hin := (hblocks b).1 hin
            omega

/-- The descriptors: without memory for a larger table, the child as it is. -/
theorem copyFiles_spec (h : Half s0 s slot c none k) (hmaps : c.maps = none)
    (hold : c.filesOld = none) (hline : c.cmdline = none) (hne : c.files.at_ ≠ c.at_)
    {r : Bool} {s' : State} (hr : copyFiles s slot parent = (r, s')) :
    let big := decide (firstFiles < parent.filesRoom)
    (r = true ↔ (big = true → s0.memory k = true)) ∧
      ∃ c', Half s0 s' slot c' none (k + big.toNat) ∧ c'.maps = none ∧ c'.cmdline = none ∧
        Kin c c' := by
  have hmem : s.memory 0 = s0.memory k := (h.memory 0).trans (by rw [Nat.zero_add])
  unfold copyFiles at hr
  by_cases hbig : firstFiles < parent.filesRoom
  · rw [if_pos hbig] at hr
    simp only [hbig, decide_true, Bool.toNat_true, true_implies]
    cases hm : s.memory 0 with
    | false =>
      obtain ⟨hnone, hhalf⟩ := h.refused hm
      rw [show memAlloc s = (none, (memAlloc s).2) from Prod.ext hnone rfl] at hr
      obtain ⟨rfl, rfl⟩ := hr
      rw [← hmem, hm]
      exact ⟨Iff.rfl, c, hhalf, hmaps, hline, Kin.refl c⟩
    | true =>
      have hsome : (memAlloc s).1 = some s.next := by
        unfold memAlloc
        rw [hm]
        rfl
      rw [show memAlloc s = (some s.next, (memAlloc s).2) from Prod.ext hsome rfl] at hr
      obtain ⟨rfl, rfl⟩ := hr
      have hprocs : (memAlloc s).2.procs slot = some c := by
        unfold memAlloc
        rw [hm]
        exact h.at_slot
      rw [hprocs, ← hmem, hm]
      refine ⟨iff_of_true rfl rfl, _, h.replaced hm c.files.at_ ?_ List.not_mem_nil fun b => ?_,
        hmaps, hline, rfl, rfl, rfl, rfl, rfl⟩
      · simp [Process.blocks]
      · simp only [Process.blocks, hmaps, hold, hline, Option.map_none, Option.toList_none,
          List.nil_append, List.append_nil, List.mem_append, List.mem_singleton]
        grind
  · rw [if_neg hbig] at hr
    obtain ⟨rfl, rfl⟩ := hr
    simp only [hbig, decide_false, Bool.toNat_false, Bool.false_eq_true, false_implies]
    exact ⟨trivial, _, h.setProc rfl, hmaps, hline, rfl, rfl, rfl, rfl, rfl⟩

/-- The arguments: without memory for them, the child as it is. -/
theorem copyCmdline_spec (parent : Process) (h : Half s0 s slot c none k) (hmaps : c.maps = none)
    (hline : c.cmdline = none) :
    ∃ c', Half s0 (copyCmdline s slot parent) slot c' none (k + parent.cmdline.isSome.toNat) ∧
      c'.maps = none ∧ Kin c c' := by
  unfold copyCmdline
  cases parent.cmdline with
  | none => exact ⟨c, h, hmaps, Kin.refl c⟩
  | some line =>
    cases hm : s.memory 0 with
    | false =>
      obtain ⟨hnone, hhalf⟩ := h.refused hm
      rw [show memAlloc s = (none, (memAlloc s).2) from Prod.ext hnone rfl]
      exact ⟨c, hhalf, hmaps, Kin.refl c⟩
    | true =>
      have hblocks : ∀ b, b ∈ { c with cmdline := some ⟨s.next, line.data⟩ }.blocks ↔
          b = s.next ∨ b ∈ c.blocks := fun b => by
        simp only [Process.blocks, hmaps, hline, Option.map_none, Option.map_some, Option.toList_none,
          Option.toList_some, List.nil_append, List.append_nil, List.mem_append, List.mem_singleton]
        tauto
      obtain ⟨hsome, hhalf⟩ := h.alloc (f := fun c => { c with cmdline := some ⟨s.next, line.data⟩ })
        hm hblocks
      rw [show memAlloc s = (some s.next, (memAlloc s).2) from Prod.ext hsome rfl]
      exact ⟨_, hhalf, hmaps, rfl, rfl, rfl, rfl, rfl⟩

/-- The mappings: without memory for them, the child as it is. -/
theorem copyMaps_spec (h : Half s0 s slot c none k) (hmaps : c.maps = none) {r : Bool} {s' : State}
    (hr : copyMaps s slot parent = (r, s')) :
    (r = true ↔ (parent.maps.isSome = true → s0.memory k = true)) ∧
      ∃ c', Half s0 s' slot c' none (k + parent.maps.isSome.toNat) ∧ Kin c c' := by
  have hmem : s.memory 0 = s0.memory k := (h.memory 0).trans (by rw [Nat.zero_add])
  unfold copyMaps at hr
  cases hp : parent.maps with
  | none =>
    rw [hp] at hr
    obtain ⟨rfl, rfl⟩ := hr
    exact ⟨iff_of_true rfl fun hno => Bool.noConfusion hno, c, h, Kin.refl c⟩
  | some maps =>
    rw [hp] at hr
    rw [← hmem]
    cases hm : s.memory 0 with
    | false =>
      obtain ⟨hnone, hhalf⟩ := h.refused hm
      rw [show memAlloc s = (none, (memAlloc s).2) from Prod.ext hnone rfl] at hr
      obtain ⟨rfl, rfl⟩ := hr
      exact ⟨iff_of_false Bool.false_ne_true fun hno => Bool.false_ne_true (hno rfl), c, hhalf,
        Kin.refl c⟩
    | true =>
      have hblocks : ∀ b, b ∈ { c with maps := some ⟨s.next, maps.data⟩ }.blocks ↔
          b = s.next ∨ b ∈ c.blocks := fun b => by
        simp only [Process.blocks, hmaps, Option.map_none, Option.map_some, Option.toList_none,
          Option.toList_some, List.nil_append, List.mem_append, List.mem_singleton]
        tauto
      obtain ⟨hsome, hhalf⟩ := h.alloc (f := fun c => { c with maps := some ⟨s.next, maps.data⟩ })
        hm hblocks
      rw [show memAlloc s = (some s.next, (memAlloc s).2) from Prod.ext hsome rfl] at hr
      obtain ⟨rfl, rfl⟩ := hr
      exact ⟨iff_of_true rfl fun _ => rfl, _, hhalf, rfl, rfl, rfl, rfl, rfl⟩

/-- A block for the child to run in. -/
theorem Half.space (h : Half s0 s slot c none k) :
    Half s0 (({ s with next := s.next + 1, taken := update s.taken s.next true }).setProc slot fun c =>
      { c with space := some s.next }) slot { c with space := some s.next } (some s.next) k := by
  refine h.given none (by simp) (fun b => ?_) ?_ rfl (fun b => ?_) rfl h.memory rfl rfl
  · simp only [Process.blocks, List.mem_append, Option.toList_some, Option.toList_none, List.mem_singleton,
      List.not_mem_nil, or_false, Option.mem_def, reduceCtorEq, not_false_eq_true, and_true]
    tauto
  · exact congrArg (fun p => update s.procs slot (p.map fun c => { c with space := some s.next })) h.at_slot
  · rcases eq_or_ne b s.next with rfl | hne <;> simp [State.setProc, update, *]

/-- The memory: the parent's is not the child's to give back, and the tables of `share.c` are nobody's
to give back. -/
theorem copySpace_spec (h : Half s0 s slot c none k) (hb : c.borrowed = false) {share r : Bool}
    {v : VmFork} {s' : State} (hr : copySpace s slot parent share v = (r, s')) :
    ∃ kept k', Kept s0 (share = false ∧ Grows s.memory 0 v.pages v.free) kept ∧
      if r then ∃ c', Half { s0 with taken := kept } s' slot c' (if share then none else c'.space) k' ∧
        c'.pid = c.pid ∧ c'.ppid = c.ppid ∧ c'.zombie = c.zombie ∧ c'.borrowed = share ∧
        if share then c'.space = parent.space else c'.space.isSome = true
      else Half { s0 with taken := kept } s' slot c none k' := by
  unfold copySpace at hr
  cases share with
  | true =>
    obtain ⟨rfl, rfl⟩ := hr
    exact ⟨_, k, .start s0 fun hg => Bool.noConfusion hg.1, _, h.setProc rfl, rfl, rfl, rfl, rfl, rfl⟩
  | false =>
    obtain ⟨kept, k', hhalf, hkept⟩ := h.adoptPages v.pages v.free (Kept.start s0 not_false)
    refine ⟨kept, k', hkept.congr (by simp), ?_⟩
    cases hdone : v.done with
    | false =>
      rw [hdone] at hr
      obtain ⟨rfl, rfl⟩ := hr
      exact hhalf
    | true =>
      rw [hdone] at hr
      obtain ⟨rfl, rfl⟩ := hr
      exact ⟨_, hhalf.space, rfl, rfl, rfl, hb, rfl⟩

/-- A child of the caller's, not ended. -/
structure Child (s : State) (parent c : Process) : Prop where
  pid : c.pid = s.nextId
  ppid : c.ppid = parent.pid
  zombie : c.zombie = false

/-- What a fork leaves, with its answer: nothing; a child half made; or a child, in memory it borrows
or in memory of its own. -/
inductive Outcome (s : State) (self : ℕ) (parent : Process) (share : Bool) (a : Answers)
    (r : Except Error ℕ × State) : Prop
  | undone (e : Error) (he : r.1 = .error e) (hno : ¬Stranded s self parent) {kept : ℕ → Bool}
      (hk : Kept (forget s self) (Enlarges s self parent share a.vmFork) kept)
      (h : Undone { forget s self with taken := kept } r.2)
  | stranded (e : Error) (he : r.1 = .error e) (hst : Stranded s self parent) {slot k : ℕ} {c : Process}
      (h : Half (forget s self) r.2 slot c none k) (hc : Child s parent c) (hb : c.borrowed = false)
      (hsp : c.space = none)
  | made {s1 : State} {slot k : ℕ} {c : Process} {kept : ℕ → Bool} (hok : r.1 = .ok c.pid)
      (hspawn : a.threadSpawn = true)
      (hslot : (procNew s self).1 = some slot)
      (hk : Kept (forget s self) (Enlarges s self parent share a.vmFork) kept)
      (h : Half { forget s self with taken := kept } s1 slot c (if share then none else c.space) k)
      (hhold : r.2 = holdAll s1 parent.files.data parent.filesRoom) (hc : Child s parent c)
      (hb : c.borrowed = share)
      (hsp : if share then c.space = parent.space else c.space.isSome = true)

/-- **A fork**: undone, or with its child in the table. -/
theorem forkOn_spec (hs : Sound s) (share : Bool) (a : Answers) (hp : s.procs self = some parent) :
    Outcome s self parent share a (forkOn s self share a) := by
  have hsound : Sound (forget s self) := forget_sound hs
  have hmemory : (forget s self).memory = s.memory := (forget_spec s self).2.2.2.2.1
  unfold forkOn
  simp only [hp]
  rcases hnew : procNew s self with ⟨_ | slot, s1⟩
  · obtain ⟨hroom, hundone⟩ := procNew_spec hs hnew
    exact .undone .eagain rfl (fun hst => hroom ⟨hst.1, hst.2.1, hst.2.2.1⟩)
      (.start _ fun hlarge => hroom hlarge.2.1) hundone
  obtain ⟨hroom, c, hhalf, hmaps, hold, hline, hne, hpid, -, hzombie, hborrowed, hspace⟩ :=
    procNew_spec hs hnew
  simp only
  have hchild := hhalf.setProc (f := fun c =>
    { c with ppid := parent.pid, pgid := parent.pgid, sid := parent.sid }) rfl
  rcases hfiles : copyFiles (s1.setProc slot fun c =>
    { c with ppid := parent.pid, pgid := parent.pgid, sid := parent.sid }) slot parent with
    ⟨_ | _, s2⟩
  all_goals
    obtain ⟨hbig, c2, hhalf2, hmaps2, hline2, hkin2⟩ :=
      copyFiles_spec hchild hmaps hold hline hne hfiles
    rw [hmemory] at hbig
    simp only
  · rw [Bool.false_eq_true, false_iff, Classical.not_imp, Bool.not_eq_true] at hbig
    exact .stranded .enospc rfl ⟨hroom.1, hroom.2.1, hroom.2.2, Or.inl hbig⟩ hhalf2
      ⟨hkin2.pid.trans hpid, hkin2.ppid, hkin2.zombie.trans hzombie⟩ (hkin2.borrowed.trans hborrowed)
      (hkin2.space.trans hspace)
  replace hbig := hbig.1 rfl
  obtain ⟨c3, hhalf3, hmaps3, hkin3⟩ := copyCmdline_spec parent hhalf2 hmaps2 hline2
  rcases hcopy : copyMaps (copyCmdline s2 slot parent) slot parent with ⟨_ | _, s4⟩
  all_goals
    obtain ⟨hm, c4, hhalf4, hkin4⟩ := copyMaps_spec hhalf3 hmaps3 hcopy
    have hkin := (hkin2.trans hkin3).trans hkin4
    rw [hmemory] at hm
    simp only
  · rw [Bool.false_eq_true, false_iff, Classical.not_imp, Bool.not_eq_true] at hm
    exact .stranded .enospc rfl ⟨hroom.1, hroom.2.1, hroom.2.2, Or.inr ⟨hbig, hm⟩⟩ hhalf4
      ⟨hkin.pid.trans hpid, hkin.ppid, hkin.zombie.trans hzombie⟩ (hkin.borrowed.trans hborrowed)
      (hkin.space.trans hspace)
  replace hm := hm.1 rfl
  have hno : ¬Stranded s self parent := by
    rintro ⟨-, -, -, ⟨hb, hf⟩ | ⟨-, hsome, hf⟩⟩
    · rw [hbig hb] at hf
      exact Bool.noConfusion hf
    · rw [hm hsome] at hf
      exact Bool.noConfusion hf
  have hhalf5 := hhalf4.setProc (f := fun c => { c with rest := parent.rest }) rfl
  rcases hcopied : copySpace (s4.setProc slot fun c => { c with rest := parent.rest }) slot parent share
    a.vmFork with ⟨_ | _, s5⟩
  all_goals
    obtain ⟨kept, k6, hkept, hlast⟩ := copySpace_spec hhalf5 (hkin.borrowed.trans hborrowed) hcopied
    have hlarge : share = false ∧ Grows s4.memory 0 a.vmFork.pages a.vmFork.free ↔
        Enlarges s self parent share a.vmFork := by
      rw [grows_of_half hhalf4, hmemory]
      exact and_congr_right fun _ => (and_iff_right hroom).symm
    replace hkept := hkept.congr hlarge
    simp only
  · rw [if_neg Bool.false_ne_true] at hlast
    exact .undone .enomem rfl hno hkept hlast.undone
  · rw [if_pos rfl] at hlast
    obtain ⟨c6, hhalf6, hpid6, hppid6, hzombie6, hborrowed6, hspace6⟩ := hlast
    cases hspawn : a.threadSpawn with
    | true =>
      refine .made ?_ hspawn (congrArg Prod.fst hnew) hkept hhalf6 rfl
        ⟨hpid6.trans (hkin.pid.trans hpid), hppid6.trans hkin.ppid, hzombie6.trans
          (hkin.zombie.trans hzombie)⟩ hborrowed6 hspace6
      rw [if_pos rfl, hhalf6.at_slot]
      rfl
    | false =>
      rw [if_neg Bool.false_ne_true, hhalf6.at_slot]
      cases share with
      | true => exact .undone .eagain rfl hno hkept hhalf6.undone
      | false => exact .undone .eagain rfl hno hkept hhalf6.undone

/-- **A fork that fails**: undone, or with its child in the table. -/
theorem forkOn_error (hs : Sound s) {share : Bool} {a : Answers} {e : Error}
    (hp : s.procs self = some parent) (he : (forkOn s self share a).1 = .error e) :
    ¬Stranded s self parent ∧ (∃ kept,
      Kept (forget s self) (Enlarges s self parent share a.vmFork) kept ∧
      Undone { forget s self with taken := kept } (forkOn s self share a).2) ∨
      Stranded s self parent ∧
        ∃ slot c k, Half (forget s self) (forkOn s self share a).2 slot c none k := by
  cases forkOn_spec hs share a hp with
  | undone _ _ hno hk h => exact Or.inl ⟨hno, _, hk, h⟩
  | stranded _ _ hst h => exact Or.inr ⟨hst, _, _, _, h⟩
  | made hok =>
    rw [hok] at he
    cases he

end Steps

/-! ### What is left -/

section Left

variable {s s' : State} {self : ℕ} {parent : Process}

/-- With nobody to forget, `forget` changes nothing. -/
theorem forget_self (h : ∀ i < processes, orphan s self i = false) : forget s self = s := by
  unfold forget
  have : ∀ l : List ℕ, (∀ i ∈ l, i < processes) →
      l.foldl (fun s i => if orphan s self i then procFree s i else s) s = s := by
    intro l hl
    induction l with
    | nil => rfl
    | cons i l ih =>
      rw [List.foldl_cons, h i (hl i List.mem_cons_self), if_neg Bool.false_ne_true]
      exact ih fun j hj => hl j (List.mem_cons_of_mem _ hj)
  exact this _ fun i hi => List.mem_range.1 hi

/-- `wait4` goes by the table alone. -/
theorem wait4_congr (h : s'.procs = s.procs) (caller : Process) (want : Want) :
    wait4 s' caller want = wait4 s caller want := by
  unfold wait4
  rw [h]

variable {share : Bool} {a : Answers} {e : Error}

/-- A fork that fails and is not left half made: as if it had but forgotten the ended ones nobody
waits for, which the caller's `wait4` does not tell, and made the tables of `share.c` larger. -/
theorem forkOn_undone (hs : Sound s) (hp : s.procs self = some parent) (hpid : parent.pid ≠ 0)
    (he : (forkOn s self share a).1 = .error e) (hno : ¬Stranded s self parent) :
    (∃ kept, Kept (forget s self) (Enlarges s self parent share a.vmFork) kept ∧
      Undone { forget s self with taken := kept } (forkOn s self share a).2) ∧
      ∀ want, wait4 (forkOn s self share a).2 parent want = wait4 s parent want := by
  rcases forkOn_error hs hp he with ⟨-, kept, hkept, hundone⟩ | ⟨hst, -⟩
  · exact ⟨⟨kept, hkept, hundone⟩, fun want =>
      (wait4_congr (s := forget s self) hundone.procs _ _).trans (wait4_forget hpid want)⟩
  · exact absurd hst hno

/-- **A fork that fails leaves no trace** just when its child is not left half made, the tables of
`share.c` have not grown for it, and there was no ended process that nobody waits for, to be forgotten
first. -/
theorem forkOn_noTrace_iff (hs : Sound s) (hp : s.procs self = some parent)
    (he : (forkOn s self share a).1 = .error e) :
    NoTrace s (forkOn s self share a).2 parent ↔
      ¬Stranded s self parent ∧ ¬Enlarges s self parent share a.vmFork ∧
        ∀ i < processes, orphan s self i = false := by
  obtain ⟨hprocs, -, hnext, -⟩ := forget_spec s self
  constructor
  · intro h
    rcases forkOn_error hs hp he with ⟨hno, kept, hkept, hundone⟩ | ⟨-, slot, c, k, hhalf⟩
    · refine ⟨hno, fun hlarge => ?_, fun i hi => Bool.eq_false_iff.2 fun ho => ?_⟩
      · -- a table is memory that was nobody's
        obtain ⟨b, hb, htaken⟩ := hkept.more hlarge
        have hsame : kept b = s.taken b := by
          rw [← h.taken, hundone.taken]
        rw [hsame, hs.taken b (hnext ▸ hb)] at htaken
        exact Bool.false_ne_true htaken
      · -- an orphan is somebody, and no longer there
        have hgone : s.procs i = none := by
          rw [← h.procs, hundone.procs]
          exact (hprocs i).trans (if_pos ⟨hi, ho⟩)
        unfold orphan at ho
        rw [hgone] at ho
        simp at ho
    · -- the record of the child is memory that was nobody's
      have hat : c.at_ ∈ c.blocks ++ (none : Option ℕ).toList := by
        simp [Process.blocks]
      have hfresh := (hhalf.fresh c.at_ hat).1
      rw [hnext] at hfresh
      have htaken := hhalf.taken c.at_
      rw [h.taken, hs.taken _ hfresh, decide_eq_true hat, Bool.or_true] at htaken
      exact absurd htaken Bool.false_ne_true
  · rintro ⟨hno, hlarge, horphans⟩
    rcases forkOn_error hs hp he with ⟨-, kept, hkept, hundone⟩ | ⟨hst, -⟩
    · rw [hkept.same hlarge] at hundone
      rw [forget_self horphans] at hundone
      exact ⟨hundone.procs, hundone.taken, hundone.refs, fun want => wait4_congr hundone.procs _ want⟩
    · exact absurd hst hno

end Left

/-- A process with a mapping, alone. -/
def mapped : Process :=
  ⟨0, 7, 1, 7, 7, 0, false, false, ⟨1, fun _ => none⟩, firstFiles, none, none, some ⟨2, [(16, 1)]⟩, some 3⟩

/-- It alone in the table, no tables in `share.c`, and memory as `memory` says. -/
def holding (memory : ℕ → Bool) : State :=
  ⟨fun i => if i = 0 then some mapped else none, fun b => decide (b < 4), 4, 8, memory, fun _ => 0,
    ⟨none, none, none, 0⟩⟩

theorem holding_sound (memory : ℕ → Bool) : Sound (holding memory) :=
  ⟨fun _ hb => decide_eq_false (Nat.not_lt.2 hb), fun _ hb => absurd hb List.not_mem_nil⟩

/-- A fork of it that there is no thread for, after the tables have grown for its one page. -/
theorem forkOn_noTrace_iff_mapped :
    (NoTrace (holding fun _ => true) (forkOn (holding fun _ => true) 0 false ⟨⟨1, 0, true⟩, false⟩).2
      mapped ↔ ¬Stranded (holding fun _ => true) 0 mapped ∧
        ¬Enlarges (holding fun _ => true) 0 mapped false ⟨1, 0, true⟩ ∧
        ∀ i < processes, orphan (holding fun _ => true) 0 i = false) :=
  forkOn_noTrace_iff (e := .eagain) (holding_sound _) rfl (by decide +kernel)

/-- Memory for two blocks more. -/
def twoLeft : State := holding fun n => decide (n < 2)

/-- **A fork that leaves its child in the table**: it fails with `FS_ENOSPC`, and `wait4`, which had
no child to wait for, has one that never runs. -/
theorem exists_trace :
    (forkOn twoLeft 0 false ⟨⟨1, 1, true⟩, true⟩).1 = .error .enospc ∧
      (∀ i < processes, orphan twoLeft 0 i = false) ∧
      wait4 twoLeft mapped .any = .echild ∧
      wait4 (forkOn twoLeft 0 false ⟨⟨1, 1, true⟩, true⟩).2 mapped .any = .none_ ∧
      ¬NoTrace twoLeft (forkOn twoLeft 0 false ⟨⟨1, 1, true⟩, true⟩).2 mapped := by
  refine ⟨by decide +kernel, fun i hi => ?_, by decide +kernel, by decide +kernel, fun h => ?_⟩
  · unfold orphan
    rcases eq_or_ne i 0 with rfl | hne
    · rfl
    · show (decide (i ≠ 0) && (if i = 0 then some mapped else none : Option Process).any _) = false
      rw [if_neg hne]
      exact Bool.and_false _
  · exact absurd (h.waits .any) (by decide +kernel)

end BaxOS.Proc
