import BaxOS.Proc.Crew

/-!
# What a step does

What a step comes down to is said here once (`Comes`), a fork, an `execve` and a `program_start` among it
(`step_comes`). Every step, whatever programs do and whatever memory there is, keeps what holds of the
threads and of the records (`Inv.step`).
-/

namespace BaxOS.Proc
namespace Kernel
open Function

variable {s s' : Kernel} {i p : ℕ} {t u : Thread} {r : Process}

/-- What the kernel itself runs is nobody's child. -/
structure Rooted (s : Kernel) : Prop where
  ppid : ∀ {t p r}, s.Live 0 t → t.proc = some p → s.table.procs p = some r → r.ppid = 0

theorem Rooted.change (h : Rooted s)
    (hback : ∀ {t p r}, s'.Live 0 t → t.proc = some p → s'.table.procs p = some r →
      r.ppid = 0 ∨ ∃ u d, s.Live 0 u ∧ u.proc = some p ∧ s.table.procs p = some d ∧ r.ppid = d.ppid) :
    Rooted s' where
  ppid ht hp hr := by
    rcases hback ht hp hr with h0 | ⟨u, d, hu, hup, hd, hrd⟩
    · exact h0
    · rw [hrd]
      exact h.ppid hu hup hd

/-- **What holds in every state.** -/
structure Inv (s : Kernel) : Prop where
  crew : Crew s
  books : Books s.table s.ended s.spaces
  rooted : Rooted s

theorem Same.rooted (hs : Same s s') (h : Rooted s)
    (hlive : ∀ {t}, s'.Live 0 t → ∃ u, s.Live 0 u ∧ t.proc = u.proc) : Rooted s' :=
  h.change fun {t p r} ht hp hr => by
    obtain ⟨u, hu, htu⟩ := hlive ht
    exact Or.inr ⟨u, r, hu, htu ▸ hp, by rw [← hs.table]; exact hr, rfl⟩

theorem Same.books (hs : Same s s') (h : Books s.table s.ended s.spaces) :
    Books s'.table s'.ended s'.spaces := by
  rw [hs.table, hs.ended, hs.spaces]
  exact h

/-- The record of a process that runs. -/
theorem Inv.record (h : Inv s) (ht : s.Live i t) (hp : t.proc = some p) :
    ∃ r, s.table.procs p = some r ∧ r.zombie = false :=
  (h.crew.home ht hp).2

/-! ### Ends -/

theorem Inv.threadYield (h : Inv s) (ht : s.Live s.cur t) (hx : t.exiting = false) (k : After) :
    Inv (s.threadYield k) := by
  obtain ⟨hlive, -, hsame⟩ := threadYield_live ht k
  refine ⟨h.crew.threadYield ht hx k, hsame.books h.books, hsame.rooted h.rooted fun {u} hu => ?_⟩
  rcases hlive.1 hu with ⟨h0, rfl⟩ | ⟨-, hu⟩
  · exact ⟨t, h0 ▸ ht, rfl⟩
  · exact ⟨u, hu, rfl⟩

theorem Inv.endOthers (h : Inv s) : Inv s.endOthers :=
  ⟨h.crew.endOthers, (endOthers_same s).books h.books, (endOthers_same s).rooted h.rooted
    fun hu => ⟨_, (live_endOthers.1 hu).1, rfl⟩⟩

theorem Inv.leave (h : Inv s) (h0 : s.cur ≠ 0) : Inv s.leave := by
  obtain ⟨t0, ht0, -⟩ := h.crew.kernel
  obtain ⟨hlive, -, hsame⟩ := leave_live h.crew.cur_lt ht0 h0
  exact ⟨h.crew.leave h0, hsame.books h.books, hsame.rooted h.rooted
    fun hu => ⟨_, (hlive.1 hu).2, rfl⟩⟩

theorem Inv.ends (h : Inv s) (ht : s.Live s.cur t) (hp : t.proc = some p) (he : Ends s s' p r) :
    Inv s' := by
  obtain ⟨c, hc, hz⟩ := h.record ht hp
  obtain rfl := Option.some.inj (hc.symm.trans he.record)
  have hbooks := h.books.processEnd hc hz
  refine ⟨he.crew h.crew, ?_, h.rooted.change fun {u q d} hu huq hd => ?_⟩
  swap
  · rcases eq_or_ne 0 s.cur with h0 | h0
    · rw [(he.idle (h0 ▸ hu)).2.2.1] at huq
      exact nomatch huq
    · have hu' := he.others hu h0
      have hne : q ≠ p := fun heq => he.gone hu (heq ▸ huq)
      obtain ⟨⟨ppid, -, hprocs⟩, -⟩ := processEnd_spec hc
      have hend : (Proc.processEnd s.table p).procs q = some d := by
        rcases he.table with htable | ⟨-, htable⟩
        · rw [← htable, hd]
        · rw [htable, (procFree_spec ((hprocs p).trans (if_pos rfl))).1, update_of_ne hne] at hd
          exact hd
      rw [hprocs, if_neg hne] at hend
      obtain ⟨e, he', rfl⟩ := Option.map_eq_some_iff.1 hend
      unfold Process.left
      split_ifs
      · exact Or.inl rfl
      · exact Or.inr ⟨u, e, hu', huq, he', rfl⟩
  rw [he.ended, he.spaces]
  rcases he.table with htable | ⟨-, htable⟩
  · rw [htable]
    exact hbooks
  · rw [htable]
    obtain ⟨⟨ppid, -, hprocs⟩, -⟩ := processEnd_spec hc
    have hover := (hprocs p).trans (if_pos rfl)
    obtain ⟨h1, h2, h3, h4, -⟩ := procFree_spec hover
    refine hbooks.drop (fun i => ?_) (fun b hb => ?_) (procFree_sound hbooks.sound p) h3.ge h4.ge
    · rw [h1]
      rcases eq_or_ne i p with rfl | hne
      · rw [update_self, hover]
        exact Or.inr ⟨rfl, fun r hr => by rw [← Option.some.inj hr]; rfl⟩
      · exact Or.inl (update_of_ne hne _ _)
    · rw [h2, Bool.and_eq_true] at hb
      exact Or.inl hb.1

theorem Inv.processExit (h : Inv s) (ht : s.Live s.cur t) (hp : t.proc = some p)
    (hx : t.exiting = false) : Inv s.processExit := by
  have ht' : s.endOthers.Live s.endOthers.cur t := live_endOthers.2 ⟨ht, Or.inr (Or.inl rfl)⟩
  cases processExit_spec h.crew ht hp hx with
  | ends _ he => exact h.endOthers.ends ht' hp he
  | @asked l u _ ha =>
    refine ⟨ha.crew h.crew ht hp, ha.same.books h.books, ha.same.rooted h.rooted fun {v} hv => ?_⟩
    obtain ⟨-, ⟨h0, rfl⟩ | ⟨-, hv⟩⟩ := ha.live.1 hv
    · exact ⟨u, h0 ▸ ha.leader.1, rfl⟩
    · exact ⟨v, hv, rfl⟩
  | lost _ _ h0 hs =>
    rw [hs]
    exact h.endOthers.leave h0

theorem Inv.threadExit (h : Inv s) (ht : s.Live s.cur t) (hp : t.proc = some p)
    (hx : t.exiting = false) : Inv s.threadExit := by
  cases threadExit_spec h.crew ht hp hx with
  | waits _ _ hs =>
    rw [hs]
    exact h.threadYield ht hx .exits
  | ends _ _ he => exact h.ends ht hp he
  | leaves _ h0 hs =>
    rw [hs]
    exact h.leave h0

/-! ### Changes of the table -/

/-- The table changed, no process that runs lost. -/
theorem Inv.of_table (h : Inv s) {table : State} (hbooks : Books table s.ended s.spaces)
    (hkeep : ∀ {q c}, s.table.procs q = some c → c.zombie = false →
      ∃ d, table.procs q = some d ∧ d.zombie = false ∧ d.ppid = c.ppid) : Inv { s with table } := by
  refine ⟨h.crew.of_threads rfl rfl fun _ _ hr => ?_, hbooks, h.rooted.change fun {t q d} ht hq hd => ?_⟩
  · obtain ⟨hlt, c, hc, hz⟩ := hr
    obtain ⟨d, hd, hdz, -⟩ := hkeep hc hz
    exact ⟨hlt, d, hd, hdz⟩
  · obtain ⟨c, hc, hz⟩ := h.record ht hq
    obtain ⟨e, he, -, hep⟩ := hkeep hc hz
    exact Or.inr ⟨t, c, ht, hq, hc, by rw [← hep, Option.some.inj (he.symm.trans hd)]⟩

/-- What `wait4` collects has ended. -/
theorem collect_spec (s : Kernel) (want : Want) :
    s.collect want = s ∨ ∃ r i c, s.proc.bind s.table.procs = some r ∧ s.table.procs i = some c ∧
      c.zombie = true ∧ wanted r want c = true ∧
      s.collect want = { s with table := procFree s.table i } := by
  unfold collect
  cases s.proc.bind s.table.procs with
  | none => exact Or.inl rfl
  | some r =>
    simp only
    cases hf : (List.range processes).find? fun i =>
        (s.table.procs i).any fun c => wanted r want c && c.zombie with
    | none => exact Or.inl rfl
    | some i =>
      have hi := List.find?_some hf
      simp only [Option.any_eq_true, Bool.and_eq_true] at hi
      obtain ⟨c, hc, hw, hz⟩ := hi
      exact Or.inr ⟨r, i, c, rfl, hc, hz, hw, rfl⟩

theorem Inv.collected (h : Inv s) {c : Process} (hc : s.table.procs i = some c) (hz : c.zombie = true) :
    Inv { s with table := procFree s.table i } := by
  obtain ⟨h1, h2, h3, h4, -⟩ := procFree_spec hc
  refine h.of_table (h.books.drop (fun j => ?_) (fun b hb => ?_) (procFree_sound h.books.sound i) h3.ge
    h4.ge) fun {q d} hd hdz => ?_
  · rw [h1]
    rcases eq_or_ne j i with rfl | hne
    · rw [update_self, hc]
      exact Or.inr ⟨rfl, fun r hr => Option.some.inj hr ▸ hz⟩
    · exact Or.inl (update_of_ne hne _ _)
  · rw [h2, Bool.and_eq_true] at hb
    exact Or.inl hb.1
  · refine ⟨d, ?_, hdz, rfl⟩
    rw [h1, update_of_ne fun heq => ?_, hd]
    rw [heq, hc] at hd
    rw [← Option.some.inj hd, hz] at hdz
    exact nomatch hdz

/-- A process changed, its id, its state and its memory as they were. -/
theorem Inv.setProc (h : Inv s) {f : Process → Process}
    (hf : ∀ c, (f c).pid = c.pid ∧ (f c).zombie = c.zombie ∧ (f c).borrowed = c.borrowed ∧
      (f c).space = c.space) (hppid : ∀ c, (f c).ppid = c.ppid)
    (hz : ∀ c, s.table.procs p = some c → c.zombie = false) (refs : ℕ → ℕ) :
    Inv { s with table := { s.table with refs }.setProc p f } := by
  refine h.of_table (h.books.setProc hf hz refs) fun {q c} hc hcz => ?_
  rw [setProc_procs]
  split_ifs with hq
  · exact ⟨f c, by rw [← hq]; exact congrArg (Option.map f) hc, (hf c).2.1.trans hcz, hppid c⟩
  · exact ⟨c, hc, hcz, rfl⟩

theorem Inv.setFile (h : Inv s) (fd : ℕ) (handle : Option Handle) : Inv (s.setFile fd handle) := by
  unfold Kernel.setFile
  cases hp : s.proc with
  | none => exact h
  | some p =>
    obtain ⟨t, ht⟩ := h.crew.cur
    obtain ⟨r, hr, hz⟩ := h.record ht (ht.proc_eq.symm.trans hp)
    exact h.setProc (f := fun c => { c with files := ⟨c.files.at_, update c.files.data fd handle⟩ })
      (fun _ => ⟨rfl, rfl, rfl, rfl⟩) (fun _ => rfl) (fun c hc => Option.some.inj (hr.symm.trans hc) ▸ hz) s.table.refs

/-! ### Threads and processes started -/

/-- A place for a thread, and a stack. -/
theorem Inv.reap (h : Inv s) (ht : s.Live s.cur t) : Inv s.reap :=
  ⟨h.crew.change (fun {_ u} hu => ⟨u, live_reap.1 hu, rfl, rfl, rfl, id⟩) ⟨t, live_reap.2 ht⟩
    (h.crew.kernel.imp fun _ hu => live_reap.2 hu.1) (fun _ _ hr => hr)
    (fun hu => h.crew.exits (live_reap.1 hu)) (fun hu => h.crew.away (live_reap.1 hu)), h.books,
    (reap_same s).rooted h.rooted fun hu => ⟨_, live_reap.1 hu, rfl⟩⟩

theorem Inv.create (h : Inv s) (ht : s.Live s.cur t) (hp : t.proc = some p) (hplace : t.place = .user)
    (ha : Added s s' i ⟨some p, false, s.table.nextId, false, false, .threadStart, .start⟩) : Inv s' := by
  refine ⟨ha.crew h.crew (Or.inr ⟨rfl, rfl⟩) (h.crew.home ht hp) (fun hno => nomatch hno)
    fun {j u} hu hup => ?_, ?_, h.rooted.change fun {u q r} hu hq hr => ?_⟩
  · -- a leader about to start would be the one running
    rcases Bool.eq_false_or_eq_true u.leader with hul | hul
    · refine Or.inl fun hs => ?_
      have heq := h.crew.fresh hu ht hs hul (hup.trans hp.symm)
      rw [heq] at hu
      rw [hu.eq ht, hplace] at hs
      exact nomatch hs
    · exact Or.inr hul
  · rw [ha.table, ha.ended, ha.spaces]
    exact h.books.nextId
  · rcases ha.live.1 hu with ⟨h0, -⟩ | hu
    · exact absurd h0.symm ha.bound.1
    · rw [ha.table] at hr
      exact Or.inr ⟨u, r, hu, hq, hr, rfl⟩

/-- What `fork_on` leaves. -/
inductive Forks (s : Kernel) (p : ℕ) (r : Process) (share : Bool) (s' : Kernel) : Prop
  | undone {table : State} {kept : ℕ → Bool} (hs : s' = { s with table })
      (hk : ∀ b, kept b = true → (forget s.table p).taken b = true ∨ (forget s.table p).next ≤ b)
      (h : Undone { forget s.table p with taken := kept } table)
  | stranded {table : State} {slot k : ℕ} {c : Process} (hs : s' = { s with table })
      (hst : Stranded s.table p r) (h : Half (forget s.table p) table slot c none k)
      (hc : Child s.table r c) (hb : c.borrowed = false) (hsp : c.space = none)
  | made {table : State} {spaces kept : ℕ → Bool} {slot k i : ℕ} {c : Process} {s1 : Kernel}
      {refs : ℕ → ℕ}
      (hk : ∀ b, kept b = true → (forget s.table p).taken b = true ∨ (forget s.table p).next ≤ b)
      (h : Half { forget s.table p with taken := kept } table slot c (if share then none else c.space) k)
      (hc : Child s.table r c) (hb : c.borrowed = share)
      (hsp : if share then c.space = r.space else c.space.isSome = true)
      (hspaces : ∀ b, spaces b = true → s.spaces b = true ∨
        c.borrowed = false ∧ c.space = some b ∧ (if share then none else c.space) = some b)
      (ha : Added { s with table := { table with refs }, spaces } s1 i
        ⟨some slot, true, table.nextId, false, false, .processEntry, .start⟩)
      (hs : s' = if share then s1.threadYield (.vfork slot c.pid) else s1)

theorem fork_spec (h : Inv s) (hp : s.proc = some p) (hr : s.table.procs p = some r)
    (share : Bool) (vmFork : VmFork) (stack : Bool) : Forks s p r share (s.fork share vmFork stack) := by
  unfold fork
  rw [hp]
  simp only
  have hspec := forkOn_spec h.books.sound share ⟨vmFork, s.freeThread.isSome && stack⟩ hr
  rcases hf : forkOn s.table p share ⟨vmFork, s.freeThread.isSome && stack⟩ with ⟨res, table⟩
  rw [hf] at hspec
  cases hspec with
  | undone e he hno hk hu =>
    simp only at he
    rw [he]
    cases (procNew s.table p).1 <;> exact .undone rfl hk.back hu
  | stranded e he hst hh hc hb hsp =>
    simp only at he
    rw [he]
    cases (procNew s.table p).1 <;> exact .stranded rfl hst hh hc hb hsp
  | @made s1 slot k c kept hok hspawn hslot hk hh hhold hc hb hsp =>
    simp only at hok hhold hspawn
    rw [hok, hslot]
    simp only
    have hat : table.procs slot = some c := by
      rw [hhold]
      exact hh.at_slot
    obtain ⟨spaces, hspaces⟩ : ∃ spaces, spaces =
      (if share = true then s.spaces else noted s.spaces ((table.procs slot).bind Process.space)) :=
      ⟨_, rfl⟩
    rw [← hspaces]
    obtain ⟨i, ha⟩ := (threadNew_spec { s with table, spaces } slot true .processEntry stack).1 hspawn
    have hmark : ∀ b, spaces b = true → s.spaces b = true ∨
        c.borrowed = false ∧ c.space = some b ∧ (if share then none else c.space) = some b := by
      intro b hb'
      rw [hspaces, hat] at hb'
      split_ifs at hb' ⊢ with hshare
      · exact Or.inl hb'
      · rw [Option.bind_some] at hb'
        cases hcs : c.space with
        | none =>
          rw [hcs] at hb'
          exact Or.inl hb'
        | some a =>
          rw [hcs] at hb'
          rcases eq_or_ne b a with rfl | hne
          · exact Or.inr ⟨hb.trans (Bool.eq_false_iff.2 hshare), rfl, rfl⟩
          · exact Or.inl ((update_of_ne hne _ _).symm.trans hb')
    subst hhold
    exact .made hk.back hh hc hb hsp hmark ha rfl

/-- The process of a thread that lives is not a child just made. -/
theorem live_ne_slot (h : Inv s) {table : State} {slot k : ℕ} {c : Process} {own : Option ℕ}
    {self : ℕ} {kept : ℕ → Bool}
    (hh : Half { forget s.table self with taken := kept } table slot c own k) (hu : s.Live i u) :
    u.proc ≠ some slot := fun hup => by
  obtain ⟨d, hd, hz⟩ := h.record hu hup
  exact (hh.keep (forget_keep hd hz)).1 rfl

theorem Inv.forks (h : Inv s) (ht : s.Live s.cur t) (hx : t.exiting = false) {share : Bool}
    (hf : Forks s p r share s') : Inv s' := by
  cases hf with
  | undone hs hk hu =>
    rw [hs]
    refine h.of_table ((h.books.forget p).undone hk hu) fun {q c} hc hz => ⟨c, ?_, hz, rfl⟩
    rw [hu.procs]
    dsimp only
    rw [forget_keep hc hz]
  | stranded hs _ hh hc hb hsp =>
    rw [hs]
    have hpid : _ = (forget s.table p).nextId := hc.pid.trans (forget_spec s.table p).2.2.2.1.symm
    refine h.of_table ((h.books.forget p).half (fun b => Or.inl) (hh.with_taken rfl) hpid hc.zombie fun b => Or.inl)
      fun {q c} hc hz => ⟨c, ((hh.with_taken rfl).keep (forget_keep hc hz)).2, hz, rfl⟩
  | @made table spaces kept slot k i c s1 refs hk hh hc hb hsp hspaces ha hs =>
    have hpid : c.pid = (forget s.table p).nextId := hc.pid.trans (forget_spec s.table p).2.2.2.1.symm
    have hbooks := ((h.books.forget p).half hk hh hpid hc.zombie hspaces).refs refs
    have hmid : Inv { s with table := { table with refs }, spaces } := by
      refine ⟨h.crew.of_threads rfl rfl fun _ _ hr => ?_, hbooks,
        h.rooted.change fun {u q d} hu hq hd => ?_⟩
      · obtain ⟨hlt, d, hd, hz⟩ := hr
        exact ⟨hlt, d, (hh.keep (forget_keep hd hz)).2, hz⟩
      · obtain ⟨e, he, hz⟩ := h.record hu hq
        have hde := Option.some.inj (hd.symm.trans (hh.keep (forget_keep he hz)).2)
        exact Or.inr ⟨u, e, hu, hq, he, by rw [hde]⟩
    have hnone : ∀ {j u}, s.Live j u → u.proc ≠ some slot := fun hu => live_ne_slot h hh hu
    have hadd : Inv s1 := by
      refine ⟨ha.crew hmid.crew (Or.inl ⟨rfl, rfl⟩) ⟨hh.bound, c, hh.at_slot, hc.zombie⟩
        (fun _ {j u} hu => hnone hu) fun {j u} hu hup => absurd hup (hnone hu), ?_,
        hmid.rooted.change fun {u q r} hu hq hr => ?_⟩
      · rw [ha.table, ha.ended, ha.spaces]
        exact hbooks.nextId
      · rcases ha.live.1 hu with ⟨h0, -⟩ | hu
        · exact absurd h0.symm ha.bound.1
        · rw [ha.table] at hr
          exact Or.inr ⟨u, r, hu, hq, hr, rfl⟩
    rw [hs]
    split_ifs
    · exact hadd.threadYield (ha.cur ▸ ha.live.2 (Or.inr ht)) hx _
    · exact hadd

/-- What `sys_execve` leaves: the other threads gone, the process with memory of its own; and, where
the program cannot be loaded, what `process_exit` leaves of that. -/
structure Execs (s : Kernel) (p : ℕ) (r : Process) (s1 : Kernel) : Prop where
  inv : Inv s1
  live : ∀ {i u}, s1.Live i u ↔ s.endOthers.Live i u
  cur : s1.cur = s.cur
  ended : s1.ended = s.ended
  procs : ∃ c, c.pid = r.pid ∧ c.ppid = r.ppid ∧ c.zombie = r.zombie ∧
    (c.borrowed = r.borrowed ∧ c.space = r.space ∨
      c.borrowed = false ∧ c.space = some s.table.next ∧ s.table.next < s1.table.next) ∧
    s1.table.procs = update s.table.procs p (some c)
  resets : s1.resets = s.resets ∨
    s1.resets = emptied s.resets (if r.borrowed then some s.table.next else r.space)
  next : s.table.next ≤ s1.table.next

theorem spaceNew_inv (h : Inv s) (hr : s.table.procs p = some r) (hz : r.zombie = false)
    (hown : r.borrowed = true ∨ r.space = none) : Inv (s.spaceNew p) := by
  have hone : ∀ c, s.table.procs p = some c → c.zombie = false ∧ (c.borrowed = true ∨ c.space = none) :=
    fun c hc => Option.some.inj (hr.symm.trans hc) ▸ ⟨hz, hown⟩
  have hprocs : ∀ q, (s.spaceNew p).table.procs q =
      if q = p then some { r with space := some s.table.next, borrowed := false }
      else s.table.procs q := by
    intro q
    unfold spaceNew
    simp only [setProc_procs]
    rw [hr]
    rfl
  refine ⟨h.crew.of_threads rfl rfl fun _ _ hrun => ?_, h.books.spaceNew hone (by rw [hr]; rfl),
    h.rooted.change fun {u q d} hu hq hd => ?_⟩
  · obtain ⟨hlt, d, hd, hdz⟩ := hrun
    refine ⟨hlt, ?_⟩
    rw [hprocs]
    split_ifs with heq
    · exact ⟨_, rfl, hz⟩
    · exact ⟨d, hd, hdz⟩
  · rw [hprocs] at hd
    split_ifs at hd with heq
    · rw [← Option.some.inj hd]
      exact Or.inr ⟨u, r, hu, hq, heq ▸ hr, rfl⟩
    · exact Or.inr ⟨u, d, hu, hq, hd, rfl⟩

theorem programLoad_inv (h : Inv s) (p : ℕ) : Inv (s.programLoad p) :=
  ⟨h.crew.of_threads rfl rfl fun _ _ hrun => hrun, h.books, ⟨h.rooted.ppid⟩⟩

theorem execve_spec (h : Inv s) (ht : s.Live s.cur t) (hp : t.proc = some p)
    (hr : s.table.procs p = some r) (closes : ℕ → Bool) (room loads : Bool) :
    ∃ s1, Execs s p r s1 ∧
      (s.execve closes room loads = s1 ∨ s.execve closes room loads = s1.processExit) := by
  have hproc : s.proc = some p := ht.proc_eq.trans hp
  have hz : r.zombie = false := by
    obtain ⟨c, hc, hz⟩ := h.record ht hp
    exact Option.some.inj (hr.symm.trans hc) ▸ hz
  obtain ⟨c, hc⟩ : ∃ c, c = { r with
    files := ⟨r.files.at_, fun fd => if closes fd then none else r.files.data fd⟩ } := ⟨_, rfl⟩
  have hclosed : s.endOthers.closeOnExec p closes = { s.endOthers with
      table := (dropAll s.table (fun fd => if closes fd then r.files.data fd else none)
        r.filesRoom).setProc p fun c =>
          { c with files := ⟨c.files.at_, fun fd => if closes fd then none else c.files.data fd⟩ } } := by
    unfold closeOnExec
    rw [show s.endOthers.table.procs p = some r from hr]
    rfl
  obtain ⟨s1, hs1⟩ : ∃ s1, s.endOthers.closeOnExec p closes = s1 := ⟨_, rfl⟩
  have hinv : Inv s1 := by
    rw [← hs1, hclosed]
    exact h.endOthers.setProc (p := p) (f := fun c =>
        { c with files := ⟨c.files.at_, fun fd => if closes fd then none else c.files.data fd⟩ })
      (fun _ => ⟨rfl, rfl, rfl, rfl⟩) (fun _ => rfl) (fun c hc => Option.some.inj (hr.symm.trans hc) ▸ hz)
      (dropAll s.table (fun fd => if closes fd then r.files.data fd else none) r.filesRoom).refs
  have hprocs : s1.table.procs = update s.table.procs p (some c) := by
    rw [← hs1, hclosed, hc]
    show update s.table.procs p ((s.table.procs p).map _) = _
    rw [hr]
    rfl
  have hat : s1.table.procs p = some c := by
    rw [hprocs, update_self]
  have hlive : ∀ {i u}, s1.Live i u ↔ s.endOthers.Live i u := fun {i u} => by
    rw [← hs1, hclosed]
    exact Iff.rfl
  have hrest : s1.cur = s.cur ∧ s1.ended = s.ended ∧ s1.resets = s.resets ∧
      s1.table.next = s.table.next := by
    rw [← hs1, hclosed]
    exact ⟨rfl, rfl, rfl, rfl⟩
  obtain ⟨hcur, hended, hresets, hnext⟩ := hrest
  have hcsame : c.pid = r.pid ∧ c.ppid = r.ppid ∧ c.zombie = r.zombie ∧ c.borrowed = r.borrowed ∧
      c.space = r.space := by
    rw [hc]
    exact ⟨rfl, rfl, rfl, rfl, rfl⟩
  obtain ⟨hcpid, hcppid, hcz, hcb, hcs⟩ := hcsame
  have hexecs : Execs s p r s1 :=
    ⟨hinv, hlive, hcur, hended, ⟨c, hcpid, hcppid, hcz, Or.inl ⟨hcb, hcs⟩, hprocs⟩, Or.inl hresets,
      hnext.ge⟩
  have hload : ∀ {s2}, Execs s p r s2 → s2.resets = s.resets →
      (s2.table.procs p).bind Process.space = (if r.borrowed then some s.table.next else r.space) →
      Execs s p r (s2.programLoad p) := fun {s2} h2 hres hsp =>
    ⟨programLoad_inv h2.inv p, h2.live, h2.cur, h2.ended, h2.procs, Or.inr (by
      show emptied s2.resets _ = _
      rw [hres, hsp]), h2.next⟩
  unfold execve
  rw [hproc]
  simp only
  rw [hr]
  simp only
  rw [hs1]
  cases hb : r.borrowed with
  | true =>
    cases room with
    | false => exact ⟨s1, hexecs, Or.inl rfl⟩
    | true =>
      have hnew : Execs s p r (s1.spaceNew p) := by
        refine ⟨spaceNew_inv hinv hat (hcz.trans hz) (Or.inl (hcb.trans hb)), hlive, hcur, hended,
          ⟨{ c with space := some s.table.next, borrowed := false }, hcpid, hcppid, hcz,
            Or.inr ⟨rfl, rfl, Nat.lt_succ_of_le hnext.ge⟩, ?_⟩, Or.inl hresets,
          hnext.ge.trans (Nat.le_succ _)⟩
        show update s1.table.procs p ((s1.table.procs p).map _) = _
        rw [hat, hnext, hprocs, update_idem]
        rfl
      have hnewsp : ((s1.spaceNew p).table.procs p).bind Process.space =
          if r.borrowed then some s.table.next else r.space := by
        rw [if_pos hb]
        show (update s1.table.procs p ((s1.table.procs p).map _) p).bind _ = _
        rw [update_self, hat, hnext]
        rfl
      refine ⟨_, hload hnew hresets hnewsp, ?_⟩
      cases loads with
      | true => exact Or.inl rfl
      | false =>
        simp only [Bool.not_true, Bool.and_false, Bool.false_eq_true, if_false, if_true]
        exact Or.inr trivial
  | false =>
    have hsp : (s1.table.procs p).bind Process.space =
        if r.borrowed then some s.table.next else r.space := by
      rw [if_neg (by rw [hb]; exact Bool.false_ne_true), hat]
      exact hcs
    refine ⟨_, hload hexecs hresets hsp, ?_⟩
    cases loads with
    | true => exact Or.inl rfl
    | false =>
      simp only [Bool.false_and, Bool.false_eq_true, if_false]
      exact Or.inr trivial

/-- What `program_start` leaves of a process it starts, running. -/
structure Adopts (s : Kernel) (t : Thread) (p : ℕ) (c : Process) (s1 : Kernel) : Prop where
  inv : Inv s1
  cur : s.cur = 0 ∧ s1.cur = 0
  live : ∀ {i u}, s1.Live i u ↔
    i = s.cur ∧ u = { t with leader := true, proc := some p } ∨ i ≠ s.cur ∧ s.Live i u
  free : (forget s.table processes).procs p = none
  procs : s1.table.procs = update (forget s.table processes).procs p (some c)
  record : c.pid = s.table.nextId ∧ c.ppid = 0 ∧ c.zombie = false ∧ c.borrowed = false
  ended : s1.ended = s.ended
  space : ∃ b, c.space = some b ∧ s.table.next ≤ b ∧ b < s1.table.next ∧
    s1.resets = emptied s.resets (some b)

theorem programStart_spec (h : Inv s) (ht : s.Live s.cur t) (room loads : Bool) :
    s.programStart room loads = s ∨
      (∃ table, s.programStart room loads = { s with table } ∧ Undone (forget s.table processes) table) ∨
      t.proc = none ∧ ∃ p c s1, Adopts s t p c s1 ∧
        (s.programStart room loads = s1 ∨ s.programStart room loads = s1.userExit) := by
  unfold programStart
  rw [ht.proc_eq]
  cases hp : t.proc with
  | some q => exact Or.inl rfl
  | none =>
    refine Or.inr ?_
    rcases hnew : procNew s.table processes with ⟨_ | p, table⟩
    · obtain ⟨-, hu⟩ := procNew_spec h.books.sound hnew
      exact Or.inl ⟨table, rfl, hu⟩
    · obtain ⟨-, c, hh, -, -, -, -, hpid, hppid, hz, hb, hsp⟩ := procNew_spec h.books.sound hnew
      cases room with
      | false =>
        have hundone := hh.undone
        exact Or.inl ⟨_, rfl, hundone⟩
      | true =>
        have hid : c.pid = (forget s.table processes).nextId :=
          hpid.trans (forget_spec s.table processes).2.2.2.1.symm
        have hinv : Inv { s with table } :=
          h.of_table ((h.books.forget processes).half (fun b => Or.inl) (hh.with_taken rfl) hid hz fun b => Or.inl)
            fun {q d} hd hdz => ⟨d, ((hh.with_taken rfl).keep (forget_keep hd hdz)).2, hdz, rfl⟩
        have hset := hinv.setProc (p := p) (f := fun c => { c with
            pgid := c.pid, sid := c.pid
            files := ⟨c.files.at_, fun fd => if fd < 3 then some [] else none⟩ })
          (fun _ => ⟨rfl, rfl, rfl, rfl⟩) (fun _ => rfl)
          (fun d hd => Option.some.inj (hh.at_slot.symm.trans hd) ▸ hz) table.refs
        obtain ⟨d, hd⟩ : ∃ d, d = { c with
            pgid := c.pid, sid := c.pid
            files := ⟨c.files.at_, fun fd => if fd < 3 then some [] else none⟩ } := ⟨_, rfl⟩
        obtain ⟨s1, hs1⟩ : ∃ s1 : Kernel, s1 = { s with table := table.setProc p fun c => { c with
            pgid := c.pid, sid := c.pid
            files := ⟨c.files.at_, fun fd => if fd < 3 then some [] else none⟩ } } := ⟨_, rfl⟩
        have hinv1 : Inv s1 := hs1 ▸ hset
        have hprocs1 : s1.table.procs = update (forget s.table processes).procs p (some d) := by
          rw [hs1, hd]
          show update table.procs p ((table.procs p).map _) = _
          rw [hh.at_slot, hh.procs, update_idem]
          rfl
        have hat1 : s1.table.procs p = some d := by
          rw [hprocs1, update_self]
        have hd' : d.pid = c.pid ∧ d.ppid = c.ppid ∧ d.zombie = c.zombie ∧ d.borrowed = c.borrowed ∧
            d.space = c.space := by
          rw [hd]
          exact ⟨rfl, rfl, rfl, rfl, rfl⟩
        obtain ⟨hdpid, hdppid, hdz, hdb, hds⟩ := hd'
        have hinv2 : Inv (s1.spaceNew p) :=
          spaceNew_inv hinv1 hat1 (hdz.trans hz) (Or.inr (hds.trans hsp))
        have hlive2 : ∀ {i u}, (s1.spaceNew p).Live i u ↔ s.Live i u := fun {i u} => by
          rw [hs1]
          exact Iff.rfl
        have hcur2 : (s1.spaceNew p).cur = s.cur := by
          rw [hs1]
          rfl
        have hprocs2 : (s1.spaceNew p).table.procs = update (forget s.table processes).procs p
            (some { d with space := some s1.table.next, borrowed := false }) := by
          show update s1.table.procs p ((s1.table.procs p).map _) = _
          rw [hat1, hprocs1, update_idem]
          rfl
        have hnext1 : s.table.next ≤ s1.table.next := by
          rw [hs1]
          exact (forget_spec s.table processes).2.2.1.ge.trans hh.next
        have hrun2 : (s1.spaceNew p).Running p :=
          ⟨hh.bound, _, (congrFun hprocs2 p).trans (update_self _ _ _), hdz.trans hz⟩
        have ht2 : (s1.spaceNew p).Live (s1.spaceNew p).cur t := hlive2.2 (hcur2 ▸ ht)
        obtain ⟨h0, hcrew⟩ := hinv2.crew.adopt ht2 hp hrun2 fun hu =>
          live_ne_slot h (hh.with_taken rfl) (hlive2.1 hu)
        rw [hcur2] at h0 hcrew
        have hinv3 : Inv ((s1.spaceNew p).setThread s.cur fun t =>
            { t with leader := true, proc := some p }) := by
          refine ⟨hcrew, hinv2.books, ⟨fun {u q e} hu hq he => ?_⟩⟩
          have hu' := (live_setThread (s := s1.spaceNew p) (j := s.cur) (i := 0) (u := u)
            (f := fun t => { t with leader := true, proc := some p }) (hlive2.2 ht) ht.2).1 hu
          rcases hu' with ⟨-, rfl⟩ | ⟨hne, -⟩
          · obtain rfl := Option.some.inj hq
            rw [show ((s1.spaceNew p).setThread s.cur fun t =>
              { t with leader := true, proc := some p }).table = (s1.spaceNew p).table from rfl,
              hprocs2, update_self] at he
            rw [← Option.some.inj he]
            exact hdppid.trans hppid
          · exact absurd h0.symm hne
        have hfinal : Adopts s t p { d with space := some s1.table.next, borrowed := false }
            (((s1.spaceNew p).setThread s.cur fun t =>
              { t with leader := true, proc := some p }).programLoad p) := by
          refine ⟨programLoad_inv hinv3 p, ⟨h0, hcur2.trans h0⟩, fun {i u} => ?_, hh.free, hprocs2,
            ⟨hdpid.trans hpid, hdppid.trans hppid, hdz.trans hz, rfl⟩, ?_,
            ⟨_, rfl, hnext1, Nat.lt_succ_self _, ?_⟩⟩
          · exact (live_setThread (hlive2.2 ht) ht.2).trans
              (or_congr_right (and_congr_right fun _ => hlive2))
          · rw [hs1]
            rfl
          · show emptied s1.resets (((s1.spaceNew p).table.procs p).bind Process.space) = _
            rw [hprocs2, update_self, hs1]
            rfl
        refine Or.inr ⟨rfl, p, _, _, hfinal, ?_⟩
        subst hs1
        simp only [if_true]
        cases loads with
        | true => exact Or.inl rfl
        | false => exact Or.inr rfl

/-! ### The step -/

theorem Inv.setPlace (h : Inv s) (ht : s.Live s.cur t) {f : Thread → Thread} (hdead : (f t).dead = false)
    (hproc : (f t).proc = t.proc) (hlead : (f t).leader = t.leader) (hentry : (f t).entry = t.entry)
    (hplace : (f t).place ≠ .start) (hexit : (f t).exiting = false) : Inv (s.setThread s.cur f) :=
  ⟨h.crew.setPlace ht hdead hproc hlead hentry hplace hexit, h.books, h.rooted.change
    fun {u q r} hu hq hr => by
      rcases (live_setThread ht hdead).1 hu with ⟨h0, rfl⟩ | ⟨-, hu⟩
      · exact Or.inr ⟨t, r, h0 ▸ ht, hproc ▸ hq, hr, rfl⟩
      · exact Or.inr ⟨u, r, hu, hq, hr, rfl⟩⟩

/-- Ending, of a thread of no process: nothing. -/
theorem threadExit_none (h : Crew s) (ht : s.Live s.cur t) (hp : t.proc = none) : s.threadExit = s := by
  have h0 : s.cur = 0 := by
    by_contra hne
    have hsome := (h.entry ht hne).1
    rw [hp] at hsome
    exact nomatch hsome
  obtain ⟨t0, ht0, hentry0, hlead0⟩ := h.kernel
  rw [← h0] at ht0
  have hl : t.leader = false := by
    rw [ht.eq ht0, hlead0, ← ht.eq ht0, hp]
    rfl
  unfold threadExit userExit
  rw [ht.1]
  simp only [Option.any_some, hl, Bool.false_and, Bool.false_eq_true, if_false, hp]
  rw [ht.eq ht0, hentry0]

theorem processExit_none (ht : s.Live s.cur t) (hp : t.proc = none) : s.processExit = s := by
  unfold processExit
  rw [ht.proc_eq, hp]

/-- An end asked of the leader that runs, taken up. -/
theorem live_asked (ht : s.Live s.cur t) :
    (s.setThread s.cur fun t => { t with exiting := false }).Live s.cur { t with exiting := false } :=
  (live_setThread (f := fun t => { t with exiting := false }) ht ht.2).2 (Or.inl ⟨rfl, rfl⟩)

theorem Inv.unasked (h : Inv s) (ht : s.Live s.cur t) {k : After} (hk : t.place = .yielded k) :
    Inv (s.setThread s.cur fun t => { t with exiting := false }) :=
  h.setPlace ht ht.2 rfl rfl rfl (by rw [hk]; exact fun hno => nomatch hno) rfl

theorem Execs.live_cur {s1 : Kernel} (he : Execs s p r s1) (ht : s.Live s.cur t) : s1.Live s1.cur t :=
  he.live.2 (he.cur ▸ live_endOthers.2 ⟨ht, Or.inr (Or.inl rfl)⟩)

theorem Adopts.alone {s1 : Kernel} {c : Process} (h : Inv s)
    (ha : Adopts s t p c s1) : s1.Live s1.cur { t with leader := true, proc := some p } ∧ s1.Alone p := by
  have hcur : s1.cur = s.cur := ha.cur.2.trans ha.cur.1.symm
  refine ⟨hcur ▸ ha.live.2 (Or.inl ⟨rfl, rfl⟩), fun {i u} hu hne hup => ?_⟩
  rcases ha.live.1 hu with ⟨rfl, -⟩ | ⟨-, hu⟩
  · exact hne hcur.symm
  · obtain ⟨d, hd, hz⟩ := h.record hu hup
    have hfree := ha.free
    rw [forget_keep hd hz] at hfree
    exact nomatch hfree

/-- A process just started ends where its program cannot be loaded. -/
theorem Adopts.ends {s1 : Kernel} {c : Process} (h : Inv s) (hx : t.exiting = false)
    (ha : Adopts s t p c s1) : ∃ r, Ends s1 s1.userExit p r := by
  obtain ⟨ht1, halone⟩ := ha.alone h
  exact userExit_leader ha.inv.crew ht1 rfl rfl hx halone

/-- **What a step comes down to**, `t` being the thread that runs. -/
inductive Comes (s : Kernel) (a : Action) (t : Thread) : Kernel → Prop
  | idle : Comes s a t s
  | placed (hx : t.exiting = false) :
      Comes s a t (s.setThread s.cur fun t => { t with place := .user })
  | asked {p : ℕ} {k : After} (hk : t.place = .yielded k) (hx : t.exiting = true)
      (hp : t.proc = some p) :
      Comes s a t (s.setThread s.cur fun t => { t with exiting := false }).processExit
  | yields {k : After} (hx : t.exiting = false)
      (hk : ∀ child pid, k = .vfork child pid → t.place = .yielded (.vfork child pid)) :
      Comes s a t (s.threadYield k)
  | leaves {p : ℕ} (hp : t.proc = some p) (hx : t.exiting = false)
      (hplace : t.place = .user ∧ a = .exit ∨ t.place = .yielded .exits) : Comes s a t s.threadExit
  | reaps : Comes s a t s.reap
  | creates {p i : ℕ} {s1 : Kernel} (hp : t.proc = some p) (hplace : t.place = .user)
      (ha : Added s s1 i ⟨some p, false, s.table.nextId, false, false, .threadStart, .start⟩) :
      Comes s a t s1
  | forks {p : ℕ} {r : Process} {share vmFork stack} {s1 : Kernel} (hp : t.proc = some p)
      (hr : s.table.procs p = some r) (hx : t.exiting = false) (hplace : t.place = .user)
      (ha : a = .fork share vmFork stack) (hf : Forks s p r share s1) : Comes s a t s1
  | ends {p : ℕ} (hp : t.proc = some p) (hx : t.exiting = false) (hplace : t.place = .user)
      (ha : a = .exitGroup) : Comes s a t s.processExit
  | execs {p : ℕ} {r : Process} {closes room loads} {s1 s2 : Kernel} (hp : t.proc = some p)
      (hr : s.table.procs p = some r) (hx : t.exiting = false) (hplace : t.place = .user)
      (ha : a = .execve closes room loads) (he : Execs s p r s1) (hs : s2 = s1 ∨ s2 = s1.processExit) :
      Comes s a t s2
  | collects {p i : ℕ} {r c : Process} {want : Want} (hp : t.proc = some p)
      (hr : s.table.procs p = some r) (hplace : t.place = .user) (ha : a = .wait4 want)
      (hc : s.table.procs i = some c) (hz : c.zombie = true) (hw : wanted r want c = true) :
      Comes s a t { s with table := procFree s.table i }
  | files (fd : ℕ) (handle : Option Handle) : Comes s a t (s.setFile fd handle)
  | undone {table : State} (hu : Undone (forget s.table processes) table) : Comes s a t { s with table }
  | adopts {p : ℕ} {c : Process} {s1 s2 : Kernel} (hp : t.proc = none) (hx : t.exiting = false)
      (hplace : t.place = .user) (ha : Adopts s t p c s1) (hs : s2 = s1 ∨ s2 = s1.userExit) :
      Comes s a t s2

/-- Only of a thread that waits in a call the end is asked. -/
theorem Crew.exiting_eq_false (h : Crew s) (ht : s.Live s.cur t) (hk : ∀ k, t.place ≠ .yielded k) :
    t.exiting = false :=
  Bool.eq_false_iff.2 fun hx => by
    obtain ⟨-, -, k, hplace⟩ := h.exits ht hx
    exact hk k hplace

theorem Crew.asked_proc (h : Crew s) (ht : s.Live s.cur t) (hx : t.exiting = true) :
    ∃ p, t.proc = some p := by
  obtain ⟨-, hl, -⟩ := h.exits ht hx
  rcases eq_or_ne s.cur 0 with h0 | h0
  · obtain ⟨t0, ht0, -, hlead0⟩ := h.kernel
    rw [← h0] at ht0
    rw [← ht.eq ht0, hl] at hlead0
    exact Option.isSome_iff_exists.1 hlead0.symm
  · exact Option.isSome_iff_exists.1 (h.entry ht h0).1

theorem goOn_comes (h : Inv s) (ht : s.Live s.cur t) (hx : t.exiting = false) {k : After}
    (hk : t.place = .yielded k) (a : Action) : Comes s a t (s.goOn k) := by
  cases k with
  | free => exact .placed hx
  | exits =>
    show Comes s a t s.threadExit
    cases hp : t.proc with
    | some p => exact .leaves hp hx (Or.inr hk)
    | none =>
      rw [threadExit_none h.crew ht hp]
      exact .idle
  | vfork child pid =>
    show Comes s a t (if _ then _ else _)
    split_ifs
    · refine .yields hx fun _ _ heq => ?_
      rw [hk, heq]
    · exact .placed hx

theorem act_comes (h : Inv s) (ht : s.Live s.cur t) (hplace : t.place = .user) (hx : t.exiting = false)
    (a : Action) : Comes s a t (s.act a) := by
  have hproc := ht.proc_eq
  have hrec : ∀ {p}, t.proc = some p → ∃ r, s.table.procs p = some r := fun hp =>
    (h.record ht hp).imp fun _ hr => hr.1
  cases a with
  | yield =>
    show Comes s _ t (s.threadYield .free)
    exact .yields hx fun _ _ hno => nomatch hno
  | create stack =>
    unfold Kernel.act
    rw [hproc]
    cases hp : t.proc with
    | none => exact .idle
    | some p =>
      show Comes s _ t (s.threadNew p false .threadStart stack)
      obtain ⟨hadd, hno⟩ := threadNew_spec s p false .threadStart stack
      cases hroom : s.freeThread.isSome && stack with
      | false =>
        rw [hno hroom]
        exact .reaps
      | true =>
        obtain ⟨i, ha⟩ := hadd hroom
        exact .creates hp hplace ha
  | fork share vmFork stack =>
    show Comes s _ t (s.fork share vmFork stack)
    cases hp : t.proc with
    | none =>
      unfold Kernel.fork
      rw [hproc, hp]
      exact .idle
    | some p =>
      obtain ⟨r, hr⟩ := hrec hp
      exact .forks hp hr hx hplace rfl (fork_spec h (hproc.trans hp) hr share vmFork stack)
  | exit =>
    show Comes s _ t (if _ then _ else _)
    rw [hproc]
    cases hp : t.proc with
    | none => exact .idle
    | some p => exact .leaves hp hx (Or.inl ⟨hplace, rfl⟩)
  | exitGroup =>
    show Comes s _ t s.processExit
    cases hp : t.proc with
    | none =>
      rw [processExit_none ht hp]
      exact .idle
    | some p => exact .ends hp hx hplace rfl
  | execve closes room loads =>
    show Comes s _ t (s.execve closes room loads)
    cases hp : t.proc with
    | none =>
      unfold Kernel.execve
      rw [hproc, hp]
      exact .idle
    | some p =>
      obtain ⟨r, hr⟩ := hrec hp
      obtain ⟨s1, he, hs⟩ := execve_spec h ht hp hr closes room loads
      exact .execs hp hr hx hplace rfl he hs
  | wait4 want =>
    show Comes s _ t (s.collect want)
    rcases collect_spec s want with heq | ⟨r, i, c, hr, hc, hz, hw, heq⟩
    · rw [heq]
      exact .idle
    · obtain ⟨p, hp, hr⟩ := Option.bind_eq_some_iff.1 hr
      rw [heq]
      exact .collects (hproc.symm.trans hp) hr hplace rfl hc hz hw
  | file fd handle => exact .files fd handle
  | start room loads =>
    show Comes s _ t (s.programStart room loads)
    rcases programStart_spec h ht room loads with hs | ⟨table, hs, hu⟩ | ⟨hp, p, c, s1, ha, hs⟩
    · rw [hs]
      exact .idle
    · rw [hs]
      exact .undone hu
    · exact .adopts hp hx hplace ha hs

/-- Every step comes down to one of these. -/
theorem step_comes (h : Inv s) (a : Action) : ∃ t, s.Live s.cur t ∧ Comes s a t (s.step a) := by
  obtain ⟨t, ht⟩ := h.crew.cur
  refine ⟨t, ht, ?_⟩
  unfold step
  rw [ht.1]
  simp only
  cases hplace : t.place with
  | start =>
    -- a thread that starts: nothing is asked of it yet
    refine .placed (h.crew.exiting_eq_false ht fun k hk => ?_)
    rw [hplace] at hk
    exact nomatch hk
  | yielded k =>
    simp only
    cases hx : t.exiting with
    | true =>
      obtain ⟨p, hp⟩ := h.crew.asked_proc ht hx
      exact .asked hplace hx hp
    | false => exact goOn_comes h ht hx hplace a
  | user =>
    refine act_comes h ht hplace (h.crew.exiting_eq_false ht fun k hk => ?_) a
    rw [hplace] at hk
    exact nomatch hk

/-- **A step keeps it.** -/
theorem Inv.step (h : Inv s) (a : Action) : Inv (s.step a) := by
  obtain ⟨t, ht, hs⟩ := step_comes h a
  generalize s.step a = s' at hs ⊢
  cases hs with
  | idle => exact h
  | placed hx => exact h.setPlace ht ht.2 rfl rfl rfl (fun hno => nomatch hno) hx
  | asked hk _ hp => exact (h.unasked ht hk).processExit (live_asked ht) hp rfl
  | yields hx => exact h.threadYield ht hx _
  | leaves hp hx => exact h.threadExit ht hp hx
  | reaps => exact h.reap ht
  | creates hp hplace ha => exact h.create ht hp hplace ha
  | forks hp hr hx _ _ hf => exact h.forks ht hx hf
  | ends hp hx => exact h.processExit ht hp hx
  | execs hp hr hx _ _ he hs =>
    rcases hs with rfl | rfl
    · exact he.inv
    · exact he.inv.processExit (he.live_cur ht) hp hx
  | collects _ _ _ _ hc hz => exact h.collected hc hz
  | files fd handle => exact h.setFile fd handle
  | undone hu =>
    refine h.of_table ((h.books.forget processes).undone (fun b => Or.inl) (hu.with_taken rfl))
      fun {q d} hd hz => ⟨d, ?_, hz, rfl⟩
    rw [hu.procs, forget_keep hd hz]
  | adopts _ hx _ ha hs =>
    rcases hs with rfl | rfl
    · exact ha.inv
    · obtain ⟨r, he⟩ := ha.ends h hx
      exact ha.inv.ends (ha.alone h).1 rfl he

theorem Started.live (h : Started s) : s.Live i t ↔
    i = 0 ∧ t = ⟨none, false, 1, false, false, .kernel, .user⟩ := by
  unfold Live
  rw [h.threads]
  rcases eq_or_ne i 0 with rfl | hne
  · rw [update_self]
    simp only [Option.some.injEq, true_and]
    exact ⟨fun ht => ht.1.symm, fun ht => ⟨ht.symm, by rw [ht]⟩⟩
  · rw [update_of_ne hne]
    exact iff_of_false (fun hno => nomatch hno.1) fun hno => hne hno.1

/-- It holds in the state the kernel starts in. -/
theorem Started.inv (h : Started s) : Inv s := by
  have hlive := fun {i t} => Started.live (i := i) (t := t) h
  have hno : ∀ {p r}, s.table.procs p ≠ some r := fun {p r} hp => by
    rw [h.procs] at hp
    exact nomatch hp
  refine ⟨⟨?_, ⟨_, hlive.2 ⟨rfl, rfl⟩, rfl, rfl⟩, fun {i t} ht => ?_, fun {i t} ht hi => ?_,
    fun {i t p} ht hp => ?_, fun {i j t u} ht hu _ _ _ => ?_, fun {i t} ht hx => ?_,
    fun {i t} ht _ => ?_, fun {i j t u} ht hu _ _ _ => ?_⟩, ⟨⟨fun hr => absurd hr hno,
    fun hr => absurd hr hno, ?_⟩, fun hr => absurd hr hno, fun hr => absurd hr hno, fun _ => ?_,
    fun pid => ?_, fun hr => absurd hr hno, ⟨fun b _ => ?_, fun b hb => ?_⟩, fun hb => ?_, fun hb => ?_⟩,
    ⟨fun _ _ hr => absurd hr hno⟩⟩
  · exact ⟨_, hlive.2 ⟨h.cur, rfl⟩⟩
  · rw [(hlive.1 ht).1]
    exact Nat.succ_pos _
  · exact absurd (hlive.1 ht).1 hi
  · rw [(hlive.1 ht).2] at hp
    exact nomatch hp
  · rw [(hlive.1 ht).1, (hlive.1 hu).1]
  · rw [(hlive.1 ht).2] at hx
    exact nomatch hx
  · rw [(hlive.1 ht).1, h.cur]
  · rw [(hlive.1 ht).1, (hlive.1 hu).1]
  · rw [h.nextId]
    exact Nat.succ_pos _
  · rw [h.ended]
  · rw [h.ended]
    exact Nat.zero_le _
  · rw [h.taken]
  · rw [h.shared] at hb
    exact absurd hb List.not_mem_nil
  · rw [h.spaces] at hb
    exact nomatch hb
  · rw [h.spaces] at hb
    exact nomatch hb

theorem Inv.run (h : Inv s) (as : List Action) : Inv (s.run as) := by
  induction as generalizing s with
  | nil => exact h
  | cons a as ih => exact ih (h.step a)

end Kernel
end BaxOS.Proc
