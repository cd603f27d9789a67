import BaxOS.Proc.Records

/-!
# The threads that live

What switching, ending and starting threads leave of those that live, and what holds of them in every
state (`Crew`), whatever programs do: one runs, the kernel's own thread stays, every other belongs to
a process that has not ended, a process has at most one leader, and a leader asked to end its process
is the one that runs.
-/

namespace BaxOS.Proc
namespace Kernel
open Function

variable {s s' : Kernel} {i j p : ℕ} {t u : Thread}

/-- A thread that lives. -/
def Live (s : Kernel) (i : ℕ) (t : Thread) : Prop := s.threads i = some t ∧ t.dead = false

/-- A process that has not ended. -/
def Running (s : Kernel) (p : ℕ) : Prop :=
  p < processes ∧ ∃ r, s.table.procs p = some r ∧ r.zombie = false

/-- All but the threads is as it was. -/
structure Same (s s' : Kernel) : Prop where
  table : s'.table = s.table
  ended : s'.ended = s.ended
  spaces : s'.spaces = s.spaces
  resets : s'.resets = s.resets

theorem Same.running (h : Same s s') : s'.Running p ↔ s.Running p := by
  unfold Running
  rw [h.table]

theorem Live.eq (h : s.Live i t) (h' : s.Live i u) : t = u :=
  Option.some.inj (h.1.symm.trans h'.1)

theorem Live.proc_eq (h : s.Live s.cur t) : s.proc = t.proc := by
  unfold Kernel.proc
  rw [h.1]
  rfl

/-! ### Switching -/

theorem live_reap : s.reap.Live i t ↔ s.Live i t := by
  unfold Live reap
  simp only
  split_ifs with h
  · refine iff_of_false (fun hno => nomatch hno.1) fun ⟨ht, hd⟩ => ?_
    rw [ht] at h
    simp [hd] at h
  · rfl

theorem live_switchTo (s : Kernel) (n : ℕ) : (s.switchTo n).Live i t ↔ s.Live i t := live_reap

theorem live_setThread {f : Thread → Thread} (ht : s.Live j t) (hf : (f t).dead = false) :
    (s.setThread j f).Live i u ↔ i = j ∧ u = f t ∨ i ≠ j ∧ s.Live i u := by
  unfold Live setThread
  rcases eq_or_ne i j with rfl | hne
  · simp only [update_self, ht.1, Option.map_some, Option.some.injEq, true_and, ne_eq, not_true,
      false_and, or_false]
    exact ⟨fun h => h.1.symm, fun h => ⟨h.symm, h ▸ hf⟩⟩
  · simp [hne]

theorem live_kill (s : Kernel) (j : ℕ) :
    (s.setThread j fun t => { t with dead := true }).Live i u ↔ i ≠ j ∧ s.Live i u := by
  unfold Live setThread
  rcases eq_or_ne i j with rfl | hne
  · refine iff_of_false (fun ⟨h, hd⟩ => ?_) fun h => h.1 rfl
    simp only [update_self, Option.map_eq_some_iff] at h
    obtain ⟨v, -, rfl⟩ := h
    exact Bool.noConfusion hd
  · simp [hne]

theorem live_endOthers :
    s.endOthers.Live i t ↔ s.Live i t ∧ (i = 0 ∨ i = s.cur ∨ t.proc ≠ s.proc) := by
  unfold endOthers
  rw [live_reap]
  unfold Live
  simp only [Option.map_eq_some_iff]
  constructor
  · rintro ⟨⟨v, hv, rfl⟩, hd⟩
    split_ifs at hd ⊢ with h
    refine ⟨⟨hv, hd⟩, ?_⟩
    simp only [Bool.and_eq_true, decide_eq_true_eq, not_and] at h
    tauto
  · rintro ⟨⟨ht, hd⟩, h⟩
    refine ⟨⟨t, ht, if_neg ?_⟩, hd⟩
    simp only [Bool.and_eq_true, decide_eq_true_eq]
    tauto

theorem reap_same (s : Kernel) : Same s s.reap := ⟨rfl, rfl, rfl, rfl⟩

theorem endOthers_same (s : Kernel) : Same s s.endOthers := ⟨rfl, rfl, rfl, rfl⟩

/-- `next_one` finds a thread that lives, of the process with `mine`, other than the one running. -/
theorem nextOne_some {mine : Bool} {n : ℕ} (h : s.nextOne mine = some n) :
    (∃ t, s.Live n t ∧ (mine = true → t.proc = s.proc)) ∧ (s.cur < threadsMax → n ≠ s.cur) := by
  have hn := List.find?_some h
  simp only [Option.any_eq_true, Bool.and_eq_true, Bool.not_eq_true', Bool.or_eq_true,
    decide_eq_true_eq] at hn
  obtain ⟨t, ht, hd, hp⟩ := hn
  refine ⟨⟨t, ⟨ht, hd⟩, fun hm => hp.resolve_left (by rw [hm]; exact Bool.noConfusion)⟩,
    fun hcur => ?_⟩
  obtain ⟨m, hm, rfl⟩ := List.mem_map.1 (List.mem_of_find?_eq_some h)
  rw [List.mem_range] at hm
  unfold threadsMax at *
  omega

theorem nextOne_none {mine : Bool} (h : s.nextOne mine = none) (hcur : s.cur < threadsMax)
    (hi : i < threadsMax) (hne : i ≠ s.cur) (ht : s.Live i t) : mine = true ∧ t.proc ≠ s.proc := by
  have hmem : i ∈ (List.range (threadsMax - 1)).map fun n => (s.cur + (n + 1)) % threadsMax := by
    refine List.mem_map.2 ⟨(i + threadsMax - s.cur - 1) % threadsMax, List.mem_range.2 ?_, ?_⟩
    all_goals
      unfold threadsMax at *
      omega
  have hno := List.find?_eq_none.1 h i hmem
  rw [ht.1] at hno
  simp only [Option.any_some, ht.2, Bool.not_false, Bool.true_and, Bool.or_eq_true,
    Bool.not_eq_true', decide_eq_true_eq, not_or, Bool.not_eq_false] at hno
  exact hno

/-- `leader_of` finds the leader that lives. -/
theorem leaderOf_some {l : ℕ} (h : s.leaderOf p = some l) :
    ∃ t, s.Live l t ∧ t.leader = true ∧ t.proc = some p := by
  have hl := List.find?_some h
  simp only [Option.any_eq_true, Bool.and_eq_true, Bool.not_eq_true', decide_eq_true_eq] at hl
  obtain ⟨t, ht, ⟨hd, hlead⟩, hp⟩ := hl
  exact ⟨t, ⟨ht, hd⟩, hlead, hp⟩

theorem leaderOf_none (h : s.leaderOf p = none) (hi : i < threadsMax) (ht : s.Live i t)
    (hp : t.proc = some p) : t.leader = false := by
  have hno := List.find?_eq_none.1 h i (List.mem_range.2 hi)
  rw [ht.1] at hno
  simp only [Option.any_some, ht.2, hp, Bool.not_false, Bool.true_and, decide_true,
    Bool.and_true, Bool.not_eq_true] at hno
  exact hno

/-! ### What holds of the threads -/

/-- **What holds of the threads**, in every state. -/
structure Crew (s : Kernel) : Prop where
  cur : ∃ t, s.Live s.cur t
  kernel : ∃ t, s.Live 0 t ∧ t.entry = .kernel ∧ t.leader = t.proc.isSome
  bound : ∀ {i t}, s.Live i t → i < threadsMax
  entry : ∀ {i t}, s.Live i t → i ≠ 0 → t.proc.isSome = true ∧
    (t.leader = true ∧ t.entry = .processEntry ∨ t.leader = false ∧ t.entry = .threadStart)
  home : ∀ {i t p}, s.Live i t → t.proc = some p → s.Running p
  one : ∀ {i j t u}, s.Live i t → s.Live j u → t.leader = true → u.leader = true →
    t.proc = u.proc → i = j
  exits : ∀ {i t}, s.Live i t → t.exiting = true → i = s.cur ∧ t.leader = true ∧
    ∃ k, t.place = .yielded k
  away : ∀ {i t}, s.Live i t → t.place = .user → i = s.cur
  fresh : ∀ {i j t u}, s.Live i t → s.Live j u → t.place = .start → t.leader = true →
    t.proc = u.proc → i = j

/-- A change of the rest that keeps processes running. -/
theorem Crew.of_threads (h : Crew s) (hthreads : s'.threads = s.threads) (hcur : s'.cur = s.cur)
    (hrun : ∀ {i t p}, s.Live i t → t.proc = some p → s.Running p → s'.Running p) : Crew s' := by
  have hlive : ∀ {i t}, s'.Live i t ↔ s.Live i t := fun {i t} => by
    unfold Live
    rw [hthreads]
  constructor
  · rw [hcur]
    exact h.cur.imp fun t ht => hlive.2 ht
  · exact h.kernel.imp fun t ht => ⟨hlive.2 ht.1, ht.2⟩
  · exact fun ht => h.bound (hlive.1 ht)
  · exact fun ht => h.entry (hlive.1 ht)
  · exact fun ht hp => hrun (hlive.1 ht) hp (h.home (hlive.1 ht) hp)
  · exact fun ht hu => h.one (hlive.1 ht) (hlive.1 hu)
  · rw [hcur]
    exact fun ht => h.exits (hlive.1 ht)
  · rw [hcur]
    exact fun ht => h.away (hlive.1 ht)
  · exact fun ht hu => h.fresh (hlive.1 ht) (hlive.1 hu)

/-- A change after which each thread that lives is one that lived, and what it was. -/
theorem Crew.change (h : Crew s)
    (hback : ∀ {i u}, s'.Live i u → ∃ t, s.Live i t ∧ u.proc = t.proc ∧ u.leader = t.leader ∧
      u.entry = t.entry ∧ (u.place = .start → t.place = .start))
    (hcur : ∃ u, s'.Live s'.cur u) (hkernel : ∃ u, s'.Live 0 u)
    (hrun : ∀ {i u p}, s'.Live i u → u.proc = some p → s.Running p → s'.Running p)
    (hexits : ∀ {i u}, s'.Live i u → u.exiting = true → i = s'.cur ∧ u.leader = true ∧
      ∃ k, u.place = .yielded k)
    (haway : ∀ {i u}, s'.Live i u → u.place = .user → i = s'.cur) : Crew s' where
  cur := hcur
  kernel := by
    obtain ⟨u, hu⟩ := hkernel
    obtain ⟨t, ht, hproc, hlead, hentry, -⟩ := hback hu
    obtain ⟨t0, ht0, hentry0, hlead0⟩ := h.kernel
    rw [ht.eq ht0] at hproc hlead hentry
    exact ⟨u, hu, hentry.trans hentry0, by rw [hlead, hlead0, hproc]⟩
  bound hu := by
    obtain ⟨t, ht, -⟩ := hback hu
    exact h.bound ht
  entry hu hi := by
    obtain ⟨t, ht, hproc, hlead, hentry, -⟩ := hback hu
    rw [hproc, hlead, hentry]
    exact h.entry ht hi
  home hu hp := by
    obtain ⟨t, ht, hproc, -⟩ := hback hu
    exact hrun hu hp (h.home ht (hproc.symm.trans hp))
  one hu hv hul hvl hp := by
    obtain ⟨t, ht, hproc, hlead, -⟩ := hback hu
    obtain ⟨w, hw, hproc', hlead', -⟩ := hback hv
    exact h.one ht hw (hlead ▸ hul) (hlead' ▸ hvl) (by rw [← hproc, ← hproc', hp])
  exits := hexits
  away := haway
  fresh hu hv hs hul hp := by
    obtain ⟨t, ht, hproc, hlead, -, hstart⟩ := hback hu
    obtain ⟨w, hw, hproc', -⟩ := hback hv
    exact h.fresh ht hw (hstart hs) (hlead ▸ hul) (by rw [← hproc, ← hproc', hp])

/-! ### What switching keeps of it -/

/-- The thread that runs changed, and what it is left. -/
theorem Crew.change_cur (h : Crew s) (ht : s.Live s.cur t)
    (hlive : ∀ {i v}, s'.Live i v ↔ i = s.cur ∧ v = u ∨ i ≠ s.cur ∧ s.Live i v)
    (hcur : ∃ v, s'.Live s'.cur v) (hrun : ∀ {p}, s.Running p → s'.Running p) (hproc : u.proc = t.proc)
    (hlead : u.leader = t.leader) (hentry : u.entry = t.entry) (hplace : u.place ≠ .start)
    (hexit : u.exiting = false) (hhere : u.place = .user → s'.cur = s.cur) : Crew s' := by
  refine h.change (fun {i v} hv => ?_) hcur ?_ (fun _ _ hr => hrun hr)
    (fun {i v} hv hx => ?_) (fun {i v} hv hx => ?_)
  · rcases hlive.1 hv with ⟨rfl, rfl⟩ | ⟨-, hv⟩
    · exact ⟨t, ht, hproc, hlead, hentry, fun hs => absurd hs hplace⟩
    · exact ⟨v, hv, rfl, rfl, rfl, id⟩
  · obtain ⟨t0, ht0, -⟩ := h.kernel
    rcases eq_or_ne 0 s.cur with h0 | h0
    · exact ⟨u, hlive.2 (Or.inl ⟨h0, rfl⟩)⟩
    · exact ⟨t0, hlive.2 (Or.inr ⟨h0, ht0⟩)⟩
  · rcases hlive.1 hv with ⟨rfl, rfl⟩ | ⟨hne, hv⟩
    · rw [hexit] at hx
      exact Bool.noConfusion hx
    · exact absurd (h.exits hv hx).1 hne
  · rcases hlive.1 hv with ⟨rfl, rfl⟩ | ⟨hne, hv⟩
    · exact (hhere hx).symm
    · exact absurd (h.away hv hx) hne

/-- The running thread put elsewhere, with no end asked of it. -/
theorem Crew.setPlace (h : Crew s) (ht : s.Live s.cur t) {f : Thread → Thread} (hdead : (f t).dead = false)
    (hproc : (f t).proc = t.proc) (hlead : (f t).leader = t.leader) (hentry : (f t).entry = t.entry)
    (hplace : (f t).place ≠ .start) (hexit : (f t).exiting = false) :
    Crew (s.setThread s.cur f) :=
  h.change_cur ht (live_setThread ht hdead) ⟨f t, (live_setThread ht hdead).2 (Or.inl ⟨rfl, rfl⟩)⟩ id hproc
    hlead hentry hplace hexit fun _ => rfl

/-- What `thread_yield` leaves: the same threads, another running. -/
theorem threadYield_live (ht : s.Live s.cur t) (k : After) :
    (∀ {i u}, (s.threadYield k).Live i u ↔
      i = s.cur ∧ u = { t with place := .yielded k } ∨ i ≠ s.cur ∧ s.Live i u) ∧
      (∃ u, (s.threadYield k).Live (s.threadYield k).cur u) ∧ Same s (s.threadYield k) := by
  have hlive : ∀ {i u}, (s.setThread s.cur fun t => { t with place := .yielded k }).Live i u ↔
      i = s.cur ∧ u = { t with place := .yielded k } ∨ i ≠ s.cur ∧ s.Live i u :=
    live_setThread ht ht.2
  unfold threadYield
  simp only
  cases hn : (s.setThread s.cur fun t => { t with place := .yielded k }).nextOne false with
  | none => exact ⟨hlive, ⟨_, hlive.2 (Or.inl ⟨rfl, rfl⟩)⟩, rfl, rfl, rfl, rfl⟩
  | some n =>
    obtain ⟨⟨u, hu, -⟩, -⟩ := nextOne_some hn
    exact ⟨(live_switchTo _ n).trans hlive, ⟨u, (live_switchTo _ n).2 hu⟩, rfl, rfl, rfl, rfl⟩

theorem Crew.threadYield (h : Crew s) (ht : s.Live s.cur t) (hexit : t.exiting = false) (k : After) :
    Crew (s.threadYield k) := by
  obtain ⟨hlive, hcur, hsame⟩ := threadYield_live ht k
  exact h.change_cur ht hlive hcur hsame.running.2 rfl rfl rfl (fun hs => nomatch hs) hexit
    fun hs => nomatch hs

/-- What a thread that ends leaves: the others, one of them running. -/
theorem leave_live (hb : s.cur < threadsMax) (h0 : s.Live 0 u) (hcur : s.cur ≠ 0) :
    (∀ {i u}, s.leave.Live i u ↔ i ≠ s.cur ∧ s.Live i u) ∧ (∃ u, s.leave.Live s.leave.cur u) ∧
      Same s s.leave := by
  have hlive : ∀ {i u}, (s.setThread s.cur fun t => { t with dead := true }).Live i u ↔
      i ≠ s.cur ∧ s.Live i u := live_kill s s.cur
  unfold leave
  simp only
  cases hn : (s.setThread s.cur fun t => { t with dead := true }).nextOne false with
  | none =>
    exact absurd (nextOne_none hn hb (Nat.succ_pos _) hcur.symm (hlive.2 ⟨hcur.symm, h0⟩)).1
      Bool.false_ne_true
  | some n =>
    obtain ⟨⟨u, hu, -⟩, -⟩ := nextOne_some hn
    exact ⟨(live_switchTo _ n).trans hlive, ⟨u, (live_switchTo _ n).2 hu⟩, rfl, rfl, rfl, rfl⟩

theorem Crew.cur_lt (h : Crew s) : s.cur < threadsMax := by
  obtain ⟨t, ht⟩ := h.cur
  exact h.bound ht

theorem Crew.leave (h : Crew s) (hcur : s.cur ≠ 0) : Crew s.leave := by
  obtain ⟨t0, ht0, -⟩ := h.kernel
  obtain ⟨hlive, hlast, hsame⟩ := leave_live h.cur_lt ht0 hcur
  refine h.change (fun {i u} hu => ⟨u, (hlive.1 hu).2, rfl, rfl, rfl, id⟩) hlast
    ⟨t0, hlive.2 ⟨hcur.symm, ht0⟩⟩ (fun _ _ hr => hsame.running.2 hr) (fun {i u} hu hx => ?_)
    (fun {i u} hu hx => ?_)
  · exact absurd (h.exits (hlive.1 hu).2 hx).1 (hlive.1 hu).1
  · exact absurd (h.away (hlive.1 hu).2 hx) (hlive.1 hu).1

theorem Crew.endOthers (h : Crew s) : Crew s.endOthers := by
  obtain ⟨t, ht⟩ := h.cur
  obtain ⟨t0, ht0, -⟩ := h.kernel
  exact h.change (fun {i u} hu => ⟨u, (live_endOthers.1 hu).1, rfl, rfl, rfl, id⟩)
    ⟨t, live_endOthers.2 ⟨ht, Or.inr (Or.inl rfl)⟩⟩ ⟨t0, live_endOthers.2 ⟨ht0, Or.inl rfl⟩⟩
    (fun _ _ hr => hr) (fun hu hx => h.exits (live_endOthers.1 hu).1 hx)
    (fun hu hx => h.away (live_endOthers.1 hu).1 hx)

/-! ### What ending keeps of it -/

theorem processEnd_running (p : ℕ) {q : ℕ} (hne : q ≠ p) (h : s.Running q) :
    (s.processEnd p).Running q := by
  obtain ⟨hlt, c, hc, hz⟩ := h
  unfold processEnd
  cases hp : s.table.procs p with
  | none => exact ⟨hlt, c, hc, hz⟩
  | some r =>
    obtain ⟨⟨ppid, -, hprocs⟩, -⟩ := processEnd_spec hp
    refine ⟨hlt, c.left r.pid, ?_, (Process.left_zombie _).trans hz⟩
    show (Proc.processEnd s.table p).procs q = _
    rw [hprocs, if_neg hne, hc]
    rfl

/-- Nobody else is of a process. -/
def Alone (s : Kernel) (p : ℕ) : Prop := ∀ {i u}, s.Live i u → i ≠ s.cur → u.proc ≠ some p

/-- **The end of a process**: the thread that ran was the last of it, and the others are as they were. -/
structure Ends (s s' : Kernel) (p : ℕ) (r : Process) : Prop where
  record : s.table.procs p = some r
  table : s'.table = Proc.processEnd s.table p ∨
    s.cur = 0 ∧ s'.table = procFree (Proc.processEnd s.table p) p
  ended : s'.ended = update s.ended r.pid (s.ended r.pid + 1)
  spaces : s'.spaces = s.spaces
  resets : s'.resets = (s.processEnd p).resets
  cur : ∃ u, s'.Live s'.cur u
  gone : ∀ {i u}, s'.Live i u → u.proc ≠ some p
  others : ∀ {i u}, s'.Live i u → i ≠ s.cur → s.Live i u
  stay : ∀ {i u}, s.Live i u → i ≠ s.cur → s'.Live i u
  kernel : s.cur = 0 → ∃ u, s'.Live 0 u
  idle : ∀ {u}, s'.Live s.cur u → s.cur = 0 ∧ s'.cur = 0 ∧ u.proc = none ∧ u.leader = false ∧
    u.entry = .kernel ∧ u.place = .user ∧ u.exiting = false

theorem Ends.running {r : Process} (h : Ends s s' p r) {q : ℕ} (hne : q ≠ p) (hq : s.Running q) :
    s'.Running q := by
  have hend := processEnd_running p hne hq
  have htable : (s.processEnd p).table = Proc.processEnd s.table p := by
    unfold processEnd
    rw [h.record]
  unfold Running at hend ⊢
  rw [htable] at hend
  rcases h.table with ht | ⟨-, ht⟩
  · rw [ht]
    exact hend
  · obtain ⟨hlt, c, hc, hz⟩ := hend
    refine ⟨hlt, c, ?_, hz⟩
    rw [ht]
    cases hp : (Proc.processEnd s.table p).procs p with
    | none => rw [procFree_none hp, hc]
    | some r => rw [(procFree_spec hp).1, update_of_ne hne, hc]

theorem Ends.crew {r : Process} (h : Crew s) (he : Ends s s' p r) : Crew s' where
  cur := he.cur
  kernel := by
    rcases eq_or_ne 0 s.cur with h0 | h0
    · obtain ⟨u, hu⟩ := he.kernel h0.symm
      obtain ⟨-, -, hproc, hlead, hentry, -⟩ := he.idle (h0 ▸ hu)
      exact ⟨u, hu, hentry, by rw [hlead, hproc]; rfl⟩
    · obtain ⟨t0, ht0, hrest⟩ := h.kernel
      exact ⟨t0, he.stay ht0 h0, hrest⟩
  bound {i u} hu := by
    rcases eq_or_ne i s.cur with rfl | hne
    · rw [(he.idle hu).1]
      exact Nat.succ_pos _
    · exact h.bound (he.others hu hne)
  entry {i u} hu hi := by
    rcases eq_or_ne i s.cur with rfl | hne
    · exact absurd (he.idle hu).1 hi
    · exact h.entry (he.others hu hne) hi
  home {i u q} hu hq := by
    rcases eq_or_ne i s.cur with rfl | hne
    · rw [(he.idle hu).2.2.1] at hq
      exact nomatch hq
    · exact he.running (fun heq => he.gone hu (heq ▸ hq)) (h.home (he.others hu hne) hq)
  one {i j u v} hu hv hul hvl hp := by
    rcases eq_or_ne i s.cur with rfl | hi
    · rw [(he.idle hu).2.2.2.1] at hul
      exact nomatch hul
    rcases eq_or_ne j s.cur with rfl | hj
    · rw [(he.idle hv).2.2.2.1] at hvl
      exact nomatch hvl
    exact h.one (he.others hu hi) (he.others hv hj) hul hvl hp
  exits {i u} hu hx := by
    rcases eq_or_ne i s.cur with rfl | hne
    · rw [(he.idle hu).2.2.2.2.2.2] at hx
      exact nomatch hx
    · exact absurd (h.exits (he.others hu hne) hx).1 hne
  away {i u} hu hx := by
    rcases eq_or_ne i s.cur with rfl | hne
    · exact (he.idle hu).1.trans (he.idle hu).2.1.symm
    · exact absurd (h.away (he.others hu hne) hx) hne
  fresh {i j u v} hu hv hs hul hp := by
    rcases eq_or_ne i s.cur with rfl | hi
    · rw [(he.idle hu).2.2.2.2.2.1] at hs
      exact nomatch hs
    rcases eq_or_ne j s.cur with rfl | hj
    · obtain ⟨h0, -, hnone, -⟩ := he.idle hv
      have hsome := (h.entry (he.others hu hi) (h0 ▸ hi)).1
      rw [hp, hnone] at hsome
      exact nomatch hsome
    exact h.fresh (he.others hu hi) (he.others hv hj) hs hul hp

/-- **`user_exit`** of a process's leader, when it is alone. -/
theorem userExit_leader (h : Crew s) (ht : s.Live s.cur t) (hp : t.proc = some p)
    (hl : t.leader = true) (hx : t.exiting = false) (halone : s.Alone p) :
    ∃ r, Ends s s.userExit p r := by
  obtain ⟨-, r, hr, -⟩ := h.home ht hp
  have hend : s.processEnd p = { s with
      table := Proc.processEnd s.table p
      ended := update s.ended r.pid (s.ended r.pid + 1)
      resets := (s.processEnd p).resets } := by
    unfold processEnd
    rw [hr]
  have hlive : ∀ {i u}, (s.processEnd p).Live i u ↔ s.Live i u := fun {i u} => by
    rw [hend]
    exact Iff.rfl
  have hcur : (s.processEnd p).cur = s.cur := by
    rw [hend]
  have halone' : ∀ {i u}, s.Live i u → i ≠ s.cur → u.proc ≠ some p := halone
  obtain ⟨t0, ht0, hentry0, -⟩ := h.kernel
  refine ⟨r, ?_⟩
  rcases eq_or_ne s.cur 0 with h0 | h0
  · have hexit : s.userExit = (s.processEnd p).disown p := by
      unfold userExit
      rw [ht.1]
      rw [← h0] at ht0
      simp only [ht.eq ht0, hentry0]
      rw [← ht.eq ht0, hp]
    have hothers : ∀ {i u}, (s.processEnd p).endOthers.Live i u ↔
        s.Live i u ∧ (i = 0 ∨ i = s.cur ∨ u.proc ≠ some p) := fun {i u} => by
      have hproc : (s.processEnd p).proc = some p := by
        rw [(hlive.2 (hcur ▸ ht) : (s.processEnd p).Live (s.processEnd p).cur t).proc_eq, hp]
      rw [live_endOthers, hlive, hcur, hproc]
    have hfinal : ∀ {i u}, s.userExit.Live i u ↔
        i = s.cur ∧ u = { t with leader := false, proc := none, place := .user } ∨
          i ≠ s.cur ∧ s.Live i u := fun {i u} => by
      have hset := live_setThread (s := (s.processEnd p).endOthers) (j := s.cur) (i := i) (u := u)
        (f := fun t => { t with leader := false, proc := none, place := .user })
        (hothers.2 ⟨ht, Or.inr (Or.inl rfl)⟩) ht.2
      rw [hexit]
      unfold disown
      rw [hcur]
      refine hset.trans (or_congr_right (and_congr_right fun hne => ?_))
      exact ⟨fun hu => (hothers.1 hu).1, fun hu => hothers.2 ⟨hu, Or.inr (Or.inr (halone' hu hne))⟩⟩
    have hcur' : s.userExit.cur = s.cur := by
      rw [hexit]
      exact hcur
    refine ⟨hr, Or.inr ⟨h0, ?_⟩, ?_, ?_, ?_, ⟨_, hfinal.2 (Or.inl ⟨hcur', rfl⟩)⟩, fun {i u} hu => ?_,
      fun {i u} hu hne => ?_, fun {i u} hu hne => hfinal.2 (Or.inr ⟨hne, hu⟩),
      fun _ => ⟨_, hfinal.2 (Or.inl ⟨h0.symm, rfl⟩)⟩, fun {u} hu => ?_⟩
    · rw [hexit, hend]
      rfl
    · rw [hexit, hend]
      rfl
    · rw [hexit, hend]
      rfl
    · rw [hexit]
      rfl
    · rcases hfinal.1 hu with ⟨-, rfl⟩ | ⟨hne, hu⟩
      · exact fun hno => nomatch hno
      · exact halone' hu hne
    · exact ((hfinal.1 hu).resolve_left fun hc => hne hc.1).2
    · rcases hfinal.1 hu with ⟨-, rfl⟩ | ⟨hne, -⟩
      · rw [← h0] at ht0
        refine ⟨h0, hcur'.trans h0, rfl, rfl, ?_, rfl, hx⟩
        rw [← hentry0, ← ht.eq ht0]
      · exact absurd rfl hne
  · obtain ⟨-, ⟨-, hentry⟩ | ⟨hno, -⟩⟩ := h.entry ht h0
    · have hexit : s.userExit = (s.processEnd p).leave := by
        unfold userExit
        rw [ht.1]
        simp only [hentry, hp]
      obtain ⟨hfinal, hlast, hsame⟩ := leave_live (hcur ▸ h.cur_lt) (hlive.2 ht0) (hcur ▸ h0)
      rw [hcur] at hfinal
      rw [hexit]
      refine ⟨hr, Or.inl ?_, ?_, ?_, hsame.resets, hlast, fun {i u} hu => ?_, fun {i u} hu _ => ?_,
        fun {i u} hu hne => hfinal.2 ⟨hne, hlive.2 hu⟩, fun hno => absurd hno h0, fun {u} hu => ?_⟩
      · rw [hsame.table, hend]
      · rw [hsame.ended, hend]
      · rw [hsame.spaces, hend]
      · exact halone' (hlive.1 (hfinal.1 hu).2) (hfinal.1 hu).1
      · exact hlive.1 (hfinal.1 hu).2
      · exact absurd rfl (hfinal.1 hu).1
    · rw [hl] at hno
      exact nomatch hno

theorem userExit_other (h : Crew s) (ht : s.Live s.cur t) (hp : t.proc = some p)
    (hl : t.leader = false) : s.cur ≠ 0 ∧ s.userExit = s.leave := by
  have h0 : s.cur ≠ 0 := fun h0 => by
    obtain ⟨t0, ht0, -, hlead0⟩ := h.kernel
    rw [← h0] at ht0
    rw [← ht.eq ht0, hl, hp] at hlead0
    exact nomatch hlead0
  obtain ⟨-, ⟨hno, -⟩ | ⟨-, hentry⟩⟩ := h.entry ht h0
  · rw [hl] at hno
    exact nomatch hno
  · refine ⟨h0, ?_⟩
    unfold userExit
    rw [ht.1]
    simp only [hentry]

/-- The end asked of a leader, which runs next. -/
structure Asked (s s' : Kernel) (l : ℕ) (u : Thread) : Prop where
  same : Same s s'
  leader : s.Live l u ∧ u.leader = true ∧ u.proc = s.proc ∧ l ≠ s.cur ∧ ∃ k, u.place = .yielded k
  cur : s'.cur = l
  live : ∀ {i v}, s'.Live i v ↔
    i ≠ s.cur ∧ (i = l ∧ v = { u with exiting := true } ∨ i ≠ l ∧ s.Live i v)

theorem Asked.crew {l : ℕ} (h : Crew s) (ht : s.Live s.cur t) (hp : t.proc = some p)
    (ha : Asked s s' l u) : Crew s' := by
  obtain ⟨hu, hul, hup, hne, k, hk⟩ := ha.leader
  refine h.change (fun {i v} hv => ?_) ⟨{ u with exiting := true }, ?_⟩ ?_
    (fun _ _ hr => ha.same.running.2 hr)
    (fun {i v} hv hx => ?_) (fun {i v} hv hx => ?_)
  · obtain ⟨-, ⟨rfl, rfl⟩ | ⟨-, hv⟩⟩ := ha.live.1 hv
    · exact ⟨u, hu, rfl, rfl, rfl, id⟩
    · exact ⟨v, hv, rfl, rfl, rfl, id⟩
  · rw [ha.cur]
    exact ha.live.2 ⟨hne, Or.inl ⟨rfl, rfl⟩⟩
  · obtain ⟨t0, ht0, -, hlead0⟩ := h.kernel
    have hcur : 0 ≠ s.cur := fun h0 => by
      -- the kernel's thread is the leader of what it runs
      rw [h0] at ht0
      rw [← ht.eq ht0, hp] at hlead0
      exact hne (h.one hu ht hul hlead0 (by rw [hup, ht.proc_eq]))
    rcases eq_or_ne 0 l with h1 | h1
    · exact ⟨_, ha.live.2 ⟨hcur, Or.inl ⟨h1, rfl⟩⟩⟩
    · exact ⟨t0, ha.live.2 ⟨hcur, Or.inr ⟨h1, ht0⟩⟩⟩
  · obtain ⟨hi, ⟨rfl, rfl⟩ | ⟨-, hv⟩⟩ := ha.live.1 hv
    · exact ⟨ha.cur.symm, hul, k, hk⟩
    · exact absurd (h.exits hv hx).1 hi
  · obtain ⟨hi, ⟨rfl, rfl⟩ | ⟨-, hv⟩⟩ := ha.live.1 hv
    · exact ha.cur.symm
    · exact absurd (h.away hv hx) hi

/-- What `process_exit` does: it ends the process; or has the leader do it; or, where there is none,
ends the threads and no more. -/
inductive Exits (s : Kernel) (p : ℕ) (t : Thread) (s' : Kernel) : Prop
  | ends {r : Process} (hl : t.leader = true) (h : Ends s.endOthers s' p r)
  | asked {l : ℕ} {u : Thread} (hl : t.leader = false) (h : Asked s s' l u)
  | lost (hl : t.leader = false)
      (hno : ∀ {i u}, s.Live i u → u.proc = some p → u.leader = false) (h0 : s.cur ≠ 0)
      (h : s' = s.endOthers.leave)

/-- `thread_end_others` leaves a leader alone. -/
theorem endOthers_alone (h : Crew s) (ht : s.Live s.cur t) (hp : t.proc = some p)
    (hl : t.leader = true) : s.endOthers.Alone p := fun {i v} hv hne hvp => by
  obtain ⟨hv, rfl | rfl | hother⟩ := live_endOthers.1 hv
  · obtain ⟨t0, ht0, -, hlead0⟩ := h.kernel
    rw [← hv.eq ht0, hvp] at hlead0
    exact hne (h.one hv ht hlead0 hl (hvp.trans hp.symm))
  · exact hne rfl
  · exact hother (hvp.trans (ht.proc_eq.trans hp).symm)

theorem processExit_spec (h : Crew s) (ht : s.Live s.cur t) (hp : t.proc = some p)
    (hx : t.exiting = false) : Exits s p t s.processExit := by
  have hproc : s.proc = some p := ht.proc_eq.trans hp
  have htothers : s.endOthers.Live s.endOthers.cur t := live_endOthers.2 ⟨ht, Or.inr (Or.inl rfl)⟩
  unfold processExit
  rw [hproc]
  simp only
  cases hleader : s.leaderOf p with
  | none =>
    have hno : ∀ {i u}, s.Live i u → u.proc = some p → u.leader = false := fun hu hup =>
      leaderOf_none hleader (h.bound hu) hu hup
    obtain ⟨h0, hexit⟩ := userExit_other h.endOthers htothers hp (hno ht hp)
    exact .lost (hno ht hp) hno h0 hexit
  | some l =>
    obtain ⟨u, hu, hul, hup⟩ := leaderOf_some hleader
    simp only
    split_ifs with hl
    · rw [hl] at hu
      rw [hu.eq ht] at hul
      obtain ⟨r, hr⟩ :=
        userExit_leader h.endOthers htothers hp hul hx (endOthers_alone h ht hp hul)
      exact .ends hul hr
    · have htl : t.leader = false := Bool.eq_false_iff.2 fun htl =>
        hl (h.one hu ht hul htl (hup.trans hp.symm))
      have hplace : ∃ k, u.place = .yielded k := by
        cases hpl : u.place with
        | start => exact absurd (h.fresh hu ht hpl hul (hup.trans hp.symm)) hl
        | user => exact absurd (h.away hu hpl) hl
        | yielded k => exact ⟨k, rfl⟩
      refine .asked htl ⟨⟨rfl, rfl, rfl, rfl⟩, ⟨hu, hul, hup.trans hproc.symm, hl, hplace⟩, rfl,
        fun {i v} => ?_⟩
      rw [live_switchTo]
      refine (live_kill _ s.cur).trans (and_congr_right fun _ => ?_)
      exact live_setThread hu hu.2

/-- What `thread_exit` does: the leader waits for the others, or ends the process; another ends. -/
inductive Exit (s : Kernel) (p : ℕ) (t : Thread) (s' : Kernel) : Prop
  | waits (hl : t.leader = true) (hn : ¬s.Alone p) (h : s' = s.threadYield .exits)
  | ends {r : Process} (hl : t.leader = true) (halone : s.Alone p) (h : Ends s s' p r)
  | leaves (hl : t.leader = false) (h0 : s.cur ≠ 0) (h : s' = s.leave)

theorem threadExit_spec (h : Crew s) (ht : s.Live s.cur t) (hp : t.proc = some p)
    (hx : t.exiting = false) : Exit s p t s.threadExit := by
  unfold threadExit
  rw [ht.1, Option.any_some]
  cases hl : t.leader with
  | false =>
    rw [Bool.false_and, if_neg Bool.false_ne_true]
    obtain ⟨h0, hexit⟩ := userExit_other h ht hp hl
    exact .leaves hl h0 hexit
  | true =>
    rw [Bool.true_and]
    cases hn : s.nextOne true with
    | some n =>
      rw [if_pos (Option.isSome_some (a := n))]
      obtain ⟨⟨u, hu, hup⟩, hne⟩ := nextOne_some hn
      exact .waits hl (fun hno => hno hu (hne h.cur_lt) (by rw [hup rfl, ht.proc_eq, hp])) rfl
    | none =>
      rw [if_neg (by simp)]
      have halone : s.Alone p := fun {i u} hu hne hup =>
        (nextOne_none hn h.cur_lt (h.bound hu) hne hu).2 (by rw [hup, ht.proc_eq, hp])
      obtain ⟨r, hr⟩ := userExit_leader h ht hp hl hx halone
      exact .ends hl halone hr

/-! ### What starting keeps of it -/

/-- A thread put in a free place. -/
structure Added (s s' : Kernel) (i : ℕ) (t : Thread) : Prop where
  bound : i ≠ 0 ∧ i < threadsMax
  free : ∀ {u}, ¬s.Live i u
  live : ∀ {j u}, s'.Live j u ↔ j = i ∧ u = t ∨ s.Live j u
  table : s'.table = { s.table with nextId := s.table.nextId + 1 }
  cur : s'.cur = s.cur
  ended : s'.ended = s.ended
  spaces : s'.spaces = s.spaces
  resets : s'.resets = s.resets

theorem freeThread_some (h : s.freeThread = some i) :
    i ≠ 0 ∧ i < threadsMax ∧ ∀ {u}, ¬s.Live i u := by
  unfold freeThread at h
  have hfree := List.find?_some h
  have hmem := List.mem_of_find?_eq_some h
  rw [List.mem_range] at hmem
  simp only [Bool.and_eq_true, decide_eq_true_eq, Option.isNone_iff_eq_none] at hfree
  refine ⟨hfree.1, hmem, fun {u} hu => ?_⟩
  have hlive := (live_reap.2 hu).1
  rw [hfree.2] at hlive
  exact nomatch hlive

theorem threadNew_spec (s : Kernel) (p : ℕ) (leader : Bool) (entry : Entry) (stack : Bool) :
    let t : Thread := ⟨some p, leader, s.table.nextId, false, false, entry, .start⟩
    ((s.freeThread.isSome && stack) = true → ∃ i, Added s (s.threadNew p leader entry stack) i t) ∧
      ((s.freeThread.isSome && stack) = false → s.threadNew p leader entry stack = s.reap) := by
  unfold threadNew
  cases hfree : s.freeThread with
  | none => exact ⟨fun hno => Bool.noConfusion hno, fun _ => rfl⟩
  | some i =>
    obtain ⟨h0, hlt, hno⟩ := freeThread_some hfree
    cases stack with
    | false => exact ⟨fun hno => Bool.noConfusion hno, fun _ => rfl⟩
    | true =>
      refine ⟨fun _ => ⟨i, ⟨h0, hlt⟩, hno, fun {j u} => ?_, rfl, rfl, rfl, rfl, rfl⟩,
        fun hno => Bool.noConfusion hno⟩
      unfold Live
      simp only
      rcases eq_or_ne j i with rfl | hne
      · rw [update_self]
        have : ¬(s.threads j = some u ∧ u.dead = false) := hno
        simp only [true_and, this, or_false, Option.some.injEq]
        exact ⟨fun hu => hu.1.symm, fun hu => ⟨hu.symm, by rw [hu]⟩⟩
      · rw [update_of_ne hne]
        simp only [hne, false_and, false_or]
        exact live_reap

/-- A thread added, of a process that runs. -/
theorem Added.crew (h : Crew s) {leader : Bool} {entry : Entry} {tid : ℕ}
    (ha : Added s s' i ⟨some p, leader, tid, false, false, entry, .start⟩)
    (hentry : leader = true ∧ entry = .processEntry ∨ leader = false ∧ entry = .threadStart)
    (hrun : s.Running p)
    (hfirst : leader = true → ∀ {j u}, s.Live j u → u.proc ≠ some p)
    (hmore : ∀ {j u}, s.Live j u → u.proc = some p → u.place ≠ .start ∨ u.leader = false) :
    Crew s' := by
  have hrunning : ∀ {q}, s'.Running q ↔ s.Running q := fun {q} => by
    unfold Running
    rw [ha.table]
  constructor
  · obtain ⟨t, ht⟩ := h.cur
    exact ⟨t, ha.live.2 (Or.inr (ha.cur ▸ ht))⟩
  · obtain ⟨t, ht, hrest⟩ := h.kernel
    exact ⟨t, ha.live.2 (Or.inr ht), hrest⟩
  · rintro j u hu
    rcases ha.live.1 hu with ⟨rfl, -⟩ | hu
    · exact ha.bound.2
    · exact h.bound hu
  · rintro j u hu h0
    rcases ha.live.1 hu with ⟨-, rfl⟩ | hu
    · exact ⟨rfl, hentry⟩
    · exact h.entry hu h0
  · rintro j u q hu hq
    rcases ha.live.1 hu with ⟨-, rfl⟩ | hu
    · exact hrunning.2 (Option.some.inj hq ▸ hrun)
    · exact hrunning.2 (h.home hu hq)
  · rintro j k u v hu hv hul hvl huv
    rcases ha.live.1 hu with ⟨rfl, rfl⟩ | hu <;> rcases ha.live.1 hv with ⟨rfl, rfl⟩ | hv
    · rfl
    · exact absurd huv.symm (hfirst hul hv)
    · exact absurd huv (hfirst hvl hu)
    · exact h.one hu hv hul hvl huv
  · rintro j u hu hx
    rcases ha.live.1 hu with ⟨-, rfl⟩ | hu
    · exact nomatch hx
    · rw [ha.cur]
      exact h.exits hu hx
  · rintro j u hu hx
    rcases ha.live.1 hu with ⟨-, rfl⟩ | hu
    · exact nomatch hx
    · rw [ha.cur]
      exact h.away hu hx
  · rintro j k u v hu hv hs hul huv
    rcases ha.live.1 hu with ⟨rfl, rfl⟩ | hu <;> rcases ha.live.1 hv with ⟨rfl, rfl⟩ | hv
    · rfl
    · exact absurd huv.symm (hfirst hul hv)
    · rcases hmore hu huv with hno | hno
      · exact absurd hs hno
      · rw [hno] at hul
        exact nomatch hul
    · exact h.fresh hu hv hs hul huv

/-- `thread_adopt`: the kernel's own thread made the leader of a process nobody is of. -/
theorem Crew.adopt (h : Crew s) (ht : s.Live s.cur t) (hp : t.proc = none) (hrun : s.Running p)
    (hnone : ∀ {j u}, s.Live j u → u.proc ≠ some p) :
    s.cur = 0 ∧ Crew (s.setThread s.cur fun t => { t with leader := true, proc := some p }) := by
  have h0 : s.cur = 0 := by
    by_contra hne
    have hsome := (h.entry ht hne).1
    rw [hp] at hsome
    exact nomatch hsome
  have hlive : ∀ {i u}, (s.setThread s.cur fun t => { t with leader := true, proc := some p }).Live i u ↔
      i = s.cur ∧ u = { t with leader := true, proc := some p } ∨ i ≠ s.cur ∧ s.Live i u :=
    live_setThread ht ht.2
  obtain ⟨t0, ht0, hentry0, -⟩ := h.kernel
  rw [← h0] at ht0
  refine ⟨h0, ⟨_, hlive.2 (Or.inl ⟨rfl, rfl⟩)⟩, ⟨_, hlive.2 (Or.inl ⟨h0.symm, rfl⟩), ?_, rfl⟩, ?_, ?_, ?_,
    ?_, ?_, ?_, ?_⟩
  · rw [← hentry0, ht0.eq ht]
  · intro i u hu
    rcases hlive.1 hu with ⟨rfl, -⟩ | ⟨-, hu⟩
    · exact h.bound ht
    · exact h.bound hu
  · intro i u hu hi
    rcases hlive.1 hu with ⟨rfl, -⟩ | ⟨-, hu⟩
    · exact absurd h0 hi
    · exact h.entry hu hi
  · intro i u q hu hq
    rcases hlive.1 hu with ⟨-, rfl⟩ | ⟨-, hu⟩
    · exact Option.some.inj hq ▸ hrun
    · exact h.home hu hq
  · intro i j u v hu hv hul hvl huv
    rcases hlive.1 hu with ⟨rfl, rfl⟩ | ⟨-, hu⟩ <;> rcases hlive.1 hv with ⟨rfl, rfl⟩ | ⟨-, hv⟩
    · rfl
    · exact absurd huv.symm (hnone hv)
    · exact absurd huv (hnone hu)
    · exact h.one hu hv hul hvl huv
  · intro i u hu hx
    rcases hlive.1 hu with ⟨hi, rfl⟩ | ⟨-, hu⟩
    · obtain ⟨-, -, hk⟩ := h.exits ht hx
      exact ⟨hi, rfl, hk⟩
    · exact h.exits hu hx
  · intro i u hu hx
    rcases hlive.1 hu with ⟨hi, -⟩ | ⟨-, hu⟩
    · exact hi
    · exact h.away hu hx
  · intro i j u v hu hv hs hul huv
    rcases hlive.1 hu with ⟨rfl, rfl⟩ | ⟨-, hu⟩ <;> rcases hlive.1 hv with ⟨rfl, rfl⟩ | ⟨-, hv⟩
    · rfl
    · exact absurd huv.symm (hnone hv)
    · exact absurd huv (hnone hu)
    · exact h.fresh hu hv hs hul huv

end Kernel
end BaxOS.Proc
