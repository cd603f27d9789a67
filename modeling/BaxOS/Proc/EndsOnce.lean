import BaxOS.Proc.Steps
import BaxOS.Lib.Runs

/-!
# A process ends once

In every run in which no thread but a process's leader starts a program, and no fork leaves its child
half made: a process that has not ended has one leader; `process_end` runs once for each that ends, by
whichever of its threads, and no thread of it lives on; and what it had is given back
(`run_endsOnce`). A thread other than the leader that starts a program leaves a process that never
ends (`exists_not_endsOnce`).
-/

namespace BaxOS.Proc
namespace Kernel
open Function

variable {s s' : Kernel} {i p q : ℕ} {t u : Thread} {r c : Process} {a : Action}

/-- **A process ends exactly once.** -/
structure EndsOnce (s : Kernel) : Prop where
  /-- One that has not ended has one leader. -/
  leader : ∀ p r, s.table.procs p = some r → r.zombie = false →
    ∃! i, ∃ t, s.Live i t ∧ t.leader = true ∧ t.proc = some p
  /-- No thread of one that has lives, and only what lives runs. -/
  silent : ∀ p r, s.table.procs p = some r → r.zombie = true → ∀ i t, s.Live i t → t.proc ≠ some p
  runs : ∃ t, s.Live s.cur t
  /-- `process_end` has run once for those that have ended, and for no other. -/
  counted : ∀ p r, s.table.procs p = some r → s.ended r.pid = if r.zombie then 1 else 0
  once : ∀ pid, s.ended pid ≤ 1
  /-- One that has ended holds nothing, and memory that is taken is some process's own. -/
  released : ∀ p r, s.table.procs p = some r → r.zombie = true →
    r.space = none ∧ ∀ fd, r.files.data fd = none
  memory : ∀ b, s.spaces b = true → s.table.taken b = true →
    ∃ p r, s.table.procs p = some r ∧ r.zombie = false ∧ r.borrowed = false ∧ r.space = some b
  /-- `exit_group`, or a signal or a fault that ends the process, ends it: at once, or by the leader,
  which runs next. -/
  group : ∀ t p r, s.Live s.cur t → t.place = .user → t.proc = some p → s.table.procs p = some r →
    ∀ a, (s.step .exitGroup).ended r.pid = 1 ∨ ((s.step .exitGroup).step a).ended r.pid = 1
  asked : ∀ i t p r, s.Live i t → t.exiting = true → t.proc = some p → s.table.procs p = some r →
    i = s.cur ∧ ∀ a, (s.step a).ended r.pid = 1
  /-- The leader's `exit` ends it once the others have. -/
  last : ∀ t p r, s.Live s.cur t → t.leader = true → t.exiting = false → t.proc = some p →
    s.table.procs p = some r → s.Alone p →
    (t.place = .user → (s.step .exit).ended r.pid = 1) ∧
      (t.place = .yielded .exits → ∀ a, (s.step a).ended r.pid = 1)
  /-- A parent that has not ended finds it with `wait4`, from the step on that ends it. -/
  parent : ∀ a p r q c, s.table.procs p = some r → r.zombie = false → s.table.procs q = some c →
    c.zombie = false → q ≠ p → c.pid = r.ppid → (s.step a).ended r.pid = 1 →
    Proc.wait4 (s.step a).table c (.pid r.pid) = .ended r.pid

/-- **What it holds by**: a program is started by the leader, or where the leader is the kernel's own
thread, which stays; and a fork does not leave its child half made. -/
def Led (s : Kernel) (a : Action) : Prop :=
  ∀ t p r, s.Live s.cur t → t.place = .user → t.proc = some p → s.table.procs p = some r →
    match a with
    | .execve _ _ _ => t.leader = true ∨ ∃ u, s.Live 0 u ∧ u.proc = some p
    | .fork _ _ _ => ¬Stranded s.table p r
    | _ => True

/-- Every process that runs has a leader. -/
structure Headed (s : Kernel) : Prop where
  leader : ∀ {p}, s.Running p → ∃ i t, s.Live i t ∧ t.leader = true ∧ t.proc = some p

/-! ### Leaders stay -/

theorem Headed.change (h : Headed s) (hrun : ∀ {p}, s'.Running p → s.Running p)
    (hkeep : ∀ {i t p}, s.Live i t → t.leader = true → t.proc = some p → s'.Running p →
      ∃ j u, s'.Live j u ∧ u.leader = true ∧ u.proc = some p) : Headed s' where
  leader hp := by
    obtain ⟨i, t, ht, hl, htp⟩ := h.leader (hrun hp)
    exact hkeep ht hl htp hp

theorem Headed.threadYield (h : Headed s) (ht : s.Live s.cur t) (k : After) :
    Headed (s.threadYield k) := by
  obtain ⟨hlive, -, hsame⟩ := threadYield_live ht k
  refine h.change (fun hp => hsame.running.1 hp) fun {i u p} hu hl hp _ => ?_
  rcases eq_or_ne i s.cur with rfl | hne
  · rw [hu.eq ht] at hl hp
    exact ⟨_, _, hlive.2 (Or.inl ⟨rfl, rfl⟩), hl, hp⟩
  · exact ⟨i, u, hlive.2 (Or.inr ⟨hne, hu⟩), hl, hp⟩

theorem Headed.setPlace (h : Headed s) (ht : s.Live s.cur t) {f : Thread → Thread}
    (hdead : (f t).dead = false) (hproc : (f t).proc = t.proc) (hlead : (f t).leader = t.leader) :
    Headed (s.setThread s.cur f) := by
  refine h.change id fun {i u p} hu hl hp _ => ?_
  rcases eq_or_ne i s.cur with rfl | hne
  · rw [hu.eq ht] at hl hp
    exact ⟨_, _, (live_setThread ht hdead).2 (Or.inl ⟨rfl, rfl⟩), hlead.trans hl, hproc.trans hp⟩
  · exact ⟨i, u, (live_setThread ht hdead).2 (Or.inr ⟨hne, hu⟩), hl, hp⟩

/-- The leader, or the kernel's own thread, ends none of its process's leaders. -/
theorem Headed.endOthers (h : Headed s) (hi : Inv s) (ht : s.Live s.cur t) (hp : t.proc = some p)
    (hlead : t.leader = true ∨ ∃ u, s.Live 0 u ∧ u.proc = some p) : Headed s.endOthers := by
  refine h.change id fun {i u q} hu hl hq _ => ⟨i, u, live_endOthers.2 ⟨hu, ?_⟩, hl, hq⟩
  rcases eq_or_ne q p with rfl | hne
  · rcases hlead with htl | ⟨v, hv, hvp⟩
    · exact Or.inr (Or.inl (hi.crew.one hu ht hl htl (hq.trans hp.symm)))
    · obtain ⟨t0, ht0, -, hlead0⟩ := hi.crew.kernel
      rw [← hv.eq ht0, hvp] at hlead0
      exact Or.inl (hi.crew.one hu hv hl hlead0 (hq.trans hvp.symm))
  · refine Or.inr (Or.inr fun heq => hne ?_)
    rw [ht.proc_eq, hp, hq] at heq
    exact Option.some.inj heq

theorem Ends.running_back (h : Ends s s' p r) (hq : s'.Running q) : q ≠ p ∧ s.Running q := by
  obtain ⟨hlt, c, hc, hz⟩ := hq
  obtain ⟨⟨ppid, -, hprocs⟩, -⟩ := processEnd_spec h.record
  have hend : (Proc.processEnd s.table p).procs q = some c ∧ q ≠ p := by
    have hover := (hprocs p).trans (if_pos rfl)
    have hne : ∀ {d : Process}, (Proc.processEnd s.table p).procs q = some d → d.zombie = false → q ≠ p :=
      fun {d} hd hdz heq => by
        rw [heq, hover] at hd
        rw [← Option.some.inj hd] at hdz
        exact nomatch hdz
    rcases h.table with ht | ⟨-, ht⟩
    · rw [ht] at hc
      exact ⟨hc, hne hc hz⟩
    · rw [ht, (procFree_spec hover).1] at hc
      rcases eq_or_ne q p with rfl | hqp
      · rw [update_self] at hc
        exact nomatch hc
      · rw [update_of_ne hqp] at hc
        exact ⟨hc, hqp⟩
  obtain ⟨hend, hne⟩ := hend
  rw [hprocs, if_neg hne] at hend
  obtain ⟨d, hd, rfl⟩ := Option.map_eq_some_iff.1 hend
  exact ⟨hne, hlt, d, hd, (Process.left_zombie _).symm.trans hz⟩

theorem Headed.ends (h : Headed s) (ht : s.Live s.cur t) (hp : t.proc = some p) (he : Ends s s' p r) :
    Headed s' := by
  refine h.change (fun hq => (he.running_back hq).2) fun {i u q} hu hl hq hrun => ?_
  have hne : i ≠ s.cur := fun hi => (he.running_back hrun).1 <| by
    rw [hi] at hu
    rw [hu.eq ht, hp] at hq
    exact (Option.some.inj hq).symm
  exact ⟨i, u, he.stay hu hne, hl, hq⟩

theorem Headed.processExit (h : Headed s) (hi : Inv s) (ht : s.Live s.cur t) (hp : t.proc = some p)
    (hx : t.exiting = false) : Headed s.processExit := by
  have ht' : s.endOthers.Live s.endOthers.cur t := live_endOthers.2 ⟨ht, Or.inr (Or.inl rfl)⟩
  cases processExit_spec hi.crew ht hp hx with
  | ends hl he => exact (h.endOthers hi ht hp (Or.inl hl)).ends ht' hp he
  | @asked l u hl ha =>
    refine h.change (fun hq => ha.same.running.1 hq) fun {i v q} hv hvl hq _ => ?_
    have hne : i ≠ s.cur := fun heq => by
      rw [heq] at hv
      rw [hv.eq ht, hl] at hvl
      exact nomatch hvl
    rcases eq_or_ne i l with rfl | hil
    · rw [hv.eq ha.leader.1] at hvl hq
      exact ⟨_, _, ha.live.2 ⟨hne, Or.inl ⟨rfl, rfl⟩⟩, hvl, hq⟩
    · exact ⟨i, v, ha.live.2 ⟨hne, Or.inr ⟨hil, hv⟩⟩, hvl, hq⟩
  | lost _ hno =>
    obtain ⟨i, v, hv, hvl, hq⟩ := h.leader (hi.crew.home ht hp)
    rw [hno hv hq] at hvl
    exact nomatch hvl

theorem Headed.threadExit (h : Headed s) (hi : Inv s) (ht : s.Live s.cur t) (hp : t.proc = some p)
    (hx : t.exiting = false) : Headed s.threadExit := by
  cases threadExit_spec hi.crew ht hp hx with
  | waits _ _ hs =>
    rw [hs]
    exact h.threadYield ht .exits
  | ends _ _ he => exact h.ends ht hp he
  | leaves hl h0 hs =>
    obtain ⟨t0, ht0, -⟩ := hi.crew.kernel
    obtain ⟨hlive, -, hsame⟩ := leave_live hi.crew.cur_lt ht0 h0
    rw [hs]
    refine h.change (fun hq => hsame.running.1 hq) fun {i u q} hu hul hq _ =>
      ⟨i, u, hlive.2 ⟨fun heq => ?_, hu⟩, hul, hq⟩
    rw [heq] at hu
    rw [hu.eq ht, hl] at hul
    exact nomatch hul

/-- The table changed, no process added to those that run. -/
theorem Headed.of_table (h : Headed s) {table : State}
    (hback : ∀ {q c}, table.procs q = some c → c.zombie = false →
      ∃ d, s.table.procs q = some d ∧ d.zombie = false) : Headed { s with table } := by
  refine h.change (fun {q} hq => ?_) fun {i u q} hu hl hq _ => ⟨i, u, hu, hl, hq⟩
  obtain ⟨hlt, c, hc, hz⟩ := hq
  exact ⟨hlt, hback hc hz⟩

theorem forget_back {s : State} (self : ℕ) (hc : (forget s self).procs q = some c) :
    s.procs q = some c := by
  rw [(forget_spec s self).1] at hc
  split_ifs at hc
  exact hc

theorem Headed.added (h : Headed s) (ha : Added s s' i t) : Headed s' := by
  refine h.change (fun hq => ?_) fun {j u q} hu hl hq _ => ⟨j, u, ha.live.2 (Or.inr hu), hl, hq⟩
  unfold Running at hq ⊢
  rw [ha.table] at hq
  exact hq

theorem Headed.forks (h : Headed s) (ht : s.Live s.cur t) {share : Bool}
    (hst : ¬Stranded s.table p r) (hf : Forks s p r share s') : Headed s' := by
  cases hf with
  | @undone table kept hs _ hu =>
    rw [hs]
    have hprocs : table.procs = (forget s.table p).procs := hu.procs
    refine h.of_table fun {q c} hc hz => ⟨c, forget_back p ?_, hz⟩
    rw [← hprocs, hc]
  | stranded _ hno => exact absurd hno hst
  | @made table spaces kept slot k i c s1 refs _ hh hc hb hsp hspaces ha hs =>
    have hadd : Headed s1 := ⟨fun {q} hq => by
      obtain ⟨hlt, d, hd, hz⟩ := hq
      rcases eq_or_ne q slot with rfl | hne
      · exact ⟨i, _, ha.live.2 (Or.inl ⟨rfl, rfl⟩), rfl, rfl⟩
      · rw [ha.table] at hd
        have hold : s.table.procs q = some d := forget_back p (by
          rw [← hd]
          show _ = table.procs q
          rw [hh.procs, update_of_ne hne])
        obtain ⟨j, u, hu, hul, hq⟩ := h.leader ⟨hlt, d, hold, hz⟩
        exact ⟨j, u, ha.live.2 (Or.inr hu), hul, hq⟩⟩
    rw [hs]
    split_ifs
    · exact hadd.threadYield (ha.cur ▸ ha.live.2 (Or.inr ht)) _
    · exact hadd

theorem Headed.execs (h : Headed s) (hi : Inv s) (ht : s.Live s.cur t) (hp : t.proc = some p)
    (hr : s.table.procs p = some r) (hlead : t.leader = true ∨ ∃ u, s.Live 0 u ∧ u.proc = some p)
    {s1 : Kernel} (he : Execs s p r s1) : Headed s1 := by
  obtain ⟨c, -, -, hcz, -, hprocs⟩ := he.procs
  refine (h.endOthers hi ht hp hlead).change (fun {q} hq => ?_)
    fun {i u q} hu hl hq _ => ⟨i, u, he.live.2 hu, hl, hq⟩
  obtain ⟨hlt, d, hd, hz⟩ := hq
  rw [hprocs] at hd
  rcases eq_or_ne q p with rfl | hne
  · rw [update_self] at hd
    exact ⟨hlt, r, hr, by rw [← hcz, Option.some.inj hd, hz]⟩
  · rw [update_of_ne hne] at hd
    exact ⟨hlt, d, hd, hz⟩

theorem Headed.adopts (h : Headed s) (hi : Inv s) (ht : s.Live s.cur t) (hp : t.proc = none)
    {s1 : Kernel} (ha : Adopts s t p c s1) : Headed s1 where
  leader {q} hq := by
    obtain ⟨hlt, d, hd, hz⟩ := hq
    rcases eq_or_ne q p with rfl | hne
    · exact ⟨_, _, (ha.alone hi).1, rfl, rfl⟩
    · rw [ha.procs, update_of_ne hne] at hd
      obtain ⟨j, u, hu, hul, huq⟩ := h.leader ⟨hlt, d, forget_back processes hd, hz⟩
      have hj : j ≠ s.cur := fun heq => by
        rw [heq] at hu
        rw [hu.eq ht, hp] at huq
        exact nomatch huq
      exact ⟨j, u, ha.live.2 (Or.inr ⟨hj, hu⟩), hul, huq⟩

/-- **A step keeps a leader to every process that runs.** -/
theorem Headed.step (h : Headed s) (hi : Inv s) (hled : Led s a) : Headed (s.step a) := by
  obtain ⟨t, ht, hs⟩ := step_comes hi a
  generalize s.step a = s' at hs ⊢
  cases hs with
  | idle => exact h
  | placed => exact h.setPlace ht ht.2 rfl rfl
  | asked hk _ hp =>
    have h1 : Headed (s.setThread s.cur fun t => { t with exiting := false }) :=
      h.setPlace ht ht.2 rfl rfl
    exact h1.processExit (hi.unasked ht hk) (live_asked ht) hp rfl
  | yields => exact h.threadYield ht _
  | leaves hp hx => exact h.threadExit hi ht hp hx
  | reaps => exact h.change id fun {i u q} hu hl hq _ => ⟨i, u, live_reap.2 hu, hl, hq⟩
  | creates _ _ ha => exact h.added ha
  | forks hp hr _ hplace ha hf =>
    subst ha
    exact h.forks ht (hled t _ _ ht hplace hp hr) hf
  | ends hp hx => exact h.processExit hi ht hp hx
  | execs hp hr hx hplace ha he hs =>
    subst ha
    have h1 := h.execs hi ht hp hr (hled t _ _ ht hplace hp hr) he
    rcases hs with rfl | rfl
    · exact h1
    · exact h1.processExit he.inv (he.live_cur ht) hp hx
  | @collects _ i _ _ _ _ _ _ _ hc =>
    refine h.of_table fun {q d} hd hdz => ⟨d, ?_, hdz⟩
    rw [(procFree_spec hc).1] at hd
    rcases eq_or_ne q i with rfl | hne
    · rw [update_self] at hd
      exact nomatch hd
    · rw [update_of_ne hne] at hd
      exact hd
  | files fd handle =>
    unfold Kernel.setFile
    cases hp : s.proc with
    | none => exact h
    | some p =>
      refine h.of_table fun {q d} hd hdz => ?_
      rw [setProc_procs] at hd
      split_ifs at hd with hq
      · obtain ⟨e, he, rfl⟩ := Option.map_eq_some_iff.1 hd
        exact ⟨e, hq ▸ he, hdz⟩
      · exact ⟨d, hd, hdz⟩
  | undone hu =>
    refine h.of_table fun {q d} hd hz => ⟨d, forget_back processes ?_, hz⟩
    rw [← hu.procs, hd]
  | adopts hp hx _ ha hs =>
    have h1 := h.adopts hi ht hp ha
    rcases hs with rfl | rfl
    · exact h1
    · obtain ⟨r, he⟩ := ha.ends hi hx
      exact h1.ends (ha.alone hi).1 rfl he

/-! ### What a step counts -/

/-- A step that `process_end` runs in: of the process of the thread that runs, its record and the
others' what they were. -/
structure Ending (s s' : Kernel) (s0 : Kernel) (p : ℕ) (r : Process) : Prop where
  inv : Inv s0
  ends : Ends s0 s' p r
  cur : ∃ t, s0.Live s0.cur t ∧ t.proc = some p
  ended : s0.ended = s.ended
  procs : ∀ {q d}, s.table.procs q = some d → d.zombie = false →
    ∃ e, s0.table.procs q = some e ∧ e.pid = d.pid ∧ e.ppid = d.ppid ∧ e.zombie = false

theorem processExit_ended (h : Inv s) (ht : s.Live s.cur t) (hp : t.proc = some p)
    (hx : t.exiting = false) : s.processExit.ended = s.ended ∨
      ∃ r, Ending s s.processExit s.endOthers p r := by
  cases processExit_spec h.crew ht hp hx with
  | @ends r _ he =>
    exact Or.inr ⟨r, h.endOthers, he, ⟨t, live_endOthers.2 ⟨ht, Or.inr (Or.inl rfl)⟩, hp⟩, rfl,
      fun {q d} hd hz => ⟨d, hd, rfl, rfl, hz⟩⟩
  | asked _ ha => exact Or.inl ha.same.ended
  | lost _ _ h0 hs =>
    obtain ⟨t0, ht0, -⟩ := h.crew.kernel
    have hsame := (leave_live h.endOthers.crew.cur_lt (live_endOthers.2 ⟨ht0, Or.inl rfl⟩) h0).2.2
    rw [hs]
    exact Or.inl hsame.ended

theorem threadExit_ended (h : Inv s) (ht : s.Live s.cur t) (hp : t.proc = some p)
    (hx : t.exiting = false) : s.threadExit.ended = s.ended ∨ ∃ r, Ending s s.threadExit s p r := by
  cases threadExit_spec h.crew ht hp hx with
  | waits _ _ hs =>
    rw [hs]
    exact Or.inl (threadYield_live ht .exits).2.2.ended
  | @ends r _ _ he =>
    exact Or.inr ⟨r, h, he, ⟨t, ht, hp⟩, rfl, fun {q d} hd hz => ⟨d, hd, rfl, rfl, hz⟩⟩
  | leaves _ h0 hs =>
    obtain ⟨t0, ht0, -⟩ := h.crew.kernel
    rw [hs]
    exact Or.inl (leave_live h.crew.cur_lt ht0 h0).2.2.ended

theorem Ending.execs {s1 s0 : Kernel} {c : Process} (hr : s.table.procs p = some r)
    (he : Execs s p r s1) (hend : Ending s1 s' s0 p c) : Ending s s' s0 p c := by
  obtain ⟨d, hdpid, hdppid, hdz, -, hprocs⟩ := he.procs
  refine ⟨hend.inv, hend.ends, hend.cur, hend.ended.trans he.ended, fun {q e} hq hz => ?_⟩
  rcases eq_or_ne q p with rfl | hne
  · obtain rfl := Option.some.inj (hq.symm.trans hr)
    obtain ⟨e', he', hpid, hppid, hz'⟩ :=
      hend.procs ((congrFun hprocs q).trans (update_self _ _ _)) (hdz.trans hz)
    exact ⟨e', he', hpid.trans hdpid, hppid.trans hdppid, hz'⟩
  · exact hend.procs ((congrFun hprocs q).trans ((update_of_ne hne _ _).trans hq)) hz

/-- What a fork leaves of the count: it is as it was. -/
theorem Forks.ended {share : Bool} (ht : s.Live s.cur t) (hf : Forks s p r share s') :
    s'.ended = s.ended := by
  cases hf with
  | undone hs => rw [hs]
  | stranded hs => rw [hs]
  | made _ hh hc hb hsp hspaces ha hs =>
    rw [hs]
    split_ifs
    · exact (threadYield_live (ha.cur ▸ ha.live.2 (Or.inr ht)) _).2.2.ended.trans ha.ended
    · exact ha.ended

/-- **What a step counts**: nothing, or the end of the process of the thread that ran. -/
theorem step_ended (h : Inv s) (a : Action) :
    (s.step a).ended = s.ended ∨ ∃ s0 p r, Ending s (s.step a) s0 p r := by
  obtain ⟨t, ht, hs⟩ := step_comes h a
  generalize s.step a = s' at hs ⊢
  cases hs with
  | idle => exact Or.inl rfl
  | placed => exact Or.inl rfl
  | asked hk _ hp =>
    rcases processExit_ended (h.unasked ht hk) (live_asked ht) hp rfl with hno | ⟨r, he⟩
    · exact Or.inl hno
    · exact Or.inr ⟨_, _, r, he.inv, he.ends, he.cur, he.ended, he.procs⟩
  | yields => exact Or.inl (threadYield_live ht _).2.2.ended
  | leaves hp hx => exact (threadExit_ended h ht hp hx).imp_right fun ⟨r, he⟩ => ⟨s, _, r, he⟩
  | reaps => exact Or.inl rfl
  | creates _ _ ha => exact Or.inl ha.ended
  | forks _ _ _ _ _ hf => exact Or.inl (hf.ended ht)
  | ends hp hx => exact (processExit_ended h ht hp hx).imp_right fun ⟨r, he⟩ => ⟨_, _, r, he⟩
  | execs hp hr hx _ _ he hs =>
    rcases hs with rfl | rfl
    · exact Or.inl he.ended
    · rcases processExit_ended he.inv (he.live_cur ht) hp hx with hno | ⟨r, hend⟩
      · exact Or.inl (hno.trans he.ended)
      · exact Or.inr ⟨_, _, r, hend.execs hr he⟩
  | collects => exact Or.inl rfl
  | files fd handle =>
    refine Or.inl ?_
    unfold Kernel.setFile
    cases s.proc <;> rfl
  | undone => exact Or.inl rfl
  | @adopts p c s1 _ _ hx _ ha hs =>
    rcases hs with rfl | rfl
    · exact Or.inl ha.ended
    · obtain ⟨r, he⟩ := ha.ends h hx
      refine Or.inr ⟨s1, p, r, ha.inv, he, ⟨_, (ha.alone h).1, rfl⟩, ha.ended, fun {q d} hd hz => ?_⟩
      have hkeep : (forget s.table processes).procs q = some d := forget_keep hd hz
      have hne : q ≠ p := fun heq => by
        rw [heq, ha.free] at hkeep
        exact nomatch hkeep
      exact ⟨d, (congrFun ha.procs q).trans ((update_of_ne hne _ _).trans hkeep), rfl, rfl, hz⟩

/-! ### The theorem -/

theorem Ends.ended_one (h : Inv s) (hz : r.zombie = false) (he : Ends s s' p r) :
    s'.ended r.pid = 1 := by
  rw [he.ended, update_self, h.books.counted he.record, hz]
  rfl

theorem step_user (h : Inv s) (ht : s.Live s.cur t) (hplace : t.place = .user) (a : Action) :
    t.exiting = false ∧ s.step a = s.act a := by
  refine ⟨h.crew.exiting_eq_false ht fun k hk => ?_, ?_⟩
  · rw [hplace] at hk
    exact nomatch hk
  · unfold step
    rw [ht.1]
    simp only [hplace]

/-- A leader asked to end its process does it as soon as it runs, which it does next. -/
theorem asked_ends (h : Inv s) (ht : s.Live i t) (hx : t.exiting = true) (hp : t.proc = some p)
    (hr : s.table.procs p = some r) : i = s.cur ∧ ∀ a, (s.step a).ended r.pid = 1 := by
  obtain ⟨rfl, hl, k, hk⟩ := h.crew.exits ht hx
  refine ⟨rfl, fun a => ?_⟩
  have hz : r.zombie = false := by
    obtain ⟨c, hc, hz⟩ := h.record ht hp
    exact Option.some.inj (hr.symm.trans hc) ▸ hz
  have hset := h.unasked ht hk
  have hs : s.step a = (s.setThread s.cur fun t => { t with exiting := false }).processExit := by
    unfold step
    rw [ht.1]
    simp only [hk, hx, if_true]
  rw [hs]
  cases processExit_spec hset.crew (live_asked ht) hp rfl with
  | @ends c _ he =>
    obtain rfl := Option.some.inj (hr.symm.trans he.record)
    exact he.ended_one hset.endOthers hz
  | asked hno => exact absurd (hl.symm.trans hno) Bool.noConfusion
  | lost hno => exact absurd (hl.symm.trans hno) Bool.noConfusion

theorem Headed.endsOnce (hh : Headed s) (h : Inv s) : EndsOnce s where
  leader p r hr hz := by
    obtain ⟨i, t, ht, hl, hp⟩ := hh.leader ⟨h.books.bound hr, r, hr, hz⟩
    refine ⟨i, ⟨t, ht, hl, hp⟩, fun j hj => ?_⟩
    obtain ⟨u, hu, hul, hup⟩ := hj
    exact h.crew.one hu ht hul hl (hup.trans hp.symm)
  silent p r hr hz i t ht hp := by
    obtain ⟨c, hc, hcz⟩ := h.record ht hp
    rw [Option.some.inj (hc.symm.trans hr), hz] at hcz
    exact nomatch hcz
  runs := h.crew.cur
  counted _ _ hr := h.books.counted hr
  once := h.books.once
  released _ _ hr hz := h.books.released hr hz
  memory _ hb ht := h.books.held hb ht
  group t p r ht hplace hp hr a := by
    obtain ⟨hx, hs⟩ := step_user h ht hplace .exitGroup
    have hz : r.zombie = false := by
      obtain ⟨c, hc, hz⟩ := h.record ht hp
      exact Option.some.inj (hr.symm.trans hc) ▸ hz
    have hnext := h.step .exitGroup
    rw [hs] at hnext ⊢
    change Inv s.processExit at hnext
    change s.processExit.ended r.pid = 1 ∨ (s.processExit.step a).ended r.pid = 1
    cases processExit_spec h.crew ht hp hx with
    | @ends c _ he =>
      obtain rfl := Option.some.inj (hr.symm.trans he.record)
      exact Or.inl (he.ended_one h.endOthers hz)
    | asked _ ha =>
      obtain ⟨-, -, hup, hne, -⟩ := ha.leader
      refine Or.inr ((asked_ends (p := p) hnext (ha.live.2 ⟨hne, Or.inl ⟨rfl, rfl⟩⟩) rfl
        (hup.trans (ht.proc_eq.trans hp)) ?_).2 a)
      rw [ha.same.table, hr]
    | lost _ hno =>
      obtain ⟨i, u, hu, hul, hup⟩ := hh.leader (h.crew.home ht hp)
      rw [hno hu hup] at hul
      exact nomatch hul
  asked _ _ _ _ ht hx hp hr := asked_ends h ht hx hp hr
  last t p r ht hl hx hp hr halone := by
    have hz : r.zombie = false := by
      obtain ⟨c, hc, hz⟩ := h.record ht hp
      exact Option.some.inj (hr.symm.trans hc) ▸ hz
    have hend : s.threadExit.ended r.pid = 1 := by
      cases threadExit_spec h.crew ht hp hx with
      | waits _ hno => exact absurd (@halone) hno
      | @ends c _ _ he =>
        obtain rfl := Option.some.inj (hr.symm.trans he.record)
        exact he.ended_one h hz
      | leaves hno => exact absurd (hl.symm.trans hno) Bool.noConfusion
    refine ⟨fun hplace => ?_, fun hplace a => ?_⟩
    · rw [(step_user h ht hplace .exit).2, show s.act .exit = if s.proc.isSome then s.threadExit else s
        from rfl, ht.proc_eq, hp]
      exact hend
    · have hs : s.step a = s.threadExit := by
        unfold Kernel.step
        rw [ht.1]
        simp only [hplace, hx, Bool.false_eq_true, if_false]
        rfl
      rw [hs]
      exact hend
  parent a p r q c hr hz hc hcz hqp hpid hone := by
    rcases step_ended h a with hsame | ⟨s0, p', r', he⟩
    · rw [hsame, h.books.counted hr, hz] at hone
      exact absurd hone (Nat.succ_ne_zero 0).symm
    · obtain ⟨e, hep, hepid, heppid, hez⟩ := he.procs hr hz
      obtain ⟨d, hd, hdpid, -, hdz⟩ := he.procs hc hcz
      have hpids : r.pid = r'.pid := by
        by_contra hne
        rw [he.ends.ended, update_of_ne hne, he.ended, h.books.counted hr, hz] at hone
        exact absurd hone (Nat.succ_ne_zero 0).symm
      have hplace : p = p' := he.inv.books.ids.inj hep he.ends.record (hepid.trans hpids)
      subst hplace
      obtain rfl := Option.some.inj (hep.symm.trans he.ends.record)
      have hover := processEnd_ppid he.inv.books.ids hep hd (he.inv.books.bound hd) hqp
        (hdpid.trans (hpid.trans heppid.symm)) hdz
      have hfound : (s.step a).table.procs p = some e.over := by
        rcases he.ends.table with htable | ⟨h0, -⟩
        · rw [htable, hover]
        · -- what the kernel itself runs is nobody's child
          obtain ⟨t, ht, htp⟩ := he.cur
          rw [h0] at ht
          have hzero := he.inv.rooted.ppid ht htp hep
          have hpos := (h.books.ids.bound hc).1
          rw [hpid, ← heppid, hzero] at hpos
          exact absurd hpos (Nat.lt_irrefl 0)
      rw [hpids]
      exact wait4_pid hfound (he.inv.books.bound hep) rfl (heppid.trans hpid.symm)

/-- **A process ends exactly once**, in every state of every run in which programs are started by
leaders, and no fork leaves its child half made. -/
theorem run_endsOnce (hs : Started s) (as : List Action) (has : Runs.Along Led Kernel.step s as) :
    EndsOnce (s.run as) := by
  have hheaded : Headed s := ⟨fun {p} ⟨_, r, hr, _⟩ => by
    rw [hs.procs] at hr
    exact nomatch hr⟩
  obtain ⟨hi, hh⟩ := Runs.Along.invariant (P := fun s => Inv s ∧ Headed s)
    (fun s a h hl => ⟨h.1.step a, h.2.step h.1 hl⟩) ⟨Started.inv hs, hheaded⟩ has
  exact hh.endsOnce hi

/-- The state the kernel starts in, with memory enough. -/
def booted : Kernel :=
  ⟨⟨fun _ => none, fun _ => false, 0, 2, fun _ => true, fun _ => 0, ⟨none, none, none, 0⟩⟩,
    update (fun _ => none) 0 (some ⟨none, false, 1, false, false, .kernel, .user⟩), 0, fun _ => 0,
    fun _ => false, fun _ => 0⟩

/-- A program is started. -/
theorem run_endsOnce_booted : EndsOnce (booted.run [.start true true, .exitGroup]) := by
  refine run_endsOnce ⟨rfl, rfl, rfl, rfl, rfl, rfl, rfl, rfl⟩ _ ⟨?_, ?_, trivial⟩
  · exact fun _ _ _ _ _ _ _ => trivial
  · exact fun _ _ _ _ _ _ _ => trivial

/-- What a program does whose child starts a thread, that starts a program and ends. -/
def threadExecs : List Action :=
  [.start true true, .fork false ⟨1, 0, true⟩ true, .yield, .yield, .create true, .yield, .yield,
    .execve (fun _ => false) true true, .exitGroup]

/-- **A process that never ends**: its leader is gone with the program it started in, and the thread
that started another ends as any thread does. -/
theorem exists_not_endsOnce : Started booted ∧ ¬EndsOnce (booted.run threadExecs) := by
  have hstarted : Started booted := ⟨rfl, rfl, rfl, rfl, rfl, rfl, rfl, rfl⟩
  refine ⟨hstarted, fun h => ?_⟩
  have hrec : ((booted.run threadExecs).table.procs 1).map Process.zombie = some false := by
    decide +kernel
  have hnone : (booted.run threadExecs).leaderOf 1 = none := by decide +kernel
  obtain ⟨r, hr, hz⟩ := Option.map_eq_some_iff.1 hrec
  obtain ⟨i, ⟨t, ht, hl, hp⟩, -⟩ := h.leader 1 r hr hz
  have hbound := ((Started.inv hstarted).run threadExecs).crew.bound ht
  rw [leaderOf_none hnone hbound ht hp] at hl
  exact nomatch hl

end Kernel
end BaxOS.Proc
