import BaxOS.Proc.EndsOnce

/-!
# Memory that is borrowed

The child of a `vfork` runs in its parent's memory, which nothing but the child's own record tells.
In every run in which a process whose memory is lent does not end and starts no program, and no
`wait4` collects a child the thread that forked it still waits for, memory that is borrowed is neither
emptied nor given up, and `fork_on` looks at its child's record while it is there (`run_kept`).
-/

namespace BaxOS.Proc
namespace Kernel
open Function

variable {s s' : Kernel} {i p q b : ℕ} {t u : Thread} {r c : Process} {a : Action}

/-- Memory a child borrows. -/
def Lent (s : Kernel) (b : ℕ) : Prop :=
  ∃ c r, s.table.procs c = some r ∧ r.borrowed = true ∧ r.space = some b

/-- **What is kept**, from a state to the next: memory that is borrowed is neither emptied nor given up
and is still a process's own, which runs; and what `fork_on` looks at is its child's record. -/
structure Kept (s s' : Kernel) : Prop where
  memory : ∀ b, Lent s b → s'.resets b = s.resets b ∧
    ∃ p r, s.table.procs p = some r ∧ r.zombie = false ∧ r.borrowed = false ∧ r.space = some b
  record : ∀ i t child pid, s.Live i t → t.place = .yielded (.vfork child pid) →
    ∃ c, s.table.procs child = some c ∧ c.pid = pid

/-- The running thread's process has memory of its own that is lent. -/
def Lends (s : Kernel) (r : Process) : Prop :=
  r.borrowed = false ∧ ∃ b, r.space = some b ∧ Lent s b

/-- **What it holds by**: a process that lends its memory is not ended, where it has a leader to end
it, nor the last of it to end, and starts no program; and no look of `wait4` is for a child that has
ended whose `fork_on` has yet to see that. -/
structure Lending (s : Kernel) (a : Action) : Prop where
  stays : ∀ t p r, s.Live s.cur t → t.proc = some p → s.table.procs p = some r → Lends s r →
    match t.place, a with
    | .user, .exitGroup => ∀ i u, s.Live i u → u.proc = some p → u.leader = false
    | .user, .execve _ _ _ => False
    | .user, .exit => t.leader = false ∨ ¬s.Alone p
    | .yielded .exits, _ => ¬s.Alone p
    | _, _ => True
  looks : ∀ t p r want, s.Live s.cur t → t.place = .user → t.proc = some p →
    s.table.procs p = some r → a = .wait4 want →
    ∀ i u child pid c, s.Live i u → u.place = .yielded (.vfork child pid) →
      s.table.procs child = some c → ¬(wanted r want c = true ∧ c.zombie = true)

/-! ### What holds of loans -/

/-- **What holds of loans**: what is borrowed is some process's own; a process that runs has memory;
one whose end is asked lends none; and a thread that waits in `fork_on` waits for a child of its
process's. -/
structure Loans (s : Kernel) : Prop where
  lender : ∀ {c r}, s.table.procs c = some r → r.borrowed = true → ∃ b p q, r.space = some b ∧
    s.table.procs p = some q ∧ q.zombie = false ∧ q.borrowed = false ∧ q.space = some b
  known : ∀ {p r b}, s.table.procs p = some r → r.space = some b → b < s.table.next
  homed : ∀ {i t p r}, s.Live i t → t.proc = some p → s.table.procs p = some r → r.space.isSome = true
  asked : ∀ {i t p r}, s.Live i t → t.exiting = true → t.proc = some p → s.table.procs p = some r →
    ¬Lends s r
  waits : ∀ {i t child pid}, s.Live i t → t.place = .yielded (.vfork child pid) → ∃ p r c,
    t.proc = some p ∧ s.table.procs p = some r ∧ s.table.procs child = some c ∧ c.pid = pid ∧
      c.ppid = r.pid

theorem Lent.lender (h : Loans s) (hb : Lent s b) :
    ∃ p r, s.table.procs p = some r ∧ r.zombie = false ∧ r.borrowed = false ∧ r.space = some b := by
  obtain ⟨c, r, hr, hrb, hrs⟩ := hb
  obtain ⟨b', p, q, hrs', hq, hz, hqb, hqs⟩ := h.lender hr hrb
  obtain rfl := Option.some.inj (hrs.symm.trans hrs')
  exact ⟨p, q, hq, hz, hqb, hqs⟩

theorem Lent.lt (h : Loans s) (hb : Lent s b) : b < s.table.next := by
  obtain ⟨c, r, hr, -, hrs⟩ := hb
  exact h.known hr hrs

/-- Memory that the end of a process does not empty. -/
def Spared (s : Kernel) (p b : ℕ) : Prop :=
  ∀ r, s.table.procs p = some r → r.borrowed = false → r.space ≠ some b

theorem Lent.spared (hb : Lent s b) (hfree : ∀ r, s.table.procs p = some r → ¬Lends s r) :
    s.Spared p b :=
  fun r hr hrb hrs => hfree r hr ⟨hrb, b, hrs, hb⟩

/-- Threads changed, and no record. -/
theorem Loans.threads (h : Loans s) (hprocs : s'.table.procs = s.table.procs)
    (hnext : s.table.next ≤ s'.table.next)
    (hback : ∀ {i u}, s'.Live i u → ∃ j t, s.Live j t ∧ u.proc = t.proc ∧
      (u.exiting = true → t.exiting = true ∨
        ∀ {p r}, t.proc = some p → s.table.procs p = some r → ¬Lends s r) ∧
      ∀ child pid, u.place = .yielded (.vfork child pid) → t.place = .yielded (.vfork child pid) ∨
        ∃ p r c, t.proc = some p ∧ s.table.procs p = some r ∧ s.table.procs child = some c ∧
          c.pid = pid ∧ c.ppid = r.pid) : Loans s' := by
  have hlends : ∀ {r}, Lends s' r ↔ Lends s r := fun {r} => by
    unfold Lends Lent
    rw [hprocs]
  constructor
  · rw [hprocs]
    exact h.lender
  · rw [hprocs]
    exact fun hr hs => (h.known hr hs).trans_le hnext
  · rw [hprocs]
    intro i u p r hu hp hr
    obtain ⟨j, t, ht, hut, -⟩ := hback hu
    exact h.homed ht (hut ▸ hp) hr
  · rw [hprocs]
    intro i u p r hu hx hp hr
    obtain ⟨j, t, ht, hut, hasked, -⟩ := hback hu
    rw [hlends]
    rcases hasked hx with hx | hfree
    · exact h.asked ht hx (hut ▸ hp) hr
    · exact hfree (hut ▸ hp) hr
  · rw [hprocs]
    intro i u child pid hu hk
    obtain ⟨j, t, ht, hut, -, hwaits⟩ := hback hu
    rw [hut]
    rcases hwaits child pid hk with hk | hw
    · exact h.waits ht hk
    · exact hw

theorem Loans.threadYield (h : Loans s) (ht : s.Live s.cur t) {k : After}
    (hk : ∀ child pid, k = .vfork child pid → ∃ p r c, t.proc = some p ∧ s.table.procs p = some r ∧
      s.table.procs child = some c ∧ c.pid = pid ∧ c.ppid = r.pid) : Loans (s.threadYield k) := by
  obtain ⟨hlive, -, hsame⟩ := threadYield_live ht k
  refine h.threads (congrArg State.procs hsame.table) (congrArg State.next hsame.table).ge
    fun {i u} hu => ?_
  rcases hlive.1 hu with ⟨rfl, rfl⟩ | ⟨-, hu⟩
  · exact ⟨_, t, ht, rfl, Or.inl, fun child pid hp => Or.inr (hk child pid (Place.yielded.inj hp))⟩
  · exact ⟨i, u, hu, rfl, Or.inl, fun child pid hp => Or.inl hp⟩

theorem Loans.setPlace (h : Loans s) (ht : s.Live s.cur t) {f : Thread → Thread}
    (hdead : (f t).dead = false) (hproc : (f t).proc = t.proc)
    (hplace : (f t).place = .user ∨ (f t).place = t.place) (hx : (f t).exiting = false) :
    Loans (s.setThread s.cur f) := by
  refine h.threads rfl (le_refl _) fun {i u} hu => ?_
  rcases (live_setThread ht hdead).1 hu with ⟨rfl, rfl⟩ | ⟨-, hu⟩
  · refine ⟨_, t, ht, hproc, fun hno => absurd (hx.symm.trans hno) Bool.noConfusion,
      fun child pid hp => Or.inl ?_⟩
    rcases hplace with hno | heq
    · rw [hno] at hp
      exact nomatch hp
    · rw [← heq, hp]
  · exact ⟨i, u, hu, rfl, Or.inl, fun child pid hp => Or.inl hp⟩

theorem Loans.fewer (h : Loans s) (hs : Same s s') (hback : ∀ {i u}, s'.Live i u → s.Live i u) :
    Loans s' :=
  h.threads (congrArg State.procs hs.table) (congrArg State.next hs.table).ge fun {i u} hu =>
    ⟨i, u, hback hu, rfl, Or.inl, fun _ _ hp => Or.inl hp⟩

/-! ### Ends -/

/-- The records after the end of a process. -/
theorem Ends.records (he : Ends s s' p r) :
    (∀ {q d}, s'.table.procs q = some d → q = p ∧ d.borrowed = false ∧ d.space = none ∨
      q ≠ p ∧ ∃ e, s.table.procs q = some e ∧ d = e.left r.pid) ∧
      (∀ {q e}, q ≠ p → s.table.procs q = some e → s'.table.procs q = some (e.left r.pid)) ∧
      s'.table.next = s.table.next := by
  obtain ⟨⟨ppid, -, hprocs⟩, -, hnext, -⟩ := processEnd_spec he.record
  have hover := (hprocs p).trans (if_pos rfl)
  have hback : ∀ {q d}, (Proc.processEnd s.table p).procs q = some d →
      q = p ∧ d.borrowed = false ∧ d.space = none ∨
        q ≠ p ∧ ∃ e, s.table.procs q = some e ∧ d = e.left r.pid := fun {q d} hd => by
    rw [hprocs] at hd
    split_ifs at hd with hq
    · rw [← Option.some.inj hd]
      exact Or.inl ⟨hq, rfl, rfl⟩
    · obtain ⟨e, he, rfl⟩ := Option.map_eq_some_iff.1 hd
      exact Or.inr ⟨hq, e, he, rfl⟩
  have hforth : ∀ {q e}, q ≠ p → s.table.procs q = some e →
      (Proc.processEnd s.table p).procs q = some (e.left r.pid) := fun {q e} hq he => by
    rw [hprocs, if_neg hq, he]
    rfl
  rcases he.table with htable | ⟨-, htable⟩
  · rw [htable]
    exact ⟨hback, hforth, hnext⟩
  · obtain ⟨hfree, -, hnext', -⟩ := procFree_spec hover
    rw [htable, hfree]
    refine ⟨fun {q d} hd => ?_, fun {q e} hq he => ?_, hnext'.trans hnext⟩
    · rcases eq_or_ne q p with rfl | hq
      · rw [update_self] at hd
        exact nomatch hd
      · rw [update_of_ne hq] at hd
        exact hback hd
    · rw [update_of_ne hq]
      exact hforth hq he

/-- **The end of a process that lends no memory.** -/
theorem Loans.ends (h : Loans s) (hi : Inv s) (ht : s.Live s.cur t) (hp : t.proc = some p)
    (he : Ends s s' p r) (hfree : ¬Lends s r) :
    Loans s' ∧ ∀ b, s.Spared p b → s'.resets b = s.resets b := by
  obtain ⟨hback, hforth, hnext⟩ := he.records
  have hrest : ∀ {i u q}, s'.Live i u → u.proc = some q → i ≠ s.cur ∧ s.Live i u ∧ q ≠ p :=
    fun {i u q} hu hq => by
      have hne : i ≠ s.cur := fun heq => by
        rw [heq] at hu
        rw [(he.idle hu).2.2.1] at hq
        exact nomatch hq
      exact ⟨hne, he.others hu hne, fun heq => he.gone hu (heq ▸ hq)⟩
  refine ⟨⟨fun {c d} hd hb => ?_, fun {q d b} hd hs => ?_, fun {i u q d} hu hq hd => ?_,
    fun {i u q d} hu hx hq _ => ?_, fun {i u child pid} hu hk => ?_⟩, fun b hspared => ?_⟩
  · rcases hback hd with ⟨-, hno, -⟩ | ⟨-, e, hc, rfl⟩
    · exact absurd (hb.symm.trans hno) Bool.noConfusion
    · rw [Process.left_borrowed] at hb
      obtain ⟨b, q, w, hes, hw, hwz, hwb, hws⟩ := h.lender hc hb
      have hq : q ≠ p := fun heq => hfree <| by
        rw [heq] at hw
        rw [Option.some.inj (he.record.symm.trans hw)]
        exact ⟨hwb, b, hws, c, e, hc, hb, hes⟩
      exact ⟨b, q, w.left r.pid, (Process.left_space _).trans hes, hforth hq hw,
        (Process.left_zombie _).trans hwz, (Process.left_borrowed _).trans hwb,
        (Process.left_space _).trans hws⟩
  · rw [hnext]
    rcases hback hd with ⟨-, -, hno⟩ | ⟨-, e, hc, rfl⟩
    · rw [hno] at hs
      exact nomatch hs
    · exact h.known hc ((Process.left_space _).symm.trans hs)
  · obtain ⟨-, hu, hqp⟩ := hrest hu hq
    rcases hback hd with ⟨hno, -⟩ | ⟨-, e, hc, rfl⟩
    · exact absurd hno hqp
    · rw [Process.left_space]
      exact h.homed hu hq hc
  · obtain ⟨hne, hu, -⟩ := hrest hu hq
    exact absurd (hi.crew.exits hu hx).1 hne
  · have hne : i ≠ s.cur := fun heq => by
      rw [heq] at hu
      rw [(he.idle hu).2.2.2.2.2.1] at hk
      exact nomatch hk
    have hu' := he.others hu hne
    obtain ⟨q, w, c, huq, hw, hc, hcpid, hcppid⟩ := h.waits hu' hk
    have hqp : q ≠ p := fun heq => he.gone hu (heq ▸ huq)
    have hwz : w.zombie = false := by
      obtain ⟨w', hw', hz⟩ := hi.record hu' huq
      exact Option.some.inj (hw'.symm.trans hw) ▸ hz
    refine ⟨q, w.left r.pid, ?_⟩
    rw [Process.left_pid]
    rcases eq_or_ne child p with rfl | hchild
    · -- the child ends: its parent runs, and stays its parent
      obtain rfl := Option.some.inj (hc.symm.trans he.record)
      have hover := processEnd_ppid hi.books.ids hc hw (hi.books.bound hw) hqp hcppid.symm hwz
      rcases he.table with htable | ⟨h0, -⟩
      · exact ⟨c.over, huq, hforth hqp hw, by rw [htable, hover], hcpid, hcppid⟩
      · rw [h0] at ht
        have hzero := hi.rooted.ppid ht hp hc
        have hpos := (hi.books.ids.bound hw).1
        rw [← hcppid, hzero] at hpos
        exact absurd hpos (Nat.lt_irrefl 0)
    · have hpids : c.ppid ≠ r.pid := fun heq =>
        hqp (hi.books.ids.inj hw he.record (hcppid.symm.trans heq))
      have hkeep := hforth hchild hc
      rw [Process.left_ppid hpids] at hkeep
      exact ⟨c, huq, hforth hqp hw, hkeep, hcpid, hcppid⟩
  · rw [he.resets]
    unfold Kernel.processEnd
    rw [he.record]
    simp only
    split_ifs with hb
    · rfl
    · cases hs : r.space with
      | none => rfl
      | some b' =>
        have hne : b ≠ b' := fun heq =>
          hspared r he.record (Bool.eq_false_iff.2 hb) (hs.trans (congrArg some heq.symm))
        exact update_of_ne hne _ _

theorem Loans.processExit (h : Loans s) (hi : Inv s) (ht : s.Live s.cur t) (hp : t.proc = some p)
    (hx : t.exiting = false) (hfree : ∀ r, s.table.procs p = some r → Lends s r →
      ∀ i u, s.Live i u → u.proc = some p → u.leader = false) :
    Loans s.processExit ∧
      ∀ b, Lent s b ∨ s.Spared p b → s.processExit.resets b = s.resets b := by
  -- with a leader, it lends none
  have hled : ∀ {i u}, s.Live i u → u.proc = some p → u.leader = true →
      ∀ r, s.table.procs p = some r → ¬Lends s r := fun hu hup hl r hr hlends =>
    absurd (hl.symm.trans (hfree r hr hlends _ _ hu hup)) Bool.noConfusion
  have hothers : Loans s.endOthers := h.fewer (endOthers_same s) fun hu => (live_endOthers.1 hu).1
  have ht' : s.endOthers.Live s.endOthers.cur t := live_endOthers.2 ⟨ht, Or.inr (Or.inl rfl)⟩
  cases processExit_spec hi.crew ht hp hx with
  | ends hl he =>
    obtain ⟨h1, hres⟩ := hothers.ends hi.endOthers ht' hp he (hled ht hp hl _ he.record)
    exact ⟨h1, fun b hb => hres b (hb.elim (fun hb => hb.spared (hled ht hp hl)) id)⟩
  | @asked l u _ ha =>
    obtain ⟨hu, hul, hup, -⟩ := ha.leader
    rw [ht.proc_eq, hp] at hup
    refine ⟨h.threads (congrArg State.procs ha.same.table) (congrArg State.next ha.same.table).ge
      fun {i v} hv => ?_, fun b _ => by rw [ha.same.resets]⟩
    obtain ⟨-, ⟨rfl, rfl⟩ | ⟨-, hv⟩⟩ := ha.live.1 hv
    · refine ⟨i, u, hu, rfl, fun _ => Or.inr fun {q r} hq hr => ?_, fun _ _ hk => Or.inl hk⟩
      rw [hup] at hq
      exact hled hu hup hul r (Option.some.inj hq ▸ hr)
    · exact ⟨i, v, hv, rfl, Or.inl, fun _ _ hk => Or.inl hk⟩
  | lost _ _ h0 hs =>
    obtain ⟨t0, ht0, -⟩ := hi.crew.kernel
    obtain ⟨hlive, -, hsame⟩ :=
      leave_live hi.endOthers.crew.cur_lt (live_endOthers.2 ⟨ht0, Or.inl rfl⟩) h0
    rw [hs]
    exact ⟨hothers.fewer hsame fun hu => (hlive.1 hu).2, fun b _ => by rw [hsame.resets]; rfl⟩

theorem Loans.threadExit (h : Loans s) (hi : Inv s) (ht : s.Live s.cur t) (hp : t.proc = some p)
    (hx : t.exiting = false)
    (hfree : ∀ r, s.table.procs p = some r → Lends s r → t.leader = false ∨ ¬s.Alone p) :
    Loans s.threadExit ∧ ∀ b, Lent s b → s.threadExit.resets b = s.resets b := by
  cases threadExit_spec hi.crew ht hp hx with
  | waits _ _ hs =>
    rw [hs]
    refine ⟨h.threadYield ht (fun child pid hno => nomatch hno), fun b _ => ?_⟩
    rw [(threadYield_live ht .exits).2.2.resets]
  | ends hl halone he =>
    have hfree' : ∀ r, s.table.procs p = some r → ¬Lends s r := fun r hr hlends => by
      rcases hfree r hr hlends with hno | hno
      · exact absurd (hl.symm.trans hno) Bool.noConfusion
      · exact hno @halone
    obtain ⟨h1, hres⟩ := h.ends hi ht hp he (hfree' _ he.record)
    exact ⟨h1, fun b hb => hres b (hb.spared hfree')⟩
  | leaves _ h0 hs =>
    obtain ⟨t0, ht0, -⟩ := hi.crew.kernel
    obtain ⟨hlive, -, hsame⟩ := leave_live hi.crew.cur_lt ht0 h0
    rw [hs]
    exact ⟨h.fewer hsame fun hu => (hlive.1 hu).2, fun b _ => by rw [hsame.resets]⟩

/-! ### Changes of the table -/

/-- Records dropped, of processes that have ended and nobody waits for in `fork_on`, or changed in
what is no loan's. -/
theorem Loans.of_table (h : Loans s) (hi : Inv s) {table : State}
    (hback : ∀ {q d}, table.procs q = some d → ∃ e, s.table.procs q = some e ∧ Kin e d)
    (hforth : ∀ {q e}, s.table.procs q = some e →
      (e.zombie = false ∨ ∃ i u pid, s.Live i u ∧ u.place = .yielded (.vfork q pid)) →
        ∃ d, table.procs q = some d ∧ Kin e d)
    (hnext : s.table.next ≤ table.next) : Loans { s with table } := by
  have hlent : ∀ {b}, Lent { s with table } b → Lent s b := fun {b} ⟨c, d, hd, hdb, hds⟩ => by
    obtain ⟨e, he, hkin⟩ := hback hd
    exact ⟨c, e, he, hkin.borrowed ▸ hdb, hkin.space ▸ hds⟩
  refine ⟨fun {c d} hd hb => ?_, fun {q d b} hd hs => ?_, fun {i u q d} hu hq hd => ?_,
    fun {i u q d} hu hx hq hd hlends => ?_, fun {i u child pid} hu hk => ?_⟩
  · obtain ⟨e, he, hkin⟩ := hback hd
    obtain ⟨b, q, w, hes, hw, hwz, hwb, hws⟩ := h.lender he (hkin.borrowed ▸ hb)
    obtain ⟨w', hw', hkin'⟩ := hforth hw (Or.inl hwz)
    exact ⟨b, q, w', hkin.space.trans hes, hw', hkin'.zombie.trans hwz, hkin'.borrowed.trans hwb,
      hkin'.space.trans hws⟩
  · obtain ⟨e, he, hkin⟩ := hback hd
    exact (h.known he (hkin.space ▸ hs)).trans_le hnext
  · obtain ⟨e, he, hkin⟩ := hback hd
    rw [hkin.space]
    exact h.homed hu hq he
  · obtain ⟨e, he, hkin⟩ := hback hd
    obtain ⟨hdb, b, hds, hlent'⟩ := hlends
    exact h.asked hu hx hq he ⟨hkin.borrowed ▸ hdb, b, hkin.space ▸ hds, hlent hlent'⟩
  · obtain ⟨q, w, c, huq, hw, hc, hcpid, hcppid⟩ := h.waits hu hk
    have hwz : w.zombie = false := by
      obtain ⟨w', hw', hz⟩ := hi.record hu huq
      exact Option.some.inj (hw'.symm.trans hw) ▸ hz
    obtain ⟨w', hw', hkin⟩ := hforth hw (Or.inl hwz)
    obtain ⟨c', hc', hkin'⟩ := hforth hc (Or.inr ⟨i, u, pid, hu, hk⟩)
    exact ⟨q, w', c', huq, hw', hc', hkin'.pid.trans hcpid, by rw [hkin'.ppid, hcppid, hkin.pid]⟩

/-- What `fork_on` waits for is not forgotten. -/
theorem Loans.forget_keep (h : Loans s) (hi : Inv s) {self : ℕ} {e : Process}
    (he : s.table.procs q = some e)
    (hq : e.zombie = false ∨ ∃ i u pid, s.Live i u ∧ u.place = .yielded (.vfork q pid)) :
    (forget s.table self).procs q = some e := by
  rcases hq with hz | ⟨i, u, pid, hu, hk⟩
  · exact BaxOS.Proc.forget_keep he hz
  · obtain ⟨_, w, c, -, hw, hc, -, hcppid⟩ := h.waits hu hk
    obtain rfl := Option.some.inj (hc.symm.trans he)
    rw [(forget_spec s.table self).1, if_neg fun ho => ?_, hc]
    have horphan := ho.2
    unfold orphan at horphan
    rw [hc] at horphan
    simp only [Option.any_some, Bool.and_eq_true, decide_eq_true_eq] at horphan
    have hpos := (hi.books.ids.bound hw).1
    rw [← hcppid, horphan.2.2] at hpos
    exact absurd hpos (Nat.lt_irrefl 0)

theorem Loans.undone (h : Loans s) (hi : Inv s) {self : ℕ} {table : State} {kept : ℕ → Bool}
    (hu : Undone { forget s.table self with taken := kept } table) : Loans { s with table } := by
  have hprocs : table.procs = (forget s.table self).procs := hu.procs
  refine h.of_table hi (fun {q d} hd => ⟨d, forget_back self ?_, Kin.refl d⟩)
    (fun {q e} he hq => ⟨e, ?_, Kin.refl e⟩) ((forget_spec s.table self).2.2.1.ge.trans hu.next)
  · rw [← hprocs, hd]
  · rw [hprocs, h.forget_keep hi he hq]

/-- A record added. -/
theorem Loans.add (h : Loans s) (hi : Inv s) (ht : s.Live s.cur t) (hx : t.exiting = false)
    {self slot : ℕ} {c : Process} {table : State} {spaces : ℕ → Bool}
    (hfree : (forget s.table self).procs slot = none)
    (hprocs : table.procs = update (forget s.table self).procs slot (some c))
    (hnext : s.table.next ≤ table.next)
    (hb : c.borrowed = true → ∃ b p q, c.space = some b ∧ s.table.procs p = some q ∧
      q.zombie = false ∧ q.borrowed = false ∧ q.space = some b)
    (hs : ∀ b, c.space = some b → b < table.next) : Loans { s with table, spaces } := by
  have hback : ∀ {q d}, table.procs q = some d → d = c ∨ s.table.procs q = some d := fun {q d} hd => by
    rw [hprocs] at hd
    rcases eq_or_ne q slot with rfl | hne
    · rw [update_self] at hd
      exact Or.inl (Option.some.inj hd).symm
    · rw [update_of_ne hne] at hd
      exact Or.inr (forget_back self hd)
  have hforth : ∀ {q e}, s.table.procs q = some e →
      (e.zombie = false ∨ ∃ i u pid, s.Live i u ∧ u.place = .yielded (.vfork q pid)) →
        table.procs q = some e := fun {q e} he hq => by
    have hkeep : (forget s.table self).procs q = some e := h.forget_keep hi he hq
    have hne : q ≠ slot := fun heq => by
      rw [heq, hfree] at hkeep
      exact nomatch hkeep
    rw [hprocs, update_of_ne hne, hkeep]
  refine ⟨fun {q d} hd hdb => ?_, fun {q d b} hd hds => ?_, fun {i u q d} hu hq hd => ?_,
    fun {i u q d} hu hux _ _ => ?_, fun {i u child pid} hu hk => ?_⟩
  · have hlender : ∃ b p w, d.space = some b ∧ s.table.procs p = some w ∧ w.zombie = false ∧
        w.borrowed = false ∧ w.space = some b := by
      rcases hback hd with rfl | hd
      · exact hb hdb
      · exact h.lender hd hdb
    obtain ⟨b, p, w, hds, hw, hwz, hrest⟩ := hlender
    exact ⟨b, p, w, hds, hforth hw (Or.inl hwz), hwz, hrest⟩
  · rcases hback hd with rfl | hd
    · exact hs b hds
    · exact (h.known hd hds).trans_le hnext
  · obtain ⟨e, he, hz⟩ := hi.record hu hq
    obtain rfl := Option.some.inj (hd.symm.trans (hforth he (Or.inl hz)))
    exact h.homed hu hq he
  · obtain ⟨rfl, -⟩ := hi.crew.exits hu hux
    rw [Live.eq hu ht, hx] at hux
    exact nomatch hux
  · obtain ⟨q, w, d, huq, hw, hd, hdpid, hdppid⟩ := h.waits hu hk
    have hwz : w.zombie = false := by
      obtain ⟨w', hw', hz⟩ := hi.record hu huq
      exact Option.some.inj (hw'.symm.trans hw) ▸ hz
    exact ⟨q, w, d, huq, hforth hw (Or.inl hwz), hforth hd (Or.inr ⟨i, u, pid, hu, hk⟩), hdpid, hdppid⟩

/-- A thread added, of a process that has memory. -/
theorem Loans.added (h : Loans s) {q tid : ℕ} {leader : Bool} {entry : Entry}
    (ha : Added s s' i ⟨some q, leader, tid, false, false, entry, .start⟩)
    (hsp : ∀ r, s.table.procs q = some r → r.space.isSome = true) : Loans s' := by
  have hprocs : s'.table.procs = s.table.procs := by rw [ha.table]
  have hlends : ∀ {r}, Lends s' r ↔ Lends s r := fun {r} => by
    unfold Lends Lent
    rw [hprocs]
  constructor
  · rw [hprocs]
    exact h.lender
  · rw [hprocs, ha.table]
    exact h.known
  · rw [hprocs]
    intro j u p r hu hp hr
    rcases ha.live.1 hu with ⟨-, rfl⟩ | hu
    · obtain rfl := Option.some.inj hp
      exact hsp r hr
    · exact h.homed hu hp hr
  · rw [hprocs]
    intro j u p r hu hx hp hr
    rw [hlends]
    rcases ha.live.1 hu with ⟨-, rfl⟩ | hu
    · exact nomatch hx
    · exact h.asked hu hx hp hr
  · rw [hprocs]
    intro j u child pid hu hk
    rcases ha.live.1 hu with ⟨-, rfl⟩ | hu
    · exact nomatch hk
    · exact h.waits hu hk

/-! ### Processes and programs started -/

theorem Loans.forks (h : Loans s) (hi : Inv s) (ht : s.Live s.cur t) (hp : t.proc = some p)
    (hr : s.table.procs p = some r) (hx : t.exiting = false) {share : Bool}
    (hf : Forks s p r share s') : Loans s' ∧ s'.resets = s.resets := by
  obtain ⟨-, -, hforgotten, -⟩ := forget_spec s.table p
  cases hf with
  | undone hs _ hu =>
    rw [hs]
    exact ⟨h.undone hi hu, rfl⟩
  | stranded hs _ hh hc hb hsp =>
    rw [hs]
    refine ⟨h.add hi ht hx hh.free hh.procs (hforgotten.ge.trans hh.next)
      (fun hno => absurd (hb.symm.trans hno) Bool.noConfusion) (fun b hno => ?_), rfl⟩
    rw [hsp] at hno
    exact nomatch hno
  | @made table spaces kept slot k i c s1 refs _ hh hc hb hsp hspaces ha hs =>
    have hnext : s.table.next ≤ table.next := hforgotten.ge.trans hh.next
    have hknown : ∀ b, c.space = some b → b < table.next := fun b hcs => by
      split_ifs at hsp with hshare
      · exact (h.known hr (hsp ▸ hcs)).trans_le hnext
      · refine (hh.fresh b ?_).2
        rw [if_neg hshare, hcs]
        simp
    have hlender : c.borrowed = true → ∃ b p q, c.space = some b ∧ s.table.procs p = some q ∧
        q.zombie = false ∧ q.borrowed = false ∧ q.space = some b := fun hcb => by
      rw [hb] at hcb
      rw [if_pos hcb] at hsp
      obtain ⟨b, hrs⟩ := Option.isSome_iff_exists.1 (h.homed ht hp hr)
      cases hrb : r.borrowed with
      | true =>
        obtain ⟨b', q, w, hrs', hw⟩ := h.lender hr hrb
        exact ⟨b', q, w, hsp.trans hrs', hw⟩
      | false =>
        obtain ⟨c', hc', hz⟩ := hi.record ht hp
        exact ⟨b, p, r, hsp.trans hrs, hr, Option.some.inj (hc'.symm.trans hr) ▸ hz, hrb, hrs⟩
    have hfree : (forget s.table p).procs slot = none := hh.free
    have hprocs : table.procs = update (forget s.table p).procs slot (some c) := hh.procs
    have hmid : Loans { s with table := { table with refs }, spaces } :=
      h.add hi ht hx hfree hprocs hnext hlender hknown
    have hadd : Loans s1 := hmid.added ha fun d hd => by
      obtain rfl := Option.some.inj (hd.symm.trans hh.at_slot)
      split_ifs at hsp with hshare
      · rw [hsp]
        exact h.homed ht hp hr
      · exact hsp
    have ht1 : s1.Live s1.cur t := ha.cur ▸ ha.live.2 (Or.inr ht)
    rw [hs]
    split_ifs
    · refine ⟨hadd.threadYield ht1 fun child pid heq => ?_, ?_⟩
      · obtain ⟨rfl, rfl⟩ := After.vfork.inj heq
        obtain ⟨e, he, hz⟩ := hi.record ht hp
        obtain rfl := Option.some.inj (he.symm.trans hr)
        refine ⟨p, e, c, hp, ?_, ?_, rfl, hc.ppid⟩
        · rw [ha.table]
          exact (hh.keep (BaxOS.Proc.forget_keep he hz)).2
        · rw [ha.table]
          exact hh.at_slot
      · rw [(threadYield_live ht1 _).2.2.resets, ha.resets]
    · exact ⟨hadd, ha.resets⟩

theorem Loans.execs (h : Loans s) (hi : Inv s) (ht : s.Live s.cur t) (hx : t.exiting = false)
    (hr : s.table.procs p = some r) (hp : t.proc = some p) (hfree : ¬Lends s r) {s1 : Kernel}
    (he : Execs s p r s1) : Loans s1 ∧ (∀ b, Lent s b → s1.resets b = s.resets b) ∧
      ∀ c, s1.table.procs p = some c → ¬Lends s1 c ∧
        ∀ b, Lent s b → c.borrowed = false → c.space ≠ some b := by
  obtain ⟨c, hcpid, hcppid, hcz, hcm, hprocs⟩ := he.procs
  have hat : s1.table.procs p = some c := by
    rw [hprocs, update_self]
  have hback : ∀ {q d}, s1.table.procs q = some d → q = p ∧ d = c ∨ q ≠ p ∧ s.table.procs q = some d :=
    fun {q d} hd => by
      rw [hprocs] at hd
      rcases eq_or_ne q p with rfl | hne
      · rw [update_self] at hd
        exact Or.inl ⟨rfl, (Option.some.inj hd).symm⟩
      · rw [update_of_ne hne] at hd
        exact Or.inr ⟨hne, hd⟩
  have hforth : ∀ {q d}, q ≠ p → s.table.procs q = some d → s1.table.procs q = some d :=
    fun {q d} hne hd => by rw [hprocs, update_of_ne hne, hd]
  have hlive : ∀ {i u}, s1.Live i u → s.Live i u := fun hu => (live_endOthers.1 (he.live.1 hu)).1
  have hrsp : r.space.isSome = true := h.homed ht hp hr
  have hlent : ∀ {b}, Lent s1 b → Lent s b := fun {b} ⟨q, d, hd, hdb, hds⟩ => by
    rcases hback hd with ⟨rfl, rfl⟩ | ⟨-, hd⟩
    · rcases hcm with ⟨hcb, hcs⟩ | ⟨hcb, -⟩
      · exact ⟨q, r, hr, hcb ▸ hdb, hcs ▸ hds⟩
      · exact absurd (hcb.symm.trans hdb) Bool.noConfusion
    · exact ⟨q, d, hd, hdb, hds⟩
  refine ⟨⟨fun {q d} hd hdb => ?_, fun {q d b} hd hds => ?_, fun {i u q d} hu hq hd => ?_,
    fun {i u q d} hu hux _ _ => ?_, fun {i u child pid} hu hk => ?_⟩, fun b hb => ?_, fun d hd => ?_⟩
  · have hlender : ∃ b q w, d.space = some b ∧ s.table.procs q = some w ∧ w.zombie = false ∧
        w.borrowed = false ∧ w.space = some b := by
      rcases hback hd with ⟨rfl, rfl⟩ | ⟨-, hd⟩
      · rcases hcm with ⟨hcb, hcs⟩ | ⟨hcb, -⟩
        · rw [hcs]
          exact h.lender hr (hcb ▸ hdb)
        · exact absurd (hcb.symm.trans hdb) Bool.noConfusion
      · exact h.lender hd hdb
    obtain ⟨b, q', w, hds, hw, hwz, hwb, hws⟩ := hlender
    rcases eq_or_ne q' p with rfl | hne
    · -- the lender runs another program: in its own memory, as before
      obtain rfl := Option.some.inj (hw.symm.trans hr)
      rcases hcm with ⟨hcb, hcs⟩ | ⟨hcb, -⟩
      · exact ⟨b, q', c, hds, hat, hcz.trans hwz, hcb.trans hwb, hcs.trans hws⟩
      · refine absurd ⟨hwb, b, hws, ?_⟩ hfree
        rcases hback hd with ⟨-, rfl⟩ | ⟨-, hd⟩
        · exact absurd (hcb.symm.trans hdb) Bool.noConfusion
        · exact ⟨q, d, hd, hdb, hds⟩
    · exact ⟨b, q', w, hds, hforth hne hw, hwz, hwb, hws⟩
  · rcases hback hd with ⟨rfl, rfl⟩ | ⟨-, hd⟩
    · rcases hcm with ⟨-, hcs⟩ | ⟨-, hcs, hlt⟩
      · exact (h.known hr (hcs ▸ hds)).trans_le he.next
      · rw [← Option.some.inj (hcs.symm.trans hds)]
        exact hlt
    · exact (h.known hd hds).trans_le he.next
  · rcases hback hd with ⟨rfl, rfl⟩ | ⟨-, hd⟩
    · rcases hcm with ⟨-, hcs⟩ | ⟨-, hcs, -⟩
      · rw [hcs]
        exact hrsp
      · rw [hcs]
        rfl
    · exact h.homed (hlive hu) hq hd
  · have hu' := hlive hu
    obtain ⟨rfl, -⟩ := hi.crew.exits hu' hux
    rw [hu'.eq ht, hx] at hux
    exact nomatch hux
  · obtain ⟨q, w, d, huq, hw, hd, hdpid, hdppid⟩ := h.waits (hlive hu) hk
    have hkeep : ∀ {q e}, s.table.procs q = some e →
        ∃ e', s1.table.procs q = some e' ∧ e'.pid = e.pid ∧ e'.ppid = e.ppid := fun {q e} hqe => by
      rcases eq_or_ne q p with rfl | hne
      · obtain rfl := Option.some.inj (hqe.symm.trans hr)
        exact ⟨c, hat, hcpid, hcppid⟩
      · exact ⟨e, hforth hne hqe, rfl, rfl⟩
    obtain ⟨w', hw', hwpid, -⟩ := hkeep hw
    obtain ⟨d', hd', hdpid', hdppid'⟩ := hkeep hd
    exact ⟨q, w', d', huq, hw', hd', hdpid'.trans hdpid, by rw [hdppid', hdppid, hwpid]⟩
  · rcases he.resets with hres | hres
    · rw [hres]
    · have hempty : ∀ b', b ≠ b' → emptied s.resets (some b') b = s.resets b := fun b' hne =>
        update_of_ne hne _ _
      rw [hres]
      cases hrb : r.borrowed with
      | true => exact hempty _ (Nat.ne_of_lt (hb.lt h))
      | false =>
        obtain ⟨b', hrs⟩ := Option.isSome_iff_exists.1 hrsp
        rw [if_neg Bool.false_ne_true, hrs]
        exact hempty b' fun heq => hfree ⟨hrb, b', hrs, heq ▸ hb⟩
  · obtain rfl := Option.some.inj (hat.symm.trans hd)
    have hapart : ∀ b, Lent s b → c.borrowed = false → c.space ≠ some b := fun b hb hcb hcs => by
      rcases hcm with ⟨hcb', hcs'⟩ | ⟨-, hcs', -⟩
      · exact hfree ⟨hcb' ▸ hcb, b, hcs' ▸ hcs, hb⟩
      · rw [hcs'] at hcs
        exact Nat.ne_of_gt (hb.lt h) (Option.some.inj hcs)
    exact ⟨fun ⟨hcb, b, hcs, hb⟩ => hapart b (hlent hb) hcb hcs, hapart⟩

theorem Loans.adopts (h : Loans s) (hi : Inv s) (ht : s.Live s.cur t) (hx : t.exiting = false)
    (hplace : t.place = .user) {s1 : Kernel} (ha : Adopts s t p c s1) :
    Loans s1 ∧ (∀ b, Lent s b → s1.resets b = s.resets b) ∧ ¬Lends s1 c ∧
      ∀ b, Lent s b → s1.Spared p b := by
  obtain ⟨b, hcs, hge, hlt, hresets⟩ := ha.space
  obtain ⟨-, -, -, hcb⟩ := ha.record
  have hat : s1.table.procs p = some c := by
    rw [ha.procs, update_self]
  have hmid : Loans { s with table := s1.table } :=
    h.add hi ht hx ha.free ha.procs (hge.trans hlt.le) (fun hno => absurd (hcb.symm.trans hno)
      Bool.noConfusion) fun b' hb' => Option.some.inj (hcs.symm.trans hb') ▸ hlt
  have hcur : ∀ {i u}, s1.Live i u → u = { t with leader := true, proc := some p } ∨ s.Live i u :=
    fun {i u} hu => (ha.live.1 hu).imp And.right And.right
  refine ⟨⟨hmid.lender, hmid.known, fun {i u q d} hu hq hd => ?_, fun {i u q d} hu hux hq hd => ?_,
    fun {i u child pid} hu hk => ?_⟩, fun b' hb' => ?_, fun hlends => ?_,
    fun b' hb' d hd _ hds => ?_⟩
  · rcases hcur hu with rfl | hu
    · rw [← Option.some.inj hq, hat] at hd
      rw [← Option.some.inj hd, hcs]
      rfl
    · exact hmid.homed hu hq hd
  · rcases hcur hu with rfl | hu
    · exact absurd (hx.symm.trans hux) Bool.noConfusion
    · exact hmid.asked hu hux hq hd
  · rcases hcur hu with rfl | hu
    · exact nomatch hplace.symm.trans hk
    · exact hmid.waits hu hk
  · rw [hresets]
    exact update_of_ne (Nat.ne_of_lt ((hb'.lt h).trans_le hge)) _ _
  · obtain ⟨-, b', hcs', q, d, hd, hdb, hds⟩ := hlends
    obtain rfl := Option.some.inj (hcs.symm.trans hcs')
    rw [ha.procs] at hd
    rcases eq_or_ne q p with rfl | hne
    · rw [update_self] at hd
      rw [← Option.some.inj hd] at hdb
      exact absurd (hcb.symm.trans hdb) Bool.noConfusion
    · rw [update_of_ne hne] at hd
      exact absurd (h.known (forget_back processes hd) hds) (Nat.not_lt.2 hge)
  · rw [hat] at hd
    rw [← Option.some.inj hd, hcs] at hds
    exact Nat.ne_of_gt ((hb'.lt h).trans_le hge) (Option.some.inj hds)

/-- **A step keeps what holds of loans**, and leaves what is lent. -/
theorem Loans.step (h : Loans s) (hi : Inv s) (hl : Lending s a) :
    Loans (s.step a) ∧ ∀ b, Lent s b → (s.step a).resets b = s.resets b := by
  obtain ⟨t, ht, hs⟩ := step_comes hi a
  generalize s.step a = s' at hs ⊢
  cases hs with
  | idle => exact ⟨h, fun _ _ => rfl⟩
  | placed hx => exact ⟨h.setPlace ht ht.2 rfl (Or.inl rfl) hx, fun _ _ => rfl⟩
  | asked hk hx hp =>
    have h1 : Loans (s.setThread s.cur fun t => { t with exiting := false }) :=
      h.setPlace ht ht.2 rfl (Or.inr rfl) rfl
    obtain ⟨h2, hres⟩ := h1.processExit (hi.unasked ht hk) (live_asked ht) hp rfl
      fun r hr hlends => absurd hlends (h.asked ht hx hp hr)
    exact ⟨h2, fun b hb => hres b (Or.inl hb)⟩
  | yields _ hk =>
    refine ⟨h.threadYield ht fun child pid heq => h.waits ht (hk child pid heq), fun b _ => ?_⟩
    rw [(threadYield_live ht _).2.2.resets]
  | @leaves p hp hx hplace =>
    refine h.threadExit hi ht hp hx fun r hr hlends => ?_
    have hno := hl.stays t p r ht hp hr hlends
    rcases hplace with ⟨hplace, rfl⟩ | hplace
    · rw [hplace] at hno
      exact hno
    · rw [hplace] at hno
      cases a <;> exact Or.inr hno
  | reaps => exact ⟨h.fewer (reap_same s) fun hu => live_reap.1 hu, fun _ _ => rfl⟩
  | creates hp _ ha =>
    exact ⟨h.added ha fun r hr => h.homed ht hp hr, fun b _ => congrFun ha.resets b⟩
  | forks hp hr hx _ _ hf =>
    obtain ⟨h1, hres⟩ := h.forks hi ht hp hr hx hf
    exact ⟨h1, fun b _ => congrFun hres b⟩
  | @ends p hp hx hplace ha =>
    subst ha
    obtain ⟨h1, hres⟩ := h.processExit hi ht hp hx fun r hr hlends => by
      have hno := hl.stays t p r ht hp hr hlends
      rw [hplace] at hno
      exact hno
    exact ⟨h1, fun b hb => hres b (Or.inl hb)⟩
  | @execs p r _ _ _ s1 _ hp hr hx hplace ha he hs =>
    subst ha
    have hfree : ¬Lends s r := fun hlends => by
      have hno := hl.stays t p r ht hp hr hlends
      rw [hplace] at hno
      exact hno
    obtain ⟨h1, hres, hfree1⟩ := h.execs hi ht hx hr hp hfree he
    rcases hs with rfl | rfl
    · exact ⟨h1, hres⟩
    · obtain ⟨h2, hres2⟩ := h1.processExit he.inv (he.live_cur ht) hp hx fun c hc hlends =>
        absurd hlends (hfree1 c hc).1
      exact ⟨h2, fun b hb =>
        (hres2 b (Or.inr fun c hc => (hfree1 c hc).2 b hb)).trans (hres b hb)⟩
  | @collects p i r c want hp hr hplace ha hc hz hw =>
    refine ⟨h.of_table hi (fun {q d} hd => ⟨d, ?_, Kin.refl d⟩)
      (fun {q e} he hq => ⟨e, ?_, Kin.refl e⟩) (procFree_spec hc).2.2.1.ge, fun _ _ => rfl⟩
    · rw [(procFree_spec hc).1] at hd
      rcases eq_or_ne q i with rfl | hne
      · rw [update_self] at hd
        exact nomatch hd
      · rw [update_of_ne hne] at hd
        exact hd
    · rw [(procFree_spec hc).1, update_of_ne fun hqi => ?_, he]
      rw [hqi] at he hq
      obtain rfl := Option.some.inj (he.symm.trans hc)
      rcases hq with hno | ⟨j, u, pid, hu, hk⟩
      · exact absurd (hz.symm.trans hno) Bool.noConfusion
      · exact hl.looks t p r want ht hplace hp hr ha j u i pid e hu hk he ⟨hw, hz⟩
  | files fd handle =>
    unfold Kernel.setFile
    cases hp : s.proc with
    | none => exact ⟨h, fun _ _ => rfl⟩
    | some p =>
      refine ⟨h.of_table hi (fun {q d} hd => ?_) (fun {q e} he _ => ?_) (le_refl _), fun _ _ => rfl⟩
      · rw [setProc_procs] at hd
        split_ifs at hd with hq
        · obtain ⟨e, he, rfl⟩ := Option.map_eq_some_iff.1 hd
          exact ⟨e, hq ▸ he, rfl, rfl, rfl, rfl, rfl⟩
        · exact ⟨d, hd, Kin.refl d⟩
      · rw [setProc_procs]
        split_ifs with hq
        · rw [← hq, he]
          exact ⟨_, rfl, rfl, rfl, rfl, rfl, rfl⟩
        · exact ⟨e, he, Kin.refl e⟩
  | undone hu => exact ⟨h.undone hi (hu.with_taken rfl), fun _ _ => rfl⟩
  | adopts _ hx hplace ha hs =>
    obtain ⟨h1, hres, hfree, hspared⟩ := h.adopts hi ht hx hplace ha
    rcases hs with rfl | rfl
    · exact ⟨h1, hres⟩
    · obtain ⟨r, he⟩ := ha.ends hi hx
      obtain rfl := Option.some.inj
        (((congrFun ha.procs _).trans (update_self _ _ _)).symm.trans he.record)
      obtain ⟨h2, hres2⟩ := h1.ends ha.inv (ha.alone hi).1 rfl he hfree
      exact ⟨h2, fun b hb => (hres2 b (hspared b hb)).trans (hres b hb)⟩

theorem Loans.kept (h : Loans s) (hi : Inv s) (hl : Lending s a) : Kept s (s.step a) where
  memory b hb := ⟨(h.step hi hl).2 b hb, hb.lender h⟩
  record i t child pid ht hk := by
    obtain ⟨-, -, c, -, -, hc, hpid, -⟩ := h.waits ht hk
    exact ⟨c, hc, hpid⟩

theorem Started.loans (hs : Started s) : Loans s := by
  have hlive : ∀ {i t}, s.Live i t → t.proc = none ∧ t.exiting = false ∧ t.place = .user := by
    intro i t ht
    have hi := ht.1
    rw [hs.threads] at hi
    rcases eq_or_ne i 0 with rfl | hne
    · rw [update_self] at hi
      rw [← Option.some.inj hi]
      exact ⟨rfl, rfl, rfl⟩
    · rw [update_of_ne hne] at hi
      exact nomatch hi
  constructor
  · intro c r hr
    rw [hs.procs] at hr
    exact nomatch hr
  · intro p r b hr
    rw [hs.procs] at hr
    exact nomatch hr
  · intro i t p r ht hp
    rw [(hlive ht).1] at hp
    exact nomatch hp
  · intro i t p r ht hx
    exact absurd ((hlive ht).2.1.symm.trans hx) Bool.noConfusion
  · intro i t child pid ht hk
    rw [(hlive ht).2.2] at hk
    exact nomatch hk

/-- **Memory that is borrowed is kept**, by every step of every run each step of which leaves what is
lent to who borrows it, and the record of a child to who waits for it. -/
theorem run_kept (hs : Started s) (as : List Action) (a : Action)
    (has : Runs.Along Lending Kernel.step s (as ++ [a])) : Kept (s.run as) ((s.run as).step a) := by
  have hrun : ∀ {s : Kernel}, Inv s → Loans s → ∀ as, Runs.Along Lending Kernel.step s (as ++ [a]) →
      Kept (s.run as) ((s.run as).step a) := by
    intro s hi h as
    induction as generalizing s with
    | nil => exact fun has => h.kept hi has.1
    | cons b as ih => exact fun has => ih (hi.step b) (h.step hi has.1).1 has.2
  exact hrun (Started.inv hs) (Started.loans hs) as has

/-- What does not end, start a program or collect, where no leader waits to be the last. -/
theorem Lending.quiet (hplace : (s.threads s.cur).all (fun t => t.place ≠ .yielded .exits) = true)
    (ha : match a with
      | .exit | .exitGroup | .execve _ _ _ | .wait4 _ => False
      | _ => True) : Lending s a where
  stays t p r ht _ _ _ := by
    rw [ht.1] at hplace
    have hk : t.place ≠ .yielded .exits := of_decide_eq_true hplace
    cases hp : t.place with
    | start => trivial
    | user =>
      cases a with
      | exit | exitGroup | execve | wait4 => exact ha.elim
      | _ => trivial
    | yielded k =>
      cases k with
      | exits => exact absurd hp hk
      | _ => trivial
  looks _ _ _ _ _ _ _ _ hw := by
    subst hw
    exact ha.elim

/-- A program forks a child that runs in its memory. -/
theorem run_kept_booted : Kept (booted.run [.start true true, .fork true ⟨1, 0, true⟩ true])
    ((booted.run [.start true true, .fork true ⟨1, 0, true⟩ true]).step .yield) := by
  refine run_kept ⟨rfl, rfl, rfl, rfl, rfl, rfl, rfl, rfl⟩ _ _ ⟨?_, ?_, ?_, trivial⟩
  · exact Lending.quiet (by decide) trivial
  · exact Lending.quiet (by decide +kernel) trivial
  · exact Lending.quiet (by decide +kernel) trivial

/-- What a program does of which one thread forks a child that runs in its memory, and another ends it. -/
def groupEnds : List Action :=
  [.start true true, .create true, .fork true ⟨1, 0, true⟩ true, .yield, .exitGroup]

/-- What a program does whose second thread forks such a child, which ends, and whose first collects
it. -/
def collects : List Action :=
  [.start true true, .create true, .yield, .yield, .fork true ⟨1, 0, true⟩ true, .yield, .exitGroup, .yield,
    .wait4 .any]

/-- **Memory that is emptied while it is borrowed**, and **a wait for a child whose record is gone**. -/
theorem exists_not_kept : Started booted ∧
    ¬Kept (booted.run groupEnds) ((booted.run groupEnds).step .yield) ∧
    ¬Kept (booted.run collects) ((booted.run collects).step .yield) := by
  refine ⟨⟨rfl, rfl, rfl, rfl, rfl, rfl, rfl, rfl⟩, fun h => ?_, fun h => ?_⟩
  · have hlent : ((booted.run groupEnds).table.procs 1).map (fun r => (r.borrowed, r.space)) =
        some (true, some 2) := by decide +kernel
    have hresets : ((booted.run groupEnds).step .yield).resets 2 ≠ (booted.run groupEnds).resets 2 := by
      decide +kernel
    obtain ⟨r, hr, hrb⟩ := Option.map_eq_some_iff.1 hlent
    exact hresets (h.memory 2 ⟨1, r, hr, congrArg Prod.fst hrb, congrArg Prod.snd hrb⟩).1
  · have hwaits : ((booted.run collects).threads 1).map (fun t => (t.dead, t.place)) =
        some (false, .yielded (.vfork 1 4)) := by decide +kernel
    have hnone : ((booted.run collects).table.procs 1).isSome = false := by decide +kernel
    obtain ⟨t, ht, htp⟩ := Option.map_eq_some_iff.1 hwaits
    obtain ⟨c, hc, -⟩ := h.record 1 t 1 4 ⟨ht, congrArg Prod.fst htp⟩ (congrArg Prod.snd htp)
    rw [hc] at hnone
    exact nomatch hnone

end Kernel
end BaxOS.Proc
