import BaxOS.Proc.ExitCodes

/-!
# What an exit is taken for

A program's `exit` or `exit_group`, or a signal, is what its process ends with, at once or through its
leader, and what `wait4` or `program_start` then says (`told_iff`). An exit is taken for a signal
where its status has `SIGNALLED`'s bit, or is the `int` that a failed start comes to.
-/

namespace BaxOS.Proc
open Function

variable {pid : ℕ}

/-- A signal's number. -/
abbrev Signal := { n : ℕ // 0 < n ∧ n < 32 }

/-- How a process ends: with a status, which is any `int`, or by a signal. -/
inductive How
  | exited (status : ℤ)
  | killed (sig : Signal)

namespace How

/-- What is passed to `process_exit`. -/
def code : How → ℤ
  | exited status => status
  | killed sig => signalled + sig.1

/-- Whether `wait4`'s status says it: no signal in the low seven bits and the low eight bits of the
status above them, or the signal there. -/
def StatusSays : How → ℤ → Prop
  | exited status, st => st % 0x80 = 0 ∧ st / 0x100 % 0x100 = status % 0x100
  | killed sig, st => st % 0x80 = sig.1

/-- Whether `program_start`'s result says it. -/
def ResultSays : How → ℤ → Prop
  | exited status, v => v = status % 0x100
  | killed sig, v => v = 128 + sig.1

/-- Not an `int` that `wait_status` takes for a signal's. -/
def StatusPlain : How → Prop
  | exited status => isSignalled status = false ∧ status ≠ programKilled ∨ status % 0x100 = 0
  | killed _ => True

/-- An `int` that `program_start` returns as its low eight bits. -/
def ResultPlain : How → Prop
  | exited status => 0 ≤ status ∧ status < 0x100 ∨ isSignalled status = true ∧ status / 0x80 % 2 = 1
  | killed _ => True

theorem isSignalled_killed (sig : Signal) : isSignalled (killed sig).code = true := by
  obtain ⟨n, h0, hn⟩ := sig
  unfold isSignalled code signalled
  simp only [decide_eq_true_eq]
  omega

theorem statusSays_iff (how : How) : how.StatusSays (waitStatus how.code) ↔ how.StatusPlain := by
  cases how with
  | killed sig =>
    obtain ⟨n, h0, hn⟩ := sig
    unfold waitStatus
    rw [if_pos (isSignalled_killed _)]
    simp only [StatusSays, StatusPlain, code, signalled, iff_true]
    omega
  | exited status =>
    unfold waitStatus StatusSays StatusPlain code
    simp only
    cases hs : isSignalled status with
    | true =>
      simp only [if_true, Bool.true_eq_false, false_and, false_or]
      omega
    | false =>
      simp only [Bool.false_eq_true, if_false, true_and]
      split_ifs with hk
      · simp only [hk, programKilled, sigSegv]
        omega
      · simp only [hk, not_false_eq_true, ne_eq, true_or, iff_true]
        omega

theorem resultSays_iff (how : How) : how.ResultSays (startResult how.code) ↔ how.ResultPlain := by
  cases how with
  | killed sig =>
    obtain ⟨n, h0, hn⟩ := sig
    unfold startResult
    rw [if_pos (isSignalled_killed _)]
    simp only [ResultSays, ResultPlain, code, signalled, iff_true]
    omega
  | exited status =>
    unfold startResult ResultSays ResultPlain code
    simp only
    cases hs : isSignalled status with
    | true =>
      have hbit : status / 0x1000 % 2 = 1 := by
        unfold isSignalled signalled at hs
        exact of_decide_eq_true hs
      simp only [if_true, true_and]
      omega
    | false =>
      simp only [Bool.false_eq_true, if_false, false_and, or_false]
      omega

end How

namespace Coded

variable {s s' : Coded} {p : ℕ} {t : Thread} {r : Process}

/-! ### What has ended stays as it was told -/

theorem ended_stays {k : Kernel} (h : k.Inv) (he : k.ended pid = 1) (a : Action) :
    (k.step a).ended pid = 1 := by
  have honce := (h.step a).books.once pid
  rcases Kernel.step_ended h a with hs | ⟨s0, p, r, hend⟩
  · rw [hs, he]
  · rw [hend.ends.ended, hend.ended] at honce ⊢
    by_cases hpid : pid = r.pid
    · rw [← hpid, update_self, he] at honce
      omega
    · rw [update_of_ne hpid, he]

/-- Nothing is noted of a process that has ended. -/
theorem note_of_ended (h : s.k.Inv) {i : ℕ} (ht : s.k.Live i t) (hp : t.proc = some p)
    (he : s.k.ended pid = 1) (m : ℕ → Option ℤ) (v : ℤ) : s.note p m v pid = m pid := by
  obtain ⟨r, hr, hz⟩ := h.record ht hp
  have hc := h.books.counted hr
  unfold note
  rw [hr]
  apply update_of_ne
  rintro rfl
  rw [hz, he] at hc
  exact absurd hc (by decide)

theorem userExit_told (h : s.k.Inv) (he : s.k.ended pid = 1) (code : ℤ) :
    (s.userExit code).status pid = s.status pid := by
  obtain ⟨t, ht⟩ := h.crew.cur
  unfold userExit
  rw [ht.1]
  simp only
  split
  · rename_i p _ hp
    exact note_of_ended h ht hp he _ _
  · rename_i p _ hp
    exact note_of_ended h ht hp he _ _
  · rfl

theorem processExit_told (h : s.k.Inv) (he : s.k.ended pid = 1) (code : ℤ) :
    (s.processExit code).status pid = s.status pid := by
  unfold processExit
  have hothers : (s.k.endOthers).Inv := h.endOthers
  split
  · rfl
  · split
    · exact userExit_told (s := { s with k := s.k.endOthers }) hothers he code
    · split_ifs
      · exact userExit_told (s := { s with k := s.k.endOthers }) hothers he code
      · rfl

theorem threadExit_told (h : s.k.Inv) (he : s.k.ended pid = 1) (code : ℤ) :
    (s.threadExit code).status pid = s.status pid := by
  unfold threadExit
  by_cases hc : ((s.k.threads s.k.cur).any Thread.leader && (s.k.nextOne true).isSome) = true
  · rw [if_pos hc]
  · rw [if_neg hc]
    exact userExit_told h he code

theorem execve_told (h : s.k.Inv) (ht : s.k.Live s.k.cur t) (hplace : t.place = .user)
    (he : s.k.ended pid = 1) (closes : ℕ → Bool) (room loads : Bool) :
    (s.execve closes room loads).status pid = s.status pid := by
  obtain ⟨-, hs⟩ := Kernel.step_user h ht hplace (.execve closes room true)
  have hinv := h.step (.execve closes room true)
  have hend := ended_stays h he (.execve closes room true)
  rw [hs] at hinv hend
  unfold execve
  simp only
  split_ifs
  · rfl
  · exact processExit_told (s := { s with k := s.k.execve closes room true }) hinv hend 127

theorem programStart_told (h : s.k.Inv) (ht : s.k.Live s.k.cur t) (hplace : t.place = .user)
    (he : s.k.ended pid = 1) (room loads : Bool) (err : ℤ) :
    (s.programStart room loads err).status pid = s.status pid := by
  obtain ⟨-, hs⟩ := Kernel.step_user h ht hplace (.start room true)
  have hinv := h.step (.start room true)
  have hend := ended_stays h he (.start room true)
  rw [hs] at hinv hend
  unfold programStart
  simp only
  split
  · rename_i p _ hp
    split_ifs
    · rfl
    · obtain ⟨u, hu⟩ := hinv.crew.cur
      exact note_of_ended (s := { s with k := s.k.programStart room true }) hinv hu
        (hu.proc_eq.symm.trans hp) hend _ _
  · rfl

theorem collect_status (s : Coded) (want : Want) : (s.collect want).status = s.status := by
  unfold collect
  split
  · rfl
  · split <;> rfl

/-- **What was told of a process that has ended stays.** -/
theorem step_told (h : s.k.Inv) (he : s.k.ended pid = 1) (a : Act) :
    (s.step a).status pid = s.status pid := by
  obtain ⟨t, ht⟩ := h.crew.cur
  unfold step
  rw [ht.1]
  simp only
  cases hplace : t.place with
  | start => rfl
  | yielded k =>
    simp only
    split_ifs with hx
    · have hset := h.setPlace (f := fun t => { t with exiting := false }) ht ht.2 rfl rfl rfl
        (by rw [hplace]; exact fun hno => nomatch hno) rfl
      exact processExit_told
        (s := { s with k := s.k.setThread s.k.cur fun t => { t with exiting := false } }) hset he _
    · cases k with
      | exits => exact threadExit_told h he _
      | free => rfl
      | vfork child pid => rfl
  | user =>
    simp only
    unfold act
    cases a.action with
    | exit =>
      simp only
      split_ifs
      · exact threadExit_told h he _
      · rfl
    | exitGroup => exact processExit_told h he _
    | execve closes room loads => exact execve_told h ht hplace he closes room loads
    | start room loads => exact programStart_told h ht hplace he room loads a.code
    | wait4 want => exact congrFun (collect_status s want) pid
    | yield => rfl
    | create stack => rfl
    | fork share vmFork stack => rfl
    | file fd h => rfl

/-- What `wait4` has reported is what was told of a process that has ended. -/
def Reported (s : Coded) : Prop :=
  ∀ pid st, s.reported pid = some st → s.k.ended pid = 1 ∧ s.status pid = some st

theorem reported_userExit (s : Coded) (code : ℤ) : (s.userExit code).reported = s.reported := by
  unfold userExit startEnds
  split
  · rfl
  · split <;> rfl

theorem reported_processExit (s : Coded) (code : ℤ) :
    (s.processExit code).reported = s.reported := by
  unfold processExit
  split
  · rfl
  · split
    · exact reported_userExit _ code
    · split_ifs
      · exact reported_userExit _ code
      · rfl

theorem reported_threadExit (s : Coded) (code : ℤ) :
    (s.threadExit code).reported = s.reported := by
  unfold threadExit
  by_cases hc : ((s.k.threads s.k.cur).any Thread.leader && (s.k.nextOne true).isSome) = true
  · rw [if_pos hc]
  · rw [if_neg hc]
    exact reported_userExit s code

/-- A step that collects no child reports nothing. -/
theorem reported_step (s : Coded) (a : Act) :
    (s.step a).reported = s.reported ∨ ∃ want, s.step a = s.collect want := by
  unfold step
  split
  · exact Or.inl rfl
  · rename_i t ht
    cases t.place with
    | start => exact Or.inl rfl
    | yielded k =>
      left
      simp only
      split_ifs
      · exact reported_processExit _ _
      · cases k with
        | exits => exact reported_threadExit s _
        | free => rfl
        | vfork child pid => rfl
    | user =>
      simp only
      unfold act
      cases a.action with
      | wait4 want => exact Or.inr ⟨want, rfl⟩
      | exit =>
        left
        simp only
        split_ifs
        · exact reported_threadExit s _
        · rfl
      | exitGroup => exact Or.inl (reported_processExit s _)
      | execve closes room loads =>
        left
        simp only
        unfold execve
        simp only
        split_ifs
        · rfl
        · exact reported_processExit _ _
      | start room loads =>
        left
        simp only
        unfold programStart
        simp only
        split
        · split_ifs <;> rfl
        · rfl
      | yield => exact Or.inl rfl
      | create stack => exact Or.inl rfl
      | fork share vmFork stack => exact Or.inl rfl
      | file fd h => exact Or.inl rfl

theorem collect_reported (h : s.k.Inv) (hr : Reported s) (want : Want) {st : ℤ}
    (hst : (s.collect want).reported pid = some st) : s.k.ended pid = 1 ∧ s.status pid = some st := by
  unfold collect at hst
  split at hst
  · exact hr pid st hst
  · split at hst
    · exact hr pid st hst
    · rename_i i hf
      cases hc : s.k.table.procs i with
      | none =>
        simp only [hc] at hst
        exact hr pid st hst
      | some c =>
        simp only [hc] at hst
        by_cases hpid : pid = c.pid
        · -- the child is one that has ended
          have hz := List.find?_some hf
          rw [hc, Option.any_some, Bool.and_eq_true] at hz
          have hcount := h.books.counted hc
          rw [hz.2] at hcount
          rw [hpid, update_self] at hst
          rw [hpid]
          exact ⟨hcount, hst⟩
        · rw [update_of_ne hpid] at hst
          exact hr pid st hst

theorem step_reported (h : s.k.Inv) (hr : Reported s) (a : Act) : Reported (s.step a) := by
  intro pid st hst
  have hkeep : s.k.ended pid = 1 ∧ s.status pid = some st := by
    rcases reported_step s a with hs | ⟨want, hs⟩
    · rw [hs] at hst
      exact hr pid st hst
    · rw [hs] at hst
      exact collect_reported h hr want hst
  refine ⟨?_, ?_⟩
  · rw [step_kernel]
    exact ended_stays h hkeep.1 a.action
  · rw [step_told h hkeep.1]
    exact hkeep.2

/-- What holds in every state of a run. -/
structure Kept (s : Coded) : Prop where
  inv : s.k.Inv
  reported : Reported s

theorem Kept.step (h : Kept s) (a : Act) : Kept (s.step a) :=
  ⟨by rw [step_kernel]; exact h.inv.step a.action, step_reported h.inv h.reported a⟩

theorem Kept.run (h : Kept s) (as : List Act) : Kept (s.run as) := by
  induction as generalizing s with
  | nil => exact h
  | cons a as ih => exact ih (h.step a)

/-- Whatever comes after, `wait4` reports of a process that has ended what it was told. -/
theorem run_reported (h : Kept s) (he : s.k.ended pid = 1) (as : List Act) {st : ℤ}
    (hst : (s.run as).reported pid = some st) : s.status pid = some st := by
  induction as generalizing s with
  | nil => exact (h.reported pid st hst).2
  | cons a as ih =>
    have hend : (s.step a).k.ended pid = 1 := by
      rw [step_kernel]
      exact ended_stays h.inv he a.action
    rw [← step_told h.inv he a]
    exact ih (h.step a) hend hst

/-! ### From the call to the end -/

/-- A process has ended, and its code is noted: for `program_start`, where it runs on the kernel's
thread, or for `wait4`. -/
structure Noted (s' : Coded) (pid : ℕ) (kernels : Prop) (code : ℤ) : Prop where
  ended : s'.k.ended pid = 1
  result : kernels → s'.result pid = some (startResult code)
  status : ¬kernels → s'.status pid = some (waitStatus code)

/-- The running thread's process is the one the kernel's thread runs. -/
def Kernels (s : Coded) (p : ℕ) : Prop := ∃ u, s.k.Live 0 u ∧ u.proc = some p

theorem note_self (hr : s.k.table.procs p = some r) (m : ℕ → Option ℤ) (v : ℤ) :
    s.note p m v r.pid = some v := by
  unfold note
  rw [hr]
  exact update_self _ _ _

/-- `user_exit` of a leader that is alone. -/
theorem userExit_noted (h : s.k.Inv) (ht : s.k.Live s.k.cur t) (hp : t.proc = some p)
    (hr : s.k.table.procs p = some r) (hl : t.leader = true) (hx : t.exiting = false)
    (halone : s.k.Alone p) (code : ℤ) : Noted (s.userExit code) r.pid (s.k.cur = 0) code := by
  obtain ⟨c, hc, hz⟩ := h.record ht hp
  obtain rfl := Option.some.inj (hr.symm.trans hc)
  obtain ⟨d, hend⟩ := Kernel.userExit_leader h.crew ht hp hl hx halone
  obtain rfl := Option.some.inj (hr.symm.trans hend.record)
  have hone : (s.userExit code).k.ended r.pid = 1 := by
    rw [userExit_kernel]
    exact hend.ended_one h hz
  have hfirst : s.k.cur = 0 → t.entry = .kernel := by
    intro h0
    obtain ⟨u, hu, hentry, -⟩ := h.crew.kernel
    rw [← h0] at hu
    rw [ht.eq hu]
    exact hentry
  have hother : s.k.cur ≠ 0 → t.entry = .processEntry := by
    intro h0
    obtain ⟨-, ⟨-, hentry⟩ | ⟨hno, -⟩⟩ := h.crew.entry ht h0
    · exact hentry
    · rw [hl] at hno
      exact nomatch hno
  refine ⟨hone, ?_, ?_⟩
  · intro h0
    unfold userExit
    rw [ht.1]
    simp only [hfirst h0, hp]
    exact note_self hr _ _
  · intro h0
    unfold userExit
    rw [ht.1]
    simp only [hother h0, hp]
    exact note_self hr _ _

/-- A leader is the kernel's thread where the kernel's thread runs the process. -/
theorem kernels_iff (h : s.k.Inv) {i : ℕ} (ht : s.k.Live i t) (hp : t.proc = some p)
    (hl : t.leader = true) : Kernels s p ↔ i = 0 := by
  constructor
  · rintro ⟨u, hu, hup⟩
    obtain ⟨v, hv, -, hlead⟩ := h.crew.kernel
    rw [← hu.eq hv, hup] at hlead
    exact (h.crew.one hu ht hlead hl (hup.trans hp.symm)).symm
  · rintro rfl
    exact ⟨t, ht, hp⟩

/-- The leader's `process_exit`. -/
theorem processExit_leader (h : s.k.Inv) (ht : s.k.Live s.k.cur t) (hp : t.proc = some p)
    (hr : s.k.table.procs p = some r) (hl : t.leader = true) (hx : t.exiting = false) (code : ℤ) :
    Noted (s.processExit code) r.pid (s.k.cur = 0) code := by
  have hproc : s.k.proc = some p := ht.proc_eq.trans hp
  have hcur : s.k.leaderOf p = some s.k.cur := by
    cases hlead : s.k.leaderOf p with
    | none =>
      have hno := Kernel.leaderOf_none hlead (h.crew.bound ht) ht hp
      rw [hl] at hno
      exact nomatch hno
    | some l =>
      obtain ⟨u, hu, hul, hup⟩ := Kernel.leaderOf_some hlead
      rw [h.crew.one hu ht hul hl (hup.trans hp.symm)]
  have hexit : s.processExit code = userExit { s with k := s.k.endOthers } code := by
    unfold processExit
    rw [hproc]
    simp only
    rw [hcur]
    exact if_pos rfl
  rw [hexit]
  exact userExit_noted (s := { s with k := s.k.endOthers }) h.endOthers
    (Kernel.live_endOthers.2 ⟨ht, Or.inr (Or.inl rfl)⟩) hp hr hl hx
    (Kernel.endOthers_alone h.crew ht hp hl) code

/-- A process that no thread runs any more and that has not ended: its leader is gone. -/
def Lost (s' : Coded) (p : ℕ) : Prop :=
  (∀ i u, s'.k.Live i u → u.proc ≠ some p) ∧
    ∃ c, s'.k.table.procs p = some c ∧ c.zombie = false

/-- Another thread's: the leader has the code, and runs next. -/
theorem processExit_other (h : s.k.Inv) (ht : s.k.Live s.k.cur t) (hp : t.proc = some p)
    (hl : t.leader = false) (hx : t.exiting = false) (code : ℤ) :
    Lost (s.processExit code) p ∨ ∃ l u, Kernel.Asked s.k (s.processExit code).k l u ∧
      (s.processExit code).codes l = code := by
  have hproc : s.k.proc = some p := ht.proc_eq.trans hp
  have hspec := Kernel.processExit_spec h.crew ht hp hx
  rw [← processExit_kernel s code] at hspec
  cases hspec with
  | ends hno =>
    rw [hl] at hno
    exact nomatch hno
  | @asked l u _ ha =>
    right
    refine ⟨l, u, ha, ?_⟩
    obtain ⟨-, hul, -, hne, -⟩ := ha.leader
    unfold processExit
    rw [hproc]
    simp only
    cases hlead : s.k.leaderOf p with
    | none =>
      obtain ⟨hu, -, hup, -⟩ := ha.leader
      have hno := Kernel.leaderOf_none hlead (h.crew.bound hu) hu (hup.trans hproc)
      rw [hul] at hno
      exact nomatch hno
    | some m =>
      obtain ⟨v, hv, hvl, hvp⟩ := Kernel.leaderOf_some hlead
      obtain ⟨hu, -, hup, -⟩ := ha.leader
      obtain rfl := h.crew.one hv hu hvl hul (hvp.trans (hup.trans hproc).symm)
      simp only
      rw [if_neg hne]
      exact update_self _ _ _
  | lost _ hno h0 hs =>
    left
    obtain ⟨c, hc, hz⟩ := h.record ht hp
    obtain ⟨t0, ht0, -, hlead0⟩ := h.crew.kernel
    obtain ⟨hlive, -, hsame⟩ := Kernel.leave_live h.endOthers.crew.cur_lt
      (Kernel.live_endOthers.2 ⟨ht0, Or.inl rfl⟩) h0
    rw [← hs] at hlive hsame
    refine ⟨?_, c, ?_, hz⟩
    · intro i u hu hup
      obtain ⟨hne, hu⟩ := hlive.1 hu
      obtain ⟨hu, rfl | rfl | hother⟩ := Kernel.live_endOthers.1 hu
      · -- the kernel's thread would lead it
        rw [← hu.eq ht0, hup, hno hu hup] at hlead0
        exact nomatch hlead0
      · exact hne rfl
      · exact hother (hup.trans hproc.symm)
    · rw [hsame.table]
      exact hc

/-- The leader that was asked ends the process, whatever it was doing. -/
theorem asked_noted (h : s.k.Inv) (hproc : s.k.proc = some p) (hr : s.k.table.procs p = some r)
    (h' : s'.k.Inv) {l : ℕ} {u : Thread} (ha : Kernel.Asked s.k s'.k l u) (a : Act) :
    Noted (s'.step a) r.pid (Kernels s p) (s'.codes l) := by
  obtain ⟨hu, hul, hup, hne, k, hk⟩ := ha.leader
  have hlive : s'.k.Live s'.k.cur { u with exiting := true } :=
    ha.live.2 ⟨ha.cur ▸ hne, Or.inl ⟨ha.cur, rfl⟩⟩
  have hset := h'.setPlace (f := fun t => { t with exiting := false }) hlive hlive.2 rfl rfl rfl
    (by simp only [hk]; exact fun hno => nomatch hno) rfl
  have hstep : s'.step a = processExit
      { s' with k := s'.k.setThread s'.k.cur fun t => { t with exiting := false } }
      (s'.codes s'.k.cur) := by
    unfold step
    rw [hlive.1]
    simp only [hk, if_true]
  have hnoted := processExit_leader
    (s := { s' with k := s'.k.setThread s'.k.cur fun t => { t with exiting := false } }) hset
    (Kernel.live_asked hlive) (hup.trans hproc) (r := r)
    (by
      show s'.k.table.procs p = some r
      rw [ha.same.table, hr]) hul rfl (s'.codes s'.k.cur)
  have hzero : Kernels s p ↔ s'.k.cur = 0 := by
    rw [ha.cur]
    exact kernels_iff h hu (hup.trans hproc) hul
  rw [hstep, ← ha.cur]
  exact ⟨hnoted.ended, fun hk => hnoted.result (hzero.1 hk),
    fun hk => hnoted.status (mt hzero.2 hk)⟩

/-- `exit` in the only thread. -/
theorem threadExit_alone (h : s.k.Inv) (ht : s.k.Live s.k.cur t) (hp : t.proc = some p)
    (hr : s.k.table.procs p = some r) (hx : t.exiting = false) (halone : s.k.Alone p) (code : ℤ) :
    Lost (s.threadExit code) p ∨ Noted (s.threadExit code) r.pid (Kernels s p) code := by
  have hnone : (s.k.nextOne true).isSome = false := by
    cases hn : s.k.nextOne true with
    | none => rfl
    | some n =>
      obtain ⟨⟨u, hu, hup⟩, hne⟩ := Kernel.nextOne_some hn
      exact absurd (by rw [hup rfl, ht.proc_eq, hp]) (halone hu (hne h.crew.cur_lt))
  have hexit : s.threadExit code = s.userExit code := by
    unfold threadExit
    rw [hnone, Bool.and_false, if_neg Bool.false_ne_true]
  rw [hexit]
  cases hl : t.leader with
  | true =>
    right
    have hzero := kernels_iff h ht hp hl
    have hnoted := userExit_noted h ht hp hr hl hx halone code
    exact ⟨hnoted.ended, fun hk => hnoted.result (hzero.1 hk),
      fun hk => hnoted.status (mt hzero.2 hk)⟩
  | false =>
    left
    obtain ⟨h0, hs⟩ := Kernel.userExit_other h.crew ht hp hl
    obtain ⟨c, hc, hz⟩ := h.record ht hp
    obtain ⟨t0, ht0, -⟩ := h.crew.kernel
    obtain ⟨hlive, -, hsame⟩ := Kernel.leave_live h.crew.cur_lt ht0 h0
    unfold Lost
    rw [userExit_kernel, hs, hsame.table]
    refine ⟨?_, c, hc, hz⟩
    intro i u hu
    obtain ⟨hne, hu⟩ := hlive.1 hu
    exact halone hu hne

/-! ### What is said -/

/-- What is said of a process that has ended says how it did: `program_start`'s result, of a process
that the kernel's thread ran; of another the status that `wait4` reports, whatever comes before it. -/
def Told (s' : Coded) (pid : ℕ) (kernels : Prop) (how : How) : Prop :=
  (kernels → ∃ v, s'.result pid = some v ∧ how.ResultSays v) ∧
  (¬kernels → ∃ st, s'.status pid = some st ∧ how.StatusSays st ∧
    ∀ as v, (s'.run as).reported pid = some v → v = st)

theorem Noted.says_iff {kernels : Prop} {how : How} (h : Noted s' pid kernels how.code)
    (hs : Kept s') : Told s' pid kernels how ↔
      (kernels → how.ResultPlain) ∧ (¬kernels → how.StatusPlain) := by
  constructor
  · rintro ⟨h1, h2⟩
    refine ⟨fun hk => ?_, fun hk => ?_⟩
    · obtain ⟨v, hv, hsays⟩ := h1 hk
      obtain rfl := Option.some.inj ((h.result hk).symm.trans hv)
      exact how.resultSays_iff.1 hsays
    · obtain ⟨st, hst, hsays, -⟩ := h2 hk
      obtain rfl := Option.some.inj ((h.status hk).symm.trans hst)
      exact how.statusSays_iff.1 hsays
  · rintro ⟨h1, h2⟩
    refine ⟨fun hk => ⟨_, h.result hk, how.resultSays_iff.2 (h1 hk)⟩, fun hk => ?_⟩
    refine ⟨_, h.status hk, how.statusSays_iff.2 (h2 hk), ?_⟩
    intro as v hv
    exact Option.some.inj ((run_reported hs h.ended as hv).symm.trans (h.status hk))

/-- The states the kernel gets to, whatever programs do. -/
def Reachable (s : Coded) : Prop :=
  ∃ (s0 : Coded) (as : List Act), Started s0.k ∧ (s0.reported = fun _ => none) ∧ s = s0.run as

theorem Reachable.kept (h : Reachable s) : Kept s := by
  obtain ⟨s0, as, hs, hrep, rfl⟩ := h
  apply Kept.run
  refine ⟨Kernel.Started.inv hs, ?_⟩
  intro pid st hst
  rw [hrep] at hst
  exact nomatch hst

/-- A call that ends the process so: `exit_group` in any thread, `exit` in its only one, or a signal. -/
structure Calls (s : Coded) (p : ℕ) (a : Act) (how : How) : Prop where
  code : a.code = how.code
  call : a.action = .exitGroup ∨
    a.action = .exit ∧ (∃ status, how = .exited status) ∧ s.k.Alone p

/-- **What an exit is taken for.** In every state the kernel gets to, a process that a call of its
running thread ends has ended after this step or the next, unless its leader is gone; and what is said
of it then and later says how it ended exactly where the status, if it is one, is no `int` that is
taken for something else. -/
theorem told_iff (h : Reachable s) (ht : s.k.Live s.k.cur t) (hplace : t.place = .user)
    (hp : t.proc = some p) (hr : s.k.table.procs p = some r) {a : Act} {how : How}
    (hcall : Calls s p a how) :
    Lost (s.step a) p ∨ ∀ b, ∃ s', (s' = s.step a ∨ s' = (s.step a).step b) ∧
      s'.k.ended r.pid = 1 ∧ (Told s' r.pid (Kernels s p) how ↔
        (Kernels s p → how.ResultPlain) ∧ (¬Kernels s p → how.StatusPlain)) := by
  have hk := h.kept
  obtain ⟨hx, -⟩ := Kernel.step_user hk.inv ht hplace a.action
  have hstep : s.step a = s.act a := by
    unfold step
    rw [ht.1]
    simp only [hplace]
  rcases hcall.call with hgroup | ⟨hexit, -, halone⟩
  · have hact : s.step a = s.processExit how.code := by
      rw [hstep, ← hcall.code]
      unfold act
      rw [hgroup]
    have hk' := hk.step a
    rw [hact] at hk' ⊢
    cases hl : t.leader with
    | true =>
      right
      intro b
      have hzero := kernels_iff hk.inv ht hp hl
      have hnoted := processExit_leader hk.inv ht hp hr hl hx how.code
      have hnoted' : Noted (s.processExit how.code) r.pid (Kernels s p) how.code :=
        ⟨hnoted.ended, fun hk => hnoted.result (hzero.1 hk), fun hk => hnoted.status (mt hzero.2 hk)⟩
      exact ⟨_, Or.inl rfl, hnoted'.ended, hnoted'.says_iff hk'⟩
    | false =>
      rcases processExit_other hk.inv ht hp hl hx how.code with hlost | ⟨l, u, ha, hcode⟩
      · exact Or.inl hlost
      · right
        intro b
        have hnoted := asked_noted hk.inv (ht.proc_eq.trans hp) hr hk'.inv ha b
        rw [hcode] at hnoted
        exact ⟨_, Or.inr rfl, hnoted.ended, hnoted.says_iff (hk'.step b)⟩
  · have hact : s.step a = s.threadExit how.code := by
      rw [hstep, ← hcall.code]
      unfold act
      rw [hexit]
      simp only
      rw [if_pos (by rw [ht.proc_eq, hp]; rfl)]
    have hk' := hk.step a
    rw [hact] at hk' ⊢
    rcases threadExit_alone hk.inv ht hp hr hx halone how.code with hlost | hnoted
    · exact Or.inl hlost
    · right
      intro b
      exact ⟨_, Or.inl rfl, hnoted.ended, hnoted.says_iff hk'⟩

/-- The kernel as it starts, with memory enough. -/
def booted : Coded :=
  ⟨Kernel.booted, fun _ => 0, fun _ => 0, fun _ => none, fun _ => none, fun _ => none⟩

/-- A program that has forked, and its child running. -/
def childRuns : List Act :=
  [⟨.start true true, 0⟩, ⟨.fork false ⟨1, 0, true⟩ true, 0⟩, ⟨.yield, 0⟩, ⟨.yield, 0⟩]

theorem childRuns_reachable : Reachable (booted.run childRuns) :=
  ⟨booted, childRuns, ⟨rfl, rfl, rfl, rfl, rfl, rfl, rfl, rfl⟩, rfl, rfl⟩

theorem childRuns_child : ∃ t r, (booted.run childRuns).k.Live (booted.run childRuns).k.cur t ∧
    t.place = .user ∧ t.proc = some 1 ∧ (booted.run childRuns).k.table.procs 1 = some r ∧ r.pid = 3 := by
  obtain ⟨t, ht⟩ := Option.isSome_iff_exists.1
    (show ((booted.run childRuns).k.threads (booted.run childRuns).k.cur).isSome = true by
      decide +kernel)
  obtain ⟨r, hr⟩ := Option.isSome_iff_exists.1
    (show ((booted.run childRuns).k.table.procs 1).isSome = true by decide +kernel)
  have hmap : ((booted.run childRuns).k.threads (booted.run childRuns).k.cur).map
      (fun t => (t.dead, t.place, t.proc)) = some (false, .user, some 1) := by decide +kernel
  have hpid : ((booted.run childRuns).k.table.procs 1).map Process.pid = some 3 := by
    decide +kernel
  rw [ht, Option.map_some, Option.some.injEq, Prod.mk.injEq, Prod.mk.injEq] at hmap
  rw [hr, Option.map_some, Option.some.injEq] at hpid
  exact ⟨t, r, ⟨ht, hmap.1⟩, hmap.2.1, hmap.2.2, hr, hpid⟩

/-- The child ends with status 7. -/
theorem told_iff_child : ∃ r, (booted.run childRuns).k.table.procs 1 = some r ∧
    (Lost ((booted.run childRuns).step ⟨.exitGroup, 7⟩) 1 ∨ ∀ b, ∃ s',
      (s' = (booted.run childRuns).step ⟨.exitGroup, 7⟩ ∨
        s' = ((booted.run childRuns).step ⟨.exitGroup, 7⟩).step b) ∧ s'.k.ended r.pid = 1 ∧
      (Told s' r.pid (Kernels (booted.run childRuns) 1) (.exited 7) ↔
        (Kernels (booted.run childRuns) 1 → (How.exited 7).ResultPlain) ∧
        (¬Kernels (booted.run childRuns) 1 → (How.exited 7).StatusPlain))) := by
  obtain ⟨t, r, ht, hplace, hp, hr, -⟩ := childRuns_child
  exact ⟨r, hr, told_iff childRuns_reachable ht hplace hp hr ⟨rfl, Or.inl rfl⟩⟩

/-- The child ends with status 0x1009, and `wait4` reports signal 9. -/
theorem exists_not_told : ∃ s t p r a, Reachable s ∧ s.k.Live s.k.cur t ∧ t.place = .user ∧
    t.proc = some p ∧ s.k.table.procs p = some r ∧ Calls s p a (.exited 0x1009) ∧
    ∃ as v, ((s.step a).run as).reported r.pid = some v ∧ ¬(How.exited 0x1009).StatusSays v := by
  obtain ⟨t, r, ht, hplace, hp, hr, hpid⟩ := childRuns_child
  refine ⟨_, t, 1, r, ⟨.exitGroup, 0x1009⟩, childRuns_reachable, ht, hplace, hp, hr,
    ⟨rfl, Or.inl rfl⟩, [⟨.yield, 0⟩, ⟨.wait4 .any, 0⟩], 9, ?_, ?_⟩
  · rw [hpid]
    decide +kernel
  · norm_num [How.StatusSays]

end Coded
end BaxOS.Proc
