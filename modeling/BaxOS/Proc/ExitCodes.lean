import BaxOS.Proc.EndsOnce

/-!
# Exit codes

What a program says as it ends, and the signal that ends it, as one `int`: through `process_exit`,
the leader that does it for another thread, and `process_end`, to what `wait4` and `program_start`
report. The threads and processes are the kernel's as `thread.c` has them; beside them is the code on
its way. Without the codes a step is the kernel's own (`step_kernel`).
-/

namespace BaxOS.Proc
open Function

/-- `SIGNALLED` -/
def signalled : ℤ := 0x1000
/-- `PROGRAM_KILLED` -/
def programKilled : ℤ := 139
/-- `SIGSEGV` -/
def sigSegv : ℤ := 11

/-- `code & SIGNALLED`. -/
def isSignalled (code : ℤ) : Bool := code / signalled % 2 = 1

/-- `wait_status` -/
def waitStatus (code : ℤ) : ℤ :=
  if isSignalled code then code % 0x80
  else if code = programKilled then sigSegv else code % 0x100 * 0x100

/-- What `program_start` makes of a program's code. -/
def startResult (code : ℤ) : ℤ := if isSignalled code then 128 + code % 0x80 else code

/-- The threads and the processes; by thread, `exit_code` and the code `thread_exit` waits with; by
pid, `status`, what `wait4` has reported, and what `program_start` has returned. -/
structure Coded where
  k : Kernel
  codes : ℕ → ℤ
  held : ℕ → ℤ
  status : ℕ → Option ℤ
  reported : ℕ → Option ℤ
  result : ℕ → Option ℤ

/-- What the running thread does, and with which code: what it passes to `exit` or `exit_group`, what a
signal's end comes to, or why a program could not be loaded. -/
structure Act where
  action : Action
  code : ℤ

namespace Coded

/-- Something noted of a process, by its pid. -/
def note (s : Coded) (p : ℕ) (m : ℕ → Option ℤ) (v : ℤ) : ℕ → Option ℤ :=
  match s.k.table.procs p with
  | none => m
  | some r => update m r.pid (some v)

/-- The end of `program_start`, of a program that ended or could not be loaded. -/
def startEnds (s : Coded) (p : ℕ) (err : ℤ) : Coded :=
  { s with
    k := s.k.userExit
    status := s.note p s.status (waitStatus err)
    result := s.note p s.result err }

/-- `user_exit`, and what it goes back to. -/
def userExit (s : Coded) (code : ℤ) : Coded :=
  match s.k.threads s.k.cur with
  | none => s
  | some t =>
    match t.entry, t.proc with
    | .kernel, some p => s.startEnds p (startResult code)
    | .processEntry, some p =>
      { s with k := s.k.userExit, status := s.note p s.status (waitStatus code) }
    | _, _ => { s with k := s.k.userExit }

/-- `process_exit`: the leader is left to do it. -/
def processExit (s : Coded) (code : ℤ) : Coded :=
  match s.k.proc with
  | none => s
  | some p =>
    match s.k.leaderOf p with
    | none => userExit { s with k := s.k.endOthers } code
    | some l =>
      if l = s.k.cur then userExit { s with k := s.k.endOthers } code
      else { s with k := s.k.processExit, codes := update s.codes l code }

/-- `thread_exit`, from its loop on. -/
def threadExit (s : Coded) (code : ℤ) : Coded :=
  if (s.k.threads s.k.cur).any Thread.leader && (s.k.nextOne true).isSome then
    { s with k := s.k.threadYield .exits, held := update s.held s.k.cur code }
  else s.userExit code

/-- Whether `sys_execve` turns back for want of memory, or has no process to run in. -/
def turnsBack (s : Kernel) (room : Bool) : Bool :=
  match s.proc.bind s.table.procs with
  | none => true
  | some r => r.borrowed && !room

/-- `sys_execve` of a program. -/
def execve (s : Coded) (closes : ℕ → Bool) (room loads : Bool) : Coded :=
  let s' := { s with k := s.k.execve closes room true }
  if turnsBack s.k room || loads then s' else s'.processExit 127

/-- A look of `sys_wait4`'s: the status of the child collected. -/
def collect (s : Coded) (want : Want) : Coded :=
  match s.k.proc.bind s.k.table.procs with
  | none => s
  | some r =>
    match (List.range processes).find? fun i =>
        (s.k.table.procs i).any fun c => wanted r want c && c.zombie with
    | none => s
    | some i =>
      { s with
        k := s.k.collect want
        reported := match s.k.table.procs i with
          | none => s.reported
          | some c => update s.reported c.pid (s.status c.pid) }

/-- `program_start`, by the kernel's own thread. -/
def programStart (s : Coded) (room loads : Bool) (err : ℤ) : Coded :=
  let s' := { s with k := s.k.programStart room true }
  match s.k.proc, s'.k.proc with
  | none, some p => if loads then s' else s'.startEnds p err
  | _, _ => s'

/-- What the running thread does, of its own. -/
def act (s : Coded) (a : Act) : Coded :=
  match a.action with
  | .exit => if s.k.proc.isSome then s.threadExit a.code else s
  | .exitGroup => s.processExit a.code
  | .execve closes room loads => s.execve closes room loads
  | .wait4 want => s.collect want
  | .start room loads => s.programStart room loads a.code
  | other => { s with k := s.k.act other }

/-- What the running thread goes on with, back from `thread_yield`. -/
def goOn (s : Coded) (k : After) : Coded :=
  match k with
  | .exits => s.threadExit (s.held s.k.cur)
  | k => { s with k := s.k.goOn k }

/-- The next step. -/
def step (s : Coded) (a : Act) : Coded :=
  match s.k.threads s.k.cur with
  | none => s
  | some t =>
    match t.place with
    | .start => { s with k := s.k.setThread s.k.cur fun t => { t with place := .user } }
    | .yielded k =>
      if t.exiting then
        processExit { s with k := s.k.setThread s.k.cur fun t => { t with exiting := false } }
          (s.codes s.k.cur)
      else s.goOn k
    | .user => s.act a

/-- A run. -/
def run (s : Coded) (as : List Act) : Coded := as.foldl step s

/-! ### Without the codes -/

theorem userExit_kernel (s : Coded) (code : ℤ) : (s.userExit code).k = s.k.userExit := by
  unfold userExit
  cases ht : s.k.threads s.k.cur with
  | none =>
    simp only
    unfold Kernel.userExit
    rw [ht]
  | some t =>
    simp only
    split <;> rfl

theorem processExit_kernel (s : Coded) (code : ℤ) : (s.processExit code).k = s.k.processExit := by
  unfold processExit Kernel.processExit
  cases hp : s.k.proc with
  | none => rfl
  | some p =>
    simp only
    cases hl : s.k.leaderOf p with
    | none => exact userExit_kernel _ code
    | some l =>
      simp only
      split_ifs with h
      · exact userExit_kernel _ code
      · rfl

theorem threadExit_kernel (s : Coded) (code : ℤ) : (s.threadExit code).k = s.k.threadExit := by
  unfold threadExit Kernel.threadExit
  by_cases h : ((s.k.threads s.k.cur).any Thread.leader && (s.k.nextOne true).isSome) = true
  · rw [if_pos h, if_pos h]
  · rw [if_neg h, if_neg h]
    exact userExit_kernel s code

theorem execve_kernel (s : Coded) (closes : ℕ → Bool) (room loads : Bool) :
    (s.execve closes room loads).k = s.k.execve closes room loads := by
  have hcode : (s.execve closes room loads).k =
      if turnsBack s.k room || loads then s.k.execve closes room true
      else (s.k.execve closes room true).processExit := by
    unfold execve
    simp only
    split_ifs
    · rfl
    · exact processExit_kernel _ 127
  rw [hcode]
  unfold turnsBack Kernel.execve
  cases hp : s.k.proc with
  | none => rfl
  | some p =>
    cases hr : s.k.table.procs p with
    | none => simp [hr]
    | some r => cases hb : r.borrowed <;> cases room <;> cases loads <;> simp [hr, hb]

/-- The running thread has been given a process, if there is such a thread. -/
theorem no_thread_of_adopted (s : Kernel) (p : ℕ) {f : Thread → Thread}
    (hf : ∀ t, (f t).proc = some p)
    (h : ((s.setThread s.cur f).programLoad p).proc = none) :
    ((s.setThread s.cur f).programLoad p).threads ((s.setThread s.cur f).programLoad p).cur = none := by
  change update s.threads s.cur ((s.threads s.cur).map f) s.cur = none
  change (update s.threads s.cur ((s.threads s.cur).map f) s.cur).bind Thread.proc = none at h
  rw [update_self] at h ⊢
  cases ht : s.threads s.cur with
  | none => rfl
  | some t =>
    rw [ht, Option.map_some, Option.bind_some, hf] at h
    exact nomatch h

theorem programStart_kernel (s : Coded) (room loads : Bool) (err : ℤ) :
    (s.programStart room loads err).k = s.k.programStart room loads := by
  have hcode : (s.programStart room loads err).k =
      if s.k.proc.isNone && (s.k.programStart room true).proc.isSome && !loads then
        (s.k.programStart room true).userExit
      else s.k.programStart room true := by
    unfold programStart
    simp only
    cases s.k.proc <;> cases (s.k.programStart room true).proc <;> cases loads <;> rfl
  rw [hcode]
  cases loads with
  | true => rw [Bool.not_true, Bool.and_false, if_neg Bool.false_ne_true]
  | false =>
    cases hp : s.k.proc with
    | some p =>
      unfold Kernel.programStart
      rw [hp]
      rfl
    | none =>
      rcases hn : procNew s.k.table processes with ⟨_ | p, table⟩
      · unfold Kernel.programStart
        rw [hp, hn]
        simp only
        rw [show Kernel.proc { s.k with table := table } = s.k.proc from rfl, hp]
        rfl
      · cases room with
        | false =>
          unfold Kernel.programStart
          rw [hp, hn]
          simp only [Bool.false_eq_true, if_false]
          rw [show Kernel.proc { s.k with table := procFree table p } = s.k.proc from rfl, hp]
          rfl
        | true =>
          obtain ⟨s1, htrue, hfalse, hproc⟩ : ∃ s1 : Kernel, s.k.programStart true true = s1 ∧
              s.k.programStart true false = s1.userExit ∧
              (s1.proc = none → s1.threads s1.cur = none) := by
            unfold Kernel.programStart
            rw [hp, hn]
            exact ⟨_, rfl, rfl, no_thread_of_adopted _ p fun _ => rfl⟩
          rw [htrue, hfalse]
          cases h1 : s1.proc with
          | some q => rfl
          | none =>
            unfold Kernel.userExit
            rw [hproc h1]
            rfl

theorem collect_kernel (s : Coded) (want : Want) : (s.collect want).k = s.k.collect want := by
  unfold collect
  split
  · rename_i h
    unfold Kernel.collect
    rw [h]
  · rename_i r h
    split
    · rename_i hf
      unfold Kernel.collect
      rw [h]
      simp only
      rw [hf]
    · rfl

theorem step_kernel (s : Coded) (a : Act) : (s.step a).k = s.k.step a.action := by
  unfold step Kernel.step
  cases ht : s.k.threads s.k.cur with
  | none => rfl
  | some t =>
    simp only
    cases t.place with
    | start => rfl
    | yielded k =>
      simp only
      split_ifs
      · exact processExit_kernel _ _
      · cases k with
        | exits => exact threadExit_kernel _ _
        | free => rfl
        | vfork child pid => rfl
    | user =>
      simp only
      unfold act
      cases a.action with
      | exit =>
        by_cases hp : s.k.proc.isSome = true
        · simp only [hp, if_true]
          rw [threadExit_kernel]
          simp [Kernel.act, hp]
        · simp only [hp, Bool.false_eq_true, if_false]
          simp [Kernel.act, hp]
      | exitGroup => exact processExit_kernel _ _
      | execve closes room loads => exact execve_kernel s closes room loads
      | start room loads => exact programStart_kernel s room loads a.code
      | wait4 want => exact collect_kernel s want
      | yield => simp only
      | create stack => simp only
      | fork share vmFork stack => simp only
      | file fd h => simp only

end Coded
end BaxOS.Proc
