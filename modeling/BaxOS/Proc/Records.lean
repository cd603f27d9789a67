import BaxOS.Proc.ForkFailed
import BaxOS.Proc.Threads

/-!
# The records of processes

What `process_end` and a fork that succeeds do to the table of processes.
-/

namespace BaxOS.Proc
open Function

variable {s s' : State} {p q : ℕ} {r c : Process}

/-- Ids are handed out once. -/
structure Ids (s : State) : Prop where
  bound : ∀ {p r}, s.procs p = some r → 0 < r.pid ∧ r.pid < s.nextId
  inj : ∀ {p q r c}, s.procs p = some r → s.procs q = some c → r.pid = c.pid → p = q
  pos : 0 < s.nextId

/-- `proc_find` finds the process of an id. -/
theorem procFind_eq (h : Ids s) (hp : s.procs p = some r) (hlt : p < processes) :
    procFind s r.pid = some r := by
  have hmem : r ∈ (List.range processes).filterMap s.procs :=
    List.mem_filterMap.2 ⟨p, List.mem_range.2 hlt, hp⟩
  unfold procFind
  cases hf : ((List.range processes).filterMap s.procs).find? fun c => c.pid = r.pid with
  | none => exact absurd (decide_eq_true rfl) (List.find?_eq_none.1 hf r hmem)
  | some c =>
    obtain ⟨q, -, hq⟩ := List.mem_filterMap.1 (List.mem_of_find?_eq_some hf)
    have hpid : c.pid = r.pid := by simpa using List.find?_some hf
    rw [h.inj hq hp hpid, hp] at hq
    exact hq.symm

@[simp] theorem Process.left_pid (parent : ℕ) : (c.left parent).pid = c.pid := by
  unfold Process.left
  split_ifs <;> rfl

@[simp] theorem Process.left_zombie (parent : ℕ) : (c.left parent).zombie = c.zombie := by
  unfold Process.left
  split_ifs <;> rfl

@[simp] theorem Process.left_borrowed (parent : ℕ) : (c.left parent).borrowed = c.borrowed := by
  unfold Process.left
  split_ifs <;> rfl

@[simp] theorem Process.left_space (parent : ℕ) : (c.left parent).space = c.space := by
  unfold Process.left
  split_ifs <;> rfl

@[simp] theorem Process.left_files (parent : ℕ) : (c.left parent).files = c.files := by
  unfold Process.left
  split_ifs <;> rfl

theorem Process.left_ppid {parent : ℕ} (h : c.ppid ≠ parent) : c.left parent = c := if_neg h

/-- `wait4` finds a child that has ended. -/
theorem wait4_pid (hp : s.procs p = some r) (hlt : p < processes) (hz : r.zombie = true)
    {caller : Process} (hc : r.ppid = caller.pid) : wait4 s caller (.pid r.pid) = .ended r.pid := by
  have hw : wanted caller (.pid r.pid) r = true := by
    unfold wanted
    rw [decide_eq_true hc, Bool.true_and]
    exact decide_eq_true rfl
  have hmem : r ∈ ((List.range processes).filterMap s.procs).filter (wanted caller (.pid r.pid)) :=
    List.mem_filter.2 ⟨List.mem_filterMap.2 ⟨p, List.mem_range.2 hlt, hp⟩, hw⟩
  unfold wait4
  simp only
  cases hf : (((List.range processes).filterMap s.procs).filter (wanted caller (.pid r.pid))).find?
      Process.zombie with
  | none => exact absurd hz (List.find?_eq_none.1 hf r hmem)
  | some c =>
    obtain ⟨-, hcw⟩ := List.mem_filter.1 (List.mem_of_find?_eq_some hf)
    unfold wanted at hcw
    rw [Bool.and_eq_true] at hcw
    have hpid : c.pid = r.pid := of_decide_eq_true hcw.2
    simp only
    rw [hpid]

theorem setProc_procs (s : State) (p : ℕ) (f : Process → Process) (i : ℕ) :
    (s.setProc p f).procs i = if i = p then (s.procs p).map f else s.procs i := by
  unfold State.setProc
  rcases eq_or_ne i p with rfl | hne
  · rw [if_pos rfl]
    exact update_self _ _ _
  · rw [if_neg hne]
    exact update_of_ne hne _ _

theorem freeSpace_spec (s : State) (r : Process) :
    (freeSpace s r).procs = s.procs ∧ (freeSpace s r).next = s.next ∧
      (freeSpace s r).nextId = s.nextId ∧ (freeSpace s r).shared = s.shared ∧
      ∀ b, (freeSpace s r).taken b = true ↔
        s.taken b = true ∧ (r.borrowed = true ∨ r.space ≠ some b) := by
  unfold freeSpace
  split_ifs with hb
  · exact ⟨rfl, rfl, rfl, rfl, fun b => by simp [hb]⟩
  · obtain ⟨hprocs, hnext, hid, -, -, hshared⟩ := memFree_other s r.space
    refine ⟨hprocs, hnext, hid, hshared, fun b => ?_⟩
    · rw [memFree_taken]
      cases r.space with
      | none => simp [hb]
      | some a =>
        have : a = b ↔ b = a := eq_comm
        simp [hb, this]

/-- `process_end`, up to its look at the parent. -/
def endingTable (s : State) (p : ℕ) (r : Process) : State :=
  let s := freeSpace (dropAll s r.files.data r.filesRoom) r
  ({ s with procs := fun i => (s.procs i).map fun c => Process.left c r.pid }).setProc p Process.over

theorem endingTable_procs (hp : s.procs p = some r) (i : ℕ) :
    (endingTable s p r).procs i =
      if i = p then some (r.left r.pid).over else (s.procs i).map fun c => c.left r.pid := by
  have hprocs := (freeSpace_spec (dropAll s r.files.data r.filesRoom) r).1
  unfold endingTable
  rw [setProc_procs]
  simp only [hprocs]
  rw [show (dropAll s r.files.data r.filesRoom).procs = s.procs from rfl, hp]
  rfl

theorem processEnd_eq (hp : s.procs p = some r) :
    processEnd s p =
      if ((procFind (endingTable s p r) (r.left r.pid).ppid).any fun q => !q.zombie) = true then
        endingTable s p r
      else (endingTable s p r).setProc p fun c => { c with ppid := 0 } := by
  have hat : (endingTable s p r).procs p = some (r.left r.pid).over := by
    rw [endingTable_procs hp, if_pos rfl]
  unfold processEnd
  rw [hp]
  show (if (((endingTable s p r).procs p).bind _).any _ = true then _ else _) = _
  rw [hat]
  rfl

/-- **`process_end`.** -/
theorem processEnd_spec (hp : s.procs p = some r) :
    (∃ ppid, (ppid = r.ppid ∨ ppid = 0) ∧
      ∀ i, (processEnd s p).procs i =
        if i = p then some { r.over with ppid := ppid }
        else (s.procs i).map fun c => c.left r.pid) ∧
      (∀ b, (processEnd s p).taken b = true ↔
        s.taken b = true ∧ (r.borrowed = true ∨ r.space ≠ some b)) ∧
      (processEnd s p).next = s.next ∧ (processEnd s p).nextId = s.nextId ∧
      (processEnd s p).shared = s.shared := by
  obtain ⟨-, hnext, hid, hshared, htaken⟩ := freeSpace_spec (dropAll s r.files.data r.filesRoom) r
  have hleft : (r.left r.pid).over = { r.over with ppid := (r.left r.pid).ppid } := by
    unfold Process.left
    split_ifs <;> rfl
  rw [processEnd_eq hp]
  split_ifs
  · refine ⟨⟨(r.left r.pid).ppid, ?_, fun i => ?_⟩, htaken, hnext, hid, hshared⟩
    · unfold Process.left
      split_ifs
      · exact Or.inr rfl
      · exact Or.inl rfl
    · rw [endingTable_procs hp, ← hleft]
  · refine ⟨⟨0, Or.inr rfl, fun i => ?_⟩, htaken, hnext, hid, hshared⟩
    rw [setProc_procs, endingTable_procs hp, if_pos rfl, endingTable_procs hp]
    split_ifs
    · rw [hleft]
      rfl
    · rfl

/-- A parent that has not ended stays the parent. -/
theorem processEnd_ppid (h : Ids s) (hp : s.procs p = some r) (hq : s.procs q = some c)
    (hlt : q < processes) (hpq : q ≠ p) (hc : c.pid = r.ppid) (hrun : c.zombie = false) :
    (processEnd s p).procs p = some r.over := by
  have hne : r.ppid ≠ r.pid := fun he => hpq (h.inj hq hp (hc.trans he))
  have hids : ∀ i d, (endingTable s p r).procs i = some d → ∃ d', s.procs i = some d' ∧ d.pid = d'.pid := by
    intro i d hd
    rw [endingTable_procs hp] at hd
    split_ifs at hd with hi
    · rw [← Option.some.inj hd, hi]
      exact ⟨r, hp, Process.left_pid _⟩
    · obtain ⟨d', hd', rfl⟩ := Option.map_eq_some_iff.1 hd
      exact ⟨d', hd', Process.left_pid _⟩
  have hids' : Ids (endingTable s p r) := by
    have hnext : (endingTable s p r).nextId = s.nextId :=
      (freeSpace_spec (dropAll s r.files.data r.filesRoom) r).2.2.1
    refine ⟨fun {i d} hd => ?_, fun {i j d e} hd he hde => ?_, hnext ▸ h.pos⟩
    · obtain ⟨d', hd', hpid⟩ := hids i d hd
      rw [hpid, hnext]
      exact h.bound hd'
    · obtain ⟨d', hd', hpid⟩ := hids i d hd
      obtain ⟨e', he', hpid'⟩ := hids j e he
      exact h.inj hd' he' (hpid.symm.trans (hde.trans hpid'))
  have hparent : (endingTable s p r).procs q = some (c.left r.pid) := by
    rw [endingTable_procs hp, if_neg hpq, hq]
    rfl
  have hfind := procFind_eq hids' hparent hlt
  rw [Process.left_pid, hc] at hfind
  rw [processEnd_eq hp, Process.left_ppid hne, hfind, Option.any_some, Process.left_zombie, hrun,
    if_pos Bool.not_false.symm.symm, endingTable_procs hp, if_pos rfl, Process.left_ppid hne]

theorem forget_keep {s : State} {self q : ℕ} {c : Process} (hc : s.procs q = some c)
    (hz : c.zombie = false) : (forget s self).procs q = some c := by
  rw [(forget_spec s self).1, if_neg fun ho => ?_, hc]
  have horphan := ho.2
  unfold orphan at horphan
  rw [hc] at horphan
  simp [hz] at horphan

theorem Half.keep {s0 s1 : State} {slot k q : ℕ} {c d : Process} {own : Option ℕ} {kept : ℕ → Bool}
    (hd : s0.procs q = some d) (h : Half { s0 with taken := kept } s1 slot c own k) :
    q ≠ slot ∧ s1.procs q = some d := by
  have hfree : s0.procs slot = none := h.free
  have hne : q ≠ slot := fun heq => by
    rw [heq, hfree] at hd
    exact nomatch hd
  refine ⟨hne, ?_⟩
  rw [h.procs, update_of_ne hne, hd]

/-! ### What holds of the records -/

/-- **What holds of the records**, in every state: ids are handed out once; `process_end` has run once
for those that have ended, which hold nothing, and for no other; and memory a process runs in is
some process's own. -/
structure Books (s : State) (ended : ℕ → ℕ) (spaces : ℕ → Bool) : Prop where
  ids : Ids s
  bound : ∀ {p r}, s.procs p = some r → p < processes
  counted : ∀ {p r}, s.procs p = some r → ended r.pid = if r.zombie then 1 else 0
  fresh : ∀ {pid}, s.nextId ≤ pid → ended pid = 0
  once : ∀ pid, ended pid ≤ 1
  released : ∀ {p r}, s.procs p = some r → r.zombie = true →
    r.space = none ∧ ∀ fd, r.files.data fd = none
  sound : Sound s
  known : ∀ {b}, spaces b = true → b < s.next
  held : ∀ {b}, spaces b = true → s.taken b = true →
    ∃ p r, s.procs p = some r ∧ r.zombie = false ∧ r.borrowed = false ∧ r.space = some b

section Books

variable {ended : ℕ → ℕ} {spaces : ℕ → Bool}

/-- Records of processes that have ended dropped, and memory given back or taken for something else. -/
theorem Books.drop (h : Books s ended spaces)
    (hprocs : ∀ i, s'.procs i = s.procs i ∨ s'.procs i = none ∧ ∀ r, s.procs i = some r → r.zombie = true)
    (htaken : ∀ b, s'.taken b = true → s.taken b = true ∨ s.next ≤ b) (hsound : Sound s')
    (hnext : s.next ≤ s'.next) (hid : s.nextId ≤ s'.nextId) : Books s' ended spaces := by
  have hback : ∀ {i r}, s'.procs i = some r → s.procs i = some r := fun {i r} hr => by
    rcases hprocs i with heq | ⟨hno, -⟩
    · rw [← heq, hr]
    · rw [hno] at hr
      exact nomatch hr
  constructor
  · exact ⟨fun hr => ⟨(h.ids.bound (hback hr)).1, (h.ids.bound (hback hr)).2.trans_le hid⟩,
      fun hr hc => h.ids.inj (hback hr) (hback hc), h.ids.pos.trans_le hid⟩
  · exact fun hr => h.bound (hback hr)
  · exact fun hr => h.counted (hback hr)
  · exact fun hpid => h.fresh (hid.trans hpid)
  · exact h.once
  · exact fun hr => h.released (hback hr)
  · exact hsound
  · exact fun hb => (h.known hb).trans_le hnext
  · intro b hb ht
    obtain ⟨p, r, hr, hz, hrest⟩ := h.held hb ((htaken b ht).resolve_right (Nat.not_le.2 (h.known hb)))
    refine ⟨p, r, ?_, hz, hrest⟩
    rcases hprocs p with heq | ⟨-, hno⟩
    · rw [heq, hr]
    · rw [hno r hr] at hz
      exact nomatch hz

/-- **`process_end`.** -/
theorem Books.processEnd (h : Books s ended spaces) (hp : s.procs p = some r) (hz : r.zombie = false) :
    Books (processEnd s p) (update ended r.pid (ended r.pid + 1)) spaces := by
  obtain ⟨⟨ppid, -, hprocs⟩, htaken, hnext, hid, hshared⟩ := processEnd_spec hp
  have hback : ∀ {i c}, (BaxOS.Proc.processEnd s p).procs i = some c →
      i = p ∧ c = { r.over with ppid := ppid } ∨ i ≠ p ∧ ∃ d, s.procs i = some d ∧ c = d.left r.pid := by
    intro i c hc
    rw [hprocs] at hc
    split_ifs at hc with hi
    · exact Or.inl ⟨hi, (Option.some.inj hc).symm⟩
    · obtain ⟨d, hd, rfl⟩ := Option.map_eq_some_iff.1 hc
      exact Or.inr ⟨hi, d, hd, rfl⟩
  have hpid : ∀ {i c}, (BaxOS.Proc.processEnd s p).procs i = some c → ∃ d, s.procs i = some d ∧ c.pid = d.pid := by
    intro i c hc
    rcases hback hc with ⟨rfl, rfl⟩ | ⟨-, d, hd, rfl⟩
    · exact ⟨r, hp, rfl⟩
    · exact ⟨d, hd, Process.left_pid _⟩
  have hzero : ended r.pid = 0 := by
    rw [h.counted hp, hz]
    rfl
  constructor
  · refine ⟨fun {i c} hc => ?_, fun {i j c c'} hc hc' heq => ?_, hid ▸ h.ids.pos⟩
    · obtain ⟨d, hd, hcd⟩ := hpid hc
      rw [hcd, hid]
      exact h.ids.bound hd
    · obtain ⟨d, hd, hcd⟩ := hpid hc
      obtain ⟨d', hd', hcd'⟩ := hpid hc'
      exact h.ids.inj hd hd' (hcd.symm.trans (heq.trans hcd'))
  · intro i c hc
    obtain ⟨d, hd, -⟩ := hpid hc
    exact h.bound hd
  · intro i c hc
    rcases hback hc with ⟨rfl, rfl⟩ | ⟨hne, d, hd, rfl⟩
    · show update ended r.pid _ r.pid = 1
      rw [update_self, hzero]
    · rw [Process.left_pid, Process.left_zombie, update_of_ne fun heq => hne (h.ids.inj hd hp heq)]
      exact h.counted hd
  · intro pid hge
    rw [hid] at hge
    rw [update_of_ne fun heq => absurd (h.ids.bound hp).2 (by rw [← heq]; exact Nat.not_lt.2 hge)]
    exact h.fresh hge
  · intro pid
    rcases eq_or_ne pid r.pid with rfl | hne
    · rw [update_self, hzero]
    · rw [update_of_ne hne]
      exact h.once pid
  · intro i c hc hcz
    rcases hback hc with ⟨rfl, rfl⟩ | ⟨hne, d, hd, rfl⟩
    · exact ⟨rfl, fun _ => rfl⟩
    · rw [Process.left_zombie] at hcz
      rw [Process.left_space, Process.left_files]
      exact h.released hd hcz
  · refine ⟨fun b hb => ?_, fun b hb => ?_⟩
    · rw [hnext] at hb
      exact Bool.eq_false_iff.2 fun ht => Bool.eq_false_iff.1 (h.sound.taken b hb) ((htaken b).1 ht).1
    · rw [hshared] at hb
      rw [hnext]
      exact h.sound.shared b hb
  · exact fun hb => hnext ▸ h.known hb
  · intro b hb ht
    obtain ⟨ht, hown⟩ := (htaken b).1 ht
    obtain ⟨q, c, hc, hcz, hcb, hcs⟩ := h.held hb ht
    have hne : q ≠ p := fun heq => by
      rw [heq, hp] at hc
      obtain rfl := Option.some.inj hc
      rcases hown with hown | hown
      · rw [hcb] at hown
        exact nomatch hown
      · exact hown hcs
    refine ⟨q, c.left r.pid, ?_, (Process.left_zombie _).trans hcz, (Process.left_borrowed _).trans hcb,
      (Process.left_space _).trans hcs⟩
    rw [hprocs, if_neg hne, hc]
    rfl

/-- A process that has not ended changed, its id, its state and its memory as they were. -/
theorem Books.setProc (h : Books s ended spaces) {f : Process → Process}
    (hf : ∀ c, (f c).pid = c.pid ∧ (f c).zombie = c.zombie ∧ (f c).borrowed = c.borrowed ∧
      (f c).space = c.space)
    (hz : ∀ c, s.procs p = some c → c.zombie = false) (refs : ℕ → ℕ) :
    Books ({ s with refs := refs }.setProc p f) ended spaces := by
  have hback : ∀ {i c}, ({ s with refs := refs }.setProc p f).procs i = some c →
      ∃ d, s.procs i = some d ∧ (c = d ∨ i = p ∧ c = f d) := by
    intro i c hc
    rw [setProc_procs] at hc
    split_ifs at hc with hi
    · obtain ⟨d, hd, rfl⟩ := Option.map_eq_some_iff.1 hc
      exact ⟨d, hi ▸ hd, Or.inr ⟨hi, rfl⟩⟩
    · exact ⟨c, hc, Or.inl rfl⟩
  have hsame : ∀ {i c}, ({ s with refs := refs }.setProc p f).procs i = some c →
      ∃ d, s.procs i = some d ∧ c.pid = d.pid ∧ c.zombie = d.zombie := by
    intro i c hc
    obtain ⟨d, hd, rfl | ⟨-, rfl⟩⟩ := hback hc
    · exact ⟨c, hd, rfl, rfl⟩
    · exact ⟨d, hd, (hf d).1, (hf d).2.1⟩
  constructor
  · refine ⟨fun {i c} hc => ?_, fun {i j c c'} hc hc' heq => ?_, h.ids.pos⟩
    · obtain ⟨d, hd, hcd, -⟩ := hsame hc
      rw [hcd]
      exact h.ids.bound hd
    · obtain ⟨d, hd, hcd, -⟩ := hsame hc
      obtain ⟨d', hd', hcd', -⟩ := hsame hc'
      exact h.ids.inj hd hd' (hcd.symm.trans (heq.trans hcd'))
  · intro i c hc
    obtain ⟨d, hd, -⟩ := hsame hc
    exact h.bound hd
  · intro i c hc
    obtain ⟨d, hd, hcd, hcz⟩ := hsame hc
    rw [hcd, hcz]
    exact h.counted hd
  · exact h.fresh
  · exact h.once
  · intro i c hc hcz
    obtain ⟨d, hd, rfl | ⟨hi, rfl⟩⟩ := hback hc
    · exact h.released hd hcz
    · rw [(hf d).2.1, hz d (hi ▸ hd)] at hcz
      exact nomatch hcz
  · exact ⟨h.sound.taken, h.sound.shared⟩
  · exact h.known
  · intro b hb ht
    obtain ⟨q, c, hc, hrest⟩ := h.held hb ht
    rcases eq_or_ne q p with rfl | hne
    · refine ⟨q, f c, ?_, ?_⟩
      · rw [setProc_procs, if_pos rfl]
        exact congrArg (Option.map f) hc
      · rw [(hf c).2.1, (hf c).2.2.1, (hf c).2.2.2]
        exact hrest
    · refine ⟨q, c, ?_, hrest⟩
      rw [setProc_procs, if_neg hne]
      exact hc

theorem Books.forget (h : Books s ended spaces) (self : ℕ) : Books (forget s self) ended spaces := by
  obtain ⟨hprocs, htaken, hnext, hid, -⟩ := forget_spec s self
  refine h.drop (fun i => ?_) (fun b hb => Or.inl (htaken b hb)) (forget_sound h.sound) hnext.ge hid.ge
  rw [hprocs]
  split_ifs with ho
  · refine Or.inr ⟨rfl, fun r hr => ?_⟩
    have horphan := ho.2
    unfold orphan at horphan
    rw [hr] at horphan
    simp only [Option.any_some, Bool.and_eq_true, decide_eq_true_eq] at horphan
    exact horphan.2.1
  · exact Or.inl rfl

theorem Books.undone {kept : ℕ → Bool} (h : Books s ended spaces)
    (hk : ∀ b, kept b = true → s.taken b = true ∨ s.next ≤ b)
    (hu : Undone { s with taken := kept } s') : Books s' ended spaces :=
  h.drop (fun i => Or.inl (congrFun hu.procs i)) (fun b hb => hk b (by rw [← hb, hu.taken])) hu.sound
    hu.next hu.nextId

/-- A child put in the table, in memory of its own or not. -/
theorem Books.half {slot k : ℕ} {own : Option ℕ} {kept spaces' : ℕ → Bool} (h : Books s ended spaces)
    (hk : ∀ b, kept b = true → s.taken b = true ∨ s.next ≤ b)
    (hh : Half { s with taken := kept } s' slot c own k) (hpid : c.pid = s.nextId) (hz : c.zombie = false)
    (hspaces : ∀ b, spaces' b = true → spaces b = true ∨
      c.borrowed = false ∧ c.space = some b ∧ own = some b) : Books s' ended spaces' := by
  have hback : ∀ {i r}, s'.procs i = some r → i = slot ∧ r = c ∨ i ≠ slot ∧ s.procs i = some r := by
    intro i r hr
    rw [hh.procs] at hr
    rcases eq_or_ne i slot with rfl | hne
    · rw [update_self] at hr
      exact Or.inl ⟨rfl, (Option.some.inj hr).symm⟩
    · rw [update_of_ne hne] at hr
      exact Or.inr ⟨hne, hr⟩
  constructor
  · refine ⟨fun {i r} hr => ?_, fun {i j r r'} hr hr' heq => ?_, hh.nextId ▸ Nat.succ_pos _⟩
    · rw [hh.nextId]
      rcases hback hr with ⟨-, rfl⟩ | ⟨-, hr⟩
      · rw [hpid]
        exact ⟨h.ids.pos, Nat.lt_succ_self _⟩
      · exact ⟨(h.ids.bound hr).1, Nat.lt_succ_of_lt (h.ids.bound hr).2⟩
    · rcases hback hr with ⟨rfl, rfl⟩ | ⟨-, hr⟩ <;> rcases hback hr' with ⟨rfl, rfl⟩ | ⟨-, hr'⟩
      · rfl
      · exact absurd (h.ids.bound hr').2 (by rw [← heq, hpid]; exact Nat.lt_irrefl _)
      · exact absurd (h.ids.bound hr).2 (by rw [heq, hpid]; exact Nat.lt_irrefl _)
      · exact h.ids.inj hr hr' heq
  · intro i r hr
    rcases hback hr with ⟨rfl, -⟩ | ⟨-, hr⟩
    · exact hh.bound
    · exact h.bound hr
  · intro i r hr
    rcases hback hr with ⟨-, rfl⟩ | ⟨-, hr⟩
    · rw [hpid, hz]
      exact h.fresh (le_refl _)
    · exact h.counted hr
  · intro pid hge
    rw [hh.nextId] at hge
    exact h.fresh (Nat.le_of_succ_le hge)
  · exact h.once
  · intro i r hr hrz
    rcases hback hr with ⟨-, rfl⟩ | ⟨-, hr⟩
    · rw [hz] at hrz
      exact nomatch hrz
    · exact h.released hr hrz
  · exact hh.sound
  · intro b hb
    rcases hspaces b hb with hb | ⟨-, -, rfl⟩
    · exact (h.known hb).trans_le hh.next
    · exact (hh.fresh b (by simp)).2
  · intro b hb ht
    have hnew : c.borrowed = false ∧ c.space = some b →
        ∃ p r, s'.procs p = some r ∧ r.zombie = false ∧ r.borrowed = false ∧ r.space = some b :=
      fun hc => ⟨slot, c, hh.at_slot, hz, hc⟩
    rcases hspaces b hb with hb | ⟨hcb, hcs, -⟩
    · rw [hh.taken, Bool.or_eq_true, decide_eq_true_eq] at ht
      rcases ht with ht | ht
      · obtain ⟨q, r, hr, hrest⟩ :=
          h.held hb ((hk b ht).resolve_right (Nat.not_le.2 (h.known hb)))
        refine ⟨q, r, ?_, hrest⟩
        rw [hh.procs, update_of_ne fun heq => ?_, hr]
        rw [heq, hh.free] at hr
        exact nomatch hr
      · exact absurd (h.known hb) (Nat.not_lt.2 (hh.fresh b ht).1)
    · exact hnew ⟨hcb, hcs⟩

/-- An id handed out to a thread. -/
theorem Books.nextId (h : Books s ended spaces) :
    Books { s with nextId := s.nextId + 1 } ended spaces :=
  h.drop (fun _ => Or.inl rfl) (fun _ ht => Or.inl ht) ⟨h.sound.taken, h.sound.shared⟩ (le_refl _)
    (Nat.le_succ _)

/-- What is counted is neither here nor there. -/
theorem Books.refs (h : Books s ended spaces) (refs : ℕ → ℕ) :
    Books { s with refs := refs } ended spaces :=
  h.drop (fun _ => Or.inl rfl) (fun _ ht => Or.inl ht) ⟨h.sound.taken, h.sound.shared⟩ (le_refl _)
    (le_refl _)

/-- Memory to run in, for a process that has none of its own. -/
theorem Books.spaceNew (h : Books s ended spaces)
    (hp : ∀ r, s.procs p = some r → r.zombie = false ∧ (r.borrowed = true ∨ r.space = none))
    (hsome : (s.procs p).isSome = true) :
    Books (({ s with next := s.next + 1, taken := update s.taken s.next true }).setProc p fun c =>
      { c with space := some s.next, borrowed := false }) ended (update spaces s.next true) := by
  obtain ⟨r, hr⟩ := Option.isSome_iff_exists.1 hsome
  obtain ⟨t, ht⟩ : ∃ t, t = ({ s with
    next := s.next + 1, taken := update s.taken s.next true }).setProc p fun c =>
      { c with space := some s.next, borrowed := false } := ⟨_, rfl⟩
  have hprocs : ∀ i, t.procs i =
      if i = p then some { r with space := some s.next, borrowed := false } else s.procs i := by
    intro i
    rw [ht, setProc_procs]
    show (if i = p then (s.procs p).map _ else s.procs i) = _
    rw [hr]
    rfl
  have hback : ∀ {i c}, t.procs i = some c → ∃ d, s.procs i = some d ∧ c.pid = d.pid ∧
      c.zombie = d.zombie ∧ (i = p ∨ c = d) := by
    intro i c hc
    rw [hprocs] at hc
    split_ifs at hc with hi
    · rw [← Option.some.inj hc]
      exact ⟨r, hi ▸ hr, rfl, rfl, Or.inl hi⟩
    · exact ⟨c, hc, rfl, rfl, Or.inr rfl⟩
  rw [← ht]
  have hnext : t.next = s.next + 1 := by rw [ht]; rfl
  have hid : t.nextId = s.nextId := by rw [ht]; rfl
  have htaken : t.taken = update s.taken s.next true := by rw [ht]; rfl
  constructor
  · refine ⟨fun {i c} hc => ?_, fun {i j c c'} hc hc' heq => ?_, hid ▸ h.ids.pos⟩
    · obtain ⟨d, hd, hcd, -⟩ := hback hc
      rw [hcd, hid]
      exact h.ids.bound hd
    · obtain ⟨d, hd, hcd, -⟩ := hback hc
      obtain ⟨d', hd', hcd', -⟩ := hback hc'
      exact h.ids.inj hd hd' (hcd.symm.trans (heq.trans hcd'))
  · intro i c hc
    obtain ⟨d, hd, -⟩ := hback hc
    exact h.bound hd
  · intro i c hc
    obtain ⟨d, hd, hcd, hcz, -⟩ := hback hc
    rw [hcd, hcz]
    exact h.counted hd
  · exact fun hge => h.fresh (hid ▸ hge)
  · exact h.once
  · intro i c hc hcz
    obtain ⟨d, hd, -, hcd, rfl | rfl⟩ := hback hc
    · rw [hcd, (hp d hd).1] at hcz
      exact nomatch hcz
    · exact h.released hd hcz
  · refine ⟨fun b hb => ?_, fun b hb => ?_⟩
    · rw [hnext] at hb
      rw [htaken, update_of_ne (Nat.ne_of_gt hb)]
      exact h.sound.taken b (Nat.le_of_succ_le hb)
    · rw [ht] at hb
      rw [hnext]
      exact Nat.lt_succ_of_lt (h.sound.shared b hb)
  · intro b hb
    rw [hnext]
    rcases eq_or_ne b s.next with rfl | hne
    · exact Nat.lt_succ_self _
    · rw [update_of_ne hne] at hb
      exact Nat.lt_succ_of_lt (h.known hb)
  · intro b hb htk
    rcases eq_or_ne b s.next with rfl | hne
    · exact ⟨p, _, (hprocs p).trans (if_pos rfl), (hp r hr).1, rfl, rfl⟩
    · rw [update_of_ne hne] at hb
      rw [htaken, update_of_ne hne] at htk
      obtain ⟨q, c, hc, hcz, hcb, hcs⟩ := h.held hb htk
      refine ⟨q, c, ?_, hcz, hcb, hcs⟩
      rw [hprocs, if_neg fun heq => ?_, hc]
      rcases (hp c (heq ▸ hc)).2 with hno | hno
      · rw [hcb] at hno
        exact nomatch hno
      · rw [hcs] at hno
        exact nomatch hno

end Books

end BaxOS.Proc
