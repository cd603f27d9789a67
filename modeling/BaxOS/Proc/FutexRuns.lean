import BaxOS.Proc.Futex

/-!
# No wake is lost or made up

What waits and wakes are to do is kept in a ledger: who waits where, and whom a wake has counted and who
has not come back yet (`Ledger.after`). Every run keeps to it (`run_fair`), but that a thread that is alone
and would wait for ever is not let to (`exists_not_fair`).
-/

namespace BaxOS.Futex
open Function BaxOS.Proc

/-! ### The ledger -/

/-- How a thread stands: it waits for nothing; it waits at an address of its process; a wake counted it. -/
inductive Standing
  | awake
  | waits (p : Option ℕ) (addr : ℕ)
  | counted
  deriving DecidableEq

/-- How each thread stands. -/
abbrev Ledger := ℕ → Standing

/-- The threads that wait at an address, in the order of `all`. -/
def Ledger.there (l : Ledger) (p : Option ℕ) (addr : ℕ) : List ℕ :=
  (List.range threadsMax).filter fun i => l i = .waits p addr

/-- A wake counts the first of those that wait at its address, and moves the next. -/
def Ledger.wake (l : Ledger) (p : Option ℕ) (addr : ℕ) (n : ℤ) (addr2 : ℕ) (move : ℤ) : Ledger := fun i =>
  if i ∈ (l.there p addr).take n.toNat then .counted
  else if i ∈ ((l.there p addr).drop n.toNat).take move.toNat then .waits p addr2
  else l i

/-- What has happened, entered. A thread that finds what it expected waits, unless it is alone, with no time
to wait until, and such a one is let off. -/
def Ledger.after (lets : Bool) (l : Ledger) : Event → Ledger
  | .finds t p addr alone => if lets && alone then l else update l t (.waits p addr)
  | .back t _ => update l t .awake
  | .wakes p addr n addr2 move _ => l.wake p addr n addr2 move
  | .ends t => update l t .awake

/-- The ledger of a log. -/
def ledger (lets : Bool) : List Event → Ledger
  | [] => fun _ => .awake
  | e :: es => (ledger lets es).after lets e

/-- What may happen: a wait ends with 0 for a thread that was counted, and for no other; a wake counts as
many as it is for, if as many wait at its address. -/
def Ledger.Right (lets : Bool) (l : Ledger) : Event → Prop
  | .finds t _ _ _ => l t = .awake
  | .back t .woken => l t = .counted
  | .back t .again => lets = true ∧ l t = .awake
  | .back t _ => ∃ p addr, l t = .waits p addr
  | .wakes p addr n _ _ count => count = min n.toNat (l.there p addr).length
  | .ends t => l t = .awake

/-- **All that happened was right** when it did. -/
def Fair (lets : Bool) : List Event → Prop
  | [] => True
  | e :: es => Fair lets es ∧ (ledger lets es).Right lets e

/-! ### What the code has of it -/

/-- How a thread stands, by its fields. -/
def standing : Option Thread → Standing
  | none => .awake
  | some t => if t.wait.isSome then if t.woken then .counted else .waits t.proc t.futex else .awake

/-- A thread that waits at no address has none, and one that has ended waits nowhere. -/
structure Thread.Ok (t : Thread) : Prop where
  quiet : t.wait = none ∨ t.woken = true → t.futex = 0
  dead : t.dead = true → t.wait = none

/-- What was logged was right, and is how each thread stands. -/
structure Booked (s : Machine) : Prop where
  fair : Fair true s.log
  ledger : ∀ i, ledger true s.log i = standing (s.threads i)
  ok : ∀ i t, s.threads i = some t → t.Ok
  room : ∀ i t, s.threads i = some t → i < threadsMax

/-- **The invariant**: besides, the running thread has not ended. -/
structure Sound (s : Machine) : Prop extends Booked s where
  live : ∃ t, s.threads s.cur = some t ∧ t.dead = false

variable {s s' : Machine} {t t' : Thread} {p : Option ℕ} {addr addr2 : ℕ} {n m : ℤ} {e : Event}

theorem Window.holds_zero (w : Window) : w.holds 0 4 = false := by
  unfold Window.holds
  have hlow : (w.low.any fun r => r.1 ≤ 0 && 0 ≤ r.2 && 4 ≤ r.2 - 0) = false := by
    cases hl : w.low with
    | none => rfl
    | some r =>
      have hge := w.low_ge r hl
      rw [Option.any_some, Bool.and_eq_false_iff, Bool.and_eq_false_iff]
      exact Or.inl (Or.inl (decide_eq_false (by omega)))
  rw [hlow, Bool.false_or]
  by_cases hb : w.base = 0
  · simp [hb]
  · simp [hb]

namespace Machine

theorem ne_zero_of_userRange (h : s.userRange addr 4 = true) : addr ≠ 0 := by
  rintro rfl
  unfold userRange at h
  cases hp : s.proc with
  | none =>
    rw [hp] at h
    exact Bool.noConfusion h
  | some p =>
    rw [hp, Option.any_some, Window.holds_zero] at h
    exact Bool.noConfusion h

end Machine

/-! ### One thread at a time -/

theorem Sound.congr (h : Sound s) (hth : s'.threads = s.threads) (hcur : s'.cur = s.cur)
    (hlog : s'.log = s.log) : Sound s' :=
  ⟨⟨hlog ▸ h.fair, fun i => by rw [hlog, hth]; exact h.ledger i, hth ▸ h.ok, hth ▸ h.room⟩, by
    rw [hth, hcur]
    exact h.live⟩

theorem Sound.setBytes (h : Sound s) (m : Bytes) : Sound (s.setBytes m) := by
  unfold Machine.setBytes
  cases s.proc with
  | none => exact h
  | some p => exact h.congr rfl rfl rfl

/-- The running thread changed, and how it stands entered. -/
theorem Booked.set (h : Booked s) (t' : Thread) (hcur : s.threads s.cur = some t) (hok : t'.Ok)
    (hth : s'.threads = update s.threads s.cur (some t'))
    (hlog : s'.log = s.log ∧ standing (some t') = standing (some t) ∨
      ∃ e, s'.log = e :: s.log ∧ (Futex.ledger true s.log).Right true e ∧
        (Futex.ledger true s.log).after true e =
          update (Futex.ledger true s.log) s.cur (standing (some t'))) : Booked s' := by
  have hthread : ∀ i u, s'.threads i = some u → i = s.cur ∧ u = t' ∨ s.threads i = some u := fun i u hu => by
    rw [hth] at hu
    by_cases hi : i = s.cur
    · subst hi
      rw [update_self] at hu
      exact Or.inl ⟨rfl, (Option.some.inj hu).symm⟩
    · rw [update_of_ne hi] at hu
      exact Or.inr hu
  have hledger : ∀ l : Ledger, (∀ i, l i = update (Futex.ledger true s.log) s.cur (standing (some t')) i) →
      ∀ i, l i = standing (s'.threads i) := fun l hl i => by
    rw [hl, hth]
    by_cases hi : i = s.cur
    · subst hi
      rw [update_self, update_self]
    · rw [update_of_ne hi, update_of_ne hi, h.ledger]
  refine ⟨?_, ?_, fun i u hu => ?_, fun i u hu => ?_⟩
  · rcases hlog with ⟨hlog, -⟩ | ⟨e, hlog, hright, -⟩
    · rw [hlog]
      exact h.fair
    · rw [hlog]
      exact ⟨h.fair, hright⟩
  · rcases hlog with ⟨hlog, hstand⟩ | ⟨e, hlog, -, hafter⟩
    · refine hledger _ fun i => ?_
      rw [hlog, hstand, ← hcur, ← h.ledger s.cur, update_eq_self]
    · refine hledger _ fun i => ?_
      rw [hlog]
      exact congrFun hafter i
  · rcases hthread i u hu with ⟨-, rfl⟩ | hu
    · exact hok
    · exact h.ok i u hu
  · rcases hthread i u hu with ⟨rfl, -⟩ | hu
    · exact h.room s.cur t hcur
    · exact h.room i u hu

/-! ### Waking -/

/-- A thread that is woken, and one that is moved on. -/
def Thread.roused (t : Thread) : Thread := { t with futex := 0, woken := true }
def Thread.movedTo (t : Thread) (addr : ℕ) : Thread := { t with futex := addr }

/-- The threads of these places that wait at an address. -/
def waiting (th : ℕ → Option Thread) (p : Option ℕ) (addr : ℕ) (is : List ℕ) : List ℕ :=
  is.filter fun i => standing (th i) = .waits p addr

/-- So many threads woken, and so many of the next moved. -/
def wakes (th : ℕ → Option Thread) (ws : List ℕ) (k m addr2 : ℕ) : ℕ → Option Thread := fun j =>
  if j ∈ ws.take k then (th j).map Thread.roused
  else if j ∈ (ws.drop k).take m then (th j).map fun t => t.movedTo addr2
  else th j

variable {th : ℕ → Option Thread} {i : ℕ} {is ws : List ℕ}

theorem wakes_none : wakes th ws 0 0 addr2 = th := by
  funext j
  unfold wakes
  simp

theorem wakes_nil (k m : ℕ) : wakes th [] k m addr2 = th := by
  funext j
  unfold wakes
  simp

theorem wakes_rouse (hi : th i = some t) (hws : i ∉ ws) (k m : ℕ) :
    wakes (update th i (some t.roused)) ws k m addr2 = wakes th (i :: ws) (k + 1) m addr2 := by
  funext j
  unfold wakes
  rw [List.take_succ_cons, List.drop_succ_cons]
  by_cases hj : j = i
  · subst hj
    rw [if_neg (fun h => hws (List.mem_of_mem_take h)),
      if_neg (fun h => hws (List.mem_of_mem_drop (List.mem_of_mem_take h))), update_self,
      if_pos List.mem_cons_self, hi]
    rfl
  · simp only [update_of_ne hj, List.mem_cons, hj, false_or]

theorem wakes_move (hi : th i = some t) (hws : i ∉ ws) (m : ℕ) :
    wakes (update th i (some (t.movedTo addr2))) ws 0 m addr2 = wakes th (i :: ws) 0 (m + 1) addr2 := by
  funext j
  unfold wakes
  rw [List.take_zero, List.take_zero, List.drop_zero, List.drop_zero, List.take_succ_cons]
  by_cases hj : j = i
  · subst hj
    rw [if_neg (fun h => nomatch h), if_neg (fun h => hws (List.mem_of_mem_take h)), update_self,
      if_neg (fun h => nomatch h), if_pos List.mem_cons_self, hi]
    rfl
  · simp only [update_of_ne hj, List.mem_cons, hj, false_or]

/-- What the loop of `thread_wake` does: the first of those that wait are woken, and the next moved. -/
theorem wakeLoop_eq (n m : ℤ) (addr2 c : ℕ) (hnodup : is.Nodup)
    (hhit : ∀ i ∈ is, ∀ t, th i = some t →
      ((t.dead || t.proc ≠ p || t.futex ≠ addr || addr = 0) = false ↔ standing (some t) = .waits p addr)) :
    Machine.wakeLoop p addr n addr2 is c m th =
      (c + min (n - c).toNat (waiting th p addr is).length,
        wakes th (waiting th p addr is) (n - c).toNat m.toNat addr2) := by
  induction is generalizing c m th with
  | nil =>
    unfold Machine.wakeLoop waiting
    rw [List.filter_nil, wakes_nil, List.length_nil, Nat.min_zero, Nat.add_zero]
  | cons i is ih =>
    obtain ⟨hi, hnodup'⟩ := List.nodup_cons.1 hnodup
    have hhit' := fun j hj => hhit j (List.mem_cons_of_mem i hj)
    have hne : ∀ j ∈ is, j ≠ i := fun j hj heq => hi (heq ▸ hj)
    have hws : i ∉ waiting th p addr is := fun h => hi (List.mem_of_mem_filter h)
    -- what is changed at `i` is not looked at again
    have hrest : ∀ u, waiting (update th i u) p addr is = waiting th p addr is := fun u =>
      List.filter_congr fun j hj => by rw [update_of_ne (hne j hj)]
    have hhit'' : ∀ u, ∀ j ∈ is, ∀ t, update th i u j = some t →
        ((t.dead || t.proc ≠ p || t.futex ≠ addr || addr = 0) = false ↔
          standing (some t) = .waits p addr) := fun u j hj t ht => by
      rw [update_of_ne (hne j hj)] at ht
      exact hhit' j hj t ht
    have hmiss : standing (th i) ≠ .waits p addr → waiting th p addr (i :: is) = waiting th p addr is :=
      fun h => List.filter_cons_of_neg (by simpa using h)
    unfold Machine.wakeLoop
    cases ht : th i with
    | none =>
      rw [hmiss (by rw [ht]; exact Standing.noConfusion)]
      exact ih m c hnodup' hhit'
    | some t =>
      simp only
      by_cases hthere : standing (some t) = .waits p addr
      · have hcons : waiting th p addr (i :: is) = i :: waiting th p addr is :=
          List.filter_cons_of_pos (by rw [ht]; exact decide_eq_true hthere)
        rw [if_neg (by rw [(hhit i List.mem_cons_self t ht).2 hthere]; exact Bool.noConfusion), hcons,
          List.length_cons]
        split_ifs with hwake hmove
        · have hk : (n - c).toNat = (n - (c + 1 : ℕ)).toNat + 1 := by omega
          have hturn := ih m (c + 1) hnodup' (hhit'' (some t.roused))
          rw [hrest, wakes_rouse ht hws, ← hk] at hturn
          rw [show ({ t with futex := 0, woken := true } : Thread) = t.roused from rfl, hturn]
          congr 1
          omega
        · have hk : (n - c).toNat = 0 := by omega
          have hm : m.toNat = (m - 1).toNat + 1 := by omega
          have hturn := ih (m - 1) c hnodup' (hhit'' (some (t.movedTo addr2)))
          rw [hrest, hk, wakes_move ht hws, ← hm] at hturn
          rw [show ({ t with futex := addr2 } : Thread) = t.movedTo addr2 from rfl, hturn, hk, Nat.zero_min, Nat.zero_min]
        · have hk : (n - c).toNat = 0 := by omega
          have hm : m.toNat = 0 := by omega
          rw [ih m c hnodup' hhit', hk, hm, wakes_none, wakes_none, Nat.zero_min, Nat.zero_min]
      · have hno : ¬(t.dead || t.proc ≠ p || t.futex ≠ addr || addr = 0) = false := fun h =>
          hthere ((hhit i List.mem_cons_self t ht).1 h)
        rw [if_pos (Bool.not_eq_false _ ▸ hno), hmiss (by rw [ht]; exact hthere)]
        exact ih m c hnodup' hhit'

theorem standing_waits : standing (some t) = .waits p addr ↔
    t.wait.isSome = true ∧ t.woken = false ∧ t.proc = p ∧ t.futex = addr := by
  unfold standing
  by_cases hwait : t.wait.isSome = true
  · by_cases hwoken : t.woken = true
    · simp [hwait, hwoken]
    · simp [hwait, hwoken]
  · simp [hwait]

theorem mem_there {l : Ledger} : i ∈ l.there p addr ↔ i < threadsMax ∧ l i = .waits p addr := by
  unfold Ledger.there
  rw [List.mem_filter, List.mem_range, decide_eq_true_iff]

theorem threadWake_cur : (s.threadWake addr n addr2 m).2.cur = s.cur := by
  unfold Machine.threadWake Machine.note
  rfl

/-- What `thread_wake` changes: the threads that the ledger has waiting there. -/
theorem Booked.threadWake_eq (h : Booked s) (haddr : addr ≠ 0) (n : ℤ) (addr2 : ℕ) (m : ℤ) :
    (s.threadWake addr n addr2 m).2.log = .wakes s.proc addr n addr2 m
        (min n.toNat ((Futex.ledger true s.log).there s.proc addr).length) :: s.log ∧
      (s.threadWake addr n addr2 m).2.threads =
        wakes s.threads ((Futex.ledger true s.log).there s.proc addr) n.toNat m.toNat addr2 := by
  have hhit : ∀ i ∈ List.range threadsMax, ∀ t, s.threads i = some t →
      ((t.dead || t.proc ≠ s.proc || t.futex ≠ addr || addr = 0) = false ↔
        standing (some t) = .waits s.proc addr) := fun i _ t ht => by
    have hok := h.ok i t ht
    rw [standing_waits]
    simp only [Bool.or_eq_false_iff, decide_eq_false_iff_not, not_not]
    constructor
    · rintro ⟨⟨⟨-, hp⟩, ha⟩, -⟩
      have hno : ¬(t.wait = none ∨ t.woken = true) := fun hq => haddr (ha ▸ hok.quiet hq)
      rw [not_or, Bool.not_eq_true, ← ne_eq, Option.ne_none_iff_isSome] at hno
      exact ⟨hno.1, hno.2, hp, ha⟩
    · rintro ⟨hwait, -, hp, ha⟩
      refine ⟨⟨⟨?_, hp⟩, ha⟩, haddr⟩
      rw [← Bool.not_eq_true]
      intro hdead
      rw [hok.dead hdead] at hwait
      exact Bool.noConfusion hwait
  have hthere : waiting s.threads s.proc addr (List.range threadsMax) =
      (Futex.ledger true s.log).there s.proc addr :=
    List.filter_congr fun i _ => by rw [h.ledger]
  have heq := wakeLoop_eq n m addr2 0 List.nodup_range hhit
  rw [hthere, Nat.cast_zero, sub_zero, Nat.zero_add] at heq
  unfold Machine.threadWake
  rw [heq]
  exact ⟨rfl, rfl⟩

/-- **A wake** counts as many as it is for, if as many wait there, and enters them. -/
theorem Sound.wake (h : Sound s) (haddr : addr ≠ 0) (n : ℤ) (addr2 : ℕ) (m : ℤ) :
    Sound (s.threadWake addr n addr2 m).2 := by
  obtain ⟨hlog, hth⟩ := h.toBooked.threadWake_eq haddr n addr2 m
  have hws : ∀ i ∈ (Futex.ledger true s.log).there s.proc addr, ∃ t, s.threads i = some t ∧
      t.wait.isSome = true ∧ t.woken = false ∧ t.proc = s.proc := fun i hi => by
    have hstand := (mem_there.1 hi).2
    rw [h.ledger] at hstand
    cases ht : s.threads i with
    | none =>
      rw [ht] at hstand
      exact Standing.noConfusion hstand
    | some t =>
      rw [ht, standing_waits] at hstand
      exact ⟨t, rfl, hstand.1, hstand.2.1, hstand.2.2.1⟩
  -- each thread is woken, moved on or left as it was
  have hcase : ∀ i t', (s.threadWake addr n addr2 m).2.threads i = some t' → ∃ t, s.threads i = some t ∧
      t'.dead = t.dead ∧ t'.Ok := fun i t' ht' => by
    rw [hth] at ht'
    unfold wakes at ht'
    split_ifs at ht' with htake hdrop
    · obtain ⟨t, ht, -⟩ := hws i (List.mem_of_mem_take htake)
      rw [ht] at ht'
      obtain rfl := Option.some.inj ht'
      exact ⟨t, ht, rfl, fun _ => rfl, (h.ok i t ht).dead⟩
    · obtain ⟨t, ht, hwait, hwoken, -⟩ := hws i (List.mem_of_mem_drop (List.mem_of_mem_take hdrop))
      rw [ht] at ht'
      obtain rfl := Option.some.inj ht'
      refine ⟨t, ht, rfl, fun hq => ?_, (h.ok i t ht).dead⟩
      rcases hq with hq | hq
      · rw [show t.wait = none from hq] at hwait
        exact Bool.noConfusion hwait
      · rw [show t.woken = true from hq] at hwoken
        exact Bool.noConfusion hwoken
    · exact ⟨t', ht', rfl, h.ok i t' ht'⟩
  refine ⟨⟨?_, fun i => ?_, fun i t' ht' => ?_, fun i t' ht' => ?_⟩, ?_⟩
  · rw [hlog]
    exact ⟨h.fair, rfl⟩
  · rw [hlog, hth]
    show Ledger.wake _ _ _ _ _ _ i = _
    unfold Ledger.wake wakes
    split_ifs with htake hdrop
    · obtain ⟨t, ht, hwait, -⟩ := hws i (List.mem_of_mem_take htake)
      rw [ht]
      unfold standing
      exact (if_pos hwait).symm
    · obtain ⟨t, ht, hwait, hwoken, hp⟩ := hws i (List.mem_of_mem_drop (List.mem_of_mem_take hdrop))
      rw [ht]
      exact (standing_waits (t := t.movedTo addr2).2 ⟨hwait, hwoken, hp, rfl⟩).symm
    · exact h.ledger i
  · obtain ⟨t, -, -, hok⟩ := hcase i t' ht'
    exact hok
  · obtain ⟨t, ht, -⟩ := hcase i t' ht'
    exact h.room i t ht
  · rw [threadWake_cur]
    obtain ⟨t, ht, hdead⟩ := h.live
    cases ht' : (s.threadWake addr n addr2 m).2.threads s.cur with
    | none =>
      rw [hth] at ht'
      unfold wakes at ht'
      rw [ht] at ht'
      split_ifs at ht' <;> exact nomatch ht'
    | some t' =>
      obtain ⟨u, hu, hud, -⟩ := hcase s.cur t' ht'
      obtain rfl := Option.some.inj (ht.symm.trans hu)
      exact ⟨t', rfl, hud.trans hdead⟩

/-! ### Turns -/

theorem Machine.setCur_threads (hcur : s.threads s.cur = some t) (f : Thread → Thread) :
    (s.setCur f).threads = update s.threads s.cur (some (f t)) := by
  unfold Machine.setCur
  rw [hcur]
  rfl

theorem Machine.setCur_self (hcur : s.threads s.cur = some t) (f : Thread → Thread) :
    (s.setCur f).threads s.cur = some (f t) := by
  rw [s.setCur_threads hcur, update_self]

/-- A thread that stays in `all` when others that have ended go. -/
theorem reap_threads (s : Machine) (i : ℕ) : s.reap.threads i = s.threads i ∨
    i ≠ s.cur ∧ s.reap.threads i = none ∧ ∃ t, s.threads i = some t ∧ t.dead = true := by
  unfold Machine.reap
  simp only
  split_ifs with hgoes
  · obtain ⟨hne, hany⟩ := Bool.and_eq_true_iff.1 hgoes
    cases ht : s.threads i with
    | none => exact Or.inl rfl
    | some t =>
      rw [ht] at hany
      exact Or.inr ⟨of_decide_eq_true (Bool.and_eq_true_iff.1 hne).2, rfl, t, rfl, hany⟩
  · exact Or.inl rfl

theorem Booked.reap (h : Booked s) : Booked s.reap := by
  have hthread : ∀ i t, s.reap.threads i = some t → s.threads i = some t := fun i t ht => by
    rcases reap_threads s i with heq | ⟨-, hnone, -⟩
    · rw [← heq, ht]
    · rw [hnone] at ht
      exact nomatch ht
  refine ⟨h.fair, fun i => (h.ledger i).trans ?_, fun i t ht => h.ok i t (hthread i t ht),
    fun i t ht => h.room i t (hthread i t ht)⟩
  rcases reap_threads s i with heq | ⟨-, hnone, t, ht, hdead⟩
  · rw [heq]
  · rw [hnone, ht]
    have hwait := (h.ok i t ht).dead hdead
    show (if t.wait.isSome then _ else _) = Standing.awake
    rw [hwait]
    rfl

theorem Sound.reap (h : Sound s) : Sound s.reap := by
  obtain ⟨t, ht, hdead⟩ := h.live
  refine ⟨h.toBooked.reap, t, ?_, hdead⟩
  rcases reap_threads s s.cur with heq | ⟨hne, -⟩
  · exact heq.trans ht
  · exact absurd rfl hne

/-- A switch, to a thread that is there; that the one left has not ended does not matter. -/
theorem Booked.switchTo (h : Booked s) (hs : s.switchTo i = some s') : Sound s' := by
  unfold Machine.switchTo at hs
  split_ifs at hs with hlive
  obtain rfl := Option.some.inj hs
  cases ht : s.threads i with
  | none =>
    rw [ht] at hlive
    exact Bool.noConfusion hlive
  | some t =>
    rw [ht, Option.any_some, Bool.not_eq_true'] at hlive
    have hmoved : Sound { s with cur := i } := ⟨⟨h.fair, h.ledger, h.ok, h.room⟩, t, ht, hlive⟩
    exact hmoved.reap

theorem Machine.comeBack_eq (hcur : s.threads s.cur = some t) (r : Result) (v : ℤ) :
    (s.comeBack r v).threads = update s.threads s.cur (some { t with rax := v, wait := none }) ∧
      (s.comeBack r v).cur = s.cur ∧ (s.comeBack r v).log = .back s.cur r :: s.log := by
  unfold Machine.comeBack Machine.answer Machine.setCur Machine.note
  simp only [hcur, Option.map_some, update_self, update_idem, and_self]

/-- A wait that ends. -/
theorem Sound.comeBack (t' : Thread) {r : Result} {v : ℤ} {till : ℕ} (h : Sound (s.setCur fun t => { t with wait := some till }))
    (hcur : s.threads s.cur = some t) (ht' : t'.futex = 0) (hdead : t'.dead = t.dead)
    (hs : s'.threads = update s.threads s.cur (some { t' with rax := v, wait := none }))
    (hs' : s'.cur = s.cur) (hlog : s'.log = .back s.cur r :: s.log)
    (hright : (Futex.ledger true s.log).Right true (.back s.cur r)) : Sound s' := by
  have hself := s.setCur_self hcur fun t => { t with wait := some till }
  have hset := s.setCur_threads hcur fun t => { t with wait := some till }
  obtain ⟨u, hu, hdead'⟩ := h.live
  obtain rfl := Option.some.inj (hself.symm.trans hu)
  refine ⟨h.toBooked.set { t' with rax := v, wait := none } hself ⟨fun _ => ht', fun _ => rfl⟩ ?_
    (Or.inr ⟨_, hlog, hright, rfl⟩), { t' with rax := v, wait := none }, ?_, hdead.trans hdead'⟩
  · rw [hs, hset]
    exact (update_idem _ _ _).symm
  · rw [hs, hs', update_self]

/-- **A turn of `futex_wait`'s loop**: it ends with 0 exactly when a wake has counted the thread. -/
theorem Sound.waitTurn {till next : ℕ} {signal : Bool} (h : Sound (s.setCur fun t => { t with wait := some till }))
    (hcur : s.threads s.cur = some t) (hs : s.waitTurn till signal next = some s') : Sound s' := by
  have hstand : Futex.ledger true s.log s.cur = standing (some { t with wait := some till }) := by
    rw [← s.setCur_self hcur fun t => { t with wait := some till }]
    exact h.ledger s.cur
  have hok : Thread.Ok { t with wait := some till } := h.ok s.cur _ (s.setCur_self hcur _)
  unfold Machine.waitTurn at hs
  rw [hcur, Option.any_some] at hs
  by_cases hwoken : t.woken = true
  · rw [if_pos hwoken] at hs
    obtain rfl := Option.some.inj hs
    obtain ⟨hth, hcur', hlog⟩ := s.comeBack_eq hcur .woken 0
    refine h.comeBack t hcur (hok.quiet (Or.inr hwoken)) rfl hth hcur' hlog ?_
    show _ = Standing.counted
    rw [hstand]
    exact if_pos hwoken
  · rw [if_neg hwoken] at hs
    have hwaits : ∃ p addr, Futex.ledger true s.log s.cur = .waits p addr :=
      ⟨t.proc, t.futex, hstand.trans (if_neg hwoken)⟩
    -- one that gives up first waits at no address
    have hgives : ∀ r v, (Futex.ledger true s.log).Right true (.back s.cur r) →
        Sound ((s.sleepOn 0).comeBack r v) := fun r v hright => by
      have hsleep : (s.sleepOn 0).threads s.cur = some { t with futex := 0, woken := false } :=
        s.setCur_self hcur _
      obtain ⟨hth, hcur', hlog⟩ := (s.sleepOn 0).comeBack_eq hsleep r v
      refine h.comeBack { t with futex := 0, woken := false } (v := v) hcur rfl rfl ?_ hcur' hlog hright
      rw [hth]
      unfold Machine.sleepOn
      rw [s.setCur_threads hcur]
      exact update_idem _ _ _
    split_ifs at hs with htime hsignal
    · obtain rfl := Option.some.inj hs
      exact hgives _ _ hwaits
    · obtain rfl := Option.some.inj hs
      exact hgives _ _ hwaits
    · exact h.toBooked.switchTo hs

/-- The running thread's answer changes nothing of how it stands. -/
theorem Sound.answer (h : Sound s) (v : ℤ) : Sound (s.answer v) := by
  obtain ⟨t, hcur, hdead⟩ := h.live
  refine ⟨h.toBooked.set { t with rax := v } hcur ⟨(h.ok s.cur t hcur).quiet, (h.ok s.cur t hcur).dead⟩
    (s.setCur_threads hcur _) (Or.inl ⟨rfl, rfl⟩), { t with rax := v }, s.setCur_self hcur _, hdead⟩

/-- **A wait that starts**: its thread has found what it expected, and waits unless it is let off. -/
theorem Sound.futexWait {op timeout next : ℕ} {value : BitVec 32} {signal : Bool} (h : Sound s)
    (hcur : s.threads s.cur = some t) (hwait : t.wait = none)
    (hs : s.futexWait addr op value timeout signal next = some s') : Sound s' := by
  have hawake : Futex.ledger true s.log s.cur = .awake := by
    rw [h.ledger, hcur]
    show (if t.wait.isSome then _ else _) = _
    rw [hwait]
    rfl
  obtain ⟨u, hu, hdead⟩ := h.live
  obtain rfl := Option.some.inj (hcur.symm.trans hu)
  unfold Machine.futexWait at hs
  simp only at hs
  split_ifs at hs with hfault hword halone
  · obtain rfl := Option.some.inj hs
    exact h.answer _
  · obtain rfl := Option.some.inj hs
    exact h.answer _
  · -- alone, with no time to wait until
    obtain rfl := Option.some.inj hs
    rw [halone]
    have hfair : Fair true (.back s.cur .again :: .finds s.cur s.proc addr true :: s.log) :=
      ⟨⟨h.fair, hawake⟩, rfl, hawake⟩
    have hledger : Futex.ledger true (.back s.cur .again :: .finds s.cur s.proc addr true :: s.log) =
        Futex.ledger true s.log := by
      show update (Futex.ledger true s.log) s.cur Standing.awake = _
      rw [← hawake, update_eq_self]
    have hlet : Sound ((s.note (.finds s.cur s.proc addr true)).note (.back s.cur .again)) :=
      ⟨⟨hfair, fun i => (congrFun hledger i).trans (h.ledger i), h.ok, h.room⟩, t, hcur, hdead⟩
    exact hlet.answer _
  · rw [Bool.not_eq_true] at halone
    rw [halone] at hs
    have hcur₁ : ((s.note (.finds s.cur s.proc addr false)).sleepOn addr).threads s.cur =
        some { t with futex := addr, woken := false } :=
      (s.note (.finds s.cur s.proc addr false)).setCur_self hcur _
    refine Sound.waitTurn ?_ hcur₁ hs
    have hth : (((s.note (.finds s.cur s.proc addr false)).sleepOn addr).setCur fun t =>
        { t with wait := some (s.waitTill op timeout) }).threads = update s.threads s.cur
          (some { t with futex := addr, woken := false, wait := some (s.waitTill op timeout) }) := by
      rw [Machine.setCur_threads hcur₁]
      unfold Machine.sleepOn
      rw [Machine.setCur_threads (s := s.note (.finds s.cur s.proc addr false)) hcur]
      exact update_idem _ _ _
    refine ⟨h.toBooked.set _ hcur ⟨fun hq => ?_, fun hd => ?_⟩ hth (Or.inr ⟨_, rfl, hawake, ?_⟩), _,
      Machine.setCur_self hcur₁ _, hdead⟩
    · rcases hq with hq | hq
      · exact nomatch hq
      · exact Bool.noConfusion hq
    · exact Bool.noConfusion (hdead.symm.trans hd)
    · show update (Futex.ledger true s.log) s.cur (Standing.waits s.proc addr) =
        update (Futex.ledger true s.log) s.cur (Standing.waits t.proc addr)
      unfold Machine.proc
      rw [hcur]
      rfl

theorem Sound.futexWakeOp {n2 : ℤ} {code : BitVec 32} (h : Sound s) (haddr : addr ≠ 0) :
    Sound (s.futexWakeOp addr n addr2 n2 code) := by
  unfold Machine.futexWakeOp
  by_cases hrange : s.userRange addr2 4 = true
  · have haddr2 := Machine.ne_zero_of_userRange hrange
    rw [if_neg (by rw [hrange]; exact Bool.noConfusion)]
    simp only
    split
    · exact h.answer _
    · split
      · exact (h.setBytes _).answer _
      · have hfirst := (h.setBytes (s.bytes.setWord addr2 ‹_›)).wake haddr n 0 0
        split_ifs
        · exact (hfirst.wake haddr2 _ _ _).answer _
        · exact hfirst.answer _
  · rw [if_pos (by rw [Bool.not_eq_true] at hrange; rw [hrange]; rfl)]
    exact h.answer _

/-- **A call.** -/
theorem Sound.sysFutex {op value timeout value3 next : ℕ} {signal : Bool} (h : Sound s)
    (hcur : s.threads s.cur = some t) (hwait : t.wait = none)
    (hs : s.sysFutex addr op value timeout addr2 value3 signal next = some s') : Sound s' := by
  unfold Machine.sysFutex at hs
  by_cases hrange : s.userRange addr 4 = true
  · have haddr := Machine.ne_zero_of_userRange hrange
    rw [if_neg (by rw [hrange]; exact Bool.noConfusion)] at hs
    split at hs
    · exact h.futexWait hcur hwait hs
    · exact h.futexWait hcur hwait hs
    · obtain rfl := Option.some.inj hs
      exact (h.wake haddr _ _ _).answer _
    · obtain rfl := Option.some.inj hs
      exact (h.wake haddr _ _ _).answer _
    · split_ifs at hs
      · obtain rfl := Option.some.inj hs
        exact h.answer _
      · obtain rfl := Option.some.inj hs
        exact (h.wake haddr _ _ _).answer _
    · obtain rfl := Option.some.inj hs
      exact (h.wake haddr _ _ _).answer _
    · obtain rfl := Option.some.inj hs
      exact h.futexWakeOp haddr
    · exact absurd hs (by simp)
    · exact absurd hs (by simp)
    · exact absurd hs (by simp)
    · exact absurd hs (by simp)
    · obtain rfl := Option.some.inj hs
      exact h.answer _
  · rw [if_pos (by rw [Bool.not_eq_true] at hrange; rw [hrange]; rfl)] at hs
    obtain rfl := Option.some.inj hs
    exact h.answer _

/-- A thread that waits for nothing is left by a wake. -/
theorem Booked.wake_self (h : Booked s) (haddr : addr ≠ 0) (ht : s.threads i = some t) (hwait : t.wait = none)
    (n : ℤ) (addr2 : ℕ) (m : ℤ) : (s.threadWake addr n addr2 m).2.threads i = some t := by
  have hnot : i ∉ (Futex.ledger true s.log).there s.proc addr := fun hin => by
    have hstand := (mem_there.1 hin).2
    rw [h.ledger, ht, standing_waits, hwait] at hstand
    exact Bool.noConfusion hstand.1
  rw [(h.threadWake_eq haddr n addr2 m).2]
  unfold wakes
  rw [if_neg (fun hin => hnot (List.mem_of_mem_take hin)),
    if_neg (fun hin => hnot (List.mem_of_mem_drop (List.mem_of_mem_take hin))), ht]

theorem Sound.startThread {stack : Bool} (h : Sound s) (clearTid : ℕ) : Sound (s.startThread clearTid stack) := by
  unfold Machine.startThread
  simp only
  split
  · exact h.answer _
  · have hreap := h.reap
    split
    · exact hreap.answer _
    · rename_i i hfind
      have hfound := List.find?_some hfind
      have hroom := List.mem_range.1 (List.mem_of_find?_eq_some hfind)
      rw [Bool.and_eq_true_iff, Option.isNone_iff_eq_none] at hfound
      have hnone : s.reap.threads i = none := hfound.2
      split_ifs
      · obtain ⟨t, ht, hdead⟩ := hreap.live
        have hne : s.reap.cur ≠ i := fun heq => by
          rw [heq, hnone] at ht
          exact nomatch ht
        have hthread : ∀ j u, update s.reap.threads i
            (some ⟨s.reap.proc, false, false, 0, clearTid, none, 0⟩) j = some u →
              j = i ∧ u.wait = none ∧ u.futex = 0 ∨ s.reap.threads j = some u := fun j u hu => by
          by_cases hj : j = i
          · subst hj
            rw [update_self] at hu
            obtain rfl := Option.some.inj hu
            exact Or.inl ⟨rfl, rfl, rfl⟩
          · rw [update_of_ne hj] at hu
            exact Or.inr hu
        refine ⟨⟨hreap.fair, fun j => ?_, fun j u hu => ?_, fun j u hu => ?_⟩, t, ?_, hdead⟩
        · refine (hreap.ledger j).trans ?_
          by_cases hj : j = i
          · subst hj
            rw [hnone]
            show Standing.awake = standing (update s.reap.threads j
              (some ⟨s.reap.proc, false, false, 0, clearTid, none, 0⟩) j)
            rw [update_self]
            rfl
          · exact congrArg standing (update_of_ne hj _ _).symm
        · rcases hthread j u hu with ⟨-, hwait, hfutex⟩ | hu
          · exact ⟨fun _ => hfutex, fun _ => hwait⟩
          · exact hreap.ok j u hu
        · rcases hthread j u hu with ⟨rfl, -⟩ | hu
          · exact hroom
          · exact hreap.room j u hu
        · exact (update_of_ne hne _ _).trans ht
      · exact hreap.answer _

/-- **A thread ends**: its word is zeroed and one that waits there woken. -/
theorem Sound.threadEnds (h : Sound s) (hcur : s.threads s.cur = some t) (hwait : t.wait = none) :
    Booked s.threadEnds := by
  have hlast : ∀ s₁ : Machine, Sound s₁ → s₁.cur = s.cur → s₁.threads s.cur = some t →
      Booked ((s₁.setCur fun t => { t with dead := true }).note (.ends s₁.cur)) := fun s₁ h₁ hcur₁ ht₁ => by
    rw [← hcur₁] at ht₁
    have hawake : Futex.ledger true s₁.log s₁.cur = .awake := by
      rw [h₁.ledger, ht₁]
      show (if t.wait.isSome then _ else _) = _
      rw [hwait]
      rfl
    refine h₁.toBooked.set { t with dead := true } ht₁ ⟨(h₁.ok _ t ht₁).quiet, fun _ => hwait⟩
      (s₁.setCur_threads ht₁ _) (Or.inr ⟨_, rfl, hawake, ?_⟩)
    show update (Futex.ledger true s₁.log) s₁.cur Standing.awake = update _ s₁.cur (if t.wait.isSome then _ else _)
    rw [hwait]
    rfl
  unfold Machine.threadEnds
  simp only [hcur, Option.map_some, Option.getD_some]
  by_cases hclear : t.clearTid ≠ 0
  · rw [if_pos hclear]
    have hset := h.setBytes (s.bytes.setWord t.clearTid 0)
    have hsame : (s.setBytes (s.bytes.setWord t.clearTid 0)).cur = s.cur ∧
        (s.setBytes (s.bytes.setWord t.clearTid 0)).threads = s.threads := by
      unfold Machine.setBytes
      cases s.proc <;> exact ⟨rfl, rfl⟩
    have hself := hset.toBooked.wake_self hclear (i := s.cur) (hsame.2 ▸ hcur) hwait 1 0 0
    exact hlast _ (hset.wake hclear 1 0 0) (threadWake_cur.trans hsame.1) hself
  · rw [if_neg hclear]
    exact hlast s h rfl hcur

/-- **A step.** -/
theorem Sound.step {a : Machine.Act} (h : Sound s) (hs : s.step a = some s') : Sound s' := by
  obtain ⟨t, hcur, hdead⟩ := h.live
  unfold Machine.step at hs
  rw [hcur, Option.bind_some] at hs
  cases hwait : t.wait with
  | none =>
    rw [hwait] at hs
    cases a with
    | tick clock realtime =>
      obtain rfl := Option.some.inj hs
      exact h.congr rfl rfl rfl
    | resume signal next => exact nomatch hs
    | store addr bytes =>
      obtain rfl := Option.some.inj hs
      exact h.setBytes _
    | futex addr op value timeout addr2 value3 signal next => exact h.sysFutex hcur hwait hs
    | create clearTid stack =>
      obtain rfl := Option.some.inj hs
      exact h.startThread _
    | exit next => exact (h.threadEnds hcur hwait).switchTo hs
    | pause next => exact h.toBooked.switchTo hs
  | some till =>
    rw [hwait] at hs
    cases a with
    | tick clock realtime =>
      obtain rfl := Option.some.inj hs
      exact h.congr rfl rfl rfl
    | resume signal next =>
      have hself : (s.setCur fun t => { t with wait := some till }) = s := by
        unfold Machine.setCur
        rw [hcur, Option.map_some, ← hwait, ← hcur, update_eq_self]
      exact Sound.waitTurn (hself.symm ▸ h) hcur hs
    | _ => exact nomatch hs

theorem Sound.run {as : List Machine.Act} (h : Sound s) (hs : s.run as = some s') : Sound s' := by
  induction as generalizing s with
  | nil =>
    obtain rfl := Option.some.inj hs
    exact h
  | cons a as ih =>
    unfold Machine.run at hs
    obtain ⟨s₁, hstep, hrun⟩ := Option.bind_eq_some_iff.1 hs
    exact ih (h.step hstep) hrun

/-- Nothing has been logged, and no thread waits. -/
structure Started (s : Machine) : Prop where
  log : s.log = []
  idle : ∀ i t, s.threads i = some t → i < threadsMax ∧ t.wait = none ∧ t.futex = 0
  live : ∃ t, s.threads s.cur = some t ∧ t.dead = false

theorem Started.sound (h : Started s) : Sound s := by
  refine ⟨⟨?_, fun i => ?_, fun i t ht => ⟨fun _ => (h.idle i t ht).2.2, fun _ => (h.idle i t ht).2.1⟩,
    fun i t ht => (h.idle i t ht).1⟩, h.live⟩
  · rw [h.log]
    trivial
  · rw [h.log]
    cases ht : s.threads i with
    | none => rfl
    | some t =>
      show _ = if t.wait.isSome then _ else _
      rw [(h.idle i t ht).2.1]
      rfl

/-- **No wake is lost or made up**: all that is logged in a run is right, and a thread that a wake has
counted comes back from its wait with 0 as soon as it is switched to. -/
theorem run_fair {as : List Machine.Act} (h : Started s) (hs : s.run as = some s') :
    Fair true s'.log ∧ (ledger true s'.log s'.cur = .counted → ∀ signal next, ∃ s'' t,
      s'.step (.resume signal next) = some s'' ∧ s''.log = .back s'.cur .woken :: s'.log ∧
        s''.threads s'.cur = some t ∧ t.wait = none ∧ t.rax = 0) := by
  have hsound := h.sound.run hs
  refine ⟨hsound.fair, fun hcounted signal next => ?_⟩
  obtain ⟨t, hcur, -⟩ := hsound.live
  rw [hsound.ledger, hcur] at hcounted
  unfold standing at hcounted
  simp only at hcounted
  split_ifs at hcounted with hwait hwoken
  obtain ⟨till, hwait⟩ := Option.isSome_iff_exists.1 hwait
  obtain ⟨hth, -, hlog⟩ := s'.comeBack_eq hcur .woken 0
  refine ⟨s'.comeBack .woken 0, { t with rax := 0, wait := none }, ?_, hlog, ?_, rfl, rfl⟩
  · unfold Machine.step Machine.waitTurn
    rw [hcur, Option.bind_some, hwait]
    exact if_pos hwoken
  · rw [hth, update_self]

/-! ### Two threads, and one alone -/

/-- One thread, of process 0, whose memory is all 0. -/
def oneThread : Machine where
  threads i := if i = 0 then some ⟨some 0, false, false, 0, 0, none, 0⟩ else none
  cur := 0
  window _ := ⟨none, 2 ^ 40, 2 ^ 41, (fun _ hr => nomatch hr)⟩
  mem _ _ := 0
  clock := 0
  realtime := 0
  log := []

theorem oneThread_started : Started oneThread := by
  refine ⟨rfl, fun i t ht => ?_, ⟨some 0, false, false, 0, 0, none, 0⟩, rfl, rfl⟩
  unfold oneThread at ht
  simp only at ht
  split_ifs at ht with hi
  obtain rfl := Option.some.inj ht
  exact ⟨by rw [hi]; decide, rfl, rfl⟩

/-- A second thread wakes the first, which finds 0 and waits, and comes back. -/
theorem run_fair_woken : ∃ s', oneThread.run [.create 0 true, .futex (2 ^ 40) 0 0 0 0 0 false 1,
    .futex (2 ^ 40) 1 5 0 0 0 false 1, .pause 0] = some s' ∧
      s'.log = [.wakes (some 0) (2 ^ 40) 5 0 0 1, .finds 0 (some 0) (2 ^ 40) false] ∧ Fair true s'.log ∧
        (ledger true s'.log s'.cur = .counted → ∀ signal next, ∃ s'' t,
          s'.step (.resume signal next) = some s'' ∧ s''.log = .back s'.cur .woken :: s'.log ∧
            s''.threads s'.cur = some t ∧ t.wait = none ∧ t.rax = 0) := by
  have hrun : (oneThread.run [.create 0 true, .futex (2 ^ 40) 0 0 0 0 0 false 1,
      .futex (2 ^ 40) 1 5 0 0 0 false 1, .pause 0]).map Machine.log =
        some [.wakes (some 0) (2 ^ 40) 5 0 0 1, .finds 0 (some 0) (2 ^ 40) false] := by
    decide +kernel
  obtain ⟨s', hs, hlog⟩ := Option.map_eq_some_iff.1 hrun
  exact ⟨s', hs, hlog, run_fair oneThread_started hs⟩

/-- A thread that is alone finds what it expected, and the first wake at its address does not count it. -/
theorem exists_not_fair : ∃ as s', oneThread.run as = some s' ∧
    s'.log = [.wakes (some 0) (2 ^ 40) 1 0 0 0, .back 0 .again, .finds 0 (some 0) (2 ^ 40) true] ∧
      ¬Fair false s'.log := by
  have hrun : (oneThread.run [.futex (2 ^ 40) 0 0 0 0 0 false 0, .create 0 true, .pause 1,
      .futex (2 ^ 40) 1 1 0 0 0 false 0]).map Machine.log =
        some [.wakes (some 0) (2 ^ 40) 1 0 0 0, .back 0 .again, .finds 0 (some 0) (2 ^ 40) true] := by
    decide +kernel
  obtain ⟨s', hs, hlog⟩ := Option.map_eq_some_iff.1 hrun
  refine ⟨_, s', hs, hlog, fun hfair => ?_⟩
  rw [hlog] at hfair
  exact absurd hfair.1.2.1 Bool.noConfusion

end BaxOS.Futex
