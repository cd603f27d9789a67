import BaxOS.Ipc.Queue

/-!
# Runs of reads and writes

What every step keeps of the pipes, the descriptors and the calls, and what that says of a run.
-/

namespace BaxOS.Ipc
open Function

variable {D : Type} {s s' : Queues D} {c i : ℕ} {call : Call} {looks : Looks} {alloc : ℕ → Bool}
  {mode : Access}

/-- The slot a call found is one its descriptor is for. -/
def Call.Fits (call : Call) : Prop :=
  match call.job with
  | .write _ => call.fd.writes call.slot = 1
  | .read _ => call.fd.slot = call.slot

theorem Call.Fits.holds_pos (h : call.Fits) : 0 < call.fd.holds call.slot := by
  unfold Call.Fits at h
  split at h
  · exact (Nat.lt_of_lt_of_eq Nat.one_pos h.symm).trans_le (End.writes_le_holds _ _)
  · rw [← h]
    exact End.holds_slot_pos _

/-- **What holds of what went through the pipes.** -/
structure Ledger (s : Queues D) : Prop where
  waiting : ∀ {c call}, s.calls c = some call → call.result = none →
    call.fd ∈ s.ends ∧ call.Fits ∧ call.pipe = s.number call.slot
  begun : ∀ {c}, s.begun ≤ c → s.calls c = none
  numbered : ∀ {i}, 0 < (s.pipes i).refs → s.number i < s.made
  apart : ∀ {i j}, 0 < (s.pipes i).refs → 0 < (s.pipes j).refs → s.number i = s.number j → i = j
  fresh : ∀ {k}, s.made ≤ k → s.put k = [] ∧ s.got k = []
  rest : ∀ {i}, 0 < (s.pipes i).refs →
    s.got (s.number i) ++ (s.pipes i).bytes = (s.put (s.number i)).map Prod.snd
  order : ∀ k, s.got k <+: (s.put k).map Prod.snd
  reports : ∀ {c call buf}, s.calls c = some call → call.job = .write buf →
    s.sent c call = buf.take call.done ∧ (∀ n, call.result = some (.ok n) → n = call.done) ∧
      ∀ e, call.result = some (.error e) → call.done = 0
  only : ∀ {k x}, x ∈ s.put k → ∃ call buf, s.calls x.1 = some call ∧ call.pipe = k ∧
    call.job = .write buf

/-- **What holds of every state.** -/
structure Inv (s : Queues D) : Prop where
  counted : Counted s.pipes s.ends
  ledger : Ledger s

/-! ### The table -/

/-- Pipes made and given up, and descriptors, but no call's. -/
theorem Inv.table (h : Inv s) (hc : Counted s'.pipes s'.ends) (hcalls : s'.calls = s.calls)
    (hbegun : s'.begun = s.begun) (hput : s'.put = s.put) (hgot : s'.got = s.got)
    (hmade : s.made ≤ s'.made)
    (hpipes : ∀ {i}, 0 < (s'.pipes i).refs →
      0 < (s.pipes i).refs ∧ (s'.pipes i).bytes = (s.pipes i).bytes ∧ s'.number i = s.number i ∨
        (s.pipes i).refs = 0 ∧ (s'.pipes i).bytes = [] ∧ s.made ≤ s'.number i ∧
          s'.number i < s'.made)
    (hnew : ∀ {i j}, s.made ≤ s'.number i → 0 < (s'.pipes i).refs → 0 < (s'.pipes j).refs →
      s'.number i = s'.number j → i = j)
    (hends : ∀ {c call}, s.calls c = some call → call.result = none → call.fd ∈ s'.ends) : Inv s' := by
  have hsent : ∀ c call, s'.sent c call = s.sent c call := fun c call => by
    unfold Queues.sent
    rw [hput]
  have hnum : ∀ {i}, 0 < (s'.pipes i).refs → s'.number i < s.made → 0 < (s.pipes i).refs ∧
      (s'.pipes i).bytes = (s.pipes i).bytes ∧ s'.number i = s.number i := fun {i} hr hlt => by
    rcases hpipes hr with hold | ⟨-, -, hge, -⟩
    · exact hold
    · exact absurd hlt (Nat.not_lt.2 hge)
  refine ⟨hc, ⟨fun {c call} hcall hr => ?_, fun {c} hb => ?_, fun {i} hr => ?_, fun {i j} hri hrj heq => ?_,
    fun {k} hk => ?_, fun {i} hr => ?_, fun k => ?_, fun {c call buf} hcall hjob => ?_, fun {k x} hx => ?_⟩⟩
  · rw [hcalls] at hcall
    obtain ⟨hfd, hfits, hpipe⟩ := h.ledger.waiting hcall hr
    have hfd' := hends hcall hr
    refine ⟨hfd', hfits, ?_⟩
    have hlive := h.counted.alive hfd _ hfits.holds_pos
    rcases hpipes (hc.alive hfd' _ hfits.holds_pos) with ⟨-, -, heq⟩ | ⟨hzero, -⟩
    · rw [heq, hpipe]
    · exact absurd hzero (Nat.pos_iff_ne_zero.1 hlive)
  · rw [hcalls]
    exact h.ledger.begun (hbegun ▸ hb)
  · rcases hpipes hr with ⟨hr, -, heq⟩ | ⟨-, -, -, hlt⟩
    · rw [heq]
      exact (h.ledger.numbered hr).trans_le hmade
    · exact hlt
  · rcases Nat.lt_or_ge (s'.number i) s.made with hlt | hge
    · obtain ⟨hri', -, hi⟩ := hnum hri hlt
      obtain ⟨hrj', -, hj⟩ := hnum hrj (heq ▸ hlt)
      exact h.ledger.apart hri' hrj' (by rw [← hi, ← hj, heq])
    · exact hnew hge hri hrj heq
  · rw [hput, hgot]
    exact h.ledger.fresh (hmade.trans hk)
  · rw [hput, hgot]
    rcases hpipes hr with ⟨hr, hbytes, heq⟩ | ⟨-, hbytes, hge, -⟩
    · rw [hbytes, heq]
      exact h.ledger.rest hr
    · obtain ⟨hp, hg⟩ := h.ledger.fresh hge
      rw [hbytes, hp, hg]
      rfl
  · rw [hput, hgot]
    exact h.ledger.order k
  · rw [hcalls] at hcall
    rw [hsent]
    exact h.ledger.reports hcall hjob
  · rw [hput] at hx
    rw [hcalls]
    exact h.ledger.only hx

/-- Descriptors changed on pipes there are. -/
theorem Inv.ends (h : Inv s) {pipes : ℕ → Pipe D} {ends : List End} (hc : Counted pipes ends)
    (hpipes : ∀ {i}, 0 < (pipes i).refs → 0 < (s.pipes i).refs ∧ (pipes i).bytes = (s.pipes i).bytes)
    (hends : ∀ {c call}, s.calls c = some call → call.result = none → call.fd ∈ ends) :
    Inv { s with pipes, ends } :=
  h.table hc rfl rfl rfl rfl (le_refl _)
    (fun hr => Or.inl ⟨(hpipes hr).1, (hpipes hr).2, rfl⟩)
    (fun hge hri _ _ => absurd (h.ledger.numbered (hpipes hri).1) (Nat.not_lt.2 hge)) hends

theorem Inv.dup (h : Inv s) {fd : End} (hfd : fd ∈ s.ends) :
    Inv { s with pipes := pipeHold s.pipes fd, ends := fd :: s.ends } := by
  have hp := pipeHold_spec (h.counted.inTable hfd) (h.counted.alive hfd)
  refine h.ends (h.counted.cons (h.counted.inTable hfd) (h.counted.kinds fd hfd)
    (fun i hi => hi.trans_le (holds_le_held hfd i)) fun i => ⟨_, le_refl _, hp i⟩) (fun {i} hr => ?_)
    fun hcall hres => List.mem_cons_of_mem _ (h.ledger.waiting hcall hres).1
  rw [hp] at hr ⊢
  refine ⟨?_, rfl⟩
  rcases Nat.eq_zero_or_pos (fd.holds i) with hz | hz
  · change 0 < (s.pipes i).refs + fd.holds i at hr
    omega
  · exact h.counted.alive hfd i hz

theorem Inv.close (h : Inv s) (fd : End) (hfd : fd ∈ s.ends)
    (hends : ∀ {c call}, s.calls c = some call → call.result = none → call.fd ∈ s.ends.erase fd) :
    Inv { s with pipes := (pipeRelease s.pipes fd).1, ends := s.ends.erase fd } := by
  refine h.ends (h.counted.erase hfd) (fun {i} hr => ?_) hends
  have hle : ∀ i, fd.holds i ≤ (s.pipes i).refs := fun i => by
    rcases Nat.eq_zero_or_pos (fd.holds i) with hz | hz
    · omega
    · rw [h.counted.refs (hz.trans_le (holds_le_held hfd i))]
      exact holds_le_held hfd i
  rw [pipeRelease_spec (h.counted.inTable hfd) hle] at hr ⊢
  split_ifs at hr ⊢ with hlast
  · exact absurd hr (Nat.lt_irrefl 0)
  · exact ⟨hr.trans_le (Nat.sub_le _ _), rfl⟩

/-! ### Pipes made -/

/-- An empty buffer. -/
theorem fresh_sound {p : Pipe D} (hs : p.size = pipeFirst) (hl : p.len = 0) (hr : p.readAt = 0) :
    p.Sound ∧ p.bytes = [] := by
  refine ⟨⟨by rw [hr]; exact Nat.zero_le _, by rw [hl]; exact Nat.zero_le _, by rw [hs]; decide,
    by rw [hl]; exact Nat.zero_le _⟩, ?_⟩
  unfold Pipe.bytes Pipe.left
  rw [hl, Nat.zero_sub]
  rfl

theorem Inv.make (h : Inv s) (hi : (s.pipes i).refs = 0) (p : Pipe D) (es : List End)
    (hc : Counted (update s.pipes i p) (es ++ s.ends)) (hb : p.bytes = []) :
    Inv { s.make i p with ends := es ++ s.ends } := by
  have hat : ∀ {j}, j ≠ i → (s.make i p).pipes j = s.pipes j ∧ (s.make i p).number j = s.number j :=
    fun hne => ⟨update_of_ne hne _ _, update_of_ne hne _ _⟩
  have hself : (s.make i p).pipes i = p ∧ (s.make i p).number i = s.made :=
    ⟨update_self _ _ _, update_self _ _ _⟩
  have hold : ∀ {j}, j ≠ i → 0 < ((s.make i p).pipes j).refs → (s.make i p).number j < s.made :=
    fun hne hr => by
      rw [(hat hne).2]
      exact h.ledger.numbered ((hat hne).1 ▸ hr)
  refine h.table hc rfl rfl rfl rfl (Nat.le_succ _) (fun {j} hr => ?_) (fun {j k} hge hrj hrk heq => ?_)
    fun hcall hres => List.mem_append_right _ (h.ledger.waiting hcall hres).1
  · rcases eq_or_ne j i with rfl | hne
    · exact Or.inr ⟨hi, (congrArg Pipe.bytes hself.1).trans hb, hself.2.ge, hself.2 ▸ Nat.lt_succ_self _⟩
    · exact Or.inl ⟨(hat hne).1 ▸ hr, congrArg Pipe.bytes (hat hne).1, (hat hne).2⟩
  · have hnew : ∀ {l}, 0 < ((s.make i p).pipes l).refs → s.made ≤ (s.make i p).number l → l = i :=
      fun {l} hr hge => by
        by_contra hne
        exact Nat.not_lt.2 hge (hold hne hr)
    rw [hnew hrj hge, hnew hrk (heq ▸ hge)]

/-- A slot that is free made a pipe that some descriptors are open on, and no others. -/
theorem Counted.makes {pipes : ℕ → Pipe D} {ends : List End} (h : Counted pipes ends)
    (hi : (pipes i).refs = 0) {p : Pipe D} {es : List End}
    (hes : ∀ e ∈ es, e.InTable ∧ (e.kind = .read ∨ e.kind = .write ∨ ∃ o, e.kind = .pair o) ∧
      ∀ j, 0 < e.holds j → j = i)
    (hr : held es i = p.refs) (hw : writers es i ≤ p.count)
    (hp : p.Sound ∧ p.packets = false ∧ p.msgs = []) : Counted (update pipes i p) (es ++ ends) := by
  refine h.made es [i] (fun j hj => ?_) (fun j hj => ?_) (fun e he => ?_) fun j hj => ?_
  · rw [List.mem_singleton.1 hj]
    exact h.held_eq_zero hi
  · exact update_of_ne (fun heq => hj (List.mem_singleton.2 heq)) _ _
  · exact ⟨(hes e he).1, (hes e he).2.1, fun j hj => List.mem_singleton.2 ((hes e he).2.2 j hj)⟩
  · rw [List.mem_singleton.1 hj, update_self, hr]
    exact ⟨fun _ => ⟨rfl, hw⟩, fun hz hpos => absurd hz (Nat.pos_iff_ne_zero.1 hpos), fun _ => hp⟩

/-- A slot that nothing holds made what no descriptor is open on. -/
theorem Counted.unheld {pipes : ℕ → Pipe D} {ends : List End} (h : Counted pipes ends)
    (hi : held ends i = 0) {p : Pipe D}
    (hp : 0 < p.refs → p.fifo = 0 ∧ p.Sound ∧ p.packets = false ∧ p.msgs = []) :
    Counted (update pipes i p) ends := by
  refine h.made [] [i] (fun j hj => List.mem_singleton.1 hj ▸ hi)
    (fun j hj => update_of_ne (fun heq => hj (List.mem_singleton.2 heq)) _ _)
    (fun e he => absurd he List.not_mem_nil) fun j hj => ?_
  rw [List.mem_singleton.1 hj, update_self]
  exact ⟨fun hpos => absurd hpos (Nat.lt_irrefl 0), fun _ hpos => (hp hpos).1, fun hpos => (hp hpos).2⟩

theorem Inv.pipe2 (h : Inv s) {alloc reads writes : Bool} (hs : writes = true → reads = true) :
    Inv (s.pipe2 alloc reads writes) := by
  unfold Queues.pipe2
  cases hslot : pipeSlot s.pipes with
  | none => exact h
  | some i =>
    cases alloc with
    | false => exact h
    | true =>
      obtain ⟨hlt, hi⟩ := pipeSlot_spec hslot
      simp only
      split_ifs with hboth hw
      · obtain ⟨hsound, hb⟩ := fresh_sound (p := ({ Pipe.free with size := pipeFirst, refs := 2, count := 1 }
          : Pipe D)) rfl rfl rfl
        refine h.make hi _ [⟨i, .read⟩, ⟨i, .write⟩] (h.counted.makes hi (fun e he => ?_) ?_ ?_
          ⟨hsound, rfl, rfl⟩) hb
        · have hone : ∀ {k : Kind}, (∀ o, k ≠ .pair o) → (⟨i, k⟩ : End).InTable ∧
              ∀ j, 0 < (⟨i, k⟩ : End).holds j → j = i := fun {k} hk =>
            ⟨⟨hlt, fun hko => absurd hko (hk _)⟩, fun j hj =>
              ((End.holds_pos_iff.1 hj).resolve_right fun hko => absurd hko (hk _)).symm⟩
          rcases List.mem_cons.1 he with rfl | he
          · obtain ⟨hin, hj⟩ := hone (k := .read) fun o ho => nomatch ho
            exact ⟨hin, Or.inl rfl, hj⟩
          · rw [List.mem_singleton.1 he]
            obtain ⟨hin, hj⟩ := hone (k := .write) fun o ho => nomatch ho
            exact ⟨hin, Or.inr (Or.inl rfl), hj⟩
        · simp [held, End.holds]
        · simp [writers, End.writes]
      · exact absurd (Bool.and_eq_true_iff.2 ⟨hs hw, hw⟩) hboth
      · have hidem : update (s.make i { Pipe.free with size := pipeFirst, refs := 2, count := 1 }).pipes i
            Pipe.free = update s.pipes i Pipe.free := update_idem _ _ _
        rw [hidem]
        exact h.make hi Pipe.free [] (h.counted.unheld (h.counted.held_eq_zero hi)
          fun hpos => absurd hpos (Nat.lt_irrefl 0)) rfl

theorem Inv.socketpair (h : Inv s) (first second given : Bool) :
    Inv (s.socketpair first second given) := by
  obtain ⟨hsound, hb⟩ := fresh_sound (p := (Queues.pairHalf : Pipe D)) rfl rfl rfl
  unfold Queues.socketpair
  cases hslot : pipeSlot s.pipes with
  | none => exact h
  | some i =>
    cases first with
    | false => exact h
    | true =>
      obtain ⟨hilt, hi⟩ := pipeSlot_spec hslot
      have hheld := h.counted.held_eq_zero hi
      have h1 : Inv (s.make i Queues.pairHalf) := h.make hi Queues.pairHalf []
        (h.counted.unheld hheld fun _ => ⟨rfl, hsound, rfl, rfl⟩) hb
      have h1i : (s.make i Queues.pairHalf).pipes i = Queues.pairHalf := update_self _ _ _
      have hdrop : Inv { s.make i Queues.pairHalf with
          pipes := (pipeDrop (s.make i Queues.pairHalf).pipes (some i)).1 } := by
        have heq : (pipeDrop (s.make i Queues.pairHalf).pipes (some i)).1 =
            update s.pipes i { (Queues.pairHalf : Pipe D) with refs := 1 } := by
          unfold pipeDrop
          simp only [h1i]
          exact update_idem _ _ _
        rw [heq]
        refine h1.ends (h.counted.unheld hheld fun _ =>
          ⟨rfl, ⟨hsound.read, hsound.len, hsound.size, hsound.cap⟩, rfl, rfl⟩) (fun {k} hr => ?_)
          fun hcall hres => (h1.ledger.waiting hcall hres).1
        rcases eq_or_ne k i with rfl | hne
        · rw [h1i, update_self]
          exact ⟨Nat.two_pos, rfl⟩
        · rw [update_of_ne hne] at hr ⊢
          rw [show (s.make i Queues.pairHalf).pipes k = s.pipes k from update_of_ne hne _ _]
          exact ⟨hr, rfl⟩
      simp only
      cases hslot' : pipeSlot (s.make i Queues.pairHalf).pipes with
      | none => exact hdrop
      | some j =>
        cases second with
        | false => exact hdrop
        | true =>
          obtain ⟨hjlt, hj⟩ := pipeSlot_spec hslot'
          have hij : i ≠ j := fun heq => by
            rw [← heq, h1i] at hj
            exact nomatch hj
          have hmade : Inv { (s.make i Queues.pairHalf).make j Queues.pairHalf with
              ends := ⟨i, .pair (some j)⟩ :: ⟨j, .pair (some i)⟩ :: s.ends } := by
            refine h1.make hj Queues.pairHalf [⟨i, .pair (some j)⟩, ⟨j, .pair (some i)⟩]
              (h.counted.made _ [i, j] (fun k hk => ?_) (fun k hk => ?_) (fun e he => ?_)
                fun k hk => ?_) hb
            · rcases List.mem_pair.1 hk with rfl | rfl
              · exact hheld
              · exact h1.counted.held_eq_zero hj
            · rw [update_of_ne fun heq => hk (List.mem_pair.2 (Or.inr heq))]
              exact update_of_ne (fun heq => hk (List.mem_pair.2 (Or.inl heq))) _ _
            · have hone : ∀ {a b}, a < pipeSlots → b < pipeSlots → (⟨a, .pair (some b)⟩ : End).InTable ∧
                  ∀ k, 0 < (⟨a, .pair (some b)⟩ : End).holds k → k = a ∨ k = b := fun {a b} ha hb =>
                ⟨⟨ha, fun ho => Option.some.inj (Kind.pair.inj ho) ▸ hb⟩, fun k hk =>
                  (End.holds_pos_iff.1 hk).imp Eq.symm fun ho => (Option.some.inj (Kind.pair.inj ho)).symm⟩
              rcases List.mem_pair.1 he with rfl | rfl
              · obtain ⟨hin, hk⟩ := hone hilt hjlt
                exact ⟨hin, Or.inr (Or.inr ⟨_, rfl⟩), fun k hk' => List.mem_pair.2 (hk k hk')⟩
              · obtain ⟨hin, hk⟩ := hone hjlt hilt
                exact ⟨hin, Or.inr (Or.inr ⟨_, rfl⟩), fun k hk' => List.mem_pair.2 (hk k hk').symm⟩
            · have hp : update (s.make i Queues.pairHalf).pipes j Queues.pairHalf k =
                  (Queues.pairHalf : Pipe D) := by
                rcases List.mem_pair.1 hk with rfl | rfl
                · rw [update_of_ne hij, h1i]
                · exact update_self _ _ _
              have hcount : held [⟨i, .pair (some j)⟩, ⟨j, .pair (some i)⟩] k = 2 ∧
                  writers [⟨i, .pair (some j)⟩, ⟨j, .pair (some i)⟩] k = 1 := by
                rcases List.mem_pair.1 hk with rfl | rfl
                · simp [held, writers, End.holds, End.writes, hij.symm]
                · simp [held, writers, End.holds, End.writes, hij]
              rw [hp, hcount.1, hcount.2]
              exact ⟨fun _ => ⟨rfl, le_refl _⟩, (fun hno => nomatch hno), fun _ => ⟨hsound, rfl, rfl⟩⟩
          cases given with
          | true => exact hmade
          | false =>
            -- what was given is closed again
            have hclose := hmade.close _ List.mem_cons_self fun hcall hres => by
              rw [List.erase_cons_head]
              exact List.mem_cons_of_mem _ (h.ledger.waiting hcall hres).1
            simp only [List.erase_cons_head] at hclose
            have hclose' := hclose.close _ List.mem_cons_self fun hcall hres => by
              rw [List.erase_cons_head]
              exact (h.ledger.waiting hcall hres).1
            simp only [List.erase_cons_head] at hclose'
            exact hclose'

/-! ### FIFOs -/

/-- A FIFO's descriptor, and what it adds to the counts of its pipe. -/
theorem fifoEnd_spec (hi : i < pipeSlots) (mode : Access) : (Queues.fifoEnd i mode).InTable ∧
    (let k := (Queues.fifoEnd i mode).kind; k = .read ∨ k = .write ∨ ∃ o, k = .pair o) ∧
    (∀ j, (Queues.fifoEnd i mode).holds j = if i = j then mode.holds else 0) ∧
    ∀ j, (Queues.fifoEnd i mode).writes j ≤ if i = j then mode.counts else 0 := by
  cases mode with
  | rdonly =>
    refine ⟨⟨hi, fun ho => nomatch ho⟩, Or.inl rfl, fun j => ?_, fun j => Nat.zero_le _⟩
    exact Nat.add_zero _
  | wronly =>
    refine ⟨⟨hi, fun ho => nomatch ho⟩, Or.inr (Or.inl rfl), fun j => Nat.add_zero _, fun j => ?_⟩
    simp [Queues.fifoEnd, End.writes, Access.counts]
  | rdwr =>
    refine ⟨⟨hi, fun ho => Option.some.inj (Kind.pair.inj ho) ▸ hi⟩, Or.inr (Or.inr ⟨_, rfl⟩), fun j => ?_,
      fun j => ?_⟩
    · by_cases h : i = j <;> simp [Queues.fifoEnd, End.holds, Access.holds, h]
    · simp [Queues.fifoEnd, End.writes, Access.counts]
  | both =>
    refine ⟨⟨hi, fun ho => nomatch ho⟩, Or.inr (Or.inr ⟨_, rfl⟩), fun j => Nat.add_zero _, fun j => ?_⟩
    exact (if_neg (fun ho => ho.elim (fun ho => nomatch ho.1) fun ho => nomatch ho)).trans_le (Nat.zero_le _)

/-- No room for the descriptor is as if it had been given and closed. -/
theorem Inv.fifoOn_given (h : Inv (s.fifoOn i mode true))
    (hw : ∀ {c call}, s.calls c = some call → call.result = none → call.fd ∈ s.ends) (given : Bool) :
    Inv (s.fifoOn i mode given) := by
  cases given with
  | true => exact h
  | false =>
    have hclose := h.close (Queues.fifoEnd i mode) List.mem_cons_self fun hcall hres => by
      rw [show (s.fifoOn i mode true).ends = Queues.fifoEnd i mode :: s.ends from rfl,
        List.erase_cons_head]
      exact hw hcall hres
    rw [show (s.fifoOn i mode true).ends = Queues.fifoEnd i mode :: s.ends from rfl,
      List.erase_cons_head] at hclose
    exact hclose

/-- A descriptor more on a FIFO some descriptor is open on. -/
theorem Inv.fifoOn (h : Inv s) (hheld : 0 < held s.ends i) (hi : i < pipeSlots) (mode : Access)
    (given : Bool) : Inv (s.fifoOn i mode given) := by
  refine Inv.fifoOn_given ?_ (fun hcall hres => (h.ledger.waiting hcall hres).1) given
  obtain ⟨hin, hk, hholds, hwrites⟩ := fifoEnd_spec hi mode
  have hself : update s.pipes i (Queues.opened (s.pipes i) mode) i = Queues.opened (s.pipes i) mode :=
    update_self _ _ _
  have hother : ∀ {j}, i ≠ j → update s.pipes i (Queues.opened (s.pipes i) mode) j = s.pipes j :=
    fun hne => update_of_ne hne.symm _ _
  refine h.ends (h.counted.cons hin hk (fun j hj => ?_) fun j => ⟨_, hwrites j, ?_⟩) (fun {j} hr => ?_)
    fun hcall hres => List.mem_cons_of_mem _ (h.ledger.waiting hcall hres).1
  · rw [hholds] at hj
    split_ifs at hj with hij
    · exact hij ▸ hheld
    · exact absurd hj (Nat.lt_irrefl 0)
  · rw [hholds]
    rcases eq_or_ne i j with rfl | hne
    · rw [if_pos rfl, if_pos rfl]
      exact hself
    · rw [if_neg hne, if_neg hne]
      exact hother hne
  · rcases eq_or_ne i j with rfl | hne
    · rw [h.counted.refs hheld]
      exact ⟨hheld, (congrArg Pipe.bytes hself).trans rfl⟩
    · exact ⟨(congrArg Pipe.refs (hother hne)) ▸ hr, congrArg Pipe.bytes (hother hne)⟩

theorem Inv.fifoOpen (h : Inv s) (entry : ℕ) (mode : Access) (alloc given : Bool) :
    Inv (s.fifoOpen entry mode alloc given) := by
  unfold Queues.fifoOpen
  simp only
  cases hfind : (List.range pipeSlots).find? fun i =>
      0 < (s.pipes i).refs ∧ (s.pipes i).fifo = entry + 1 with
  | some i =>
    have hlt := List.mem_range.1 (List.mem_of_find?_eq_some hfind)
    have hfound := List.find?_some hfind
    obtain ⟨hr, hf⟩ := of_decide_eq_true hfound
    refine h.fifoOn (Nat.pos_of_ne_zero fun hz => ?_) hlt mode given
    rw [h.counted.unnamed hz hr] at hf
    exact nomatch hf
  | none =>
    cases hslot : pipeSlot s.pipes with
    | none => exact h
    | some i =>
      cases alloc with
      | false => exact h
      | true =>
        obtain ⟨hlt, hi⟩ := pipeSlot_spec hslot
        obtain ⟨hin, hk, hholds, hwrites⟩ := fifoEnd_spec hlt mode
        obtain ⟨hsound, hb⟩ :=
          fresh_sound (p := Queues.opened (Queues.fifoHalf (entry + 1) : Pipe D) mode) rfl rfl rfl
        have hmade := h.make hi _ [Queues.fifoEnd i mode] (h.counted.makes hi (fun e he => ?_) ?_ ?_
          ⟨hsound, rfl, rfl⟩) hb
        · show Inv ((s.make i (Queues.fifoHalf (entry + 1))).fifoOn i mode given)
          refine Inv.fifoOn_given (s := s.make i _) ?_
            (fun hcall hres => (h.ledger.waiting hcall hres).1) given
          have hidem : update (s.make i (Queues.fifoHalf (entry + 1))).pipes i
              (Queues.opened ((s.make i (Queues.fifoHalf (entry + 1))).pipes i) mode) =
                update s.pipes i (Queues.opened (Queues.fifoHalf (entry + 1)) mode) := by
            rw [show (s.make i (Queues.fifoHalf (entry + 1))).pipes i = Queues.fifoHalf (entry + 1) from
              update_self _ _ _]
            exact update_idem _ _ _
          unfold Queues.fifoOn
          rw [hidem]
          exact hmade
        · rw [List.mem_singleton.1 he]
          refine ⟨hin, hk, fun j hj => ?_⟩
          rw [hholds] at hj
          split_ifs at hj with hij
          · exact hij.symm
          · exact absurd hj (Nat.lt_irrefl 0)
        · show (Queues.fifoEnd i mode).holds i + 0 = 0 + mode.holds
          rw [hholds, if_pos rfl, Nat.add_comm]
        · have hle := hwrites i
          rw [if_pos rfl] at hle
          exact hle.trans (Nat.zero_add _).ge

/-! ### Turns -/

/-- What a turn of a write counts as in is what it put. -/
theorem Pipe.Wrote.moved {ends : Bool} {p p' : Pipe D} {rest : List UInt8} {done n : ℕ}
    {t : Turn (List UInt8 × ℕ) ℕ} (h : Pipe.Wrote ends looks alloc p p' rest done n t) :
    t.moved done = done + n ∧ (∀ m, t.result = some (.ok m) → m = done + n) ∧
      ∀ e, t.result = some (.error e) → done + n = 0 := by
  have hstop : ∀ e, Turn.moved done (.returns (Pipe.stopped (done + n) e)) = done + n ∧
      (∀ m, some (Pipe.stopped (done + n) e) = some (.ok m) → m = done + n) ∧
        ∀ e', some (Pipe.stopped (done + n) e) = some (.error e') → done + n = 0 := fun e => by
    unfold Pipe.stopped
    split_ifs with hpos
    · exact ⟨rfl, fun m hm => (Except.ok.inj (Option.some.inj hm)).symm, fun e' he => nomatch he⟩
    · refine ⟨?_, (fun m hm => nomatch hm), fun _ _ => by omega⟩
      show done = done + n
      omega
  cases h with
  | all => exact ⟨rfl, fun m hm => (Except.ok.inj (Option.some.inj hm)).symm, fun e he => nomatch he⟩
  | broken | full | interrupted => exact hstop _
  | waits => exact ⟨rfl, (fun m hm => nomatch hm), fun e he => nomatch he⟩

/-- A pipe's buffer changed, a call with it, and what the call reports. -/
theorem Inv.turned (h : Inv s) (hcall : s.calls c = some call) (hres : call.result = none)
    {p : Pipe D} (call' : Call) (put : List (ℕ × UInt8)) (got : List UInt8)
    (hsame : call'.fd = call.fd ∧ call'.slot = call.slot ∧ call'.pipe = call.pipe ∧ call'.job = call.job)
    (hp : Pipe.Alike (s.pipes call.slot) p) (hsound : p.Sound)
    (hput : ∀ x ∈ put, x.1 = c ∧ ∃ buf, call.job = .write buf)
    (hrest : got ++ p.bytes = (s.pipes call.slot).bytes ++ put.map Prod.snd)
    (hrep : ∀ buf, call.job = .write buf →
      s.sent c call ++ put.map Prod.snd = buf.take call'.done ∧
        (∀ n, call'.result = some (.ok n) → n = call'.done) ∧
          ∀ e, call'.result = some (.error e) → call'.done = 0) :
    Inv { s with
      pipes := update s.pipes call.slot p
      calls := update s.calls c (some call')
      put := update s.put call.pipe (s.put call.pipe ++ put)
      got := update s.got call.pipe (s.got call.pipe ++ got) } := by
  obtain ⟨hfd, hfits, hpipe⟩ := h.ledger.waiting hcall hres
  have hlive := h.counted.alive hfd _ hfits.holds_pos
  have halike : ∀ j, Pipe.Alike (s.pipes j) (update s.pipes call.slot p j) := fun j => by
    rcases eq_or_ne j call.slot with rfl | hne
    · rw [update_self]
      exact hp
    · rw [update_of_ne hne]
      exact Pipe.Alike.refl _
  have hrefs : ∀ {j}, 0 < (update s.pipes call.slot p j).refs → 0 < (s.pipes j).refs := fun {j} hr =>
    (halike j).refs ▸ hr
  have hother : ∀ {j}, 0 < (s.pipes j).refs → j ≠ call.slot → s.number j ≠ call.pipe := fun hr hne heq =>
    hne (h.ledger.apart hr hlive (heq.trans hpipe))
  have hmade : call.pipe < s.made := hpipe ▸ h.ledger.numbered hlive
  refine ⟨h.counted.alike halike fun j hr => ?_, ⟨fun {d k} hk hkr => ?_, fun {d} hd => ?_,
    fun {j} hr => h.ledger.numbered (hrefs hr), fun {j k} hj hk heq =>
      h.ledger.apart (hrefs hj) (hrefs hk) heq, fun {k} hk => ?_, fun {j} hr => ?_, fun k => ?_,
    fun {d k buf} hk hjob => ?_, fun {k x} hx => ?_⟩⟩
  · dsimp only
    rcases eq_or_ne j call.slot with rfl | hne
    · rw [update_self]
      exact hsound
    · rw [update_of_ne hne]
      exact (h.counted.sound hr).1
  · dsimp only at hk
    rcases eq_or_ne d c with rfl | hne
    · rw [update_self] at hk
      obtain rfl := Option.some.inj hk
      unfold Call.Fits at hfits ⊢
      rw [hsame.1, hsame.2.1, hsame.2.2.1, hsame.2.2.2]
      exact ⟨hfd, hfits, hpipe⟩
    · rw [update_of_ne hne] at hk
      exact h.ledger.waiting hk hkr
  · have hne : d ≠ c := fun heq => by
      rw [h.ledger.begun (heq ▸ hd)] at hcall
      exact nomatch hcall
    exact (update_of_ne hne _ _).trans (h.ledger.begun hd)
  · have hne : k ≠ call.pipe := fun heq => Nat.lt_irrefl _ (hmade.trans_le (heq ▸ hk))
    dsimp only
    rw [update_of_ne hne, update_of_ne hne]
    exact h.ledger.fresh hk
  · dsimp only at hr ⊢
    rcases eq_or_ne j call.slot with rfl | hne
    · rw [← hpipe, update_self, update_self, update_self, List.map_append, List.append_assoc, hrest,
        ← List.append_assoc, hpipe, h.ledger.rest hlive]
    · have hn := hother (hrefs hr) hne
      rw [update_of_ne hne, update_of_ne hn, update_of_ne hn]
      exact h.ledger.rest ((update_of_ne hne p s.pipes) ▸ hr)
  · dsimp only
    rcases eq_or_ne k call.pipe with rfl | hne
    · rw [update_self, update_self, List.map_append]
      refine ⟨p.bytes, ?_⟩
      rw [List.append_assoc, hrest, ← List.append_assoc, hpipe, h.ledger.rest hlive]
    · rw [update_of_ne hne, update_of_ne hne]
      exact h.ledger.order k
  · -- what a call has put: its own bytes are all that is added
    have hsent : ∀ d k, Queues.sent { s with put := update s.put call.pipe (s.put call.pipe ++ put) } d k =
        s.sent d k ++ if k.pipe = call.pipe ∧ d = c then put.map Prod.snd else [] := fun d k => by
      unfold Queues.sent
      dsimp only
      rcases eq_or_ne k.pipe call.pipe with heq | hne
      · simp only [heq, update_self, List.filter_append, List.map_append, true_and]
        congr 1
        split_ifs with hd
        · rw [hd, List.filter_eq_self.2 fun x hx => decide_eq_true (hput x hx).1]
        · rw [List.filter_eq_nil_iff.2 fun x hx => ?_]
          · rfl
          · rw [(hput x hx).1]
            simpa using Ne.symm hd
      · rw [update_of_ne hne, if_neg fun hno => hne hno.1, List.append_nil]
    change Queues.sent { s with put := update s.put call.pipe (s.put call.pipe ++ put) } d k = _ ∧ _
    rw [hsent]
    dsimp only at hk
    rcases eq_or_ne d c with rfl | hne
    · rw [update_self] at hk
      obtain rfl := Option.some.inj hk
      rw [if_pos ⟨hsame.2.2.1, rfl⟩]
      have hr := hrep buf (hsame.2.2.2.symm.trans hjob)
      unfold Queues.sent at hr ⊢
      rw [hsame.2.2.1]
      exact hr
    · rw [update_of_ne hne] at hk
      rw [if_neg fun hno => hne hno.2, List.append_nil]
      exact h.ledger.reports hk hjob
  · have hold : x ∈ s.put k → ∃ k' buf, update s.calls c (some call') x.1 = some k' ∧ k'.pipe = k ∧
        k'.job = .write buf := fun hx => by
      obtain ⟨k', buf, hk', hpk, hjob⟩ := h.ledger.only hx
      rcases eq_or_ne x.1 c with heq | hne
      · obtain rfl := Option.some.inj (hcall.symm.trans (heq ▸ hk'))
        rw [heq, update_self]
        exact ⟨call', buf, rfl, hsame.2.2.1.trans hpk, hsame.2.2.2.trans hjob⟩
      · exact ⟨k', buf, (update_of_ne hne _ _).trans hk', hpk, hjob⟩
    dsimp only at hx ⊢
    rcases eq_or_ne k call.pipe with rfl | hne
    · rw [update_self] at hx
      rcases List.mem_append.1 hx with hx | hx
      · exact hold hx
      · obtain ⟨hxc, buf, hjob⟩ := hput x hx
        rw [hxc, update_self]
        exact ⟨call', buf, rfl, hsame.2.2.1, hsame.2.2.2.trans hjob⟩
    · rw [update_of_ne hne] at hx
      exact hold hx

/-- A turn of a read of a pipe without messages: it returns an error, or waits, or takes what waits
there, or nothing where nobody writes, or nobody else runs. -/
theorem sysRead_cases (looks : Looks) {p : Pipe D} {k : Kind} (hk : k = .read ∨ k = .write ∨ ∃ o, k = .pair o)
    (hp : p.packets = false) (hm : p.msgs = []) (count : ℕ) :
    (∃ e, p.sysRead k false looks count = (p, .returns (.error e))) ∨
      p.sysRead k false looks count = (p, .waits ()) ∨
      (p.readable = true ∨ looks.alone = true) ∧ p.sysRead k false looks count =
        ((p.take count).1, .returns (.ok ⟨(p.take count).2, [], [], false⟩)) := by
  have hawait : (p.await looks false : Option (Turn Unit (Taken D))) = none ∧ (p.readable = true ∨ looks.alone = true) ∨
      ∃ t : Turn Unit (Taken D), p.await looks false = some t ∧
        ((∃ e, t = .returns (.error e)) ∨ t = .waits ()) := by
    unfold Pipe.await
    split_ifs with hr hn ha hi
    · exact Or.inl ⟨rfl, Or.inl hr⟩
    · exact Or.inr ⟨_, rfl, Or.inl ⟨_, rfl⟩⟩
    · exact Or.inl ⟨rfl, Or.inr ha⟩
    · exact Or.inr ⟨_, rfl, Or.inl ⟨_, rfl⟩⟩
    · exact Or.inr ⟨_, rfl, Or.inr rfl⟩
  have hplain : (p.await looks false : Option (Turn Unit (Taken D))) = none → ∀ {k : Kind},
      (k = .read ∨ ∃ o, k = .pair o) → p.sysRead k false looks count =
        ((p.take count).1, .returns (.ok ⟨(p.take count).2, [], [], false⟩)) := by
    rintro hno k (rfl | ⟨o, rfl⟩)
    · simp only [Pipe.sysRead, hno]
    · simp only [Pipe.sysRead, hno, hp, hm, List.isEmpty_nil, Bool.not_true, Bool.or_self,
        Bool.false_eq_true, if_false]
  have hstop : ∀ t : Turn Unit (Taken D), p.await looks false = some t → ∀ {k : Kind},
      (k = .read ∨ ∃ o, k = .pair o) → p.sysRead k false looks count = (p, t) := by
    rintro t ht k (rfl | ⟨o, rfl⟩) <;> simp only [Pipe.sysRead, ht]
  have hreads : k = .write ∨ k = .read ∨ ∃ o, k = .pair o := by tauto
  rcases hreads with rfl | hreads
  · exact Or.inl ⟨.ebadf, rfl⟩
  · rcases hawait with ⟨hno, hgo⟩ | ⟨t, ht, ⟨e, rfl⟩ | rfl⟩
    · exact Or.inr (Or.inr ⟨hgo, hplain hno hreads⟩)
    · exact Or.inl ⟨e, hstop _ ht hreads⟩
    · exact Or.inr (Or.inl (hstop _ ht hreads))

/-- **A turn of a call.** -/
theorem Inv.turn (h : Inv s) (looks : Looks) (alloc : ℕ → Bool) (hcall : s.calls c = some call) (hres : call.result = none) :
    Inv (s.turn c looks alloc) ∧ ∃ call', (s.turn c looks alloc).calls c = some call' ∧
      Turned (s.turn c looks alloc) call' looks := by
  obtain ⟨hfd, hfits, hpipe⟩ := h.ledger.waiting hcall hres
  have hheld := hfits.holds_pos.trans_le (holds_le_held hfd call.slot)
  obtain ⟨hsound, hpackets, hmsgs⟩ := h.counted.sound (h.counted.alive hfd _ hfits.holds_pos)
  have hrefs := h.counted.refs hheld
  have hcount := h.counted.count hheld
  have hkinds := h.counted.kinds _ hfd
  obtain ⟨fd, slot, pipe, job, done, result⟩ := call
  dsimp only at hfd hpipe hheld hsound hpackets hmsgs hrefs hcount hres hkinds
  subst hres
  unfold Queues.turn
  rw [hcall]
  simp only [Option.isSome_none, Bool.false_eq_true, if_false]
  cases job with
  | write buf =>
    simp only
    obtain ⟨n, hn, hg, hw⟩ := Pipe.write_spec hsound (fd.kind = .write) looks alloc (buf.drop done) done
    set t := ((s.pipes slot).write (fd.kind = .write) looks alloc (buf.drop done) done).2
    set p := ((s.pipes slot).write (fd.kind = .write) looks alloc (buf.drop done) done).1
    clear_value t p
    obtain ⟨hmoved, hok, herr⟩ := hw.moved
    obtain ⟨hsent, -, -⟩ := h.ledger.reports hcall rfl
    have hsnd : (((buf.drop done).take n).map (Prod.mk c)).map Prod.snd = (buf.drop done).take n := by
      rw [List.map_map]
      exact List.map_id _
    rw [hmoved, Nat.add_sub_cancel_left]
    refine ⟨?_, _, update_self _ _ _, ⟨(fun count hread => nomatch hread), fun buf' _ hend hnone => ?_,
      fun buf' hjob hend hno hlt => ?_⟩⟩
    · have hinv := h.turned hcall rfl ⟨fd, slot, pipe, .write buf, done + n, t.result⟩
        (((buf.drop done).take n).map (Prod.mk c)) []
        ⟨rfl, rfl, rfl, rfl⟩ hg.alike hg.sound (fun x hx => ?_) ?_ fun buf' hjob => ?_
      · rw [List.append_nil, update_eq_self] at hinv
        exact hinv
      · obtain ⟨b, -, rfl⟩ := List.mem_map.1 hx
        exact ⟨rfl, buf, rfl⟩
      · rw [hsnd, List.nil_append]
        exact hg.bytes
      · obtain rfl := Job.write.inj hjob
        rw [hsnd, hsent, List.take_add]
        exact ⟨rfl, hok, herr⟩
    · -- it waits: more hold the pipe than write to it
      dsimp only at hend hnone ⊢
      rcases hend with hk | hreads
      · refine exists_reads h.counted.kinds ?_
        rw [← hrefs]
        refine hcount.trans_lt ?_
        cases hw with
        | all | broken | full | interrupted => exact nomatch hnone
        | waits _ hr => exact hr (decide_eq_true hk)
      · exact ⟨fd, hfd, hreads⟩
    · obtain rfl := Job.write.inj hjob
      dsimp only at hend hno hlt ⊢
      have hbroken : (s.pipes slot).refs ≤ (s.pipes slot).count := by
        rw [hrefs]
        refine le_trans (Nat.not_lt.1 fun hlt => ?_) hcount
        obtain ⟨e, he, hreads⟩ := exists_reads h.counted.kinds hlt
        exact hno e he hreads
      have hnot : ¬(decide (fd.kind = .write) = true → (s.pipes slot).count < (s.pipes slot).refs) :=
        fun hr => Nat.not_lt.2 hbroken (hr (decide_eq_true hend))
      cases hw with
      | all hn =>
        rw [List.length_drop] at hn
        omega
      | broken => rfl
      | full _ hr => exact absurd hr hnot
      | interrupted _ hr => exact absurd hr hnot
      | waits _ hr => exact absurd hr hnot
  | read count =>
    simp only
    have hsame : ∀ result, Inv { s with
        pipes := update s.pipes slot (s.pipes slot)
        calls := update s.calls c (some ⟨fd, slot, pipe, .read count, done, result⟩)
        got := update s.got pipe (s.got pipe ++ []) } := fun result => by
      have hinv := h.turned hcall rfl ⟨fd, slot, pipe, .read count, done, result⟩ [] [] ⟨rfl, rfl, rfl, rfl⟩ (Pipe.Alike.refl _) hsound
        (fun x hx => absurd hx List.not_mem_nil) (List.append_nil _).symm fun buf hjob => nomatch hjob
      simp only [List.append_nil, update_eq_self] at hinv ⊢
      exact hinv
    rcases sysRead_cases looks hkinds hpackets hmsgs count with
      ⟨e, heq⟩ | heq | ⟨hgo, heq⟩
    · rw [heq]
      exact ⟨hsame _, _, update_self _ _ _, ⟨(fun n _ _ hno => nomatch hno),
        (fun buf hjob => nomatch hjob), fun buf hjob => nomatch hjob⟩⟩
    · rw [heq]
      exact ⟨hsame _, _, update_self _ _ _, ⟨(fun n _ _ hno => nomatch hno),
        (fun buf hjob => nomatch hjob), fun buf hjob => nomatch hjob⟩⟩
    · rw [heq]
      obtain ⟨hsound', hgot, hbytes, halike, -⟩ := Pipe.take_spec hsound count
      refine ⟨?_, _, update_self _ _ _, ⟨fun n hjob hn hend => ?_,
        (fun buf hjob => nomatch hjob), fun buf hjob => nomatch hjob⟩⟩
      · have hinv := h.turned hcall rfl ⟨fd, slot, pipe, .read count, done,
          some (.ok ((s.pipes slot).take count).2.length)⟩ [] ((s.pipes slot).take count).2 ⟨rfl, rfl, rfl, rfl⟩ halike hsound'
          (fun x hx => absurd hx List.not_mem_nil) ?_ fun buf hjob => nomatch hjob
        · rw [List.append_nil, update_eq_self] at hinv
          exact hinv
        · dsimp only
          rw [hgot, hbytes, List.take_append_drop]
          exact (List.append_nil _).symm
      · obtain rfl := Job.read.inj hjob
        have hnil : (s.pipes slot).bytes = [] := by
          have hlen : ((s.pipes slot).take count).2.length = 0 := Except.ok.inj (Option.some.inj hend)
          rw [hgot, List.length_take] at hlen
          exact List.length_eq_zero_iff.1 (by omega)
        dsimp only
        rw [update_self, hbytes, hnil, List.drop_nil]
        refine ⟨rfl, hgo.symm.imp id fun hread e he => ?_⟩
        have hzero : (s.pipes slot).left = 0 := by
          rw [← Pipe.length_bytes, hnil]
          rfl
        rcases Pipe.readable_eq.1 hread with hno | hno
        · omega
        · have hle : e.writes slot ≤ writers s.ends slot := List.le_sum_of_mem (List.mem_map_of_mem he)
          omega

/-- What a call finds: a pipe its descriptor is for, or, but for a write to a write end, none. -/
theorem target_spec (h : Inv s) {fd : End} (hfd : fd ∈ s.ends) (job : Job) :
    (∃ i, s.target fd job = .ok i ∧ ∀ pipe done result, (⟨fd, i, pipe, job, done, result⟩ : Call).Fits) ∨
      ∃ e, s.target fd job = .error e ∧ ∀ buf, job = .write buf → fd.kind ≠ .write := by
  have hin := h.counted.inTable hfd
  have halive := h.counted.alive hfd
  have hown := pipeOf_eq hin halive
  unfold Queues.target
  cases job with
  | read count =>
    simp only [hown]
    exact Or.inl ⟨fd.slot, rfl, fun _ _ _ => rfl⟩
  | write buf =>
    simp only
    cases hk : fd.kind with
    | pair o =>
      simp only
      cases hout : pairOut s.pipes fd with
      | none => exact Or.inr ⟨.epipe, rfl, fun _ _ hno => nomatch hno⟩
      | some i =>
        have hki := (pairOut_eq hin halive i).1 hout
        exact Or.inl ⟨i, rfl, fun _ _ _ => if_pos (Or.inr hki)⟩
    | write =>
      simp only [hown]
      exact Or.inl ⟨fd.slot, rfl, fun _ _ _ => if_pos (Or.inl ⟨hk, rfl⟩)⟩
    | read | event | file | buffer => exact Or.inr ⟨.ebadf, rfl, fun _ _ hno => nomatch hno⟩

/-- **A call entered**, on a descriptor that is open. -/
theorem Inv.enter (h : Inv s) (looks : Looks) {fd : End} (hfd : fd ∈ s.ends) (job : Job) : Inv (s.enter fd job) ∧
    ∃ call, (s.enter fd job).calls s.begun = some call ∧
      (call.result = none ∨ call.result.isSome ∧ ∀ s' : Queues D, Turned s' call looks) := by
  obtain ⟨call, hcall, hnew, hdone, hcases⟩ : ∃ call : Call,
      (s.enter fd job).calls = update s.calls s.begun (some call) ∧
      (call.result = none → call.fd ∈ s.ends ∧ call.Fits ∧ call.pipe = s.number call.slot) ∧
      (call.done = 0 ∧ ∀ n, call.result ≠ some (.ok n)) ∧
      (call.result = none ∨ call.result.isSome ∧ ∀ s' : Queues D, Turned s' call looks) := by
    rcases target_spec h hfd job with ⟨i, hi, hfits⟩ | ⟨e, he, hno⟩
    · refine ⟨⟨fd, i, s.number i, job, 0, none⟩, ?_, fun _ => ⟨hfd, hfits _ _ _, rfl⟩,
        ⟨rfl, fun n hn => nomatch hn⟩, Or.inl rfl⟩
      unfold Queues.enter
      rw [hi]
    · refine ⟨⟨fd, 0, 0, job, 0, some (.error e)⟩, ?_, (fun hnone => nomatch hnone),
        ⟨rfl, fun n hn => nomatch hn⟩, Or.inr ⟨rfl, fun s' => ⟨(fun _ _ _ hend => nomatch hend),
          (fun _ _ _ hnone => nomatch hnone), fun buf hjob hk => absurd hk (hno buf hjob)⟩⟩⟩
      unfold Queues.enter
      rw [he]
  have hother : ∀ {c k}, (s.enter fd job).calls c = some k → c ≠ s.begun → s.calls c = some k :=
    fun {c k} hc hne => by
      rw [hcall, update_of_ne hne] at hc
      exact hc
  have hself : (s.enter fd job).calls s.begun = some call := by
    rw [hcall, update_self]
  refine ⟨⟨h.counted, ⟨fun {c k} hc hr => ?_, fun {c} hc => ?_, h.ledger.numbered, h.ledger.apart,
    h.ledger.fresh, h.ledger.rest, h.ledger.order, fun {c k buf} hc hjob => ?_, fun {k x} hx => ?_⟩⟩,
    call, hself, hcases⟩
  · rcases eq_or_ne c s.begun with rfl | hne
    · obtain rfl := Option.some.inj (hself.symm.trans hc)
      exact hnew hr
    · exact h.ledger.waiting (hother hc hne) hr
  · change s.begun + 1 ≤ c at hc
    rw [hcall, update_of_ne (by omega)]
    exact h.ledger.begun (by omega)
  · rcases eq_or_ne c s.begun with rfl | hne
    · obtain rfl := Option.some.inj (hself.symm.trans hc)
      rw [hdone.1]
      refine ⟨?_, fun n hn => absurd hn (hdone.2 n), fun _ _ => rfl⟩
      -- nothing is put yet by a call that only now begins
      unfold Queues.sent
      rw [List.filter_eq_nil_iff.2 fun x hx hxc => ?_]
      · rfl
      · obtain ⟨k, -, hk, -⟩ := h.ledger.only hx
        rw [of_decide_eq_true hxc, h.ledger.begun (le_refl _)] at hk
        exact nomatch hk
    · exact h.ledger.reports (hother hc hne) hjob
  · obtain ⟨k', buf, hk, hrest⟩ := h.ledger.only hx
    have hne : x.1 ≠ s.begun := fun heq => by
      rw [heq, h.ledger.begun (le_refl _)] at hk
      exact nomatch hk
    refine ⟨k', buf, ?_, hrest⟩
    rw [hcall, update_of_ne hne]
    exact hk

/-! ### Steps and runs -/

/-- A turn of a call that there is none of, or that has returned. -/
theorem turn_returned (h : ∀ call, s.calls c = some call → call.result.isSome = true) :
    s.turn c looks alloc = s := by
  unfold Queues.turn
  cases hc : s.calls c with
  | none => rfl
  | some call =>
    simp only [h call hc, if_true]

/-- **A step keeps what holds of every state.** -/
theorem Inv.step (h : Inv s) {a : Act} (ha : Steady s a) : Inv (s.step a) ∧
    ∀ c looks, s.turns a = some (c, looks) →
      ∃ call, (s.step a).calls c = some call ∧ Turned (s.step a) call looks := by
  cases a with
  | pipe alloc reads writes => exact ⟨h.pipe2 ha, fun c looks hc => nomatch hc⟩
  | socketpair first second given => exact ⟨h.socketpair first second given, fun c looks hc => nomatch hc⟩
  | fifo entry mode alloc given =>
    exact ⟨h.fifoOpen entry mode alloc given, fun c looks hc => nomatch hc⟩
  | dup fd =>
    refine ⟨?_, fun c looks hc => nomatch hc⟩
    unfold Queues.step
    simp only
    split_ifs with hfd
    · exact h.dup hfd
    · exact h
  | close fd =>
    refine ⟨?_, fun c looks hc => nomatch hc⟩
    unfold Queues.step
    simp only
    split_ifs with hfd
    · exact h.close fd hfd fun hcall hres => ha _ _ hcall hres
    · exact h
  | call fd job looks alloc =>
    unfold Queues.step Queues.turns
    simp only
    split_ifs with hfd
    · obtain ⟨h1, call, hcall, hcases⟩ := h.enter looks hfd job
      rcases hcases with hnone | ⟨hsome, hturned⟩
      · obtain ⟨h2, hrest⟩ := h1.turn looks alloc hcall hnone
        refine ⟨h2, fun c looks' hc => ?_⟩
        obtain ⟨rfl, rfl⟩ := Prod.mk.inj (Option.some.inj hc)
        exact hrest
      · rw [turn_returned fun k hk => Option.some.inj (hcall.symm.trans hk) ▸ hsome]
        refine ⟨h1, fun c looks' hc => ?_⟩
        obtain ⟨rfl, rfl⟩ := Prod.mk.inj (Option.some.inj hc)
        exact ⟨call, hcall, hturned _⟩
    · exact ⟨h, fun c looks hc => nomatch hc⟩
  | resume c looks alloc =>
    unfold Queues.step Queues.turns
    simp only
    cases hcall : s.calls c with
    | none =>
      rw [turn_returned fun k hk => nomatch hcall.symm.trans hk]
      exact ⟨h, fun c looks hc => nomatch hc⟩
    | some call =>
      cases hres : call.result with
      | none =>
        obtain ⟨h1, hrest⟩ := h.turn looks alloc hcall hres
        refine ⟨h1, fun c' looks' hc => ?_⟩
        simp only [Option.any_some, hres, Option.isNone_none, if_true] at hc
        obtain ⟨rfl, rfl⟩ := Prod.mk.inj (Option.some.inj hc)
        exact hrest
      | some r =>
        rw [turn_returned fun k hk => by rw [← Option.some.inj (hcall.symm.trans hk), hres]; rfl]
        refine ⟨h, fun c' looks' hc => ?_⟩
        simp only [Option.any_some, hres, Option.isNone_some, Bool.false_eq_true, if_false] at hc
        exact nomatch hc

theorem Started.inv (hs : Started s) : Inv s := by
  have hheld : ∀ i, held s.ends i = 0 := fun i => by
    rw [hs.ends]
    rfl
  have hrefs : ∀ i, (s.pipes i).refs = 0 := fun i => by
    rw [hs.pipes]
    rfl
  have hcalls : ∀ c call, s.calls c ≠ some call := fun c call hc => by
    rw [hs.calls] at hc
    exact nomatch hc
  refine ⟨⟨fun he => ?_, fun e he => ?_, fun {i} hi => absurd (hheld i) (Nat.pos_iff_ne_zero.1 hi),
    fun {i} hi => absurd (hheld i) (Nat.pos_iff_ne_zero.1 hi),
    fun {i} _ hr => absurd (hrefs i) (Nat.pos_iff_ne_zero.1 hr),
    fun {i} hr => absurd (hrefs i) (Nat.pos_iff_ne_zero.1 hr)⟩,
    ⟨fun hc => absurd hc (hcalls _ _), fun {c} _ => ?_,
    fun {i} hr => absurd (hrefs i) (Nat.pos_iff_ne_zero.1 hr),
    fun {i} {_} hr => absurd (hrefs i) (Nat.pos_iff_ne_zero.1 hr), fun {k} _ => ?_,
    fun {i} hr => absurd (hrefs i) (Nat.pos_iff_ne_zero.1 hr), fun k => ?_,
    fun hc => absurd hc (hcalls _ _), fun {k x} hx => ?_⟩⟩
  · rw [hs.ends] at he
    exact absurd he List.not_mem_nil
  · rw [hs.ends] at he
    exact absurd he List.not_mem_nil
  · rw [hs.calls]
  · rw [hs.put, hs.got]
    exact ⟨rfl, rfl⟩
  · rw [hs.put, hs.got]
    exact List.nil_prefix
  · rw [hs.put] at hx
    exact absurd hx List.not_mem_nil

theorem Inv.queue (h : Inv s)
    (hturned : ∀ a c looks, s.turns a = some (c, looks) →
      ∃ call, (s.step a).calls c = some call ∧ Turned (s.step a) call looks) : Queue s where
  order := h.ledger.order
  rest _ hr := h.ledger.rest hr
  reports _ _ _ hcall hjob := h.ledger.reports hcall hjob
  only _ _ hx := h.ledger.only hx
  room i hr := by
    rw [Pipe.length_bytes]
    exact Pipe.left_le (h.counted.sound hr).1
  turned := hturned

/-- **A pipe is a queue with two ends**, in every state of every run in which the descriptors calls
use stay open and no `pipe` that fails leaves its write end behind. -/
theorem run_queue (hs : Started s) (as : List Act) (has : Runs.Along Steady Queues.step s as) :
    Queue (s.run as) := by
  have hinv : Inv (s.run as) := Runs.Along.invariant (fun s a h ha => (h.step ha).1) (Started.inv hs) has
  refine hinv.queue fun a c looks hturns => ?_
  have hsteady : Steady (s.run as) a := by
    cases a with
    | call | resume => trivial
    | pipe | socketpair | fifo | dup | close => exact nomatch hturns
  exact (hinv.step hsteady).2 c looks hturns

/-- The state the kernel starts in. -/
def booted : Queues D :=
  ⟨fun _ => Pipe.free, [], fun _ => none, 0, fun _ => 0, 0, fun _ => [], fun _ => []⟩

/-- A thread writes to a pipe and another reads it. -/
def exchange : List Act :=
  [.pipe true true true, .call ⟨0, .write⟩ (.write [1, 2]) ⟨false, false, false⟩ fun _ => true,
    .call ⟨0, .read⟩ (.read 1) ⟨false, false, false⟩ fun _ => true]

theorem run_queue_exchange : Queue ((booted : Queues ℕ).run exchange) :=
  run_queue ⟨rfl, rfl, rfl, rfl, rfl, rfl, rfl⟩ exchange ⟨fun _ => rfl, trivial, trivial, trivial⟩

/-- A program that is alone reads a pipe it has just made. -/
def readsAlone : List Act :=
  [.pipe true true true, .call ⟨0, .read⟩ (.read 1) ⟨false, true, false⟩ fun _ => true]

/-- **An end that is none**: the read reports the end, and the write end is open. -/
theorem exists_not_ended : Started (booted : Queues ℕ) ∧
    Runs.Along Steady Queues.step (booted : Queues ℕ) readsAlone ∧
    ∃ call, ((booted : Queues ℕ).run readsAlone).calls 0 = some call ∧ call.job = .read 1 ∧
      call.result = some (.ok 0) ∧
        ∃ e ∈ ((booted : Queues ℕ).run readsAlone).ends, e.writes call.slot = 1 := by
  refine ⟨⟨rfl, rfl, rfl, rfl, rfl, rfl, rfl⟩, ⟨fun _ => rfl, trivial, trivial⟩,
    ⟨⟨0, .read⟩, 0, 0, .read 1, 0, some (.ok 0)⟩, ?_, rfl, rfl, ⟨0, .write⟩, ?_, rfl⟩
  · decide
  · decide

end BaxOS.Ipc
