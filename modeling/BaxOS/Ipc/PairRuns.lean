import BaxOS.Ipc.PairLedger

/-!
# A socketpair delivers what was sent, once

Each turn of a send (`Inv.sendmsg`, `Inv.resume`) and of a receive (`Inv.recvmsg`, `Inv.read`) keeps
the invariant (`Inv`), and so a run does (`run_delivered`).
-/

namespace BaxOS.Ipc.Pair
open Function

variable {D : Type} {s s' : Pair D} {side : Bool}

/-! ### The invariant -/

/-- What is left of a send that waits. -/
structure Pending (p : Pipe D) (k : Send D) : Prop where
  iov : p.packets = true → k.left.iov = k.iov
  rest : p.packets = false → k.left.rest ++ k.left.iov.flatten = k.iov.flatten.drop k.moved
  moved : p.packets = false → k.left.done + k.left.part = k.moved
  part : p.packets = false → 0 < k.left.part → pipeCap ≤ p.size
  more : p.packets = false → k.moved < k.iov.flatten.length

/-- What each step keeps. -/
structure Inv (s : Pair D) : Prop where
  delivered : Delivered s
  woven : ∀ side, (s.pipes side).packets = false → (s.pipes side).Woven
  packed : ∀ side, (s.pipes side).packets = true → (s.pipes side).Packed
  count : ∀ side, 0 < (s.pipes side).count
  fresh : ∀ c, s.begun ≤ c → s.sends c = none
  pending : ∀ c k, s.sends c = some k → k.result = none → Pending (s.pipes k.side) k

/-! ### Turns of a send -/

section Sends

open Pipe

variable {a : Looks} {p' : Pipe D} {b : List UInt8} {old n m : ℕ} {t : Turn Sending ℕ}

theorem sent_eq (h : Sent a p' b old n t) : t.sent old = old + n := by
  cases h with
  | all => rfl
  | short hn e hs =>
    rcases Nat.eq_zero_or_pos (old + n) with hz | hpos
    · rw [hz]
      show old = 0
      omega
    · rw [stopped_pos hpos]
      rfl
  | waits k hn hk hm => exact hm

theorem of_failed (h : Sent a p' b old n t) (hf : failed t.result = true) :
    old = 0 ∧ n = 0 ∧ n < b.length ∧ ∀ k, t ≠ .waits k := by
  cases h with
  | all => exact Bool.noConfusion hf
  | short hn e hs =>
    rcases Nat.eq_zero_or_pos (old + n) with hz | hpos
    · exact ⟨by omega, by omega, hn, fun k hk => nomatch hk⟩
    · rw [stopped_pos hpos] at hf
      exact Bool.noConfusion hf
  | waits => exact Bool.noConfusion hf

theorem eq_of_worked (h : Sent a p' b old n t) (hr : t.result = some (.ok m)) : m = old + n := by
  have hm := sent_eq h
  cases t with
  | waits => exact nomatch hr
  | returns r =>
    obtain rfl := Option.some.inj hr
    exact hm

/-- A call that a turn of a send is of: a new one, or one that waits. -/
def Turning (s : Pair D) (c : ℕ) (k : Send D) (first : Bool) : Prop :=
  k.result = none ∧ if first then s.sends c = none ∧ k.moved = 0 else s.sends c = some k

/-- A call after a turn. -/
def turned (k : Send D) (t : Turn Sending ℕ) : Send D :=
  { k with left := t.left k.left, moved := t.sent k.moved, result := t.result }

variable {c : ℕ} {k : Send D} {first : Bool} {r : Pipe D × Turn Sending ℕ}

/-- Whose descriptors are in and whose bytes are not, if it has any, has the first of them in after
its turn, or waits for it. -/
theorem turned_opens (hs : Sent a p' b k.moved n t)
    (hfirst : k.fds ≠ [] → k.moved = 0 → k.iov.flatten ≠ [] → 0 < n ∨ ∃ k', t = .waits k')
    (hfds : k.fds ≠ []) (hzero : k.moved = 0) (hne : k.iov.flatten ≠ []) :
    0 < n ∨ (turned k t).Opening := by
  rcases Nat.eq_zero_or_pos n with hn | hn
  · obtain ⟨k', rfl⟩ := (hfirst hfds hzero hne).resolve_left (by omega)
    refine Or.inr ⟨rfl, ?_, hfds⟩
    show Turn.sent k.moved (.waits k') = 0
    rw [sent_eq hs, hzero, hn]
  · exact Or.inl hn

/-- **What a turn of a send puts on a stream.** -/
theorem Inv.putting (h : Inv s) (hpk : (s.pipes k.side).packets = false)
    (hturn : s.Turning c k first)
    (hs : Streamed a (s.pipes k.side) r.1 (if first then k.fds else []) (k.iov.flatten.drop k.moved)
      k.moved n r.2)
    (hothers : ∀ c' k', s.sends c' = some k' → k'.side = k.side → k'.Opening → c' = c)
    (hfirst : k.fds ≠ [] → k.moved = 0 → k.iov.flatten ≠ [] → 0 < n ∨ ∃ k', r.2 = .waits k') :
    Putting s { s.sent c k first r with begun := m } k.side c (turned k r.2)
      (if first && !failed r.2.result then mark k.fds else [])
      ((k.iov.flatten.drop k.moved).take n) := by
  obtain ⟨p', t⟩ := r
  obtain ⟨hres, hturn⟩ := hturn
  have hmoved := sent_eq hs.sent
  have hlen : (k.iov.flatten.drop k.moved).length = k.iov.flatten.length - k.moved := List.length_drop
  have hle := hs.le
  have hbytes : 0 < n → (k.iov.flatten.drop k.moved).take n ≠ [] := fun hn hnil => by
    have := congrArg List.length hnil
    rw [List.length_take, List.length_nil] at this
    omega
  -- a send with descriptors does not fail
  have hnofds : failed t.result = true → k.fds = [] := fun hf => by
    obtain ⟨hzero, hn, hlt, hnw⟩ := of_failed hs.sent hf
    by_contra hfds
    have hne : k.iov.flatten ≠ [] := fun hnil => by
      rw [hnil, List.drop_nil] at hlt
      exact absurd hlt (Nat.not_lt_zero _)
    rcases hfirst hfds hzero hne with hpos | ⟨k', hk'⟩
    · omega
    · exact hnw k' hk'
  have hopens : k.fds ≠ [] → k.moved = 0 → k.iov.flatten ≠ [] →
      (k.iov.flatten.drop k.moved).take n ≠ [] ∨ (turned k t).Opening := fun hf hz hne =>
    (turned_opens hs.sent hfirst hf hz hne).imp_left hbytes
  refine ⟨rfl, rfl, rfl, ?_, ?_, ?_, fun k₀ hk₀ => ?_, ?_, fun c' k₀ hk₀ hks hop => ?_,
    fun i hi => ?_, fun hf => ?_⟩
  · show (if (s.pipes k.side).packets then s.items else update s.items k.side (s.items k.side ++
      ((if first && !failed t.result then mark k.fds else []) ++ ((k.iov.flatten.drop k.moved).take
        (t.sent k.moved - k.moved)).map Item.byte).map (Prod.mk c))) k.side = _
    rw [hpk, if_neg Bool.false_ne_true, update_self, hmoved, Nat.add_sub_cancel_left]
  · show (update s.pipes k.side p' k.side).items = _
    rw [update_self, hs.items]
    cases first with
    | false => rfl
    | true =>
      cases hf : failed t.result with
      | false => rfl
      | true =>
        rw [hnofds hf]
        rfl
  · show (if failed t.result then [] else mark k.fds ++
      (k.iov.flatten.take (t.sent k.moved)).map Item.byte) = _
    rw [hmoved, List.take_add, List.map_append]
    cases first with
    | true =>
      rw [hturn.1, hturn.2]
      cases hf : failed t.result with
      | false => rfl
      | true =>
        obtain ⟨-, hn, -⟩ := of_failed hs.sent hf
        rw [hn]
        rfl
    | false =>
      have hk : s.sends c = some k := hturn
      rw [hk]
      show _ = Send.items k ++ ([] ++ _)
      rw [Send.items, hres, List.nil_append]
      cases hf : failed t.result with
      | false => exact (List.append_assoc _ _ _).symm
      | true =>
        obtain ⟨hz, hn, -⟩ := of_failed hs.sent hf
        rw [hn, hz, hnofds hf]
        rfl
  · cases first with
    | true => exact nomatch hturn.1.symm.trans hk₀
    | false =>
      obtain rfl := Option.some.inj (hturn.symm.trans hk₀)
      exact ⟨rfl, rfl⟩
  · cases first with
    | false => exact Or.inl rfl
    | true =>
      by_cases hfds : k.fds = []
      · refine Or.inl ?_
        rw [hfds]
        exact ite_self _
      · have hf : failed t.result = false := Bool.eq_false_iff.2 fun hf => hfds (hnofds hf)
        refine Or.inr ⟨k.fds, ?_, ?_⟩
        · show (if (true && !failed t.result) = true then mark k.fds else []) = _
          rw [hf]
          exact if_neg hfds
        · by_cases hne : k.iov.flatten = []
          · exact Or.inr (Or.inl hne)
          · exact (hopens hfds hturn.2 hne).imp_right Or.inr
  · -- the call whose descriptors stand last is this one
    obtain rfl := hothers c' k₀ hk₀ hks hop
    cases first with
    | true => exact nomatch hturn.1.symm.trans hk₀
    | false =>
      obtain rfl := Option.some.inj (hturn.symm.trans hk₀)
      have hlt := (h.pending _ _ hk₀ hop.1).more hpk
      exact ⟨rfl, rfl, hopens hop.2.2 hop.2.1 fun hnil => by
        rw [hnil] at hlt
        exact Nat.not_lt_zero _ hlt⟩
  · exact (eq_of_worked hs.sent hi).trans hmoved.symm
  · obtain ⟨hz, hn, -⟩ := of_failed hs.sent hf
    show t.sent k.moved = 0
    rw [hmoved]
    show k.moved + n = 0
    omega

/-- A call that waits after a turn has the rest left. -/
theorem pending_turned (hs : Sent a r.1 (k.iov.flatten.drop k.moved) k.moved n r.2) (hres : r.2.result = none)
    (hpk : r.1.packets = false) : Pending r.1 (turned k r.2) := by
  obtain ⟨p', t⟩ := r
  cases hs with
  | all => exact nomatch hres
  | short => exact nomatch hres
  | waits k' hn hk hm hf =>
    refine ⟨fun hp => absurd (hpk.symm.trans hp) Bool.false_ne_true, fun _ => ?_, fun _ => rfl,
      fun _ => hf, fun _ => ?_⟩
    · show k'.rest ++ k'.iov.flatten = k.iov.flatten.drop (k'.done + k'.part)
      rw [hk, hm, List.drop_drop]
    · show k'.done + k'.part < k.iov.flatten.length
      rw [List.length_drop] at hn
      omega

/-- A turn of a send changes no other side. -/
theorem Inv.sent_other (h : Inv s) (hturn : s.Turning c k first) (hne : side ≠ k.side)
    (hpipes : s'.pipes side = s.pipes side) (hrec : s'.receipts side = s.receipts side)
    (hitems : s'.items side = s.items side) (hputs : s'.packets side = s.packets side)
    (hsends : s'.sends = update s.sends c (some (turned k t))) :
    ((s'.pipes side).packets = false → s'.Streams side) ∧
      ((s'.pipes side).packets = true → s'.Packets side) := by
  have hold : ∀ k₀, s.sends c = some k₀ → k₀.side ≠ side := fun k₀ hk₀ => by
    obtain ⟨-, hturn⟩ := hturn
    cases first with
    | true => exact nomatch hturn.1.symm.trans hk₀
    | false =>
      obtain rfl := Option.some.inj (hturn.symm.trans hk₀)
      exact hne.symm
  rw [hpipes]
  exact ⟨fun hp => (h.delivered.streams side hp).other hrec hitems hpipes hsends hne.symm hold,
    fun hp => (h.delivered.packets side hp).other hrec hputs hpipes hsends hne.symm hold⟩

/-- **A turn of a send keeps the invariant.** -/
theorem Inv.sent (h : Inv s) (hturn : s.Turning c k first)
    (hpipe : SameEnds (s.pipes k.side) r.1)
    (hsize : (s.pipes k.side).packets = false → (s.pipes k.side).size ≤ r.1.size)
    (hwoven : r.1.packets = false → r.1.Woven) (hpacked : r.1.packets = true → r.1.Packed)
    (hstream : (s.pipes k.side).packets = false →
      ({ s.sent c k first r with begun := m } : Pair D).Streams k.side)
    (hpackets : (s.pipes k.side).packets = true →
      ({ s.sent c k first r with begun := m } : Pair D).Packets k.side)
    (hpending : r.2.result = none → Pending r.1 (turned k r.2))
    (hm : ∀ c', m ≤ c' → c' ≠ c ∧ s.begun ≤ c') :
    Inv { s.sent c k first r with begun := m } := by
  have hself : ({ s.sent c k first r with begun := m } : Pair D).pipes k.side = r.1 := update_self ..
  have hside : ∀ side, side ≠ k.side →
      ({ s.sent c k first r with begun := m } : Pair D).pipes side = s.pipes side := fun side hne =>
    update_of_ne hne ..
  have hitems : ∀ side, side ≠ k.side →
      ({ s.sent c k first r with begun := m } : Pair D).items side = s.items side := fun side hne => by
    show (if (s.pipes k.side).packets then s.items else _) side = _
    by_cases hp : (s.pipes k.side).packets = true
    · rw [if_pos hp]
    · rw [if_neg hp]
      exact update_of_ne hne ..
  have hputs : ∀ side, side ≠ k.side →
      ({ s.sent c k first r with begun := m } : Pair D).packets side = s.packets side := fun side hne => by
    show (if (s.pipes k.side).packets && worked r.2.result then _ else s.packets) side = _
    split_ifs
    · exact update_of_ne hne ..
    · rfl
  refine ⟨⟨fun side hp => ?_, fun side hp => ?_⟩, fun side => ?_, fun side => ?_, fun side => ?_,
    fun c' hc' => ?_, fun c' k₀ hk₀ hres => ?_⟩
  · by_cases hne : side = k.side
    · subst hne
      rw [hself, hpipe.packets] at hp
      exact hstream hp
    · exact (h.sent_other hturn hne (hside side hne) rfl (hitems side hne) (hputs side hne) rfl).1 hp
  · by_cases hne : side = k.side
    · subst hne
      rw [hself, hpipe.packets] at hp
      exact hpackets hp
    · exact (h.sent_other hturn hne (hside side hne) rfl (hitems side hne) (hputs side hne) rfl).2 hp
  · by_cases hne : side = k.side
    · subst hne
      rw [hself]
      exact hwoven
    · rw [hside side hne]
      exact h.woven side
  · by_cases hne : side = k.side
    · subst hne
      rw [hself]
      exact hpacked
    · rw [hside side hne]
      exact h.packed side
  · by_cases hne : side = k.side
    · subst hne
      rw [hself, hpipe.count]
      exact h.count _
    · rw [hside side hne]
      exact h.count side
  · obtain ⟨hne, hle⟩ := hm c' hc'
    exact (update_of_ne hne ..).trans (h.fresh c' hle)
  · by_cases hcc : c' = c
    · subst hcc
      change update s.sends c' (some (turned k r.2)) c' = some k₀ at hk₀
      rw [update_self] at hk₀
      obtain rfl := Option.some.inj hk₀
      show Pending (({ s.sent c' k first r with begun := m } : Pair D).pipes k.side) _
      rw [hself]
      exact hpending hres
    · change update s.sends c (some (turned k r.2)) c' = some k₀ at hk₀
      rw [update_of_ne hcc] at hk₀
      have hwas := h.pending c' k₀ hk₀ hres
      by_cases hne : k₀.side = k.side
      · rw [hne] at hwas ⊢
        rw [hself]
        refine ⟨fun hp => hwas.iov (hpipe.packets ▸ hp), fun hp => hwas.rest (hpipe.packets ▸ hp),
          fun hp => hwas.moved (hpipe.packets ▸ hp),
          fun hp hpos => (hwas.part (hpipe.packets ▸ hp) hpos).trans
            (hsize (hpipe.packets ▸ hp)),
          fun hp => hwas.more (hpipe.packets ▸ hp)⟩
      · rw [hside _ hne]
        exact hwas

theorem Inv.sent_stream (h : Inv s) (hpk : (s.pipes k.side).packets = false)
    (hturn : s.Turning c k first)
    (hs : Streamed a (s.pipes k.side) r.1 (if first then k.fds else []) (k.iov.flatten.drop k.moved)
      k.moved n r.2)
    (hothers : ∀ c' k', s.sends c' = some k' → k'.side = k.side → k'.Opening → c' = c)
    (hfirst : k.fds ≠ [] → k.moved = 0 → k.iov.flatten ≠ [] → 0 < n ∨ ∃ k', r.2 = .waits k')
    (hm : ∀ c', m ≤ c' → c' ≠ c ∧ s.begun ≤ c') : Inv { s.sent c k first r with begun := m } := by
  have hstream : r.1.packets = false := hs.ends.packets.trans hpk
  exact h.sent hturn hs.ends (fun _ => hs.size) (fun _ => hs.woven)
    (fun hp => absurd (hstream.symm.trans hp) Bool.false_ne_true)
    (fun hp => (h.putting hp hturn hs hothers hfirst).streams (h.delivered.streams _ hp))
    (fun hp => absurd (hpk.symm.trans hp) Bool.false_ne_true)
    (fun hres => pending_turned hs.sent hres hstream) hm

/-- A first turn that fails with nothing done. -/
theorem Inv.sent_nothing {e : Errno} (h : Inv s) (hturn : s.Turning c k true)
    (hothers : (s.pipes k.side).packets = false → ∀ c' k', s.sends c' = some k' → k'.side = k.side →
      k'.Opening → c' = c) (hm : ∀ c', m ≤ c' → c' ≠ c ∧ s.begun ≤ c') :
    Inv { s.sent c k true (s.pipes k.side, .returns (.error e)) with begun := m } := by
  obtain ⟨hres, hnone, hzero⟩ := hturn
  refine h.sent ⟨hres, hnone, hzero⟩ (SameEnds.refl _) (fun _ => le_refl _) (h.woven _) (h.packed _) (fun hp => ?_)
    (fun hp => ?_) (fun hres => nomatch hres) hm
  · have p : Putting s { s.sent c k true (s.pipes k.side, .returns (.error e)) with begun := m } k.side c
        (turned k (.returns (.error e))) [] [] := by
      refine ⟨rfl, rfl, rfl, ?_, ?_, ?_, fun k₀ hk₀ => ?_, Or.inl rfl, fun c' k₀ hk₀ hks hop => ?_,
        (fun i hi => nomatch hi), fun _ => hzero⟩
      · show (if (s.pipes k.side).packets then s.items else update s.items k.side (s.items k.side ++
          ([] ++ ((k.iov.flatten.drop k.moved).take (k.moved - k.moved)).map Item.byte).map
            (Prod.mk c))) k.side = _
        rw [hp, if_neg Bool.false_ne_true, update_self, Nat.sub_self]
        rfl
      · show (update s.pipes k.side (s.pipes k.side) k.side).items = _
        rw [update_self]
        exact (List.append_nil _).symm
      · rw [hnone]
        rfl
      · exact nomatch hnone.symm.trans hk₀
      · obtain rfl := hothers hp c' k₀ hk₀ hks hop
        exact nomatch hnone.symm.trans hk₀
    exact p.streams (h.delivered.streams _ hp)
  · refine (h.delivered.packets _ hp).put (turned k (.returns (.error e))) rfl rfl rfl ?_ ?_
      (fun k₀ hk₀ => nomatch hnone.symm.trans hk₀) fun i hi => nomatch hi
    · show (if (s.pipes k.side).packets && false then _ else s.packets) k.side = _
      rw [Bool.and_false]
      exact (List.append_nil _).symm
    · show (update s.pipes k.side (s.pipes k.side) k.side).messages = _
      rw [update_self]
      exact (List.append_nil _).symm

/-- What a packet's turn is a send's. -/
def carried (k : Sending) : Turn Unit ℕ → Turn Sending ℕ
  | .returns r => .returns r
  | .waits _ => .waits k

/-- **A turn of a send of a packet** keeps the invariant. -/
theorem Inv.sent_packet {t : Turn Unit ℕ} {left : Sending} (h : Inv s)
    (hpk : (s.pipes k.side).packets = true) (hturn : s.Turning c k first)
    (hs : Posted (s.pipes k.side) p' k.iov.flatten k.fds t) (hleft : left.iov = k.iov)
    (hm : ∀ c', m ≤ c' → c' ≠ c ∧ s.begun ≤ c') :
    Inv { s.sent c k first (p', carried left t) with begun := m } := by
  have hold : ∀ k₀, s.sends c = some k₀ → k₀.side = k.side ∧ k₀.packets = [] := fun k₀ hk₀ => by
    obtain ⟨hres, hturn⟩ := hturn
    cases first with
    | true => exact nomatch hturn.1.symm.trans hk₀
    | false =>
      obtain rfl := Option.some.inj (hturn.symm.trans hk₀)
      refine ⟨rfl, ?_⟩
      rw [Send.packets, hres]
      rfl
  have hno : ∀ {P : Prop}, (s.pipes k.side).packets = false → P := fun hp =>
    absurd (hp.symm.trans hpk) Bool.false_ne_true
  have hpacked := h.packed _ hpk
  have hwas := h.delivered.packets _ hpk
  cases hs with
  | sent hp he hmsgs =>
    refine h.sent hturn he (fun hp' => hno hp') (fun hp' => hno (he.packets ▸ hp')) (fun _ => hp)
      (fun hp' => hno hp') (fun _ => ?_) (fun hres => nomatch hres) hm
    · refine hwas.put (turned k (.returns (.ok k.iov.flatten.length))) rfl rfl rfl ?_ ?_ hold
        fun i hi => ?_
      · show (if (s.pipes k.side).packets && true then update s.packets k.side (s.packets k.side ++
          [(c, k.iov.flatten, k.fds)]) else s.packets) k.side = _
        rw [hpk]
        exact update_self ..
      · show (update s.pipes k.side p' k.side).messages = _
        rw [update_self]
        exact hmsgs
      · exact (Except.ok.inj (Option.some.inj hi)).symm
  | failed hp e =>
    subst hp
    refine h.sent hturn (SameEnds.refl _) (fun _ => le_refl _) (h.woven _) (h.packed _) (fun hp' => hno hp')
      (fun _ => ?_) (fun hres => nomatch hres) hm
    refine hwas.put (turned k (.returns (.error e))) rfl rfl rfl ?_ ?_ hold
      fun i hi => nomatch hi
    · show (if (s.pipes k.side).packets && false then _ else s.packets) k.side = _
      rw [Bool.and_false]
      exact (List.append_nil _).symm
    · show (update s.pipes k.side (s.pipes k.side) k.side).messages = _
      rw [update_self]
      exact (List.append_nil _).symm
  | waits hp =>
    subst hp
    refine h.sent hturn (SameEnds.refl _) (fun _ => le_refl _) (h.woven _) (h.packed _) (fun hp' => hno hp')
      (fun _ => ?_) (fun _ => ⟨fun _ => hleft, fun hp' => hno hp', fun hp' => hno hp',
        fun hp' => hno hp', fun hp' => hno hp'⟩) hm
    refine hwas.put (turned k (.waits left)) rfl rfl rfl ?_ ?_ hold fun i hi => nomatch hi
    · show (if (s.pipes k.side).packets && false then _ else s.packets) k.side = _
      rw [Bool.and_false]
      exact (List.append_nil _).symm
    · show (update s.pipes k.side (s.pipes k.side) k.side).messages = _
      rw [update_self]
      exact (List.append_nil _).symm

/-- **A send keeps the invariant.** -/
theorem Inv.sendmsg {iov : List (List UInt8)} {fds : List D} {dontwait : Bool} {grant : Grant}
    (h : Inv s) (valid : Bool)
    (hf : s.Finds s.begun (made side iov fds dontwait) iov a grant) :
    Inv { s.sent s.begun (made side iov fds dontwait) true
        ((s.pipes side).pairPut a dontwait valid grant iov fds) with begun := s.begun + 1 } := by
  have hturn : s.Turning s.begun (made side iov fds dontwait) true := ⟨rfl, h.fresh _ (le_refl _), rfl⟩
  have hm : ∀ c', s.begun + 1 ≤ c' → c' ≠ s.begun ∧ s.begun ≤ c' := fun c' hc' => by omega
  unfold pairPut
  cases valid with
  | false => exact h.sent_nothing hturn hf.others hm
  | true =>
    rw [if_neg (by decide)]
    cases hpk : (s.pipes side).packets with
    | true =>
      rw [if_pos rfl]
      have hpost : Posted (s.pipes side) ((s.pipes side).sendPacket a dontwait grant iov fds).1
          iov.flatten fds ((s.pipes side).sendPacket a dontwait grant iov fds).2 :=
        sendPacket_spec (h.packed side hpk) a dontwait fds (hf.packets hpk)
      generalize (s.pipes side).sendPacket a dontwait grant iov fds = w at hpost
      obtain ⟨p', t | t⟩ := w
      · exact h.sent_packet hpk hturn hpost (rfl : (⟨[], 0, iov, 0⟩ : Sending).iov = iov) hm
      · exact h.sent_packet hpk hturn hpost (rfl : (⟨[], 0, iov, 0⟩ : Sending).iov = iov) hm
    | false =>
      rw [if_neg Bool.false_ne_true]
      rcases startStream_spec (h.woven side hpk) a grant iov fds with heq | ⟨n, hs, hopens⟩
      · rw [heq]
        exact h.sent_nothing hturn hf.others hm
      · refine h.sent_stream hpk hturn hs (hf.others hpk) (fun hfds hzero hne => ?_) hm
        rcases hf.first hpk hfds hzero hne with ho | ⟨ha, hi⟩
        · exact Or.inl (hopens ho hne)
        · exact hs.sent.waits_of ha hi hne

/-- **A send that goes on keeps the invariant.** -/
theorem Inv.resume {grant : Grant} (h : Inv s) (hk : s.sends c = some k) (hres : k.result = none)
    (hf : s.Finds c k (k.left.rest :: k.left.iov) a grant) :
    Inv (s.sent c k false ((s.pipes k.side).pairPutOn a k.dontwait grant k.fds k.left)) := by
  have hturn : s.Turning c k false := ⟨hres, hk⟩
  have hpend := h.pending c k hk hres
  have hm : ∀ c', s.begun ≤ c' → c' ≠ c ∧ s.begun ≤ c' := fun c' hc' => by
    refine ⟨fun heq => ?_, hc'⟩
    have hno := h.fresh c' hc'
    rw [heq, hk] at hno
    exact nomatch hno
  show Inv { s.sent c k false ((s.pipes k.side).pairPutOn a k.dontwait grant k.fds k.left) with
    begun := s.begun }
  unfold pairPutOn
  cases hpk : (s.pipes k.side).packets with
  | true =>
    rw [if_pos rfl]
    have hpost := sendPacket_spec (h.packed _ hpk) a k.dontwait k.fds (hf.packets hpk)
    rw [← hpend.iov hpk] at hpost
    generalize (s.pipes k.side).sendPacket a k.dontwait grant k.left.iov k.fds = w at hpost
    rw [hpend.iov hpk] at hpost
    obtain ⟨p', t | t⟩ := w
    · exact h.sent_packet hpk hturn hpost (hpend.iov hpk) hm
    · exact h.sent_packet hpk hturn hpost (hpend.iov hpk) hm
  | false =>
    rw [if_neg Bool.false_ne_true]
    obtain ⟨n, hs, hopens⟩ := (h.woven _ hpk).sent a grant.put k.left.iov 0 k.left.rest
      k.left.part k.left.done (hpend.part hpk)
    rw [hpend.rest hpk, hpend.moved hpk] at hs
    rw [hpend.rest hpk] at hopens
    have hmore := hpend.more hpk
    have hleft : k.iov.flatten.drop k.moved ≠ [] := fun hnil => by
      have := congrArg List.length hnil
      rw [List.length_drop, List.length_nil] at this
      omega
    refine h.sent_stream hpk hturn hs (hf.others hpk) (fun hfds hzero hne => ?_) hm
    rcases hf.first hpk hfds hzero hne with ho | ⟨ha, hi⟩
    · refine Or.inl (hopens ho hleft ?_)
      have := hpend.moved hpk
      omega
    · exact hs.sent.waits_of ha hi hleft

end Sends

/-! ### Turns of a receive -/

/-- **A turn of a receive keeps the invariant.** -/
theorem Inv.received {P : Pipe D → Taken D → Prop} {room : List ℕ} {asks : Bool} {a : Looks}
    {r : Pipe D × Turn Unit (Taken D)} (h : Inv s)
    (hr : Pipe.Receives a (s.pipes side) r.1 (P r.1) r.2)
    (hstream : (s.pipes side).packets = false → ∀ p' t, P p' t →
      Pipe.Received (s.pipes side) room (p', t) ∧ if asks then t.dropped = [] else t.fds = [])
    (hpacket : (s.pipes side).packets = true → ∀ p' t, P p' t →
      p'.Packed ∧ Pipe.SameEnds (s.pipes side) p' ∧
        ((s.pipes side).messages = [] ∧ (s.pipes side).left = 0 ∧
            p'.messages = (s.pipes side).messages ∧ t = ⟨[], [], [], false⟩ ∨
          ∃ b l, (s.pipes side).messages = (b, l) :: p'.messages ∧
            t = ⟨b.take room.sum, if asks then l else [], if asks then [] else l,
              decide (room.sum < b.length)⟩)) :
    Inv (s.received side room.sum asks a r) := by
  obtain ⟨p', t⟩ := r
  have hsame : ∀ t : Turn Unit (Taken D), p' = s.pipes side → (∀ taken, t ≠ .returns (.ok taken)) →
      s.received side room.sum asks a (p', t) = s := fun t hp ht => by
    subst hp
    unfold Pair.received
    rw [update_eq_self]
    cases t with
    | waits => rfl
    | returns r =>
      cases r with
      | error => rfl
      | ok taken => exact absurd rfl (ht taken)
  cases hr with
  | failed hp e =>
    rw [hsame (.returns (.error e)) hp fun taken heq => nomatch heq]
    exact h
  | waits hp =>
    rw [hsame (.waits ()) hp fun taken heq => nomatch heq]
    exact h
  | took t hp ha =>
    have halone : (s.pipes side).left = 0 → a.alone = true := fun hz => by
      have := h.count side
      rcases ha with hpos | hno | ha
      · omega
      · omega
      · exact ha
    have hside : (s.received side room.sum asks a (p', .returns (.ok t))).pipes side = p' := update_self ..
    have hother : ∀ side', side' ≠ side →
        (s.received side room.sum asks a (p', .returns (.ok t))).pipes side' = s.pipes side' ∧
          (s.received side room.sum asks a (p', .returns (.ok t))).receipts side' = s.receipts side' :=
      fun side' hne => ⟨update_of_ne hne .., update_of_ne hne ..⟩
    have hrec : (s.received side room.sum asks a (p', .returns (.ok t))).receipts side =
        s.receipts side ++ [⟨room.sum, asks, a.alone, t⟩] := update_self ..
    -- the pipe keeps what it is, whichever kind it is of
    have hends : Pipe.SameEnds (s.pipes side) p' := by
      cases hpk : (s.pipes side).packets with
      | false => exact (hstream hpk p' t hp).1.ends
      | true => exact (hpacket hpk p' t hp).2.1
    refine ⟨⟨fun side' hpk => ?_, fun side' hpk => ?_⟩, fun side' hpk => ?_, fun side' hpk => ?_,
      fun side' => ?_, h.fresh, fun c k hk hres => ?_⟩
    · by_cases hne : side' = side
      · subst hne
        rw [hside, hends.packets] at hpk
        obtain ⟨hreceived, hasked⟩ := hstream hpk p' t hp
        refine (h.delivered.streams side' hpk).took hrec rfl rfl ?_ hasked fun hgot hroom => ?_
        · rw [hside]
          exact hreceived.items
        · exact (hreceived.got hgot hroom).imp_left halone
      · rw [(hother side' hne).1] at hpk
        exact (h.delivered.streams side' hpk).congr (hother side' hne).2 rfl rfl
          (congrArg Pipe.items (hother side' hne).1)
    · by_cases hne : side' = side
      · subst hne
        rw [hside, hends.packets] at hpk
        obtain ⟨-, -, hcase⟩ := hpacket hpk p' t hp
        refine (h.delivered.packets side' hpk).took hrec rfl rfl ?_
        rw [hside]
        exact hcase.imp_left fun ⟨_, hz, hm, ht⟩ => ⟨halone hz, hm, ht⟩
      · rw [(hother side' hne).1] at hpk
        exact (h.delivered.packets side' hpk).congr (hother side' hne).2 rfl rfl
          (congrArg Pipe.messages (hother side' hne).1)
    · by_cases hne : side' = side
      · subst hne
        rw [hside] at hpk ⊢
        exact (hstream (hends.packets ▸ hpk) p' t hp).1.woven
      · rw [(hother side' hne).1] at hpk ⊢
        exact h.woven side' hpk
    · by_cases hne : side' = side
      · subst hne
        rw [hside] at hpk ⊢
        exact (hpacket (hends.packets ▸ hpk) p' t hp).1
      · rw [(hother side' hne).1] at hpk ⊢
        exact h.packed side' hpk
    · by_cases hne : side' = side
      · subst hne
        rw [hside, hends.count]
        exact h.count side'
      · rw [(hother side' hne).1]
        exact h.count side'
    · have hwas := h.pending c k hk hres
      by_cases hne : k.side = side
      · rw [hne] at hwas ⊢
        rw [hside]
        exact ⟨fun hp => hwas.iov (hends.packets ▸ hp), fun hp => hwas.rest (hends.packets ▸ hp),
          fun hp => hwas.moved (hends.packets ▸ hp),
          fun hpk hpos => (hwas.part (hends.packets ▸ hpk) hpos).trans
            (hstream (hends.packets ▸ hpk) p' t hp).1.size.ge,
          fun hp => hwas.more (hends.packets ▸ hp)⟩
      · rw [(hother k.side hne).1]
        exact hwas

/-- What a receive has of the pipe it takes from. -/
def Takes (p : Pipe D) (room : List ℕ) (asks : Bool) (p' : Pipe D) (t : Taken D) : Prop :=
  (p.packets = false → Pipe.Received p room (p', t) ∧ if asks then t.dropped = [] else t.fds = []) ∧
    (p.packets = true → p'.Packed ∧ Pipe.SameEnds p p' ∧
      (p.messages = [] ∧ p.left = 0 ∧ p'.messages = p.messages ∧ t = ⟨[], [], [], false⟩ ∨
        ∃ b l, p.messages = (b, l) :: p'.messages ∧ t = ⟨b.take room.sum, if asks then l else [],
          if asks then [] else l, decide (room.sum < b.length)⟩))

theorem Inv.takes (h : Inv s) (side : Bool) (room : List ℕ) (asks : Bool) :
    Takes (s.pipes side) room asks ((s.pipes side).receive room asks).1
      ((s.pipes side).receive room asks).2 := by
  refine ⟨fun hp => ⟨Pipe.receive_stream (h.woven side hp) room asks, Pipe.receive_asked _ _ _⟩,
    fun hp => ?_⟩
  obtain ⟨hpacked, hends, hcase⟩ := Pipe.receive_packet (h.packed side hp) room asks
  refine ⟨hpacked, hends, hcase.imp_left fun ⟨hm, hz, heq⟩ => ⟨hm, hz, ?_, ?_⟩⟩
  · rw [heq]
  · rw [heq]

theorem Inv.recvmsg {room : List ℕ} {asks : Bool} {a : Looks} {r : Pipe D × Turn Unit (Taken D)}
    (h : Inv s) (hr : Pipe.Receives a (s.pipes side) r.1 (Takes (s.pipes side) room asks r.1) r.2) :
    Inv (s.received side room.sum asks a r) :=
  h.received hr (fun hp _ _ ht => ht.1 hp) fun hp _ _ ht => ht.2 hp

theorem Inv.read (h : Inv s) (side : Bool) (count : ℕ) (a : Looks) :
    Inv (s.received side count false a ((s.pipes side).sysRead (.pair none) false a count)) := by
  have hr := Pipe.sysRead_spec (P := Takes (s.pipes side) [count] false) none false
    (h.takes side [count] false) (fun hp hms =>
      ⟨fun _ => ⟨Pipe.take_received (h.woven side hp) hms count, rfl⟩,
        fun hp' => absurd (hp.symm.trans hp') Bool.false_ne_true⟩) a
  have hread := h.recvmsg hr
  rw [List.sum_singleton] at hread
  exact hread

/-! ### Runs -/

/-- **Each step keeps the invariant.** -/
theorem Inv.step (h : Inv s) (d : Deed D) (hd : s.Steady d) : Inv (s.step d) := by
  cases d with
  | write side text looks grant =>
    show Inv { s.sent s.begun (made side [text] [] false) true ((s.pipes side).writeTo looks grant text)
      with begun := s.begun + 1 }
    rw [Pipe.writeTo_eq]
    exact h.sendmsg true hd
  | sendmsg side iov fds dontwait valid looks grant => exact h.sendmsg valid hd
  | resume c looks grant =>
    simp only [Pair.step]
    cases hk : s.sends c with
    | none => exact h
    | some k =>
      simp only
      split_ifs with hres
      · exact h
      · have hnone : k.result = none := Option.not_isSome_iff_eq_none.1 hres
        exact h.resume hk hnone (hd k hk hnone)
  | read side count looks => exact h.read (!side) count looks
  | recvmsg side room dontwait looks =>
    exact h.recvmsg (Pipe.pairTake_spec (P := Takes (s.pipes !side) room true)
      (h.takes (!side) room true) looks dontwait)
  | held side refs count =>
    have hcount : 0 < count := hd
    -- what waits is the same
    have hpipes : ∀ side', ∃ refs' count', 0 < count' ∧ (s.step (.held side refs count)).pipes side' =
        { s.pipes side' with refs := refs', count := count' } := fun side' => by
      by_cases hne : side' = side
      · subst hne
        exact ⟨refs, count, hcount, update_self ..⟩
      · exact ⟨_, _, h.count side', update_of_ne hne ..⟩
    refine ⟨⟨fun side' hp => ?_, fun side' hp => ?_⟩, fun side' hp => ?_, fun side' hp => ?_,
      fun side' => ?_, h.fresh, fun c k hk hres => ?_⟩
    · obtain ⟨refs', count', -, heq⟩ := hpipes side'
      rw [heq] at hp
      exact (h.delivered.streams side' hp).congr rfl rfl rfl (by rw [heq]; rfl)
    · obtain ⟨refs', count', -, heq⟩ := hpipes side'
      rw [heq] at hp
      exact (h.delivered.packets side' hp).congr rfl rfl rfl (by rw [heq]; rfl)
    · obtain ⟨refs', count', -, heq⟩ := hpipes side'
      rw [heq] at hp ⊢
      obtain ⟨hs, hst, ha, hw, hg⟩ := h.woven side' hp
      exact ⟨⟨hs.read, hs.len, hs.size, hs.cap⟩, hst, ha, hw, hg⟩
    · obtain ⟨refs', count', -, heq⟩ := hpipes side'
      rw [heq] at hp ⊢
      obtain ⟨hs, hst, hc⟩ := h.packed side' hp
      exact ⟨⟨hs.read, hs.len, hs.size, hs.cap⟩, hst, hc⟩
    · obtain ⟨refs', count', hpos, heq⟩ := hpipes side'
      rw [heq]
      exact hpos
    · obtain ⟨refs', count', -, heq⟩ := hpipes k.side
      have hwas := h.pending c k hk hres
      rw [heq]
      exact ⟨hwas.iov, hwas.rest, hwas.moved, hwas.part, hwas.more⟩

/-- A pair as it is made meets it. -/
theorem Made.inv (h : Made s) : Inv s := by
  have hsound : ∀ side, (s.pipes side).Sound := fun side => by
    obtain ⟨packets, heq⟩ := h.pipes side
    rw [heq]
    exact ⟨le_refl _, Nat.zero_le _, (by decide : 0 < pipeFirst), Nat.zero_le _⟩
  have hnone : ∀ c, s.sends c = none := fun c => by
    rw [h.sends]
  have hno : ∀ {c k} {P : Prop}, s.sends c = some k → P := fun {c k P} hk => nomatch (hnone c).symm.trans hk
  have hitems : ∀ side, s.items side = [] := fun side => by
    rw [h.items]
  have hputs : ∀ side, s.packets side = [] := fun side => by
    rw [h.packets]
  have hrec : ∀ side, s.receipts side = [] := fun side => by
    rw [h.receipts]
  refine ⟨⟨fun side hp => ?_, fun side hp => ?_⟩, fun side hp => ?_, fun side hp => ?_, fun side => ?_,
    fun c _ => hnone c, fun c k hk => hno hk⟩
  · obtain ⟨packets, heq⟩ := h.pipes side
    refine ⟨?_, fun c k hk => hno hk, ?_, ?_, ?_, ?_, fun c k hk => hno hk⟩
    · rw [hrec, hitems, heq]
      rfl
    · rw [hitems]
      exact fun x hx => nomatch hx
    · rw [hitems]
      exact fun i c l hi => nomatch hi
    · rw [hrec]
      exact fun r hr => nomatch hr
    · rw [hrec]
      intro l r l' hl
      exact absurd hl.symm (by simp)
  · obtain ⟨packets, heq⟩ := h.pipes side
    refine ⟨⟨[], [], ?_, ?_, ?_⟩, fun c k hk => hno hk, ?_, fun c k n hk => hno hk⟩
    · exact hputs side
    · rw [heq]
      rfl
    · rw [hrec]
      exact .nil
    · rw [hputs]
      exact fun x hx => nomatch hx
  · obtain ⟨packets, heq⟩ := h.pipes side
    refine ⟨hsound side, hp, ?_, ?_, ?_⟩
    · rw [heq]
      exact le_refl 0
    · rw [heq]
      rfl
    · rw [heq]
      exact fun m hm => nomatch hm
  · obtain ⟨packets, heq⟩ := h.pipes side
    refine ⟨hsound side, hp, ?_⟩
    rw [heq]
    rfl
  · obtain ⟨packets, heq⟩ := h.pipes side
    rw [heq]
    exact Nat.one_pos

/-- A new pair, of streams or of packets. -/
def pair (packets : Bool) : Pair ℕ :=
  ⟨fun _ => { Pipe.free with size := pipeFirst, refs := 2, count := 1, packets }, fun _ => none, 0,
    fun _ => [], fun _ => [], fun _ => []⟩

/-- Two bytes sent with a descriptor, and received. -/
def exchange : List (Deed ℕ) :=
  [.sendmsg false [[1, 2]] [5] false true ⟨false, false, false⟩ ⟨true, fun _ _ => true⟩,
    .recvmsg true [8] false ⟨false, false, false⟩]

end BaxOS.Ipc.Pair
