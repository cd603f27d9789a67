import BaxOS.Net.StackBounds

/-!
# What waits has a timer

A connection with something to send has a timer running, in every run in which nothing comes to wait on
a window that is shut, or on a largest segment of 0, with nothing in flight (`steps_timed`): the timer is
set by what is sent.
-/

namespace BaxOS.Net
namespace Sock

variable {k k' : Sock} {now : ℕ} {x : Seg} {t : Turn}

/-- Something is left to send: bytes not acknowledged; or a `FIN` asked for, which in none of these states
has been. -/
def Waits (k : Sock) : Prop := k.sends = true ∧ (0 < k.outLen ∨ k.finOut = true)

/-- Nothing is left to send, or in flight. -/
structure Calm (k : Sock) : Prop where
  out : k.outLen = 0
  finOut : k.finOut = false
  finSent : k.finSent = false
  flight : k.sndNxt = k.sndUna

/-- What `tcp_push` finds, where no timer runs: it can send. -/
structure Free (k : Sock) : Prop where
  finSent : k.finSent = false
  flight : k.sndNxt = k.sndUna
  room : k.outLen = 0 ∨ 0 < k.sndWnd ∧ 0 < k.mss

/-- A timer can be set; a `FIN` goes with a change of state. -/
structure Steady (k : Sock) : Prop where
  rto : k.proto = .tcp → 0 < k.rto
  fresh : k.state = .synRcvd → k.outLen = 0 ∧ k.finOut = false ∧ k.finSent = false
  opened : k.finSent = true → k.state ≠ .established ∧ k.state ≠ .closeWait

/-- **The invariant**: where no timer runs, nothing is left to send. -/
structure Timed (k : Sock) : Prop extends Steady k where
  idle : k.proto = .tcp → k.sends = true → k.timer = 0 → Calm k

/-- What it is before `tcp_push`. -/
structure Ready (k : Sock) : Prop extends Steady k where
  idle : k.proto = .tcp → k.sends = true → k.timer = 0 → Free k

theorem Calm.free (h : Calm k) : Free k := ⟨h.finSent, h.flight, Or.inl h.out⟩

theorem Timed.ready (h : Timed k) : Ready k :=
  ⟨h.toSteady, fun htcp hs ht => (h.idle htcp hs ht).free⟩

theorem Timed.timer_ne (h : Timed k) (htcp : k.proto = .tcp) (hw : k.Waits) : k.timer ≠ 0 := fun ht => by
  have hcalm := h.idle htcp hw.1 ht
  rcases hw.2 with hout | hfin
  · exact absurd hcalm.out hout.ne'
  · rw [hcalm.finOut] at hfin
    exact nomatch hfin

/-- A socket that sends nothing needs no timer. -/
theorem Steady.timed (h : Steady k) (hs : k.sends = false) : Timed k :=
  ⟨h, fun _ hsends => by
    rw [hs] at hsends
    exact nomatch hsends⟩

theorem Timed.free : Timed Sock.free :=
  ⟨⟨(fun h => nomatch h), (fun h => nomatch h), (fun h => nomatch h)⟩, (fun h => nomatch h)⟩

theorem arm_timer (now : ℕ) (h : 0 < k.rto) : (arm now k).timer ≠ 0 := by
  unfold arm
  split_ifs with ht
  · show now + k.rto ≠ 0
    omega
  · exact ht

/-- A timer set: the rest is as it was. -/
theorem Steady.arm (h : Steady k) (htcp : k.proto = .tcp) (now : ℕ) : Timed (arm now k) := by
  have hset := arm_timer now (h.rto htcp)
  refine ⟨?_, fun _ _ ht => absurd ht hset⟩
  rcases arm_cases now k with heq | heq
  · rwa [heq]
  · rw [heq]
    exact ⟨h.rto, h.fresh, h.opened⟩

theorem finState_ne {c : Conn} : finState c ≠ .established ∧ finState c ≠ .closeWait := by
  unfold finState
  split
  · decide
  · decide
  · rename_i hopen hhalf
    exact ⟨hopen, hhalf⟩

theorem sends_ne (h : k.sends = true) : finState k.state ≠ .synRcvd := by
  unfold sends at h
  unfold finState
  cases hc : k.state <;> rw [hc] at h <;> first | decide | exact nomatch h

/-- **After `tcp_push`** a timer runs, or nothing is left to send. -/
theorem Ready.tcpPush (h : Ready k) (ho : k.outLen ≤ sbuf) (now : ℕ) (ack : Bool) :
    Timed (k.tcpPush now ack).sock := by
  rcases tcpPush_cases now k ack with ⟨hp, -, heq⟩ | ⟨hp, -, -, -, heq⟩ | ⟨marks, hmarks, heq⟩
  · rw [heq]
    obtain ⟨htcp, -, -⟩ := pushes_iff.1 hp
    refine Steady.arm ?_ ?_ now
    · exact ⟨h.rto, h.fresh, h.opened⟩
    · exact htcp
  · rw [heq]
    obtain ⟨htcp, -, hsends⟩ := pushes_iff.1 hp
    refine Steady.arm ?_ ?_ now
    · exact ⟨h.rto, fun hc => absurd hc (sends_ne hsends), fun _ => finState_ne⟩
    · exact htcp
  · have hsock : (k.pushEnd ack marks).sock = k := by
      unfold Sock.pushEnd
      split_ifs <;> rfl
    rw [heq, hsock]
    refine ⟨h.toSteady, fun htcp hs ht => ?_⟩
    have hfree := h.idle htcp hs ht
    have hp : k.pushes = true := pushes_iff.2 ⟨htcp, hfree.finSent, hs⟩
    have hsent : k.sent = 0 := by
      unfold sent
      rw [hfree.flight, BitVec.sub_self]
      rfl
    rcases hmarks with ⟨-, hno⟩ | ⟨-, -, hgoes, hfin⟩
    · rw [hp] at hno
      exact nomatch hno
    · have hout : k.outLen = 0 := by
        rcases hfree.room with hout | ⟨hwnd, hmss⟩
        · exact hout
        · have hs32 : sub32 k.outLen 0 = k.outLen := by
            rw [sub32_of_le (Nat.zero_le _) (by have : sbuf = 8192 := rfl; omega), Nat.sub_zero]
          unfold goes room at hgoes
          rw [hsent, hs32, if_pos hwnd] at hgoes
          omega
      refine ⟨hout, ?_, hfree.finSent, hfree.flight⟩
      rw [hsent, hout] at hfin
      exact Bool.eq_false_iff.2 fun hf => hfin ⟨hf, rfl⟩

theorem Steady.closed (h : Steady k) (err : ℕ) : Timed (k.tcpClosed err) := by
  unfold tcpClosed
  by_cases hr : k.refs = 0
  · rw [if_pos hr]
    exact Timed.free
  · rw [if_neg hr]
    exact Steady.timed ⟨h.rto, (fun hc => nomatch hc), fun _ => ⟨(fun hc => nomatch hc), (fun hc => nomatch hc)⟩⟩ rfl

theorem Timed.tcpAbort (h : Timed k) (err : ℕ) : Timed (k.tcpAbort err).sock := by
  unfold Sock.tcpAbort
  split_ifs
  · exact h
  · exact h.closed err

/-- **A timer that runs out** is set again, or it is over. -/
theorem Timed.tcpTimeout (h : Timed k) (ho : k.outLen ≤ sbuf) (now : ℕ) : Timed (k.tcpTimeout now).sock := by
  unfold Sock.tcpTimeout
  by_cases h₁ : k.state = .finWait2
  · rw [if_pos h₁]
    exact h.closed 0
  · rw [if_neg h₁]
    simp only
    by_cases h₂ : 8 < (k.tries + 1) % 2 ^ 8
    · rw [if_pos h₂]
      refine Timed.tcpAbort ?_ _
      exact ⟨⟨h.rto, h.fresh, h.opened⟩, fun a b c =>
        have hcalm := h.idle a b c
        ⟨hcalm.out, hcalm.finOut, hcalm.finSent, hcalm.flight⟩⟩
    · rw [if_neg h₂]
      have hpos : k.proto = .tcp → 0 < if k.rto < 30000 then k.rto * 2 else 60000 := fun htcp => by
        have := h.rto htcp
        split_ifs <;> omega
      split
      · rename_i hc
        refine Steady.timed ⟨hpos, h.fresh, h.opened⟩ ?_
        unfold sends
        simp only [hc]
      · rename_i hc
        refine Steady.timed ⟨hpos, h.fresh, h.opened⟩ ?_
        unfold sends
        simp only [hc]
      · refine Ready.tcpPush ?_ ?_ now false
        · refine ⟨⟨hpos, fun hc => ⟨(h.fresh hc).1, (h.fresh hc).2.1, rfl⟩, (fun hf => nomatch hf)⟩,
            fun htcp _ ht => ?_⟩
          have := hpos htcp
          exact absurd (show now + (if k.rto < 30000 then k.rto * 2 else 60000) = 0 from ht) (by omega)
        · exact ho

/-! ### Segments -/

/-- A segment opens a connection. -/
def opening (k : Sock) (x : Seg) : Bool :=
  k.state = .synSent && !x.flags.rst && x.flags.syn && x.flags.ack && x.ackNo = k.sndNxt

/-- A segment acknowledges all that is in flight, while more waits. -/
def draining (k : Sock) (x : Seg) : Bool :=
  k.sends && !x.flags.rst && !x.flags.syn && x.flags.ack && x.ackNo = k.sndNxt && 0 < k.sent && k.sent < k.outLen

/-- What a segment is not to do: open a connection over what an earlier one left, or acknowledge all that
is in flight while more waits, with a window that is shut or a largest segment of 0. -/
def Fed (k : Sock) (x : Seg) : Prop :=
  (k.opening x = true → k.finSent = false ∧ (k.outLen = 0 ∨ 0 < x.win ∧ 0 < x.mss)) ∧
    (k.draining x = true → 0 < x.win ∧ 0 < k.mss)

instance : Decidable (Fed k x) := inferInstanceAs (Decidable (_ ∧ _))

theorem advance_outLen {syn : Bool} (hb : Bounds k syn) (ackNo : Seq) :
    (k.advance now ackNo).1.outLen = k.outLen - min (ackNo - k.sndUna).toNat k.outLen :=
  (outShift_spec hb (Nat.min_le_right (ackNo - k.sndUna).toNat k.outLen)).1

theorem Steady.advance (h : Steady k) (hs : k.state ≠ .synRcvd) (now : ℕ) (ackNo : Seq) :
    Steady (k.advance now ackNo).1 :=
  ⟨fun _ => show 0 < rtoFirst by decide, fun hc => absurd hc hs, h.opened⟩

/-- **What a segment acknowledges** leaves the socket so that `tcp_push` can send, if no timer runs. -/
theorem Timed.acked {syn : Bool} (h : Timed k) (hb : Bounds k syn) (now : ℕ)
    (hfed : k.sends = true → x.ackNo = k.sndNxt → 0 < k.sent → k.sent < k.outLen → 0 < x.win ∧ 0 < k.mss) :
    (∀ t, k.acked now x = .inl t → Timed t.sock) ∧
      ∀ k' marks, k.acked now x = .inr (k', marks) → Ready { k' with sndWnd := x.win } := by
  have hspec := acked_spec now k x
  refine ⟨fun t ht => ?_, fun k' marks ht => ?_⟩
  · rw [ht] at hspec
    cases hspec with
    | refused => exact h
    | ahead => exact h
    | closes _ _ _ _ hstate =>
      refine (h.toSteady.advance ?_ now x.ackNo).closed 0
      rcases hstate with hc | hc <;> rw [hc] <;> decide
  · rw [ht] at hspec
    cases hspec with
    | opens hstate heq =>
      obtain ⟨hout, -, hfin⟩ := h.fresh hstate
      refine ⟨⟨h.rto, (fun hc => nomatch hc), fun hf => ?_⟩, fun _ _ _ => ⟨hfin, heq.symm, Or.inl hout⟩⟩
      have hf' : k.finSent = true := hf
      rw [hfin] at hf'
      exact nomatch hf'
    | more hstate hnew hold hfin =>
      have hsteady := h.toSteady.advance hstate now x.ackNo
      refine ⟨⟨hsteady.rto, hsteady.fresh, hsteady.opened⟩, fun htcp hs ht => ?_⟩
      have hall : x.ackNo = k.sndNxt := by
        by_contra hne
        have ht' : (if x.ackNo = k.sndNxt then 0 else now + rtoFirst) = 0 := ht
        rw [if_neg hne] at ht'
        exact absurd ht' (Nat.ne_of_gt (Nat.add_pos_right now (by decide)))
      have hs' : k.sends = true := hs
      have hfin' : k.finSent = false := by
        by_contra hf
        have hf' := (Bool.not_eq_false _).mp hf
        obtain ⟨h₁, h₂, h₃⟩ := hfin hf' hall
        obtain ⟨h₄, h₅⟩ := h.opened hf'
        unfold sends at hs'
        cases hc : k.state <;> simp_all
      refine ⟨hfin', hall.symm, ?_⟩
      show (k.advance now x.ackNo).1.outLen = 0 ∨ 0 < x.win ∧ 0 < k.mss
      rw [advance_outLen hb, hall]
      by_cases hle : k.outLen ≤ k.sent
      · exact Or.inl (by
          show k.outLen - min k.sent k.outLen = 0
          omega)
      · obtain ⟨hpos, -, -⟩ := acked_le hb.flight_lt hnew hold
        rw [hall] at hpos
        exact Or.inr (hfed hs' hall hpos (not_le.1 hle))
    | half =>
      refine (Steady.timed ⟨fun _ => show 0 < rtoFirst by decide, fun hc => ?_, fun _ => ?_⟩ rfl).ready
      · exact absurd (show Conn.finWait2 = .synRcvd from hc) (by decide)
      · show Conn.finWait2 ≠ .established ∧ Conn.finWait2 ≠ .closeWait
        decide
    | again hflight dups =>
      refine ⟨⟨h.rto, fun hc => ⟨(h.fresh hc).1, (h.fresh hc).2.1, rfl⟩, (fun hf => nomatch hf)⟩,
        fun htcp hs ht => absurd (h.idle htcp hs ht).flight hflight⟩
    | nothing =>
      exact ⟨⟨h.rto, h.fresh, h.opened⟩, fun htcp hs ht =>
        have hcalm := h.idle htcp hs ht
        ⟨hcalm.finSent, hcalm.flight, Or.inl hcalm.out⟩⟩

theorem Ready.takeData (h : Ready k) (x : Seg) (again : Bool) : Ready (k.takeData x again).1 := by
  unfold Sock.takeData
  split_ifs
  · exact ⟨⟨h.rto, h.fresh, h.opened⟩, fun htcp hs ht =>
      have hfree := h.idle htcp hs ht
      ⟨hfree.finSent, hfree.flight, hfree.room⟩⟩
  · exact h

theorem takeData_outLen (x : Seg) (again : Bool) : (k.takeData x again).1.outLen = k.outLen := by
  unfold takeData
  split_ifs <;> rfl

theorem finHeard_ne {c : Conn} (h : c ≠ .established ∧ c ≠ .closeWait) :
    finHeard c ≠ .established ∧ finHeard c ≠ .closeWait := by
  unfold finHeard
  split
  · exact absurd rfl h.1
  · decide
  · exact h

theorem Ready.takeFin (h : Ready k) (ho : k.outLen ≤ sbuf) (fin again : Bool) (marks : List Mark) :
    Timed (k.takeFin now fin again marks).sock := by
  unfold Sock.takeFin
  by_cases hfin : (fin && !k.finIn) = true
  · rw [if_pos hfin]
    simp only
    by_cases hstate : k.state = .finWait2
    · rw [if_pos hstate]
      refine Steady.timed ⟨h.rto, h.fresh, h.opened⟩ ?_
      show k.sends = false
      unfold sends
      rw [hstate]
    · rw [if_neg hstate]
      refine Ready.tcpPush ?_ ?_ now true
      · refine ⟨⟨h.rto, fun hc => ?_, fun hf => finHeard_ne (h.opened hf)⟩, fun htcp hs ht => ?_⟩
        · have hc' : k.state = .synRcvd := by
            have hc₁ : finHeard k.state = .synRcvd := hc
            unfold finHeard at hc₁
            split at hc₁
            · exact nomatch hc₁
            · exact nomatch hc₁
            · exact hc₁
          exact h.fresh hc'
        · have hs' : k.sends = true := by
            have hs₁ : Sock.sends { k with rcvNxt := k.rcvNxt + 1, finIn := true, state := finHeard k.state } = true := hs
            unfold sends finHeard at hs₁
            unfold sends
            cases hc : k.state <;> simp_all
          have hfree := h.idle htcp hs' ht
          exact ⟨hfree.finSent, hfree.flight, hfree.room⟩
      · exact ho
  · rw [if_neg hfin]
    exact h.tcpPush ho now again

theorem trim_same (k : Sock) (x : Seg) : (k.trim x).1.ackNo = x.ackNo ∧ (k.trim x).1.win = x.win ∧
    (k.trim x).1.flags.ack = x.flags.ack := by
  have hunhad : (k.unhad x).1.ackNo = x.ackNo ∧ (k.unhad x).1.win = x.win ∧
      (k.unhad x).1.flags.ack = x.flags.ack := by
    unfold unhad
    simp only
    split_ifs <;> exact ⟨rfl, rfl, rfl⟩
  unfold trim
  simp only
  split_ifs
  · exact hunhad
  · exact hunhad
  · exact ⟨rfl, rfl, rfl⟩

/-- **A segment** leaves a timer running, or nothing to send. -/
theorem Timed.tcpInput {syn : Bool} (h : Timed k) (hb : Bounds k syn) (hfed : Fed k x) :
    Timed (k.tcpInput now x).sock := by
  unfold Sock.tcpInput
  by_cases hrst : x.flags.rst = true
  · rw [if_pos hrst]
    split_ifs
    · exact h.closed _
    · exact h.closed _
    · exact h
  · rw [if_neg hrst]
    have hrst' := Bool.eq_false_iff.2 hrst
    by_cases hsent : k.state = .synSent
    · rw [if_pos hsent]
      by_cases hack : x.flags.ack = true ∧ x.ackNo ≠ k.sndNxt
      · rw [if_pos hack]
        exact h
      · rw [if_neg hack]
        by_cases hboth : x.flags.syn = true ∧ x.flags.ack = true
        · rw [if_neg (not_not.2 hboth)]
          have heq : x.ackNo = k.sndNxt := by
            by_contra hne
            exact hack ⟨hboth.2, hne⟩
          obtain ⟨hfin, hroom⟩ := hfed.1 (by
            unfold opening
            simp [hsent, hrst', hboth.1, hboth.2, heq])
          refine Ready.tcpPush ?_ ?_ now true
          swap
          · exact hb.out
          refine ⟨⟨h.rto, (fun hc => nomatch hc), fun hf => ?_⟩, fun _ _ _ => ⟨hfin, heq.symm, hroom⟩⟩
          have hf' : k.finSent = true := hf
          rw [hfin] at hf'
          exact nomatch hf'
        · rw [if_pos hboth]
          exact h
    · rw [if_neg hsent]
      by_cases hsyn : x.flags.syn = true
      · rw [if_pos hsyn]
        split_ifs <;> exact h
      · rw [if_neg hsyn]
        obtain ⟨hno, hwin, hflag⟩ := k.trim_same x
        have hdrains : (k.trim x).1.flags.ack = true → k.sends = true → (k.trim x).1.ackNo = k.sndNxt →
            0 < k.sent → k.sent < k.outLen → 0 < (k.trim x).1.win ∧ 0 < k.mss := by
          rw [hno, hwin, hflag]
          intro hack hs heq hpos hlt
          refine hfed.2 ?_
          unfold draining
          simp [hs, hrst', hsyn, hack, heq, hpos, hlt]
        simp only
        by_cases hack : (k.trim x).1.flags.ack = true
        · rw [if_neg (not_not.2 hack)]
          obtain ⟨hends, hgoes⟩ := h.acked (x := (k.trim x).1) hb now (hdrains hack)
          cases hd : k.acked now (k.trim x).1 with
          | inl t => exact hends t hd
          | inr r =>
            obtain ⟨k₁, marks⟩ := r
            have hready := (hgoes k₁ marks hd).takeData (k.trim x).1 (k.trim x).2
            refine hready.takeFin ?_ _ _ _
            rw [takeData_outLen]
            exact ((hb.acked now _).2 k₁ marks hd).1.out
        · rw [if_pos hack]
          exact h

/-! ### Calls -/

/-- What a write is not to do: leave bytes to a window that is shut, or a largest segment of 0, with no
timer running. -/
def Fills (k : Sock) (data : List UInt8) : Prop :=
  k.state = .established ∨ k.state = .closeWait → k.finOut = false → data ≠ [] → k.timer = 0 →
    0 < k.sndWnd ∧ 0 < k.mss

instance (data : List UInt8) : Decidable (Fills k data) := inferInstanceAs (Decidable (_ → _ → _ → _ → _))

theorem Timed.congr (h : Timed k) (hsteady : Steady k') (hproto : k'.proto = k.proto) (hsends : k'.sends = k.sends)
    (htimer : k'.timer = k.timer) (hout : k'.outLen = k.outLen) (hfin : k'.finOut = k.finOut)
    (hsent : k'.finSent = k.finSent) (hnxt : k'.sndNxt = k.sndNxt) (huna : k'.sndUna = k.sndUna) : Timed k' := by
  refine ⟨hsteady, fun htcp hs ht => ?_⟩
  have hcalm := h.idle (hproto ▸ htcp) (hsends ▸ hs) (htimer ▸ ht)
  exact ⟨hout ▸ hcalm.out, hfin ▸ hcalm.finOut, hsent ▸ hcalm.finSent, by rw [hnxt, huna]; exact hcalm.flight⟩

theorem Timed.finish (h : Timed k) (ho : k.outLen ≤ sbuf) (hs : k.sends = true) (n now : ℕ) :
    Timed (tcpPush now { k with refs := n, finOut := true } false).sock := by
  refine Ready.tcpPush ?_ ?_ now false
  · refine ⟨⟨h.rto, fun hc => ?_, h.opened⟩, fun htcp _ ht => ?_⟩
    · have hc' : k.state = .synRcvd := hc
      unfold sends at hs
      rw [hc'] at hs
      exact nomatch hs
    · have hcalm := h.idle htcp hs ht
      exact ⟨hcalm.finSent, hcalm.flight, Or.inl hcalm.out⟩
  · exact ho

theorem sends_of_open (h : k.state = .established ∨ k.state = .closeWait) : k.sends = true := by
  unfold sends
  rcases h with hc | hc <;> rw [hc]

theorem Timed.shutdown (h : Timed k) (ho : k.outLen ≤ sbuf) : Timed (k.shutdown now).sock := by
  unfold Sock.shutdown
  split_ifs with hc
  · exact h.finish ho (sends_of_open hc) k.refs now
  · exact h

/-- **`tcp_write`.** -/
theorem Timed.tcpWrite (h : Timed k) (ho : k.outLen ≤ sbuf) {data : List UInt8} (hf : Fills k data) :
    Timed (k.tcpWrite now data).1.sock := by
  unfold Sock.tcpWrite
  by_cases hstate : k.state ≠ .established ∧ k.state ≠ .closeWait
  · rw [if_pos hstate]
    exact h.congr ⟨h.rto, h.fresh, h.opened⟩ rfl rfl rfl rfl rfl rfl rfl rfl
  · rw [if_neg hstate]
    by_cases hfin : k.finOut = true
    · rw [if_pos hfin]
      exact h
    · rw [if_neg hfin]
      have hopen : k.state = .established ∨ k.state = .closeWait := by
        by_contra hno
        exact hstate (not_or.1 hno)
      have hs : sbuf = 8192 := rfl
      have hroom : sub32 sbuf k.outLen = sbuf - k.outLen := sub32_of_le ho (by omega)
      simp only
      by_cases hzero : min (sub32 sbuf k.outLen) data.length = 0
      · rw [if_pos hzero]
        exact h
      · rw [if_neg hzero]
        have hne : data ≠ [] := by
          rintro rfl
          exact hzero (Nat.min_zero _)
        refine Ready.tcpPush ?_ ?_ now false
        · refine ⟨⟨h.rto, fun hc => ?_, h.opened⟩, fun htcp hsend ht => ?_⟩
          · have hc' : k.state = .synRcvd := hc
            rcases hopen with hc | hc <;> rw [hc'] at hc <;> exact nomatch hc
          · have hcalm := h.idle htcp hsend ht
            exact ⟨hcalm.finSent, hcalm.flight, Or.inr (hf hopen hcalm.finOut hne ht)⟩
        · show k.outLen + min (sub32 sbuf k.outLen) data.length ≤ sbuf
          omega

theorem Timed.ring (h : Timed k) (head len : ℕ) : Timed { k with inHead := head, inLen := len } :=
  h.congr ⟨h.rto, h.fresh, h.opened⟩ rfl rfl rfl rfl rfl rfl rfl rfl

theorem Timed.ringGet (h : Timed k) (n : ℕ) (peek : Bool) : Timed (k.ringGet n peek).2.1 := by
  cases peek with
  | true => exact h
  | false => exact h.ring ((k.inHead + n) % rbuf) (sub32 k.inLen n)

theorem Timed.tcpRead (h : Timed k) (size : ℕ) (peek : Bool) : Timed (k.tcpRead size peek).1.sock := by
  unfold Sock.tcpRead
  by_cases hin : 0 < k.inLen
  · rw [if_pos hin]
    have hget := h.ringGet (min size k.inLen) peek
    exact hget
  · rw [if_neg hin]
    split_ifs
    · exact h.congr ⟨h.rto, h.fresh, h.opened⟩ rfl rfl rfl rfl rfl rfl rfl rfl
    all_goals exact h

/-- A `SYN` sent: nothing else is. -/
theorem Steady.syn (h : Steady k) (hs : k.sends = false) (now : ℕ) : Timed (Sock.arm now k) := by
  rcases arm_cases now k with heq | heq
  · rw [heq]
    exact h.timed hs
  · rw [heq]
    exact Steady.timed ⟨h.rto, h.fresh, h.opened⟩ hs

theorem offered_timed (l port src sport : ℕ) (loop : Bool) (iss : Seq) :
    Timed ((Sock.new .tcp).offered now l port src sport loop iss x).sock := by
  refine Steady.syn (k := { Sock.new .tcp with
      state := .synRcvd, parent := l % 2 ^ 8, port := port, peerIp := src, peerPort := sport
      rcvNxt := x.seq + 1, sndUna := iss, sndNxt := iss + 1, sndWnd := x.win, mss := x.mss, loop := loop }) ?_ ?_ now
  · exact ⟨fun _ => show 0 < rtoFirst by decide, fun _ => ⟨rfl, rfl, rfl⟩, (fun hf => nomatch hf)⟩
  · rfl

theorem Timed.connect (h : Timed k) (loop : Bool) (ip peerPort port : ℕ) (iss : Seq) :
    Timed (k.connect now loop ip peerPort port iss).sock := by
  refine Steady.syn ?_ ?_ now
  · exact ⟨h.rto, (fun hc => nomatch hc), fun _ => ⟨(fun hc => nomatch hc), (fun hc => nomatch hc)⟩⟩
  · rfl

end Sock

/-! ### Every run -/

namespace Stack
open Sock

variable {s s' : Stack} {k : Sock} {i : ℕ} {a : Act}

/-- What a step is not to do, for a timer to be running where one is needed. -/
def feeds (s : Stack) : Act → Bool
  | .segment src p _ _ _ =>
    (parse p).all fun r => (s.tcpFind src r.1 r.2.1).all fun i => decide ((s.socks i).Fed r.2.2)
  | .write i data => decide ((s.socks i).Fills data)
  | _ => true

theorem moved_timed (h : Timed (s.socks i)) (hs : Sound s) (hf : feeds s a = true) (hm : Moved s i a k) : Timed k := by
  have ho := (hs.bounds i).out
  have hsame : Steady (s.socks i) := h.toSteady
  cases hm with
  | same => exact h
  | heard loop room iss hp hfind hl =>
    unfold feeds at hf
    simp only at hf
    rw [hp, Option.all_some] at hf
    simp only at hf
    rw [hfind, Option.all_some, decide_eq_true_iff] at hf
    exact h.tcpInput (hs.bounds i) hf
  | offered => exact offered_timed _ _ _ _ _ _
  | unreachable => exact h.closed _
  | timeout => exact h.tcpTimeout ho s.now
  | pushed => exact h.ready.tcpPush ho s.now false
  | closed err => exact h.closed err
  | child => exact h.tcpAbort 0
  | childless => exact Timed.free
  | lingered _ hhalf =>
    refine Steady.timed ⟨h.rto, h.fresh, h.opened⟩ ?_
    show (s.socks i).sends = false
    unfold sends
    rw [hhalf]
  | made room hfree hproto => exact ⟨⟨fun _ => show 0 < rtoFirst by decide, (fun hc => nomatch hc), (fun hf => nomatch hf)⟩, fun _ hs => nomatch hs⟩
  | held => exact h.congr ⟨h.rto, h.fresh, h.opened⟩ rfl rfl rfl rfl rfl rfl rfl rfl
  | fewer => exact h.congr ⟨h.rto, h.fresh, h.opened⟩ rfl rfl rfl rfl rfl rfl rfl rfl
  | freed => exact Timed.free
  | left => exact h.congr ⟨h.rto, h.fresh, h.opened⟩ rfl rfl rfl rfl rfl rfl rfl rfl
  | aborted =>
    refine Timed.tcpAbort ?_ 0
    exact h.congr ⟨h.rto, h.fresh, h.opened⟩ rfl rfl rfl rfl rfl rfl rfl rfl
  | finished _ _ hopen => exact h.finish ho (sends_of_open hopen) 0 s.now
  | bound => exact h.congr ⟨h.rto, h.fresh, h.opened⟩ rfl rfl rfl rfl rfl rfl rfl rfl
  | connected => exact h.connect _ _ _ _ _
  | listened =>
    exact Steady.timed ⟨h.rto, (fun hc => nomatch hc), fun _ => ⟨(fun hc => nomatch hc), (fun hc => nomatch hc)⟩⟩ rfl
  | accepted => exact h.congr ⟨h.rto, h.fresh, h.opened⟩ rfl rfl rfl rfl rfl rfl rfl rfl
  | shut => exact h.shutdown ho
  | wrote data => exact h.tcpWrite ho (of_decide_eq_true hf)
  | read size peek => exact h.tcpRead size peek
  | cleared => exact h.congr ⟨h.rto, h.fresh, h.opened⟩ rfl rfl rfl rfl rfl rfl rfl rfl

/-- **What waits has a timer**, in every run of such steps. -/
theorem steps_timed {as : List Act} (hs : Stack.empty.steps as = some s) (hf : Stack.empty.always feeds as = true) :
    ∀ i, (s.socks i).proto = .tcp → (s.socks i).Waits → (s.socks i).timer ≠ 0 := by
  have h : Sound s ∧ ∀ i, Timed (s.socks i) :=
    always_keeps (I := fun s => Sound s ∧ ∀ i, Timed (s.socks i))
      (fun h hc hstep => ⟨(step_sound h.1 hstep).sound, fun i => moved_timed (h.2 i) h.1 hc (step_moved hstep i)⟩)
      ⟨Sound.empty, fun _ => Timed.free⟩ hf hs
  exact fun i => (h.2 i).timer_ne

/-- A program accepts a connection and writes a byte, which goes. -/
def writesOne : List Act :=
  [.socket .tcp true, .listen 0 1 80, .segment 7 (header 9 80 100 0 2 4096) true true 5,
    .segment 7 (header 9 80 101 6 16 4096) true true 0, .accept 0, .write 1 [1], .resume]

theorem steps_timed_one : ∃ s, Stack.empty.steps writesOne = some s ∧
    ((s.socks 1).outLen, (s.socks 1).timer) = (1, 1000) ∧
      ∀ i, (s.socks i).proto = .tcp → (s.socks i).Waits → (s.socks i).timer ≠ 0 := by
  have hrun : (Stack.empty.steps writesOne).map (fun s => ((s.socks 1).outLen, (s.socks 1).timer)) =
      some (1, 1000) := by
    decide +kernel
  obtain ⟨s, hs, heq⟩ := Option.map_eq_some_iff.1 hrun
  exact ⟨s, hs, heq, steps_timed hs (by decide +kernel)⟩

/-- A program accepts a connection whose far end has its window shut, and writes a byte. -/
def writesShut : List Act :=
  [.socket .tcp true, .listen 0 1 80, .segment 7 (header 9 80 100 0 2 0) true true 5,
    .segment 7 (header 9 80 101 6 16 0) true true 0, .accept 0, .write 1 [1]]

/-- It waits for ever, with no timer. -/
theorem exists_not_timed : ∃ as s, Stack.empty.steps as = some s ∧ s.frames = [] ∧
    ¬∀ i, (s.socks i).proto = .tcp → (s.socks i).Waits → (s.socks i).timer ≠ 0 := by
  have hrun : (Stack.empty.steps writesShut).map (fun s => (s.frames, (s.socks 1).proto, (s.socks 1).sends,
      (s.socks 1).outLen, (s.socks 1).timer)) = some ([], .tcp, true, 1, 0) := by
    decide +kernel
  obtain ⟨s, hs, heq⟩ := Option.map_eq_some_iff.1 hrun
  simp only [Prod.mk.injEq] at heq
  obtain ⟨hframes, htcp, hsends, hout, htimer⟩ := heq
  exact ⟨_, s, hs, hframes, fun h => h 1 htcp ⟨hsends, Or.inl (by rw [hout]; exact Nat.one_pos)⟩ htimer⟩

end Stack
end BaxOS.Net
