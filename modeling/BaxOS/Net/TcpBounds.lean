import BaxOS.Net.Tcp

/-!
# What TCP counts stays in bounds

Of one socket: what is in flight is what `out` holds, besides a `FIN` or a `SYN`; nothing is copied from
outside a buffer or into it; and the right edge of the window never moves back (`Bounds`, `Onward`). Each
function keeps to it, whatever the segment.
-/

namespace BaxOS.Net
namespace Sock

variable {k k' : Sock} {syn : Bool} {now n : ℕ} {x : Seg} {t : Turn}

/-! ### Numbers -/

theorem sub32_of_le {a b : ℕ} (h : b ≤ a) (ha : a < 2 ^ 32) : sub32 a b = a - b := by
  unfold sub32
  omega

theorem seqLt_iff {a b : Seq} : seqLt a b = true ↔ 2 ^ 31 ≤ (a - b).toNat := by
  unfold seqLt
  rw [show (0 : Seq) = 0#32 from rfl, BitVec.slt_zero_eq_msb, BitVec.msb_eq_decide, decide_eq_true_iff]

theorem toNat_add_sub {a b : Seq} {n : ℕ} (h : (a - b).toNat + n < 2 ^ 32) :
    (a + .ofNat 32 n - b).toNat = (a - b).toNat + n := by
  bv_omega

/-- An acknowledgement of something new is of some of what is in flight. -/
theorem acked_le {una nxt ack : Seq} (hf : (nxt - una).toNat < 2 ^ 31) (hnew : seqLt una ack = true)
    (hold : seqLt nxt ack = false) : 0 < (ack - una).toNat ∧ (ack - una).toNat ≤ (nxt - una).toNat ∧
      (nxt - ack).toNat = (nxt - una).toNat - (ack - una).toNat := by
  rw [seqLt_iff] at hnew
  rw [← Bool.not_eq_true, seqLt_iff] at hold
  refine ⟨?_, ?_, ?_⟩ <;> bv_omega

/-! ### The bounds -/

/-- What is kept of a function's course is inside its buffer, and nothing is taken from less. -/
def MarkOk : Mark → Prop
  | .out at_ n => at_ + n ≤ sbuf
  | .ring at_ n => at_ + n ≤ rbuf
  | .less a b => b ≤ a

/-- **The bounds**; `syn` says whether the socket's `SYN` is yet to be acknowledged. -/
structure Bounds (k : Sock) (syn : Bool) : Prop where
  out : k.outLen ≤ sbuf
  ring : k.inLen ≤ rbuf
  head : k.inHead < rbuf
  flight : k.sent ≤ k.outLen + if k.finSent ∨ syn then 1 else 0
  syn : synAfter syn k = syn

/-- A function's course is within them. -/
structure Within (t : Turn) (syn : Bool) : Prop where
  sock : Bounds t.sock (synAfter syn t.sock)
  marks : ∀ m ∈ t.marks, MarkOk m

theorem Bounds.flight_lt (h : Bounds k syn) : k.sent < 2 ^ 31 := by
  have hf := h.flight
  have ho := h.out
  have hs : sbuf = 8192 := rfl
  split_ifs at hf <;> omega

theorem pushes_iff : k.pushes = true ↔ k.proto = .tcp ∧ k.finSent = false ∧ k.sends = true := by
  unfold pushes
  rw [Bool.and_eq_true_iff, Bool.and_eq_true_iff, decide_eq_true_iff, Bool.not_eq_true', and_assoc]

/-- A socket that sends has had its `SYN` acknowledged. -/
theorem Bounds.of_pushes (h : Bounds k syn) (hp : k.pushes = true) : syn = false ∧ k.sent ≤ k.outLen := by
  obtain ⟨-, hfin, hsends⟩ := pushes_iff.1 hp
  have hsyn : syn = false := by
    rw [← h.syn]
    unfold synAfter
    unfold sends at hsends
    split at hsends <;> simp_all
  have hf := h.flight
  rw [hfin, hsyn] at hf
  exact ⟨hsyn, by simpa using hf⟩

theorem Bounds.free (syn : Bool) : Bounds Sock.free syn :=
  ⟨Nat.zero_le _, Nat.zero_le _, by decide, Nat.zero_le _, rfl⟩

theorem Bounds.syn_of (h : Bounds k syn) (hstate : k'.state = k.state) : synAfter syn k' = syn := by
  have hs := h.syn
  unfold synAfter at hs ⊢
  rwa [hstate]

/-- The bounds look at no more than this. -/
theorem Bounds.congr (h : Bounds k syn) (hout : k'.outLen = k.outLen) (hring : k'.inLen = k.inLen)
    (hhead : k'.inHead = k.inHead) (hnxt : k'.sndNxt = k.sndNxt) (huna : k'.sndUna = k.sndUna)
    (hfin : k'.finSent = k.finSent) (hstate : k'.state = k.state) : Bounds k' syn := by
  refine ⟨hout ▸ h.out, hring ▸ h.ring, hhead ▸ h.head, ?_, h.syn_of hstate⟩
  have hf := h.flight
  unfold Sock.sent at hf ⊢
  rwa [hnxt, huna, hout, hfin]

theorem arm_cases (now : ℕ) (k : Sock) : arm now k = k ∨ arm now k = { k with timer := now + k.rto } := by
  unfold arm
  split_ifs
  · exact Or.inr rfl
  · exact Or.inl rfl

theorem Bounds.arm (h : Bounds k syn) : Bounds (arm now k) syn := by
  rcases arm_cases now k with heq | heq
  · rwa [heq]
  · rw [heq]
    exact h.congr rfl rfl rfl rfl rfl rfl rfl

/-- A turn that leaves its socket within the bounds. -/
theorem Bounds.within (h : Bounds t.sock syn) (hm : ∀ m ∈ t.marks, MarkOk m) : Within t syn :=
  ⟨by rw [h.syn]; exact h, hm⟩

theorem Bounds.closed (h : Bounds k syn) (err : ℕ) :
    Bounds (k.tcpClosed err) (synAfter syn (k.tcpClosed err)) := by
  unfold tcpClosed
  by_cases hr : k.refs = 0
  · rw [if_pos hr]
    exact Bounds.free _
  · rw [if_neg hr]
    exact ⟨h.out, h.ring, h.head, h.flight, rfl⟩

theorem Bounds.tcpAbort (h : Bounds k syn) (err : ℕ) : Within (k.tcpAbort err) syn := by
  unfold Sock.tcpAbort
  split_ifs
  · exact Bounds.within h (fun m hm => nomatch hm)
  · exact ⟨h.closed err, fun m hm => nomatch hm⟩

/-! ### Sending -/

theorem Bounds.pushEnd {marks : List Mark} (h : Bounds k syn) (hm : ∀ m ∈ marks, MarkOk m) (ack : Bool) :
    Within (k.pushEnd ack marks) syn := by
  unfold Sock.pushEnd
  split_ifs
  · exact Bounds.within h hm
  · exact Bounds.within h hm

/-- **What `tcp_push` does** in a turn: data goes, or the `FIN`, or nothing, in which case there is nothing that
could. -/
theorem tcpPush_cases (now : ℕ) (k : Sock) (ack : Bool) :
    (k.pushes = true ∧ 0 < k.goes ∧ k.tcpPush now ack =
      ⟨arm now { k with sndNxt := k.sndNxt + .ofNat 32 k.goes },
        some (k.seg ackPsh k.sndNxt (bytes k.outBuf k.sent k.goes)), .push,
        [.less k.outLen k.sent, .out k.sent k.goes]⟩) ∨
    (k.pushes = true ∧ k.goes = 0 ∧ k.finOut = true ∧ k.sent = k.outLen ∧ k.tcpPush now ack =
      ⟨arm now { k with sndNxt := k.sndNxt + 1, finSent := true, state := finState k.state },
        some (k.seg ackFin k.sndNxt []), .done, [.less k.outLen k.sent]⟩) ∨
    ∃ marks, (marks = [] ∧ k.pushes = false ∨
        marks = [.less k.outLen k.sent] ∧ k.pushes = true ∧ k.goes = 0 ∧ ¬(k.finOut = true ∧ k.sent = k.outLen)) ∧
      k.tcpPush now ack = k.pushEnd ack marks := by
  unfold Sock.tcpPush
  by_cases hp : k.pushes = true
  · rw [if_pos hp]
    by_cases hn : 0 < k.goes
    · rw [if_pos hn]
      exact Or.inl ⟨hp, hn, rfl⟩
    · rw [if_neg hn]
      by_cases hf : k.finOut = true ∧ k.sent = k.outLen
      · rw [if_pos hf]
        exact Or.inr (Or.inl ⟨hp, Nat.eq_zero_of_not_pos hn, hf.1, hf.2, rfl⟩)
      · rw [if_neg hf]
        exact Or.inr (Or.inr ⟨_, Or.inr ⟨rfl, hp, Nat.eq_zero_of_not_pos hn, hf⟩, rfl⟩)
  · rw [if_neg hp]
    exact Or.inr (Or.inr ⟨_, Or.inl ⟨rfl, Bool.not_eq_true _ ▸ hp⟩, rfl⟩)

/-- What goes next is in `out`. -/
theorem Bounds.goes_le (h : Bounds k syn) (hp : k.pushes = true) : k.sent + k.goes ≤ k.outLen := by
  obtain ⟨-, hle⟩ := h.of_pushes hp
  have ho := h.out
  have hs : sbuf = 8192 := rfl
  have hg : k.goes ≤ sub32 k.outLen k.sent := (Nat.min_le_left _ _).trans (Nat.min_le_left _ _)
  rw [sub32_of_le hle (by omega)] at hg
  omega

theorem sent_add {n : ℕ} (h : k.sent + n < 2 ^ 32) : (k.sndNxt + .ofNat 32 n - k.sndUna).toNat = k.sent + n :=
  toNat_add_sub h

theorem sent_succ (h : k.sent + 1 < 2 ^ 32) : (k.sndNxt + 1 - k.sndUna).toNat = k.sent + 1 :=
  toNat_add_sub (n := 1) h

/-- **`tcp_push`** takes what is in flight from what `out` holds, and sends from there on. -/
theorem Bounds.tcpPush (h : Bounds k syn) (now : ℕ) (ack : Bool) : Within (k.tcpPush now ack) syn := by
  have ho := h.out
  have hs : sbuf = 8192 := rfl
  rcases tcpPush_cases now k ack with ⟨hp, hn, heq⟩ | ⟨hp, -, -, hsent, heq⟩ | ⟨marks, hmarks, heq⟩
  · obtain ⟨-, hle⟩ := h.of_pushes hp
    have hgoes := h.goes_le hp
    rw [heq]
    refine Bounds.within (Bounds.arm ⟨h.out, h.ring, h.head, ?_, h.syn_of rfl⟩) fun m hm => ?_
    · have hsent := sent_add (k := k) (n := k.goes) (by omega)
      exact hsent.le.trans (hgoes.trans (Nat.le_add_right _ _))
    · rcases List.mem_cons.1 hm with rfl | hm
      · exact hle
      · rw [List.mem_singleton.1 hm]
        exact hgoes.trans ho
  · rw [heq]
    refine Bounds.within (Bounds.arm ⟨h.out, h.ring, h.head, ?_, ?_⟩) fun m hm => ?_
    · have hone := sent_succ (k := k) (by omega)
      rw [if_pos (Or.inl rfl)]
      exact hone.le.trans (show k.sent + 1 ≤ k.outLen + 1 by omega)
    · obtain ⟨rfl, -⟩ := h.of_pushes hp
      obtain ⟨-, -, hsends⟩ := pushes_iff.1 hp
      unfold sends at hsends
      unfold synAfter finState
      cases hc : k.state <;> simp_all
    · rw [List.mem_singleton.1 hm]
      exact hsent.le
  · rw [heq]
    refine h.pushEnd (fun m hm => ?_) ack
    rcases hmarks with ⟨rfl, -⟩ | ⟨rfl, hp, -⟩
    · exact absurd hm List.not_mem_nil
    · rw [List.mem_singleton.1 hm]
      exact (h.of_pushes hp).2

/-- **A timer that runs out** takes what is in flight back. -/
theorem Bounds.tcpTimeout (h : Bounds k syn) (now : ℕ) : Within (k.tcpTimeout now) syn := by
  unfold Sock.tcpTimeout
  by_cases h₁ : k.state = .finWait2
  · rw [if_pos h₁]
    exact ⟨h.closed 0, fun m hm => nomatch hm⟩
  · rw [if_neg h₁]
    simp only
    by_cases h₂ : 8 < (k.tries + 1) % 2 ^ 8
    · rw [if_pos h₂]
      exact Bounds.tcpAbort (k := { k with tries := (k.tries + 1) % 2 ^ 8 }) (h.congr rfl rfl rfl rfl rfl rfl rfl) _
    · rw [if_neg h₂]
      split
      · exact Bounds.within (h.congr rfl rfl rfl rfl rfl rfl rfl) (fun m hm => nomatch hm)
      · exact Bounds.within (h.congr rfl rfl rfl rfl rfl rfl rfl) (fun m hm => nomatch hm)
      · have hback : Bounds { k with
            tries := (k.tries + 1) % 2 ^ 8, rto := if k.rto < 30000 then k.rto * 2 else 60000
            timer := now + if k.rto < 30000 then k.rto * 2 else 60000
            sndNxt := k.sndUna, finSent := false, sndWnd := if k.sndWnd = 0 then 1 else k.sndWnd } syn := by
          refine ⟨h.out, h.ring, h.head, ?_, h.syn_of rfl⟩
          show (k.sndUna - k.sndUna).toNat ≤ _
          rw [BitVec.sub_self]
          exact Nat.zero_le _
        exact hback.tcpPush now false

/-! ### Buffers -/

theorem ring_copies {tail n : ℕ} (ht : tail < rbuf) (hn : n ≤ rbuf) :
    ∀ m ∈ [Mark.ring tail (min n (sub32 rbuf tail)), Mark.ring 0 (sub32 n (min n (sub32 rbuf tail)))],
      MarkOk m := by
  have hr : rbuf = 16384 := rfl
  rw [sub32_of_le ht.le (by omega), sub32_of_le (Nat.min_le_left _ _) (by omega)]
  intro m hm
  rcases List.mem_cons.1 hm with rfl | hm
  · show tail + min n (rbuf - tail) ≤ rbuf
    omega
  · rw [List.mem_singleton.1 hm]
    show 0 + (n - min n (rbuf - tail)) ≤ rbuf
    omega

theorem Bounds.ringPut (h : Bounds k syn) (data : List UInt8) (hroom : k.inLen + data.length ≤ rbuf) :
    Bounds (k.ringPut data).1 syn ∧ ∀ m ∈ (k.ringPut data).2, MarkOk m :=
  ⟨⟨h.out, hroom, h.head, h.flight, h.syn_of rfl⟩, ring_copies (Nat.mod_lt _ (by decide)) (by omega)⟩

theorem Bounds.ringGet (h : Bounds k syn) (hn : n ≤ k.inLen) (peek : Bool) :
    Bounds (k.ringGet n peek).2.1 syn ∧ (∀ m ∈ (k.ringGet n peek).2.2, MarkOk m) ∧
      (k.ringGet n peek).2.1.inLen ≤ k.inLen ∧ (k.ringGet n peek).2.1.rcvNxt = k.rcvNxt := by
  have hring := h.ring
  have hr : rbuf = 16384 := rfl
  have hm : ∀ m ∈ (k.ringGet n peek).2.2, MarkOk m := ring_copies h.head (by omega)
  cases peek with
  | true =>
    have heq : (k.ringGet n true).2.1 = k := rfl
    rw [heq]
    exact ⟨h, hm, le_refl _, rfl⟩
  | false =>
    have heq : (k.ringGet n false).2.1 =
        { k with inHead := (k.inHead + n) % rbuf, inLen := sub32 k.inLen n } := rfl
    have hhead : (k.inHead + n) % rbuf < rbuf := Nat.mod_lt (k.inHead + n) (by omega)
    rw [heq, sub32_of_le hn (by omega)]
    exact ⟨⟨h.out, (Nat.sub_le _ _).trans hring, hhead, h.flight, h.syn_of rfl⟩, hm, Nat.sub_le _ _, rfl⟩

theorem outShift_spec (h : Bounds k syn) {gone : ℕ} (hg : gone ≤ k.outLen) :
    (k.outShift gone).1.outLen = k.outLen - gone ∧ ∀ m ∈ (k.outShift gone).2, MarkOk m := by
  have ho := h.out
  have hs : sbuf = 8192 := rfl
  unfold outShift
  simp only
  rw [sub32_of_le hg (by omega)]
  refine ⟨rfl, fun m hm => ?_⟩
  rcases List.mem_cons.1 hm with rfl | hm
  · exact hg
  · rcases List.mem_cons.1 hm with rfl | hm
    · show gone + (k.outLen - gone) ≤ sbuf
      omega
    · rw [List.mem_singleton.1 hm]
      show 0 + (k.outLen - gone) ≤ sbuf
      omega

/-! ### Segments -/

/-- Nothing came in or was read. -/
def Still (k k' : Sock) : Prop := k'.rcvNxt = k.rcvNxt ∧ k'.inLen = k.inLen

theorem Still.arm (h : Still k k') : Still k (Sock.arm now k') := by
  rcases arm_cases now k' with heq | heq
  · rwa [heq]
  · rw [heq]
    exact h

theorem pushEnd_still (k : Sock) (ack : Bool) (marks : List Mark) : Still k (k.pushEnd ack marks).sock := by
  unfold Sock.pushEnd
  split_ifs <;> exact ⟨rfl, rfl⟩

theorem tcpPush_still (now : ℕ) (k : Sock) (ack : Bool) : Still k (k.tcpPush now ack).sock := by
  rcases tcpPush_cases now k ack with ⟨-, -, heq⟩ | ⟨-, -, -, -, heq⟩ | ⟨marks, -, heq⟩
  · rw [heq]
    refine Still.arm ?_
    exact ⟨rfl, rfl⟩
  · rw [heq]
    refine Still.arm ?_
    exact ⟨rfl, rfl⟩
  · rw [heq]
    exact pushEnd_still k ack marks

/-- An acknowledgement of something new is taken away from `out`. -/
theorem Bounds.advance (h : Bounds k syn) (now : ℕ) {ackNo : Seq} (hnew : seqLt k.sndUna ackNo = true)
    (hold : seqLt k.sndNxt ackNo = false) : Bounds (k.advance now ackNo).1 syn ∧
      (∀ m ∈ (k.advance now ackNo).2, MarkOk m) ∧ Still k (k.advance now ackNo).1 := by
  obtain ⟨hpos, hle, heq⟩ := acked_le h.flight_lt hnew hold
  obtain ⟨hlen, hm⟩ := outShift_spec h (Nat.min_le_right (ackNo - k.sndUna).toNat k.outLen)
  have hf : (k.sndNxt - k.sndUna).toNat ≤ k.outLen + _ := h.flight
  have ho := h.out
  refine ⟨⟨?_, h.ring, h.head, ?_, h.syn_of rfl⟩, hm, rfl, rfl⟩
  · show (k.outShift _).1.outLen ≤ sbuf
    rw [hlen]
    omega
  · show (k.sndNxt - ackNo).toNat ≤ (k.outShift _).1.outLen + if k.finSent = true ∨ syn = true then 1 else 0
    rw [hlen, heq]
    omega

/-- What a segment acknowledges: the `SYN` or something else; more; more than was sent; the same again. -/
inductive Acks (now : ℕ) (k : Sock) (x : Seg) : Turn ⊕ Sock × List Mark → Prop
  | refused (hstate : k.state = .synRcvd) : Acks now k x (.inl ⟨k, some (refusal x), .done, []⟩)
  | opens (hstate : k.state = .synRcvd) (hack : x.ackNo = k.sndNxt) :
      Acks now k x (.inr ({ k with sndUna := x.ackNo, state := .established, timer := 0, tries := 0 }, []))
  | more (hstate : k.state ≠ .synRcvd) (hnew : seqLt k.sndUna x.ackNo = true)
      (hold : seqLt k.sndNxt x.ackNo = false) (hfin : k.finSent = true → x.ackNo = k.sndNxt →
        k.state ≠ .lastAck ∧ k.state ≠ .closing ∧ k.state ≠ .finWait1) :
      Acks now k x (.inr (k.advance now x.ackNo))
  | closes (hnew : seqLt k.sndUna x.ackNo = true) (hold : seqLt k.sndNxt x.ackNo = false)
      (hfin : k.finSent = true) (hack : x.ackNo = k.sndNxt) (hstate : k.state = .lastAck ∨ k.state = .closing) :
      Acks now k x
        (.inl ⟨(k.advance now x.ackNo).1.tcpClosed 0, none, .done, (k.advance now x.ackNo).2⟩)
  | half (hnew : seqLt k.sndUna x.ackNo = true) (hold : seqLt k.sndNxt x.ackNo = false)
      (hfin : k.finSent = true) (hack : x.ackNo = k.sndNxt) (hstate : k.state = .finWait1) :
      Acks now k x (.inr ({ (k.advance now x.ackNo).1 with
        state := .finWait2
        timer := if k.refs = 0 then now + 30000 else (k.advance now x.ackNo).1.timer },
        (k.advance now x.ackNo).2))
  | ahead : Acks now k x (.inl ⟨k, some (k.seg ackOnly k.sndNxt []), .done, []⟩)
  | again (hflight : k.sndNxt ≠ k.sndUna) (dups : ℕ) :
      Acks now k x (.inr ({ k with dups := dups, sndNxt := k.sndUna, finSent := false }, []))
  | nothing (hstate : k.state ≠ .synRcvd) (dups : ℕ) : Acks now k x (.inr ({ k with dups := dups }, []))

theorem acked_spec (now : ℕ) (k : Sock) (x : Seg) : Acks now k x (k.acked now x) := by
  unfold Sock.acked
  by_cases hsyn : k.state = .synRcvd
  · rw [if_pos hsyn]
    by_cases hack : x.ackNo = k.sndNxt
    · rw [if_neg (not_not.2 hack)]
      exact .opens hsyn hack
    · rw [if_pos hack]
      exact .refused hsyn
  · rw [if_neg hsyn]
    by_cases hnew : (seqLt k.sndUna x.ackNo && !seqLt k.sndNxt x.ackNo) = true
    · rw [if_pos hnew]
      rw [Bool.and_eq_true_iff, Bool.not_eq_true'] at hnew
      simp only
      by_cases hfin : (k.advance now x.ackNo).1.finSent = true ∧ x.ackNo = (k.advance now x.ackNo).1.sndNxt
      · rw [if_pos hfin]
        have hstate : (k.advance now x.ackNo).1.state = k.state := rfl
        unfold finAcked
        rw [hstate]
        cases hc : k.state with
        | lastAck => exact .closes hnew.1 hnew.2 hfin.1 hfin.2 (Or.inl hc)
        | closing => exact .closes hnew.1 hnew.2 hfin.1 hfin.2 (Or.inr hc)
        | finWait1 => exact .half hnew.1 hnew.2 hfin.1 hfin.2 hc
        | _ =>
          exact .more hsyn hnew.1 hnew.2 fun _ _ => by
            rw [hc]
            decide
      · rw [if_neg hfin]
        exact .more hsyn hnew.1 hnew.2 fun hf ha => absurd ⟨hf, ha⟩ hfin
    · rw [if_neg hnew]
      by_cases hahead : seqLt k.sndNxt x.ackNo = true
      · rw [if_pos hahead]
        exact .ahead
      · rw [if_neg hahead]
        by_cases hdup : x.ackNo = k.sndUna ∧ x.data = [] ∧ ¬x.flags.fin ∧ k.sndNxt ≠ k.sndUna
        · rw [if_pos hdup]
          simp only
          by_cases hthree : (k.dups + 1) % 2 ^ 8 = 3
          · rw [if_pos hthree]
            exact .again hdup.2.2.2 _
          · rw [if_neg hthree]
            exact .nothing hsyn _
        · rw [if_neg hdup]
          exact .nothing hsyn k.dups

theorem Bounds.half (h : Bounds k syn) (hfin : k.finSent = true) (timer : ℕ) :
    Bounds { k with state := .finWait2, timer := timer } false := by
  have hf := h.flight
  rw [if_pos (Or.inl hfin)] at hf
  exact ⟨h.out, h.ring, h.head, hf.trans (by rw [if_pos (Or.inl hfin)]), rfl⟩

/-- **What a segment acknowledges** is taken away from `out`, or taken back. -/
theorem Bounds.acked (h : Bounds k syn) (now : ℕ) (x : Seg) :
    (∀ t, k.acked now x = .inl t → Within t syn) ∧
      ∀ k' marks, k.acked now x = .inr (k', marks) → Bounds k' (synAfter syn k') ∧
        (∀ m ∈ marks, MarkOk m) ∧ Still k k' := by
  have hstay : ∀ {k'}, Bounds k' syn → Bounds k' (synAfter syn k') := fun {k'} hk => by
    rw [hk.syn]
    exact hk
  have hnone : ∀ m ∈ ([] : List Mark), MarkOk m := fun m hm => nomatch hm
  have hspec := acked_spec now k x
  refine ⟨fun t ht => ?_, fun k' marks ht => ?_⟩
  · rw [ht] at hspec
    cases hspec with
    | refused => exact Bounds.within h hnone
    | ahead => exact Bounds.within h hnone
    | closes hnew hold =>
      obtain ⟨hb, hm, -⟩ := h.advance now hnew hold
      exact ⟨hb.closed 0, hm⟩
  · rw [ht] at hspec
    cases hspec with
    | opens hstate hack =>
      refine ⟨⟨h.out, h.ring, h.head, ?_, rfl⟩, hnone, rfl, rfl⟩
      show (k.sndNxt - x.ackNo).toNat ≤ _
      rw [hack, BitVec.sub_self]
      exact Nat.zero_le _
    | more hstate hnew hold =>
      obtain ⟨hb, hm, hstill⟩ := h.advance now hnew hold
      exact ⟨hstay hb, hm, hstill⟩
    | half hnew hold hfin =>
      obtain ⟨hb, hm, hstill⟩ := h.advance now hnew hold
      exact ⟨hb.half hfin _, hm, hstill⟩
    | again hflight dups =>
      refine ⟨hstay ⟨h.out, h.ring, h.head, ?_, h.syn_of rfl⟩, hnone, rfl, rfl⟩
      show (k.sndUna - k.sndUna).toNat ≤ _
      rw [BitVec.sub_self]
      exact Nat.zero_le _
    | nothing => exact ⟨hstay (h.congr rfl rfl rfl rfl rfl rfl rfl), hnone, rfl, rfl⟩

theorem acked_state {marks : List Mark} (ht : k.acked now x = .inr (k', marks)) :
    k'.state = k.state ∨ k'.state = .established ∨ k'.state = .finWait2 := by
  have hspec := acked_spec now k x
  rw [ht] at hspec
  cases hspec with
  | opens => exact Or.inr (Or.inl rfl)
  | half => exact Or.inr (Or.inr rfl)
  | more => exact Or.inl rfl
  | again => exact Or.inl rfl
  | nothing => exact Or.inl rfl

/-- As much came in, and a `FIN`. -/
def Took (k k' : Sock) (n e : ℕ) : Prop :=
  k'.inLen = k.inLen + n ∧ k'.rcvNxt = k.rcvNxt + .ofNat 32 (n + e) ∧ e ≤ 1

theorem Took.still {n e : ℕ} {k₁ : Sock} (h : Took k k₁ n e) (hs : Still k₁ k') : Took k k' n e :=
  ⟨hs.2.trans h.1, hs.1.trans h.2.1, h.2.2⟩

theorem Still.took {n e : ℕ} {k₁ : Sock} (hs : Still k k₁) (h : Took k₁ k' n e) : Took k k' n e :=
  ⟨hs.2 ▸ h.1, hs.1 ▸ h.2.1, h.2.2⟩

/-- **The data of a segment** is taken as far as there is room for it. -/
theorem Bounds.takeData (h : Bounds k syn) (again : Bool) : Bounds (k.takeData x again).1 syn ∧
    (∀ m ∈ (k.takeData x again).2.2.2, MarkOk m) ∧ ∃ n, Took k (k.takeData x again).1 n 0 := by
  have hring := h.ring
  have hr : rbuf = 16384 := rfl
  unfold Sock.takeData
  split_ifs with hd
  · have hroom : sub32 rbuf k.inLen = rbuf - k.inLen := sub32_of_le hring (by omega)
    have htake : (x.data.take (min (sub32 rbuf k.inLen) x.data.length)).length =
        min (sub32 rbuf k.inLen) x.data.length := by
      rw [List.length_take]
      omega
    obtain ⟨hb, hm⟩ := h.ringPut (x.data.take (min (sub32 rbuf k.inLen) x.data.length))
      (by omega)
    refine ⟨hb.congr rfl rfl rfl rfl rfl rfl rfl, fun m hin => ?_, min (sub32 rbuf k.inLen) x.data.length, ?_, rfl,
      Nat.zero_le _⟩
    · rcases List.mem_cons.1 hin with rfl | hin
      · exact hring
      · exact hm m hin
    · exact congrArg (k.inLen + ·) htake
  · exact ⟨h, (fun m hm => nomatch hm), 0, rfl, (BitVec.add_zero _).symm, Nat.zero_le _⟩

/-- A connection asked for, open or closing. -/
def lives (k : Sock) : Bool :=
  match k.state with
  | .closed | .listen => false
  | _ => true

theorem lives_finState {c : Conn} (h : c ≠ .closed ∧ c ≠ .listen) :
    finState c ≠ .closed ∧ finState c ≠ .listen := by
  unfold finState
  split
  · decide
  · decide
  · exact h

theorem tcpPush_state (now : ℕ) (k : Sock) (ack : Bool) :
    (k.tcpPush now ack).sock.state = k.state ∨ (k.tcpPush now ack).sock.state = finState k.state := by
  have harm : ∀ k' : Sock, (Sock.arm now k').state = k'.state := fun k' => by
    unfold Sock.arm
    split_ifs <;> rfl
  rcases tcpPush_cases now k ack with ⟨-, -, heq⟩ | ⟨-, -, -, -, heq⟩ | ⟨marks, -, heq⟩
  · rw [heq]
    exact Or.inl (harm _)
  · rw [heq]
    exact Or.inr (harm _)
  · rw [heq]
    unfold Sock.pushEnd
    split_ifs <;> exact Or.inl rfl

theorem lives_iff : k.lives = true ↔ k.state ≠ .closed ∧ k.state ≠ .listen := by
  unfold lives
  cases k.state <;> simp

/-- What a live socket's `SYN` is like can be told from it. -/
theorem synAfter_lives (h : k.lives = true) (syn syn' : Bool) : synAfter syn k = synAfter syn' k := by
  unfold lives at h
  unfold synAfter
  cases hc : k.state <;> rw [hc] at h <;> first | rfl | exact nomatch h

theorem Within.lives (h : Within t syn) (hl : t.sock.lives = true) (syn' : Bool) : Within t syn' :=
  ⟨by rw [synAfter_lives hl syn' syn]; exact h.sock, h.marks⟩

theorem tcpPush_lives (hl : k.lives = true) (now : ℕ) (ack : Bool) : (k.tcpPush now ack).sock.lives = true := by
  rw [lives_iff] at hl ⊢
  rcases tcpPush_state now k ack with heq | heq
  · rwa [heq]
  · rw [heq]
    exact lives_finState hl

theorem lives_finHeard {c : Conn} (h : c ≠ .closed ∧ c ≠ .listen) :
    finHeard c ≠ .closed ∧ finHeard c ≠ .listen := by
  unfold finHeard
  split
  · decide
  · decide
  · exact h

/-- **The end of `tcp_input`** takes a `FIN` at most. -/
theorem Bounds.takeFin {marks : List Mark} (h : Bounds k syn) (now : ℕ) (hl : k.lives = true)
    (hm : ∀ m ∈ marks, MarkOk m) (fin again : Bool) : Within (k.takeFin now fin again marks) syn ∧
      (k.takeFin now fin again marks).sock.lives = true ∧
        ∃ e, Took k (k.takeFin now fin again marks).sock 0 e := by
  have happend : ∀ {t : Turn}, Within t syn → Within (t.after marks) syn := fun {t} ht =>
    ⟨ht.sock, fun m hin => (List.mem_append.1 hin).elim (hm m) (ht.marks m)⟩
  unfold Sock.takeFin
  by_cases hfin : (fin && !k.finIn) = true
  · rw [if_pos hfin]
    simp only
    by_cases hstate : k.state = .finWait2
    · rw [if_pos hstate]
      exact ⟨Bounds.within (h.congr rfl rfl rfl rfl rfl rfl rfl) hm, hl, 1, rfl, rfl, le_refl _⟩
    · rw [if_neg hstate]
      have hlives : Sock.lives { k with rcvNxt := k.rcvNxt + 1, finIn := true, state := finHeard k.state } = true :=
        lives_iff.2 (lives_finHeard (lives_iff.1 hl))
      have hb : Bounds { k with rcvNxt := k.rcvNxt + 1, finIn := true, state := finHeard k.state } syn := by
        refine ⟨h.out, h.ring, h.head, h.flight, ?_⟩
        rw [← h.syn]
        unfold synAfter finHeard
        cases k.state <;> rfl
      have hstill := tcpPush_still now
        { k with rcvNxt := k.rcvNxt + 1, finIn := true, state := finHeard k.state } true
      exact ⟨happend (hb.tcpPush now true), tcpPush_lives hlives now true, 1, hstill.2, hstill.1, le_refl _⟩
  · rw [if_neg hfin]
    exact ⟨happend (h.tcpPush now again), tcpPush_lives hl now again, 0,
      Took.still ⟨rfl, (BitVec.add_zero _).symm, Nat.zero_le _⟩ (tcpPush_still now _ again)⟩

theorem Took.trans {k₁ : Sock} {n e : ℕ} (h : Took k k₁ n 0) (h' : Took k₁ k' 0 e) : Took k k' n e := by
  obtain ⟨hin, hnxt, -⟩ := h
  obtain ⟨hin', hnxt', he⟩ := h'
  refine ⟨hin'.trans hin, ?_, he⟩
  rw [hnxt', hnxt, BitVec.add_assoc, ← BitVec.ofNat_add, Nat.add_zero, Nat.zero_add]

theorem closed_past (k : Sock) (err : ℕ) : (k.tcpClosed err).past = false := by
  unfold tcpClosed past
  split_ifs <;> rfl

theorem takeData_lives (h : k.lives = true) (x : Seg) (again : Bool) : (k.takeData x again).1.lives = true := by
  unfold takeData
  split_ifs
  · exact h
  · exact h

/-- **A segment**, whatever it says, leaves its socket within the bounds, and all it takes is counted. -/
theorem Bounds.tcpInput (h : Bounds k syn) (now : ℕ) (x : Seg) (hl : k.lives = true) :
    Within (k.tcpInput now x) syn ∧
    (k.past = true → (k.tcpInput now x).sock.past = true → ∃ n e, Took k (k.tcpInput now x).sock n e) := by
  have hnone : ∀ m ∈ ([] : List Mark), MarkOk m := fun m hm => nomatch hm
  have hsame : Took k k 0 0 := ⟨rfl, (BitVec.add_zero _).symm, Nat.zero_le _⟩
  unfold Sock.tcpInput
  by_cases hrst : x.flags.rst = true
  · rw [if_pos hrst]
    split_ifs
    · exact ⟨⟨h.closed _, hnone⟩, fun _ hp => by rw [closed_past] at hp; exact nomatch hp⟩
    · exact ⟨⟨h.closed _, hnone⟩, fun _ hp => by rw [closed_past] at hp; exact nomatch hp⟩
    · exact ⟨Bounds.within h hnone, fun _ _ => ⟨0, 0, hsame⟩⟩
  · rw [if_neg hrst]
    by_cases hsent : k.state = .synSent
    · rw [if_pos hsent]
      have hpast : ¬k.past = true := by
        unfold past
        rw [hsent]
        exact Bool.false_ne_true
      by_cases hack : x.flags.ack = true ∧ x.ackNo ≠ k.sndNxt
      · rw [if_pos hack]
        exact ⟨Bounds.within h hnone, fun hp => absurd hp hpast⟩
      · rw [if_neg hack]
        by_cases hboth : x.flags.syn = true ∧ x.flags.ack = true
        · rw [if_neg (not_not.2 hboth)]
          have heq : x.ackNo = k.sndNxt := by
            by_contra hne
            exact hack ⟨hboth.2, hne⟩
          have hb : Bounds { k with
              rcvNxt := x.seq + 1, mss := x.mss, sndUna := x.ackNo, sndWnd := x.win, state := .established
              timer := 0, tries := 0 } false := by
            refine ⟨h.out, h.ring, h.head, ?_, rfl⟩
            show (k.sndNxt - x.ackNo).toNat ≤ _
            rw [heq, BitVec.sub_self]
            exact Nat.zero_le _
          exact ⟨(hb.tcpPush now true).lives (tcpPush_lives rfl now true) syn, fun hp => absurd hp hpast⟩
        · rw [if_pos hboth]
          exact ⟨Bounds.within h hnone, fun hp => absurd hp hpast⟩
    · rw [if_neg hsent]
      by_cases hsyn : x.flags.syn = true
      · rw [if_pos hsyn]
        split_ifs <;> exact ⟨Bounds.within h hnone, fun _ _ => ⟨0, 0, hsame⟩⟩
      · rw [if_neg hsyn]
        simp only
        generalize (k.trim x).1 = x, (k.trim x).2 = again
        by_cases hack : x.flags.ack = true
        · rw [if_neg (not_not.2 hack)]
          obtain ⟨hends, hgoes⟩ := h.acked now x
          cases hd : k.acked now x with
          | inl t =>
            refine ⟨hends t hd, fun _ hp => ?_⟩
            have hspec := acked_spec now k x
            rw [hd] at hspec
            cases hspec with
            | refused => exact ⟨0, 0, hsame⟩
            | ahead => exact ⟨0, 0, hsame⟩
            | closes =>
              rw [Sock.closed_past] at hp
              exact nomatch hp
          | inr r =>
            obtain ⟨k₁, marks⟩ := r
            obtain ⟨hb₁, hm₁, hstill⟩ := hgoes k₁ marks hd
            have hlives₁ : k₁.lives = true := by
              rw [lives_iff] at hl ⊢
              rcases acked_state hd with heq | heq | heq
              · rwa [heq]
              · rw [heq]
                decide
              · rw [heq]
                decide
            have hb₂ : Bounds { k₁ with sndWnd := x.win } (synAfter syn k₁) := hb₁.congr rfl rfl rfl rfl rfl rfl rfl
            obtain ⟨hb₃, hm₃, n, htook⟩ := hb₂.takeData (x := x) again
            have hlives₃ := takeData_lives (k := { k₁ with sndWnd := x.win }) hlives₁ x again
            obtain ⟨hw, hlives, e, htook'⟩ := hb₃.takeFin now hlives₃
              (fun m hin => (List.mem_append.1 hin).elim (hm₁ m) (hm₃ m))
              (Sock.takeData { k₁ with sndWnd := x.win } x again).2.1 (Sock.takeData { k₁ with sndWnd := x.win } x again).2.2.1
            exact ⟨hw.lives hlives syn, fun _ _ => ⟨n, e, (Still.took hstill htook).trans htook'⟩⟩
        · rw [if_pos hack]
          exact ⟨Bounds.within h hnone, fun _ _ => ⟨0, 0, hsame⟩⟩

/-! ### Calls -/

theorem iss_flight (iss : Seq) (n : ℕ) : (iss + 1 - iss).toNat ≤ n + 1 := by
  rw [BitVec.add_comm, BitVec.add_sub_cancel]
  exact Nat.le_add_left _ _

theorem synAfter_arm (syn : Bool) (now : ℕ) (k : Sock) : synAfter syn (Sock.arm now k) = synAfter syn k := by
  rcases arm_cases now k with heq | heq <;> rw [heq]
  rfl

/-- A socket whose `SYN` has just gone. -/
theorem Bounds.opened (h : Bounds k true) (hs : k.state = .synSent ∨ k.state = .synRcvd) (sent : Seg) :
    Within ⟨Sock.arm now k, some sent, .done, []⟩ syn := by
  refine ⟨?_, fun m hm => nomatch hm⟩
  have hsyn : synAfter syn k = true := by
    unfold synAfter
    rcases hs with heq | heq <;> rw [heq]
  show Bounds (Sock.arm now k) (synAfter syn (Sock.arm now k))
  rw [synAfter_arm, hsyn]
  exact h.arm

/-- A connection asked for. -/
theorem offered_bounds (l port src sport : ℕ) (loop : Bool) (iss : Seq) :
    Within ((Sock.new .tcp).offered now l port src sport loop iss x) syn := by
  refine Bounds.opened (k := { Sock.new .tcp with
      state := .synRcvd, parent := l % 2 ^ 8, port := port, peerIp := src, peerPort := sport
      rcvNxt := x.seq + 1, sndUna := iss, sndNxt := iss + 1, sndWnd := x.win, mss := x.mss, loop := loop })
    ⟨Nat.zero_le _, Nat.zero_le _, ?_, iss_flight iss 0, rfl⟩ (Or.inr rfl) _
  exact show 0 < rbuf by decide

theorem Bounds.connect (h : Bounds k syn) (loop : Bool) (ip peerPort port : ℕ) (iss : Seq) :
    Within (k.connect now loop ip peerPort port iss) syn := by
  refine Bounds.opened (k := { k with
      loop := loop, peerIp := ip, peerPort := peerPort, error := 0, port := port
      sndUna := iss, sndNxt := iss + 1, state := .synSent })
    ⟨h.out, h.ring, h.head, ?_, rfl⟩ (Or.inl rfl) _
  show (iss + 1 - iss).toNat ≤ k.outLen + if k.finSent = true ∨ true = true then 1 else 0
  rw [if_pos (Or.inr rfl)]
  exact iss_flight iss k.outLen

theorem Bounds.shutdown (h : Bounds k syn) (now : ℕ) : Within (k.shutdown now) syn ∧ Still k (k.shutdown now).sock := by
  have hnone : ∀ m ∈ ([] : List Mark), MarkOk m := fun m hm => nomatch hm
  unfold Sock.shutdown
  split_ifs
  · have hb : Bounds { k with finOut := true } syn := h.congr rfl rfl rfl rfl rfl rfl rfl
    exact ⟨hb.tcpPush now false, tcpPush_still now { k with finOut := true } false⟩
  · exact ⟨Bounds.within h hnone, rfl, rfl⟩

/-- **`tcp_write`** fills `out` as far as it has room. -/
theorem Bounds.tcpWrite (h : Bounds k syn) (now : ℕ) (data : List UInt8) :
    Within (k.tcpWrite now data).1 syn ∧ Still k (k.tcpWrite now data).1.sock := by
  have hnone : ∀ m ∈ ([] : List Mark), MarkOk m := fun m hm => nomatch hm
  have ho := h.out
  have hs : sbuf = 8192 := rfl
  have hroom : sub32 sbuf k.outLen = sbuf - k.outLen := sub32_of_le ho (by omega)
  unfold Sock.tcpWrite
  by_cases hstate : k.state ≠ .established ∧ k.state ≠ .closeWait
  · rw [if_pos hstate]
    exact ⟨Bounds.within (h.congr rfl rfl rfl rfl rfl rfl rfl) hnone, rfl, rfl⟩
  · rw [if_neg hstate]
    by_cases hfin : k.finOut = true
    · rw [if_pos hfin]
      exact ⟨Bounds.within h hnone, rfl, rfl⟩
    · rw [if_neg hfin]
      simp only
      have hn : min (sub32 sbuf k.outLen) data.length ≤ sbuf - k.outLen := hroom ▸ Nat.min_le_left _ _
      generalize min (sub32 sbuf k.outLen) data.length = n at hn ⊢
      by_cases hzero : n = 0
      · rw [if_pos hzero]
        refine ⟨Bounds.within h fun m hm => ?_, rfl, rfl⟩
        rw [List.mem_singleton.1 hm]
        exact ho
      · rw [if_neg hzero]
        have hb : Bounds { k with
            outBuf := lay k.outBuf k.outLen (data.take n), outLen := k.outLen + n } syn := by
          refine ⟨?_, h.ring, h.head, h.flight.trans ?_, h.syn_of rfl⟩
          · show k.outLen + n ≤ sbuf
            omega
          · exact Nat.add_le_add_right (Nat.le_add_right k.outLen n) _
        have hw := hb.tcpPush now false
        refine ⟨⟨hw.sock, fun m hm => ?_⟩, tcpPush_still now _ false⟩
        rcases List.mem_cons.1 hm with rfl | hm
        · exact ho
        · rcases List.mem_cons.1 hm with rfl | hm
          · show k.outLen + n ≤ sbuf
            omega
          · exact hw.marks m hm

/-- **`tcp_read`** takes no more than there is. -/
theorem Bounds.tcpRead (h : Bounds k syn) (size : ℕ) (peek : Bool) :
    Within (k.tcpRead size peek).1 syn ∧ (k.tcpRead size peek).1.sock.inLen ≤ k.inLen ∧
      (k.tcpRead size peek).1.sock.rcvNxt = k.rcvNxt := by
  have hnone : ∀ m ∈ ([] : List Mark), MarkOk m := fun m hm => nomatch hm
  unfold Sock.tcpRead
  by_cases hin : 0 < k.inLen
  · rw [if_pos hin]
    obtain ⟨hb, hm, hle, hnxt⟩ := h.ringGet (n := min size k.inLen) (Nat.min_le_right _ _) peek
    refine ⟨Bounds.within hb fun m hmem => ?_, hle, hnxt⟩
    rcases List.mem_cons.1 hmem with rfl | hmem
    · exact h.ring
    · exact hm m hmem
  · rw [if_neg hin]
    split_ifs
    · exact ⟨Bounds.within (h.congr rfl rfl rfl rfl rfl rfl rfl) hnone, le_refl _, rfl⟩
    all_goals exact ⟨Bounds.within h hnone, le_refl _, rfl⟩

/-! ### The window -/

/-- Its right edge. -/
def edge (k : Sock) : Seq := k.rcvNxt + .ofNat 32 k.window

/-- It does not move back, while the connection lives. -/
def Onward (k k' : Sock) : Prop :=
  k.proto = .tcp → k.past = true → k'.past = true → seqLt k'.edge k.edge = false

theorem window_eq (h : k.inLen ≤ rbuf) : k.window = min (rbuf - k.inLen) windowMost := by
  have hr : rbuf = 16384 := rfl
  have hw : windowMost = 8760 := rfl
  unfold window
  rw [sub32_of_le h (by omega)]
  simp only
  split_ifs with hlt
  · rw [Nat.mod_eq_of_lt (by omega), Nat.min_eq_left hlt.le]
  · rw [Nat.mod_eq_of_lt (by omega), Nat.min_eq_right (by omega)]

/-- The next byte expected moves on by at least as much as the window shrinks. -/
theorem not_seqLt_edge (hnxt : k'.rcvNxt = k.rcvNxt + .ofNat 32 n) (hle : k.window ≤ n + k'.window)
    (hn : n + k'.window < 2 ^ 31) : seqLt k'.edge k.edge = false := by
  rw [← Bool.not_eq_true, seqLt_iff]
  unfold edge
  rw [hnxt]
  have hw : k.window < 2 ^ 31 := by omega
  bv_omega

theorem window_le (k : Sock) : k.window ≤ windowMost := by
  have hw : windowMost = 8760 := rfl
  unfold window
  simp only
  split_ifs <;> omega

theorem Took.onward {n e : ℕ} (h : Took k k' n e) (hk : k'.inLen ≤ rbuf) : Onward k k' := by
  obtain ⟨hin, hnxt, he⟩ := h
  have hr : rbuf = 16384 := rfl
  have hw : windowMost = 8760 := rfl
  intro _ _ _
  refine not_seqLt_edge hnxt ?_ ?_
  · rw [window_eq hk, window_eq (by omega)]
    omega
  · have := k'.window_le
    omega

theorem Still.onward (h : Still k k') (hk : k.inLen ≤ rbuf) : Onward k k' :=
  Took.onward (n := 0) (e := 0) ⟨h.2, h.1.trans (BitVec.add_zero _).symm, Nat.zero_le _⟩ (h.2 ▸ hk)

/-- What is read makes room. -/
theorem onward_of_le (hin : k'.inLen ≤ k.inLen) (hnxt : k'.rcvNxt = k.rcvNxt) (hk : k.inLen ≤ rbuf) :
    Onward k k' := by
  have hw : windowMost = 8760 := rfl
  intro _ _ _
  refine not_seqLt_edge (n := 0) (hnxt.trans (BitVec.add_zero _).symm) ?_ ?_
  · rw [window_eq hk, window_eq (hin.trans hk)]
    omega
  · have := k'.window_le
    omega

theorem onward_of_past (h : k'.past = false) : Onward k k' := fun _ _ hp => by
  rw [h] at hp
  exact nomatch hp

theorem Still.tcpAbort (h : Still k k') (hk : k.inLen ≤ rbuf) (err : ℕ) : Onward k (k'.tcpAbort err).sock := by
  unfold Sock.tcpAbort
  split_ifs
  · exact h.onward hk
  · exact onward_of_past (closed_past k' err)

theorem Still.tcpPush (h : Still k k') (now : ℕ) (ack : Bool) : Still k (k'.tcpPush now ack).sock :=
  have hpush := tcpPush_still now k' ack
  ⟨hpush.1.trans h.1, hpush.2.trans h.2⟩

theorem tcpTimeout_onward (hk : k.inLen ≤ rbuf) (now : ℕ) : Onward k (k.tcpTimeout now).sock := by
  have hpush : ∀ k₁, Still k k₁ → Onward k (k₁.tcpPush now false).sock := fun k₁ h =>
    (h.tcpPush now false).onward hk
  unfold Sock.tcpTimeout
  by_cases h₁ : k.state = .finWait2
  · rw [if_pos h₁]
    exact onward_of_past (closed_past k 0)
  · rw [if_neg h₁]
    simp only
    by_cases h₂ : 8 < (k.tries + 1) % 2 ^ 8
    · rw [if_pos h₂]
      refine Still.tcpAbort ?_ hk _
      exact ⟨rfl, rfl⟩
    · rw [if_neg h₂]
      split
      · exact Still.onward ⟨rfl, rfl⟩ hk
      · exact Still.onward ⟨rfl, rfl⟩ hk
      · exact hpush _ ⟨rfl, rfl⟩

end Sock
end BaxOS.Net
