import BaxOS.Ipc.PairBytes

/-!
# What a send puts on a socketpair

On a packet pair a send puts its message in whole or not at all (`sendPacket_spec`); on a stream pair
a turn of one puts the first of the bytes it has left (`sendStream_spec`), after its descriptors
(`startStream_spec`).
-/

namespace BaxOS.Ipc

variable {D : Type}
variable {alloc : ℕ → ℕ → Bool} {iov : List (List UInt8)} {b rest : List UInt8} {n : ℕ} {a : Looks}

namespace Pipe

variable {p q : Pipe D}

/-- What `pmsg_push` changes. -/
theorem push_eq {at_ len : ℕ} {fds : List D} {alloc : Bool} (h : p.push at_ len fds alloc = some q) :
    ∃ room, q = { p with msgs := p.msgs ++ [⟨at_, len, fds⟩], msgRoom := room } := by
  unfold push at h
  split_ifs at h <;> exact ⟨_, (Option.some.inj h).symm⟩

/-! ### Packets -/

/-- The put of each buffer finds room in the pipe's buffer as it was, or memory for a larger one. -/
def Fits (p : Pipe D) (m : Grant) (iov : List (List UInt8)) : Prop :=
  ∀ i < iov.length, m.put i 0 = true ∨ p.left + (iov.take (i + 1)).flatten.length ≤ p.size

/-- A message's buffers all go in. -/
theorem putAll_spec (alloc : ℕ → ℕ → Bool) (iov : List (List UInt8)) (i : ℕ) (h : Sound p)
    (hroom : p.left + iov.flatten.length ≤ pipeCap)
    (hfit : ∀ j < iov.length, alloc (i + j) 0 = true ∨
      p.left + (iov.take (j + 1)).flatten.length ≤ p.size) :
    Grew p (putAll alloc i p iov) iov.flatten := by
  induction iov generalizing i p with
  | nil => exact Grew.refl h
  | cons b iov ih =>
    rw [List.flatten_cons, List.length_append] at hroom
    obtain ⟨-, hg, hall⟩ := put_spec h b (alloc i 0)
    have hmin : min b.length (pipeCap - p.left) = b.length := by omega
    rw [hmin] at hall
    have hn : (p.put b (alloc i 0)).2 = b.length := by
      refine hall.resolve_right ?_
      rintro ⟨-, hno, hbig⟩
      rcases hfit 0 (by simp) with halloc | hin
      · rw [Nat.add_zero, hno] at halloc
        exact Bool.noConfusion halloc
      · simp only [Nat.zero_add, List.take_succ_cons, List.take_zero, List.flatten_cons,
          List.flatten_nil, List.append_nil] at hin
        omega
    rw [hn, List.take_length] at hg
    have hleft := hg.left
    have hsize := hg.size
    rw [List.flatten_cons]
    refine hg.trans (ih (i + 1) hg.sound (by omega) fun j hj => ?_)
    have := hfit (j + 1) (by rw [List.length_cons]; omega)
    rw [List.take_succ_cons, List.flatten_cons, List.length_append, ← Nat.add_assoc i, Nat.add_right_comm i]
      at this
    exact this.imp_right fun hin => by omega

/-- How a send on a packet pair ends a turn: its message is in, or nothing of it is. -/
inductive Posted (p p' : Pipe D) (b : List UInt8) (fds : List D) : Turn Unit ℕ → Prop
  | sent (hp : Packed p') (he : SameEnds p p') (hm : p'.messages = p.messages ++ [(b, fds)]) :
      Posted p p' b fds (.returns (.ok b.length))
  | failed (hp : p' = p) (e : Errno) : Posted p p' b fds (.returns (.error e))
  | waits (hp : p' = p) : Posted p p' b fds (.waits ())

/-- **A send on a packet pair** puts its message in whole, or nothing of it. -/
theorem sendPacket_spec (h : Packed p) (a : Looks) (dontwait : Bool) {m : Grant}
    (fds : List D) (hfit : Fits p m iov) :
    Posted p (p.sendPacket a dontwait m iov fds).1 iov.flatten fds
      (p.sendPacket a dontwait m iov fds).2 := by
  have htotal : (iov.map List.length).sum = iov.flatten.length := List.length_flatten.symm
  unfold sendPacket
  simp only [htotal]
  split_ifs with hbig hfull hstop hint
  · exact .failed rfl _
  · exact .failed rfl _
  · exact .failed rfl _
  · exact .waits rfl
  · cases hpush : p.push p.wrote iov.flatten.length fds m.push with
    | none => exact .failed rfl _
    | some q =>
      obtain ⟨room, hq⟩ := push_eq hpush
      have hs : Sound q := by
        rw [hq]
        exact ⟨h.sound.read, h.sound.len, h.sound.size, h.sound.cap⟩
      have hleft : q.left = p.left := by
        rw [hq]
        rfl
      have hsize : q.size = p.size := by
        rw [hq]
      have hle := left_le h.sound
      have hg := putAll_spec m.put iov 0 hs (by omega) fun j hj => by
        rw [hleft, hsize, Nat.zero_add]
        exact hfit j hj
      have hb : (putAll m.put 0 q iov).bytes = p.bytes ++ iov.flatten := by
        rw [hg.bytes, hq]
        rfl
      have hms : (putAll m.put 0 q iov).msgs = p.msgs ++ [⟨p.wrote, iov.flatten.length, fds⟩] := by
        rw [hg.alike.msgs, hq]
      refine .sent ⟨hg.sound, ?_, ?_⟩ ⟨?_, ?_, ?_⟩ ?_
      · rw [hg.alike.packets, hq]
        exact h.packets
      · rw [hms, hb]
        exact h.chopped.append _ _
      · rw [hg.alike.refs, hq]
      · rw [hg.alike.count, hq]
      · rw [hg.alike.packets, hq]
      · unfold messages
        rw [hms, hb]
        exact chop_append h.chopped _ _

/-! ### Streams -/

/-- Bytes that go in come last. -/
theorem Woven.grew (h : Woven p) (hg : Grew p q b) :
    Woven q ∧ q.items = p.items ++ b.map .byte := by
  have hleft := hg.left
  have hw := h.wrote
  have hwrote := hg.wrote
  refine ⟨⟨hg.sound, hg.alike.packets.trans h.stream, ?_, ?_, ?_⟩, ?_⟩
  · rw [hg.alike.msgs, hg.taken]
    exact h.among.mono (by omega)
  · rw [hg.taken]
    omega
  · rw [hg.alike.msgs]
    exact h.given
  · unfold items
    rw [hg.alike.msgs, hg.taken, hg.bytes]
    exact weave_bytes h.among (by rw [length_bytes]; omega)

/-- Descriptors that go in come last. -/
theorem Woven.pushed {fds : List D} {alloc : Bool} (h : Woven p) (hfds : fds ≠ [])
    (hq : p.push p.wrote 0 fds alloc = some q) :
    Woven q ∧ q.items = p.items ++ [.fds fds] ∧ SameEnds p q ∧ q.size = p.size ∧ q.left = p.left := by
  obtain ⟨room, rfl⟩ := push_eq hq
  have hw := h.wrote
  refine ⟨⟨⟨h.sound.read, h.sound.len, h.sound.size, h.sound.cap⟩, h.stream, ?_, hw, ?_⟩, ?_,
    ⟨rfl, rfl, rfl⟩, rfl, rfl⟩
  · exact h.among.append 0 fds
  · intro m hm
    rcases List.mem_append.1 hm with hm | hm
    · exact h.given m hm
    · rw [List.mem_singleton.1 hm]
      exact hfds
  · exact weave_message h.among ((length_bytes p).trans (by omega)) 0 fds

/-- How a send on a stream pair ends a turn that put `n` of its bytes in: all are in; or it returns
with what it has in, or an error with nothing; or it waits to put in the rest. -/
inductive Sent (a : Looks) (p' : Pipe D) (b : List UInt8) (moved n : ℕ) : Turn Sending ℕ → Prop
  | all (hn : n = b.length) : Sent a p' b moved n (.returns (.ok (moved + n)))
  | short (hn : n < b.length) (e : Errno)
      (hs : (a.nonblock || a.alone) = true ∨ a.interrupted = true) :
      Sent a p' b moved n (.returns (stopped (moved + n) e))
  | waits (k : Sending) (hn : n < b.length) (hk : k.rest ++ k.iov.flatten = b.drop n)
      (hm : k.done + k.part = moved + n) (hf : 0 < k.part → pipeCap ≤ p'.size)
      (ha : (a.nonblock || a.alone) = false) (hi : a.interrupted = false) :
      Sent a p' b moved n (.waits k)

theorem Grew.full_nil (hg : Grew p q (b.take n)) (hfull : p.left = pipeCap)
    (hn : n ≤ b.length) : n = 0 := by
  have hle := left_le hg.sound
  rw [hg.left, List.length_take] at hle
  omega

theorem left_le_size (h : Sound p) : p.left ≤ p.size := (Nat.sub_le _ _).trans h.len

theorem stopped_pos (hn : 0 < n) (e : Errno) : stopped n e = .ok n := if_pos hn

/-- A send that may wait has something in after its turn, or waits. -/
theorem Sent.waits_of {moved : ℕ} {t : Turn Sending ℕ}
    (h : Sent a p b moved n t) (ha : (a.nonblock || a.alone) = false) (hi : a.interrupted = false)
    (hb : b ≠ []) : 0 < n ∨ ∃ k, t = .waits k := by
  cases h with
  | all hn =>
    rw [hn]
    exact Or.inl (List.length_pos_iff.2 hb)
  | short hn e hs =>
    rw [ha, hi] at hs
    exact absurd hs (by decide)
  | waits k => exact Or.inr ⟨k, rfl⟩

/-- A send that does not wait and finds the pipe full puts nothing more in. -/
theorem sendStream_full (alloc : ℕ → ℕ → Bool) (iov : List (List UInt8)) (h : Sound p)
    (hfull : p.left = pipeCap) (hs : (a.nonblock || a.alone) = true ∨ a.interrupted = true) (i : ℕ)
    (rest : List UInt8) {done : ℕ} (hdone : 0 < done) :
    Grew p (p.sendStream a alloc i rest 0 iov done).1 [] ∧
      (p.sendStream a alloc i rest 0 iov done).2 = .returns (.ok done) := by
  induction iov generalizing p i rest with
  | nil =>
    obtain ⟨n, hn, hg, hw⟩ := write_spec h false a (alloc i) rest 0
    have hzero := hg.full_nil hfull hn
    unfold sendStream
    generalize p.write false a (alloc i) rest 0 = w at hg hw
    obtain ⟨p', t⟩ := w
    subst hzero
    rw [List.take_zero] at hg
    cases hw with
    | all => exact ⟨hg, rfl⟩
    | broken _ he => exact Bool.noConfusion he
    | full => exact ⟨hg, congrArg _ (stopped_pos hdone _)⟩
    | interrupted => exact ⟨hg, congrArg _ (stopped_pos hdone _)⟩
    | waits _ _ _ ha hi =>
      rw [ha, hi] at hs
      exact absurd hs (by decide)
  | cons b iov ih =>
    obtain ⟨n, hn, hg, hw⟩ := write_spec h false a (alloc i) rest 0
    have hzero := hg.full_nil hfull hn
    unfold sendStream
    generalize p.write false a (alloc i) rest 0 = w at hg hw
    obtain ⟨p', t⟩ := w
    subst hzero
    rw [List.take_zero] at hg
    cases hw with
    | all =>
      obtain ⟨hg', ht⟩ := ih hg.sound (hg.left.trans hfull) (i + 1) b
      exact ⟨hg.trans hg', ht⟩
    | broken _ he => exact Bool.noConfusion he
    | full => exact ⟨hg, congrArg _ (stopped_pos hdone _)⟩
    | interrupted => exact ⟨hg, congrArg _ (stopped_pos hdone _)⟩
    | waits _ _ _ ha hi =>
      rw [ha, hi] at hs
      exact absurd hs (by decide)

/-- A write that has put something in and is stuck has filled the pipe. -/
theorem Stuck.full {alloc : ℕ → Bool} {part : ℕ} (h : Sound p)
    (hs : Stuck alloc p q rest n) (hpart : 0 < part → pipeCap ≤ p.size) (hpos : 0 < part + n) :
    q.left = pipeCap := by
  refine hs.resolve_right ?_
  rintro ⟨hn, -, hbig⟩
  have hsize := hpart (by omega)
  have hle := left_le h
  omega

/-- How a write of one buffer ends a turn, with `part` of it in before: all of it is in; or the pipe
is full, or nothing of it is in; or it waits. -/
inductive Piece (a : Looks) (p' : Pipe D) (rest : List UInt8) (part n : ℕ) :
    Turn (List UInt8 × ℕ) ℕ → Prop
  | all (hn : n = rest.length) : Piece a p' rest part n (.returns (.ok (part + n)))
  | short (hn : n < rest.length) (e : Errno) (hf : 0 < part + n → p'.left = pipeCap)
      (hs : (a.nonblock || a.alone) = true ∨ a.interrupted = true) :
      Piece a p' rest part n (.returns (stopped (part + n) e))
  | waits (hn : n < rest.length) (hf : 0 < part + n → p'.left = pipeCap)
      (ha : (a.nonblock || a.alone) = false) (hi : a.interrupted = false) :
      Piece a p' rest part n (.waits (rest.drop n, part + n))

theorem write_piece (h : Sound p) (a : Looks) (alloc : ℕ → Bool) (rest : List UInt8) {part : ℕ}
    (hpart : 0 < part → pipeCap ≤ p.size) : ∃ n ≤ rest.length,
      Grew p (p.write false a alloc rest part).1 (rest.take n) ∧
        Piece a (p.write false a alloc rest part).1 rest part n (p.write false a alloc rest part).2 := by
  obtain ⟨n, hn, hg, hw⟩ := write_spec h false a alloc rest part
  generalize p.write false a alloc rest part = w at hg hw
  obtain ⟨p', t⟩ := w
  refine ⟨n, hn, hg, ?_⟩
  cases hw with
  | all hn => exact .all hn
  | broken _ he => exact Bool.noConfusion he
  | full hlt _ hf ha => exact .short hlt _ (hf.full h hpart) (Or.inl ha)
  | interrupted hlt _ hf _ hi => exact .short hlt _ (hf.full h hpart) (Or.inr hi)
  | waits hlt _ hf ha hi => exact .waits hlt (hf.full h hpart) ha hi

theorem Sent.after {moved : ℕ} {t : Turn Sending ℕ}
    (h : Sent a p b (moved + rest.length) n t) : Sent a p (rest ++ b) moved (rest.length + n) t := by
  have hlen : (rest ++ b).length = rest.length + b.length := List.length_append
  cases h with
  | all hn =>
    rw [Nat.add_assoc]
    exact .all (by omega)
  | short hn e hs =>
    rw [Nat.add_assoc]
    exact .short (by omega) e hs
  | waits k hn hk hm hf ha hi =>
    refine .waits k (by omega) ?_ (by omega) hf ha hi
    rw [hk, List.drop_append, List.drop_eq_nil_of_le (Nat.le_add_right _ _), List.nil_append,
      Nat.add_sub_cancel_left]

/-- **A turn of a send on a stream pair** puts the first of the bytes it has left after what waits. -/
theorem sendStream_spec (a : Looks) (alloc : ℕ → ℕ → Bool) (iov : List (List UInt8)) (h : Sound p)
    (i : ℕ) (rest : List UInt8) (part done : ℕ) (hpart : 0 < part → pipeCap ≤ p.size) :
    ∃ n ≤ (rest ++ iov.flatten).length,
      Grew p (p.sendStream a alloc i rest part iov done).1 ((rest ++ iov.flatten).take n) ∧
        Sent a (p.sendStream a alloc i rest part iov done).1 (rest ++ iov.flatten) (done + part) n
          (p.sendStream a alloc i rest part iov done).2 := by
  induction iov generalizing p i rest part done with
  | nil =>
    obtain ⟨n, hn, hg, hw⟩ := write_piece h a (alloc i) rest hpart
    unfold sendStream
    generalize p.write false a (alloc i) rest part = w at hg hw
    obtain ⟨p', t⟩ := w
    rw [List.flatten_nil, List.append_nil]
    refine ⟨n, hn, ?_⟩
    cases hw with
    | all hn =>
      refine ⟨hg, ?_⟩
      show Sent a p' rest (done + part) n (.returns (.ok (done + (part + n))))
      rw [← Nat.add_assoc]
      exact .all hn
    | short hlt e hf hs =>
      rcases Nat.eq_zero_or_pos (part + n) with hz | hpos
      · obtain ⟨rfl, rfl⟩ : part = 0 ∧ n = 0 := by omega
        exact ⟨hg, .short hlt e hs⟩
      · rw [stopped_pos hpos]
        refine ⟨hg, ?_⟩
        show Sent a p' rest (done + part) n (.returns (.ok (done + (part + n))))
        rw [← Nat.add_assoc, ← stopped_pos (by omega : 0 < done + part + n) e]
        exact .short hlt e hs
    | waits hlt hf ha hi =>
      exact ⟨hg, .waits _ hlt (List.append_nil _) (Nat.add_assoc _ _ _).symm
        (fun hpos => (hf hpos).ge.trans (left_le_size hg.sound)) ha hi⟩
  | cons b iov ih =>
    obtain ⟨n, hn, hg, hw⟩ := write_piece h a (alloc i) rest hpart
    unfold sendStream
    generalize p.write false a (alloc i) rest part = w at hg hw
    obtain ⟨p', t⟩ := w
    have hlen : (rest ++ (b :: iov).flatten).length = rest.length + (b :: iov).flatten.length :=
      List.length_append
    rw [List.flatten_cons] at hlen ⊢
    have htake : (rest ++ (b ++ iov.flatten)).take n = rest.take n :=
      List.take_append_of_le_length hn
    cases hw with
    | all hn =>
      -- the next buffer
      obtain ⟨m, hm, hg', hs⟩ := ih hg.sound (i + 1) b 0 (done + (part + n))
        fun hlt => absurd hlt (Nat.lt_irrefl 0)
      subst hn
      refine ⟨rest.length + m, by omega, ?_, ?_⟩
      · rw [List.take_add, List.take_left', List.drop_left']
        · rw [List.take_length] at hg
          exact hg.trans hg'
        · rfl
        · rfl
      · show Sent a (p'.sendStream a alloc (i + 1) b 0 iov (done + (part + rest.length))).1 _ _ _
          (p'.sendStream a alloc (i + 1) b 0 iov (done + (part + rest.length))).2
        rw [Nat.add_zero, ← Nat.add_assoc] at hs
        rw [← Nat.add_assoc]
        exact hs.after
    | short hlt e hf hs =>
      rcases Nat.eq_zero_or_pos (part + n) with hz | hpos
      · obtain ⟨rfl, rfl⟩ : part = 0 ∧ n = 0 := by omega
        exact ⟨0, Nat.zero_le _, hg, .short (by omega) e hs⟩
      · -- the pipe is full, and the buffers after it find it so
        rw [stopped_pos hpos]
        obtain ⟨hg', ht⟩ := sendStream_full alloc iov hg.sound (hf hpos) hs (i + 1) b
          (show 0 < done + (part + n) by omega)
        refine ⟨n, by omega, ?_, ?_⟩
        · rw [htake, ← List.append_nil (rest.take n)]
          exact hg.trans hg'
        · show Sent a _ _ _ _ (p'.sendStream a alloc (i + 1) b 0 iov (done + (part + n))).2
          rw [ht, ← Nat.add_assoc, ← stopped_pos (by omega : 0 < done + part + n) e]
          exact .short (by omega) e hs
    | waits hlt hf ha hi =>
      refine ⟨n, by omega, by rw [htake]; exact hg, .waits _ (by omega) ?_ (Nat.add_assoc _ _ _).symm
        (fun hpos => (hf hpos).ge.trans (left_le_size hg.sound)) ha hi⟩
      show rest.drop n ++ (b ++ iov.flatten) = _
      rw [List.drop_append_of_le_length hn]

/-- The first of the buffers that is not empty finds room in the pipe, and memory if it needs it. -/
def Opens (p : Pipe D) (alloc : ℕ → ℕ → Bool) : ℕ → List (List UInt8) → Prop
  | _, [] => True
  | i, b :: iov =>
    if b = [] then Opens p alloc (i + 1) iov
    else p.left < pipeCap ∧ (alloc i 0 = true ∨ p.left + min b.length (pipeCap - p.left) ≤ p.size)

theorem Opens.congr {i : ℕ} (h : Opens p alloc i iov)
    (hleft : q.left = p.left) (hsize : q.size = p.size) : Opens q alloc i iov := by
  induction iov generalizing i with
  | nil => trivial
  | cons b iov ih =>
    unfold Opens at h ⊢
    split_ifs at h ⊢
    · exact ih h
    · rw [hleft, hsize]
      exact h

theorem sendStream_grows (h : Sound p)
    (i : ℕ) (rest : List UInt8) (done : ℕ) : p.left ≤ (p.sendStream a alloc i rest 0 iov done).1.left := by
  obtain ⟨n, -, hg, -⟩ := sendStream_spec a alloc iov h i rest 0 done
    fun hlt => absurd hlt (Nat.lt_irrefl 0)
  rw [hg.left]
  exact Nat.le_add_right _ _

/-- A write that finds room puts something in. -/
theorem write_opens {alloc : ℕ → Bool} (h : Sound p) (part : ℕ)
    (hne : rest ≠ []) (hroom : p.left < pipeCap)
    (hfit : alloc 0 = true ∨ p.left + min rest.length (pipeCap - p.left) ≤ p.size) :
    p.left < (p.write false a alloc rest part).1.left := by
  obtain ⟨n, hn, hg, hw⟩ := write_spec h false a alloc rest part
  have hleft := hg.left
  rw [List.length_take] at hleft
  have hpos := List.length_pos_iff.2 hne
  have hstuck : ¬Stuck alloc p (p.write false a alloc rest part).1 rest n ∨ 0 < n := by
    rcases Nat.eq_zero_or_pos n with hz | hz
    · refine Or.inl ?_
      rintro (hfull | ⟨-, hno, hbig⟩)
      · omega
      · rcases hfit with hyes | hin
        · rw [hno] at hyes
          exact Bool.noConfusion hyes
        · omega
    · exact Or.inr hz
  have hmoved : 0 < n := by
    generalize p.write false a alloc rest part = w at hw hstuck
    obtain ⟨p', t⟩ := w
    cases hw with
    | all hn => omega
    | broken _ he => exact Bool.noConfusion he
    | full _ _ hf => exact hstuck.resolve_left fun hno => hno hf
    | interrupted _ _ hf => exact hstuck.resolve_left fun hno => hno hf
    | waits _ _ hf => exact hstuck.resolve_left fun hno => hno hf
  omega

/-- What the first buffer puts in stays in. -/
theorem write_le_sendStream (h : Sound p)
    (i : ℕ) (rest : List UInt8) (part done : ℕ) : (p.write false a (alloc i) rest part).1.left ≤
      (p.sendStream a alloc i rest part iov done).1.left := by
  obtain ⟨n, -, hg, -⟩ := write_spec h false a (alloc i) rest part
  cases iov with
  | nil =>
    unfold sendStream
    generalize p.write false a (alloc i) rest part = w
    obtain ⟨p', k | r⟩ := w
    · obtain e | n := k <;> exact le_refl _
    · exact le_refl _
  | cons b iov =>
    unfold sendStream
    generalize p.write false a (alloc i) rest part = w at hg
    obtain ⟨p', k | r⟩ := w
    · obtain e | n := k
      · exact le_refl _
      · exact sendStream_grows hg.sound (i + 1) b (done + n)
    · exact le_refl _

/-- Then a byte goes in. -/
theorem sendStream_opens (h : Sound p)
    {i : ℕ} (done : ℕ) (hopens : Opens p alloc i (rest :: iov))
    (hne : rest ++ iov.flatten ≠ []) : p.left < (p.sendStream a alloc i rest 0 iov done).1.left := by
  by_cases hrest : rest = []
  · subst hrest
    have hnil : p.write false a (alloc i) [] 0 = (p, .returns (.ok 0)) := by
      unfold Pipe.write
      exact if_pos rfl
    rw [Opens, if_pos rfl] at hopens
    induction iov generalizing i done with
    | nil => exact absurd rfl hne
    | cons b iov ih =>
      unfold sendStream
      rw [hnil]
      show p.left < (p.sendStream a alloc (i + 1) b 0 iov (done + 0)).1.left
      by_cases hb : b = []
      · subst hb
        rw [Opens, if_pos rfl] at hopens
        refine ih (done + 0) hopens hne ?_
        unfold Pipe.write
        exact if_pos rfl
      · rw [Opens, if_neg hb] at hopens
        exact (write_opens h 0 hb hopens.1 hopens.2).trans_le (write_le_sendStream h _ _ _ _)
  · rw [Opens, if_neg hrest] at hopens
    exact (write_opens h 0 hrest hopens.1 hopens.2).trans_le (write_le_sendStream h _ _ _ _)

/-- Descriptors sent, if there are any. -/
def mark (fds : List D) : List (Item D) := if fds = [] then [] else [.fds fds]

/-- What a turn of a send on a stream pair comes to: `n` bytes of `b` put after what waits, and `fds`
before them. -/
structure Streamed (a : Looks) (p p' : Pipe D) (fds : List D) (b : List UInt8) (moved n : ℕ)
    (t : Turn Sending ℕ) : Prop where
  woven : Woven p'
  ends : SameEnds p p'
  items : p'.items = p.items ++ (mark fds ++ (b.take n).map .byte)
  size : p.size ≤ p'.size
  le : n ≤ b.length
  sent : Sent a p' b moved n t

theorem Woven.sent (a : Looks) (alloc : ℕ → ℕ → Bool) (iov : List (List UInt8)) (h : Woven p) (i : ℕ)
    (rest : List UInt8) (part done : ℕ) (hpart : 0 < part → pipeCap ≤ p.size) :
    ∃ n, Streamed a p (p.sendStream a alloc i rest part iov done).1 [] (rest ++ iov.flatten) (done + part)
      n (p.sendStream a alloc i rest part iov done).2 ∧
        (Opens p alloc i (rest :: iov) → rest ++ iov.flatten ≠ [] → part = 0 → 0 < n) := by
  obtain ⟨n, hn, hg, hs⟩ := sendStream_spec a alloc iov h.sound i rest part done hpart
  obtain ⟨hw, hitems⟩ := h.grew hg
  refine ⟨n, ⟨hw, hg.alike.sameEnds, hitems, hg.size, hn, hs⟩, fun hopens hne hzero => ?_⟩
  subst hzero
  have hlt := sendStream_opens (a := a) h.sound done hopens hne
  rw [hg.left, List.length_take] at hlt
  omega

/-- **The first turn of a send on a stream pair**: its descriptors, and the first of its bytes; or,
with no memory for them, nothing. -/
theorem startStream_spec (h : Woven p) (a : Looks) (m : Grant) (iov : List (List UInt8))
    (fds : List D) : p.startStream a m iov fds = (p, .returns (.error .enobufs)) ∨
      ∃ n, Streamed a p (p.startStream a m iov fds).1 fds iov.flatten 0 n
        (p.startStream a m iov fds).2 ∧ (Opens p m.put 0 iov → iov.flatten ≠ [] → 0 < n) := by
  -- after the descriptors
  have hrest : ∀ q w, (iov = [] → w = (q, Turn.returns (.ok 0))) →
      (∀ b rest, iov = b :: rest → w = q.sendStream a m.put 0 b 0 rest 0) →
      Woven q → SameEnds p q → q.items = p.items ++ mark fds → q.size = p.size →
      q.left = p.left → ∃ n, Streamed a p w.1 fds iov.flatten 0 n w.2 ∧
        (Opens p m.put 0 iov → iov.flatten ≠ [] → 0 < n) := by
    intro q w hnil hcons hw he hi hsize hleft
    cases iov with
    | nil =>
      rw [hnil rfl]
      refine ⟨0, ⟨hw, he, ?_, hsize.ge, Nat.zero_le _, .all rfl⟩, fun _ hne => absurd rfl hne⟩
      rw [hi]
      exact congrArg _ (List.append_nil _).symm
    | cons b iov =>
      rw [hcons b iov rfl]
      obtain ⟨n, hs, hopen⟩ := hw.sent a m.put iov 0 b 0 0
        fun hlt => absurd hlt (Nat.lt_irrefl 0)
      refine ⟨n, ⟨hs.woven, he.trans hs.ends, ?_, hsize.ge.trans hs.size, hs.le, hs.sent⟩,
        fun ho hne => hopen ?_ hne rfl⟩
      · rw [hs.items, hi, List.append_assoc]
        rfl
      · exact ho.congr hleft hsize
  unfold startStream
  by_cases hfds : fds = []
  · rw [if_pos hfds]
    refine Or.inr (hrest p _ ?_ ?_ h (SameEnds.refl p) ?_ rfl rfl)
    · rintro rfl
      rfl
    · rintro b rest rfl
      rfl
    · rw [mark, if_pos hfds, List.append_nil]
  · rw [if_neg hfds]
    cases hpush : p.push p.wrote 0 fds m.push with
    | none => exact Or.inl rfl
    | some q =>
      obtain ⟨hw, hi, he, hsize, hleft⟩ := h.pushed hfds hpush
      refine Or.inr (hrest q _ ?_ ?_ hw he ?_ hsize hleft)
      · rintro rfl
        rfl
      · rintro b rest rfl
        rfl
      · rw [mark, if_neg hfds, hi]

/-- A write is a send of one buffer. -/
theorem writeTo_eq (a : Looks) (m : Grant) (p : Pipe D) (text : List UInt8) :
    p.writeTo a m text = p.pairPut a false true m [text] [] := by
  unfold writeTo pairPut startStream sendStream
  cases p.packets with
  | true => rfl
  | false =>
    simp only [Bool.false_eq_true, Bool.true_eq_false, if_false, if_true]
    generalize p.write false a (m.put 0) text 0 = w
    obtain ⟨p', r | k⟩ := w
    · obtain e | n := r
      · rfl
      · show _ = (p', Turn.returns (Except.ok (0 + n)))
        rw [Nat.zero_add]
    · rfl

end Pipe
end BaxOS.Ipc
