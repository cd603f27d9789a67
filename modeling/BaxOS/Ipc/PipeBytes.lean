import BaxOS.Ipc.Pipe

/-!
# The bytes in a pipe

What `pipe_put` puts in comes after what waits there, what `pipe_read` takes out is the first of it
(`put_spec`, `take_spec`), and a turn of `pipe_write` puts the first of what it is given
(`write_spec`).
-/

namespace BaxOS.Ipc
open ByteStore

variable {D : Type}

namespace Pipe

variable {p q r : Pipe D}

/-- **A pipe's buffer is sound**: what is read and what is written stay inside it. -/
structure Sound (p : Pipe D) : Prop where
  read : p.readAt ≤ p.len
  len : p.len ≤ p.size
  size : 0 < p.size
  cap : p.len ≤ pipeCap

/-- All but the buffer and the counts of what went through it the same. -/
structure Alike (p q : Pipe D) : Prop where
  refs : q.refs = p.refs
  count : q.count = p.count
  fifo : q.fifo = p.fifo
  packets : q.packets = p.packets
  msgs : q.msgs = p.msgs
  msgRoom : q.msgRoom = p.msgRoom

theorem Alike.refl (p : Pipe D) : Alike p p := ⟨rfl, rfl, rfl, rfl, rfl, rfl⟩

theorem Alike.trans (h : Alike p q) (h' : Alike q r) : Alike p r :=
  ⟨h'.refs.trans h.refs, h'.count.trans h.count, h'.fifo.trans h.fifo, h'.packets.trans h.packets,
    h'.msgs.trans h.msgs, h'.msgRoom.trans h.msgRoom⟩

/-- Bytes added to what waits, and no more changed. -/
structure Grew (p q : Pipe D) (b : List UInt8) : Prop where
  sound : Sound q
  bytes : q.bytes = p.bytes ++ b
  alike : Alike p q
  wrote : q.wrote = p.wrote + b.length
  taken : q.taken = p.taken
  size : p.size ≤ q.size

@[simp] theorem length_bytes (p : Pipe D) : p.bytes.length = p.left := by
  unfold bytes
  rw [List.length_map, List.length_range]

theorem getElem?_bytes (p : Pipe D) (i : ℕ) :
    p.bytes[i]? = if i < p.left then some (p.data (p.readAt + i)) else none := by
  unfold bytes
  rw [List.getElem?_map]
  split_ifs with hi
  · rw [List.getElem?_range hi]
    rfl
  · rw [List.getElem?_eq_none (by rw [List.length_range]; exact Nat.not_lt.1 hi)]
    rfl

theorem left_le (h : Sound p) : p.left ≤ pipeCap := (Nat.sub_le _ _).trans h.cap

theorem readable_eq : p.readable = true ↔ 0 < p.left ∨ p.count = 0 := by
  unfold readable left
  rw [Bool.or_eq_true, decide_eq_true_iff, decide_eq_true_iff, Nat.sub_pos_iff_lt]

theorem Grew.refl (h : Sound p) : Grew p p [] :=
  ⟨h, (List.append_nil _).symm, Alike.refl p, rfl, rfl, le_refl _⟩

theorem Grew.trans {b c : List UInt8} (h : Grew p q b) (h' : Grew q r c) : Grew p r (b ++ c) where
  sound := h'.sound
  bytes := by rw [h'.bytes, h.bytes, List.append_assoc]
  alike := h.alike.trans h'.alike
  wrote := by rw [h'.wrote, h.wrote, List.length_append, Nat.add_assoc]
  taken := h'.taken.trans h.taken
  size := h.size.trans h'.size

/-! ### One put, one read -/

theorem compact_spec (h : Sound p) : Sound p.compact ∧ p.compact.readAt = 0 ∧
    p.compact.len = p.left ∧ p.compact.bytes = p.bytes ∧ Alike p p.compact ∧
      p.compact.size = p.size ∧ p.compact.wrote = p.wrote ∧ p.compact.taken = p.taken := by
  unfold compact
  have hread := h.read
  have hlen := h.len
  have hcap := h.cap
  split_ifs with hpos
  · refine ⟨⟨Nat.zero_le _, ?_, h.size, ?_⟩, rfl, rfl, ?_, ⟨rfl, rfl, rfl, rfl, rfl, rfl⟩, rfl, rfl, rfl⟩
    · show p.len - p.readAt ≤ p.size
      omega
    · show p.len - p.readAt ≤ pipeCap
      omega
    · refine List.ext_getElem? fun i => ?_
      rw [getElem?_bytes, getElem?_bytes]
      rcases Nat.lt_or_ge i p.left with hi | hi
      · refine (if_pos hi).trans ((congrArg some ?_).trans (if_pos hi).symm)
        show blit p.data 0 (p.len - p.readAt) (fun i => p.data (p.readAt + i)) (0 + i) = _
        rw [Nat.zero_add, blit_of_mem (Nat.zero_le i) ((Nat.zero_add p.left).symm ▸ hi), Nat.sub_zero]
      · exact (if_neg (Nat.not_lt.2 hi)).trans (if_neg (Nat.not_lt.2 hi)).symm
  · have hzero : p.readAt = 0 := Nat.eq_zero_of_not_pos hpos
    exact ⟨h, hzero, by rw [left, hzero, Nat.sub_zero], rfl, Alike.refl p, rfl, rfl, rfl⟩

theorem widen_ge (need : ℕ) : ∀ fuel want, want ≤ widen want need fuel := by
  intro fuel
  induction fuel with
  | zero => exact fun want => le_refl want
  | succ n ih =>
    intro want
    unfold widen
    split_ifs
    · exact (Nat.le_mul_of_pos_left want (by decide)).trans (ih _)
    · exact le_refl want

/-- Doubled often enough, from anything but 0. -/
theorem widen_enough {need : ℕ} : ∀ {fuel want}, 0 < want → need ≤ want + fuel →
    need ≤ widen want need fuel := by
  intro fuel
  induction fuel with
  | zero => exact fun _ h => h
  | succ n ih =>
    intro want hpos h
    unfold widen
    split_ifs with hlt
    · exact ih (by omega) (by omega)
    · exact Nat.not_lt.1 hlt

/-- **`pipe_put`**: what goes in comes last, and all that there is room for does, where there is
memory for it. -/
theorem put_spec (h : Sound p) (b : List UInt8) (alloc : Bool) : (p.put b alloc).2 ≤ b.length ∧
    Grew p (p.put b alloc).1 (b.take (p.put b alloc).2) ∧
      ((p.put b alloc).2 = min b.length (pipeCap - p.left) ∨ (p.put b alloc).2 = 0 ∧ alloc = false ∧
        p.size < p.left + min b.length (pipeCap - p.left)) := by
  obtain ⟨hc, hread, hlen, hbytes, halike, hsize, hwrote, htaken⟩ := compact_spec h
  unfold put
  simp only
  set c := p.compact
  have hroom := min_le_right b.length (pipeCap - c.len)
  have hcap := hc.cap
  split_ifs with hno
  · refine ⟨Nat.zero_le _, ⟨hc, ?_, halike, hwrote, htaken, hsize.ge⟩, Or.inr ⟨rfl, hno.2, ?_⟩⟩
    · rw [List.take_zero, List.append_nil, hbytes]
    · rw [← hlen, ← hsize]
      exact hno.1
  · refine ⟨min_le_left _ _, ⟨⟨?_, ?_, ?_, ?_⟩, ?_, ?_, ?_, htaken, hsize.ge.trans (widen_ge _ _ _)⟩,
      Or.inl ?_⟩
    · show c.readAt ≤ c.len + min b.length (pipeCap - c.len)
      rw [hread]
      exact Nat.zero_le _
    · exact widen_enough hc.size (Nat.le_add_left _ _)
    · exact hc.size.trans_le (widen_ge _ _ _)
    · show c.len + min b.length (pipeCap - c.len) ≤ pipeCap
      omega
    · refine List.ext_getElem? fun i => ?_
      rw [← hbytes, getElem?_bytes, List.getElem?_append, length_bytes, getElem?_bytes]
      simp only [left, hread, Nat.sub_zero, Nat.zero_add]
      rcases Nat.lt_or_ge i c.len with hi | hi
      · rw [if_pos (by omega), if_pos hi, if_pos hi, blit_of_notMem (Or.inl hi)]
      · rw [if_neg (Nat.not_lt.2 hi), List.getElem?_take]
        split_ifs with hlt hlt' hlt'
        · rw [blit_of_mem hi hlt, List.getD_eq_getElem?_getD,
            List.getElem?_eq_getElem (by omega), Option.getD_some]
        · omega
        · omega
        · rfl
    · exact ⟨halike.refs, halike.count, halike.fifo, halike.packets, halike.msgs, halike.msgRoom⟩
    · rw [List.length_take, Nat.min_eq_left (min_le_left _ _)]
      show c.wrote + min b.length (pipeCap - c.len) = _
      rw [hwrote]
    · rw [hlen]

/-- **`pipe_read`**: what comes out came first. -/
theorem take_spec (h : Sound p) (n : ℕ) : Sound (p.take n).1 ∧ (p.take n).2 = p.bytes.take n ∧
    (p.take n).1.bytes = p.bytes.drop n ∧ Alike p (p.take n).1 ∧ (p.take n).1.wrote = p.wrote ∧
      (p.take n).1.taken = p.taken + min n p.left := by
  have hread := h.read
  have hgot : (List.range (min n p.left)).map (fun i => p.data (p.readAt + i)) = p.bytes.take n := by
    refine List.ext_getElem? fun i => ?_
    rw [List.getElem?_map, List.getElem?_take, getElem?_bytes]
    split_ifs with hi hl
    · rw [List.getElem?_range (lt_min hi hl)]
      rfl
    · rw [List.getElem?_eq_none (by rw [List.length_range]; omega)]
      rfl
    · rw [List.getElem?_eq_none (by rw [List.length_range]; omega)]
      rfl
  have hle : p.readAt + min n p.left ≤ p.len := by
    have := min_le_right n p.left
    unfold left at *
    omega
  unfold take
  simp only
  split_ifs with hall
  · refine ⟨⟨le_refl _, Nat.zero_le _, h.size, Nat.zero_le _⟩, hgot, ?_, ⟨rfl, rfl, rfl, rfl, rfl, rfl⟩,
      rfl, rfl⟩
    have hn : p.left ≤ n := by
      unfold left at *
      omega
    rw [List.drop_eq_nil_of_le (by rw [length_bytes]; exact hn)]
    rfl
  · refine ⟨⟨hle, h.len, h.size, h.cap⟩, hgot, ?_, ⟨rfl, rfl, rfl, rfl, rfl, rfl⟩, rfl, rfl⟩
    refine List.ext_getElem? fun i => ?_
    rw [List.getElem?_drop, getElem?_bytes, getElem?_bytes]
    have hn : min n p.left = n := by
      unfold left at *
      omega
    have hin : i < p.len - (p.readAt + n) ↔ n + i < p.left := by
      unfold left
      omega
    show (if i < p.len - (p.readAt + min n p.left) then
      some (p.data (p.readAt + min n p.left + i)) else none) = _
    rw [hn, Nat.add_assoc]
    exact if_congr hin rfl rfl

/-! ### A turn of a write -/

/-- There is no more room; or none without growth, and no memory for that. -/
def Stuck (alloc : ℕ → Bool) (p p' : Pipe D) (rest : List UInt8) (n : ℕ) : Prop :=
  p'.left = pipeCap ∨ n = 0 ∧ alloc 0 = false ∧ p.size < p.left + min rest.length (pipeCap - p.left)

/-- How a turn of `pipe_write` ends that put `n` bytes of `rest` in: all are in; nobody is left to
read; or there is no room for more, or no memory, and it returns, or it waits. -/
inductive Wrote (ends : Bool) (a : Looks) (alloc : ℕ → Bool) (p p' : Pipe D) (rest : List UInt8)
    (done n : ℕ) : Turn (List UInt8 × ℕ) ℕ → Prop
  | all (hn : n = rest.length) : Wrote ends a alloc p p' rest done n (.returns (.ok (done + n)))
  | broken (hn : n < rest.length) (he : ends = true) (hr : p.refs ≤ p.count) :
      Wrote ends a alloc p p' rest done n (.returns (stopped (done + n) .epipe))
  | full (hn : n < rest.length) (hr : ends = true → p.count < p.refs)
      (hf : Stuck alloc p p' rest n) (ha : (a.nonblock || a.alone) = true) :
      Wrote ends a alloc p p' rest done n (.returns (stopped (done + n) .eagain))
  | interrupted (hn : n < rest.length) (hr : ends = true → p.count < p.refs)
      (hf : Stuck alloc p p' rest n) (ha : (a.nonblock || a.alone) = false)
      (hi : a.interrupted = true) :
      Wrote ends a alloc p p' rest done n (.returns (stopped (done + n) .eintr))
  | waits (hn : n < rest.length) (hr : ends = true → p.count < p.refs)
      (hf : Stuck alloc p p' rest n) (ha : (a.nonblock || a.alone) = false)
      (hi : a.interrupted = false) :
      Wrote ends a alloc p p' rest done n (.waits (rest.drop n, done + n))

/-- What a turn does after its first put is what it does. -/
theorem Wrote.cons {ends : Bool} {a : Looks} {alloc : ℕ → Bool} {rest : List UInt8} {done m n : ℕ}
    {t : Turn (List UInt8 × ℕ) ℕ} (hm : m ≤ rest.length) (hpq : Alike p q)
    (hcap : m < rest.length → q.left = pipeCap) (hqr : q.left ≤ r.left) (hr : r.left ≤ pipeCap)
    (h : Wrote ends a (fun k => alloc (k + 1)) q r (rest.drop m) (done + m) n t) :
    Wrote ends a alloc p r rest done (m + n) t := by
  have hlen := List.length_drop (i := m) (l := rest)
  have hstuck : n < (rest.drop m).length → Stuck alloc p r rest (m + n) := fun hn =>
    Or.inl (le_antisymm hr ((hcap (by omega)).ge.trans hqr))
  have hdone : done + m + n = done + (m + n) := Nat.add_assoc _ _ _
  cases h with
  | all hn =>
    rw [hdone]
    exact .all (by omega)
  | broken hn he hr =>
    rw [hdone]
    exact .broken (by omega) he (by rw [← hpq.refs, ← hpq.count]; exact hr)
  | full hn hr hf ha =>
    rw [hdone]
    exact .full (by omega) (by rw [← hpq.refs, ← hpq.count]; exact hr) (hstuck hn) ha
  | interrupted hn hr hf ha hi =>
    rw [hdone]
    exact .interrupted (by omega) (by rw [← hpq.refs, ← hpq.count]; exact hr) (hstuck hn) ha hi
  | waits hn hr hf ha hi =>
    rw [hdone, List.drop_drop]
    exact .waits (by omega) (by rw [← hpq.refs, ← hpq.count]; exact hr) (hstuck hn) ha hi

theorem Grew.left {b : List UInt8} (h : Grew p q b) : q.left = p.left + b.length := by
  rw [← length_bytes, h.bytes, List.length_append, length_bytes]

/-- A put that puts nothing found no room, or no memory. -/
theorem put_zero {b : List UInt8} (alloc : ℕ → Bool) (h : Sound p) (hb : b ≠ [])
    (hn : (p.put b (alloc 0)).2 = 0) : Grew p (p.put b (alloc 0)).1 [] ∧
      Stuck alloc p (p.put b (alloc 0)).1 b 0 := by
  obtain ⟨-, hg, hroom⟩ := put_spec h b (alloc 0)
  rw [hn, List.take_zero] at hg
  refine ⟨hg, hroom.imp (fun hmin => ?_) fun hno => ⟨rfl, hno.2⟩⟩
  have hpos := List.length_pos_iff.2 hb
  have hle := left_le h
  have hleft := hg.left
  rw [List.length_nil] at hleft
  omega

/-- **A turn of `pipe_write`** puts the first of what it is given after what waits. -/
theorem write_spec (h : Sound p) (ends : Bool) (a : Looks) (alloc : ℕ → Bool) (rest : List UInt8)
    (done : ℕ) : ∃ n ≤ rest.length,
      Grew p (p.write ends a alloc rest done).1 (rest.take n) ∧
      Wrote ends a alloc p (p.write ends a alloc rest done).1 rest done n
        (p.write ends a alloc rest done).2 := by
  fun_induction Pipe.write ends a alloc p rest done with
  | case1 alloc p done => exact ⟨0, Nat.zero_le _, Grew.refl h, .all rfl⟩
  | case2 alloc p rest done hrest hbroken =>
    exact ⟨0, Nat.zero_le _, Grew.refl h, .broken (List.length_pos_iff.2 hrest) hbroken.1 hbroken.2⟩
  | case3 alloc p rest done hrest hends p' n hput hn ih =>
    obtain ⟨hle, hg, hmin⟩ := put_spec h rest (alloc 0)
    rw [hput] at hle hg hmin
    obtain ⟨m, hm, hg', hw⟩ := ih hg.sound
    rw [List.length_drop] at hm
    refine ⟨n + m, by omega, ?_, hw.cons hle hg.alike (fun hlt => ?_) ?_ (left_le hg'.sound)⟩
    · rw [List.take_add]
      exact hg.trans hg'
    · -- what did not go in found no room
      have hleft := hg.left
      have hcap := left_le h
      rw [List.length_take] at hleft
      dsimp only at hmin hle hleft ⊢
      omega
    · rw [hg'.left]
      exact Nat.le_add_right _ _
  | case4 alloc p rest done hrest hends p' n hput hn ha =>
    obtain ⟨hg, hf⟩ := put_zero alloc h hrest (by rw [hput]; exact Nat.eq_zero_of_not_pos hn)
    rw [hput] at hg hf
    exact ⟨0, Nat.zero_le _, hg, .full (List.length_pos_iff.2 hrest)
      (fun he => Nat.not_le.1 fun hr => hends ⟨he, hr⟩) hf ha⟩
  | case5 alloc p rest done hrest hends p' n hput hn ha hi =>
    obtain ⟨hg, hf⟩ := put_zero alloc h hrest (by rw [hput]; exact Nat.eq_zero_of_not_pos hn)
    rw [hput] at hg hf
    exact ⟨0, Nat.zero_le _, hg, .interrupted (List.length_pos_iff.2 hrest)
      (fun he => Nat.not_le.1 fun hr => hends ⟨he, hr⟩) hf
      (Bool.eq_false_iff.2 ha) hi⟩
  | case6 alloc p rest done hrest hends p' n hput hn ha hi =>
    obtain ⟨hg, hf⟩ := put_zero alloc h hrest (by rw [hput]; exact Nat.eq_zero_of_not_pos hn)
    rw [hput] at hg hf
    exact ⟨0, Nat.zero_le _, hg, .waits (List.length_pos_iff.2 hrest)
      (fun he => Nat.not_le.1 fun hr => hends ⟨he, hr⟩) hf
      (Bool.eq_false_iff.2 ha) (Bool.eq_false_iff.2 hi)⟩

end Pipe
end BaxOS.Ipc
