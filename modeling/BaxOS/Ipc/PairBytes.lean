import BaxOS.Ipc.Pair
import BaxOS.Ipc.PipeBytes

/-!
# What waits on a socketpair

A packet pair's messages are their bounds laid over the bytes that wait (`chop`), a stream's bytes
have the descriptors sent with them standing between them (`weave`). What a send puts comes last in
them, and what a receive takes comes first.
-/

namespace BaxOS.Ipc

variable {D : Type}

/-! ### Messages -/

section Messages

variable {m : Pmsg D} {ms : List (Pmsg D)} {bs new : List UInt8} {lo hi n : ℕ}

/-- A packet pair's messages. -/
def chop : List (Pmsg D) → List UInt8 → List (List UInt8 × List D)
  | [], _ => []
  | m :: ms, bs => (bs.take m.len, m.fds) :: chop ms (bs.drop m.len)

/-- Their bounds are those of all the bytes there are. -/
def Chopped (ms : List (Pmsg D)) (bs : List UInt8) : Prop := (ms.map Pmsg.len).sum = bs.length

theorem chop_append (h : Chopped ms bs) (at_ : ℕ) (fds : List D) :
    chop (ms ++ [⟨at_, new.length, fds⟩]) (bs ++ new) = chop ms bs ++ [(new, fds)] := by
  induction ms generalizing bs with
  | nil =>
    obtain rfl := List.length_eq_zero_iff.1 h.symm
    simp [chop]
  | cons m ms ih =>
    have hlen : m.len + (ms.map Pmsg.len).sum = bs.length := h
    simp only [List.cons_append, chop]
    rw [List.take_append_of_le_length (by omega), List.drop_append_of_le_length (by omega), ih]
    show (ms.map Pmsg.len).sum = (bs.drop m.len).length
    rw [List.length_drop]
    omega

theorem Chopped.append (h : Chopped ms bs) (at_ : ℕ) (fds : List D) :
    Chopped (ms ++ [⟨at_, new.length, fds⟩]) (bs ++ new) := by
  unfold Chopped at *
  rw [List.map_append, List.sum_append, h, List.length_append]
  rfl

theorem Chopped.tail (h : Chopped (m :: ms) bs) : Chopped ms (bs.drop m.len) := by
  have hlen : m.len + (ms.map Pmsg.len).sum = bs.length := h
  show (ms.map Pmsg.len).sum = _
  rw [List.length_drop]
  omega

/-- What goes over a stream pair: bytes, and the descriptors sent with those that follow. -/
inductive Item (D : Type)
  | byte (b : UInt8)
  | fds (l : List D)

/-- A stream pair's messages between its bytes, the first of which is the `lo`-th ever written. -/
def weave : List (Pmsg D) → ℕ → List UInt8 → List (Item D)
  | [], _, bs => bs.map .byte
  | m :: ms, lo, bs =>
    (bs.take (m.at_ - lo)).map .byte ++ .fds m.fds :: weave ms m.at_ (bs.drop (m.at_ - lo))

/-- A stream pair's messages stand in order among the bytes from the `lo`-th to the `hi`-th. -/
def Among (lo hi : ℕ) : List (Pmsg D) → Prop
  | [] => lo ≤ hi
  | m :: ms => lo ≤ m.at_ ∧ Among m.at_ hi ms

theorem Among.le (h : Among lo hi ms) : lo ≤ hi := by
  induction ms generalizing lo with
  | nil => exact h
  | cons m ms ih => exact h.1.trans (ih h.2)

theorem Among.mono (h : Among lo hi ms) {hi' : ℕ} (hle : hi ≤ hi') : Among lo hi' ms := by
  induction ms generalizing lo with
  | nil => exact h.trans hle
  | cons m ms ih => exact ⟨h.1, ih h.2⟩

theorem Among.append (h : Among lo hi ms) (len : ℕ) (fds : List D) :
    Among lo hi (ms ++ [⟨hi, len, fds⟩]) := by
  induction ms generalizing lo with
  | nil => exact ⟨h, le_refl hi⟩
  | cons m ms ih => exact ⟨h.1, ih h.2⟩

theorem weave_bytes (h : Among lo hi ms) (hbs : bs.length = hi - lo) :
    weave ms lo (bs ++ new) = weave ms lo bs ++ new.map .byte := by
  induction ms generalizing lo bs with
  | nil => exact List.map_append
  | cons m ms ih =>
    have hle := h.2.le
    have hlo := h.1
    simp only [weave]
    rw [List.take_append_of_le_length (by omega), List.drop_append_of_le_length (by omega),
      ih h.2 (by rw [List.length_drop]; omega), List.append_assoc]
    rfl

theorem weave_message (h : Among lo hi ms) (hbs : bs.length = hi - lo) (len : ℕ) (fds : List D) :
    weave (ms ++ [⟨hi, len, fds⟩]) lo bs = weave ms lo bs ++ [.fds fds] := by
  induction ms generalizing lo bs with
  | nil =>
    simp only [List.nil_append, weave]
    rw [List.take_of_length_le (by omega), List.drop_eq_nil_of_le (by omega)]
    rfl
  | cons m ms ih =>
    have hle := h.2.le
    have hlo := h.1
    simp only [List.cons_append, weave]
    rw [ih h.2 (by rw [List.length_drop]; omega), List.append_assoc]
    rfl

/-- Bytes taken up to the first message, and not into it. -/
theorem weave_take (n : ℕ) (hm : ∀ m ∈ ms.head?, lo + n ≤ m.at_) :
    weave ms lo bs = (bs.take n).map .byte ++ weave ms (lo + n) (bs.drop n) := by
  cases ms with
  | nil =>
    show bs.map _ = _ ++ (bs.drop n).map _
    rw [← List.map_append, List.take_append_drop]
  | cons m ms =>
    have hle := hm m rfl
    simp only [weave]
    rw [← List.append_assoc, ← List.map_append, List.drop_drop,
      show m.at_ - lo = n + (m.at_ - (lo + n)) by omega, List.take_add]

theorem Among.drop (h : Among lo hi ms) (hn : lo + n ≤ hi) (hm : ∀ m ∈ ms.head?, lo + n ≤ m.at_) :
    Among (lo + n) hi ms := by
  cases ms with
  | nil => exact hn
  | cons m ms => exact ⟨hm m rfl, h.2⟩

end Messages

namespace Pipe

variable {p q : Pipe D}

/-! ### Receives -/

/-- Bytes taken from what waits, and no more changed. -/
structure Took (p q : Pipe D) (n : ℕ) : Prop where
  sound : Sound q
  bytes : q.bytes = p.bytes.drop n
  alike : Alike p q
  wrote : q.wrote = p.wrote
  taken : q.taken = p.taken + n
  size : q.size = p.size

theorem Took.refl (h : Sound p) : Took p p 0 := ⟨h, rfl, Alike.refl p, rfl, rfl, rfl⟩

theorem Took.trans {r : Pipe D} {m n : ℕ} (h : Took p q m) (h' : Took q r n) : Took p r (m + n) where
  sound := h'.sound
  bytes := by rw [h'.bytes, h.bytes, List.drop_drop]
  alike := h.alike.trans h'.alike
  wrote := h'.wrote.trans h.wrote
  taken := by rw [h'.taken, h.taken, Nat.add_assoc]
  size := h'.size.trans h.size

theorem take_size (p : Pipe D) (n : ℕ) : (p.take n).1.size = p.size := by
  unfold take
  simp only
  split_ifs <;> rfl

theorem take_took (h : Sound p) {n : ℕ} (hn : n ≤ p.left) :
    Took p (p.take n).1 n ∧ (p.take n).2 = p.bytes.take n := by
  obtain ⟨hs, hgot, hbytes, halike, hwrote, htaken⟩ := take_spec h n
  rw [Nat.min_eq_left hn] at htaken
  exact ⟨⟨hs, hbytes, halike, hwrote, htaken, take_size p n⟩, hgot⟩

/-- **Bytes read into one buffer after another**: the first of what waits, up to the limit and the
room. -/
theorem scatter_spec {limit want : ℕ} (room : List ℕ) (h : Sound p) (got : List UInt8)
    (hgot : got.length ≤ limit) (hleft : limit - got.length ≤ p.left)
    (hwant : got.length < limit → got.length + room.sum = want) :
    let n := min (limit - got.length) room.sum
    Took p (scatter limit want room p got).1 n ∧
      (scatter limit want room p got).2 = got ++ p.bytes.take n := by
  induction room generalizing p got with
  | nil =>
    rw [List.sum_nil, Nat.min_zero]
    exact ⟨Took.refl h, (List.append_nil _).symm⟩
  | cons k room ih =>
    have hsum : (k :: room).sum = k + room.sum := List.sum_cons
    unfold scatter
    split_ifs with hmore
    · have hw := hwant hmore.1
      rw [hsum] at hw
      obtain ⟨ht, htake⟩ := take_took h
        (Nat.le_trans (min_le_right k _) hleft)
      have hlen : (p.take (min k (limit - got.length))).2.length = min k (limit - got.length) := by
        rw [htake, List.length_take, length_bytes]
        omega
      have hq : (p.take (min k (limit - got.length))).1.left = p.left - min k (limit - got.length) := by
        rw [← length_bytes, ht.bytes, List.length_drop, length_bytes]
      obtain ⟨ht', hgot'⟩ := ih ht.sound (got ++ (p.take (min k (limit - got.length))).2)
        (by rw [List.length_append]; omega) (by rw [List.length_append, hq]; omega)
        fun hlt => by
          rw [List.length_append, hlen] at hlt ⊢
          omega
      have hn : min k (limit - got.length) +
          min (limit - (got ++ (p.take (min k (limit - got.length))).2).length) room.sum =
            min (limit - got.length) (k :: room).sum := by
        rw [List.length_append, hlen, hsum]
        omega
      simp only
      rw [← hn]
      refine ⟨ht.trans ht', ?_⟩
      rw [hgot', ht.bytes, htake, List.take_add, List.append_assoc]
    · -- no more is asked for, or there is no room for more
      have hzero : min (limit - got.length) (k :: room).sum = 0 := by
        rw [hsum] at hwant ⊢
        rcases Nat.lt_or_ge got.length limit with hlt | hge
        · have hw := hwant hlt
          have hno : ¬got.length < want := fun hlt' => hmore ⟨hlt, hlt'⟩
          omega
        · omega
      rw [hzero]
      exact ⟨Took.refl h, (List.append_nil _).symm⟩

/-- Up to so many bytes of a pipe's first, read into buffers. -/
theorem scatter_first {limit : ℕ} (h : Sound p) (room : List ℕ) (hl : limit ≤ p.left) :
    Took p (scatter limit room.sum room p []).1 (min limit room.sum) ∧
      (scatter limit room.sum room p []).2 = p.bytes.take (min limit room.sum) :=
  scatter_spec room h [] (Nat.zero_le limit) hl fun _ => Nat.zero_add _

/-- Two pipes of the same ends. -/
structure SameEnds (p q : Pipe D) : Prop where
  refs : q.refs = p.refs
  count : q.count = p.count
  packets : q.packets = p.packets

theorem SameEnds.refl (p : Pipe D) : SameEnds p p := ⟨rfl, rfl, rfl⟩

theorem SameEnds.trans {r : Pipe D} (h : SameEnds p q) (h' : SameEnds q r) : SameEnds p r :=
  ⟨h'.refs.trans h.refs, h'.count.trans h.count, h'.packets.trans h.packets⟩

theorem Alike.sameEnds (h : Alike p q) : SameEnds p q := ⟨h.refs, h.count, h.packets⟩

/-- A packet pair's messages have bounds that are those of the bytes that wait. -/
structure Packed (p : Pipe D) : Prop where
  sound : Sound p
  packets : p.packets = true
  chopped : Chopped p.msgs p.bytes

/-- The messages that wait on a packet pair. -/
def messages (p : Pipe D) : List (List UInt8 × List D) := chop p.msgs p.bytes

/-- **A receive on a packet pair** takes the first message, cut to the room there is for it. -/
theorem receive_packet (h : Packed p) (room : List ℕ) (asks : Bool) :
    Packed (p.receive room asks).1 ∧ SameEnds p (p.receive room asks).1 ∧
      (p.messages = [] ∧ p.left = 0 ∧ p.receive room asks = (p, ⟨[], [], [], false⟩) ∨
        ∃ b l, p.messages = (b, l) :: (p.receive room asks).1.messages ∧
          (p.receive room asks).2 = ⟨b.take room.sum, if asks then l else [], if asks then [] else l,
            decide (room.sum < b.length)⟩) := by
  have hchop := h.chopped
  unfold receive messages
  rw [h.packets]
  cases hms : p.msgs with
  | nil =>
    rw [hms] at hchop
    have hzero : p.left = 0 := by
      rw [← length_bytes]
      exact hchop.symm
    exact ⟨h, SameEnds.refl p, Or.inl ⟨rfl, hzero, rfl⟩⟩
  | cons m ms =>
    rw [hms] at hchop
    have hlen : m.len + (ms.map Pmsg.len).sum = p.bytes.length := hchop
    rw [length_bytes] at hlen
    have hlimit : min m.len p.left = m.len := Nat.min_eq_left (by omega)
    obtain ⟨ht, hgot⟩ := scatter_first h.sound room (show m.len ≤ p.left by omega)
    have hgot' : (scatter m.len room.sum room p []).2 = (p.bytes.take m.len).take room.sum := by
      rw [hgot, List.take_take, Nat.min_comm]
    have hgotlen : (scatter m.len room.sum room p []).2.length = min m.len room.sum := by
      rw [hgot, List.length_take, length_bytes]
      omega
    have hblen : (p.bytes.take m.len).length = m.len := by
      rw [List.length_take, length_bytes]
      omega
    -- all of the message has gone
    have hwhole : ∀ q, Took p q m.len → Packed { q with msgs := ms } ∧
        SameEnds p { q with msgs := ms } ∧
          chop (m :: ms) p.bytes = (p.bytes.take m.len, m.fds) ::
            chop ms ({ q with msgs := ms } : Pipe D).bytes := fun q hq => by
      have hb : ({ q with msgs := ms } : Pipe D).bytes = p.bytes.drop m.len := hq.bytes
      refine ⟨⟨⟨hq.sound.read, hq.sound.len, hq.sound.size, hq.sound.cap⟩,
        hq.alike.packets.trans h.packets, ?_⟩, ⟨hq.alike.refs, hq.alike.count, hq.alike.packets⟩, ?_⟩
      · show Chopped ms ({ q with msgs := ms } : Pipe D).bytes
        rw [hb]
        exact hchop.tail
      · rw [hb]
        rfl
    simp only
    rw [hlimit]
    by_cases hcut : (scatter m.len room.sum room p []).2.length < m.len
    · rw [if_pos hcut]
      rw [hgotlen] at hcut
      have hleft : (scatter m.len room.sum room p []).1.left = p.left - min m.len room.sum := by
        rw [← length_bytes, ht.bytes, List.length_drop, length_bytes]
      obtain ⟨ht', -⟩ := take_took ht.sound (n := m.len - (scatter m.len room.sum room p []).2.length)
        (by rw [hgotlen, hleft]; omega)
      have hall := ht.trans ht'
      rw [hgotlen, show min m.len room.sum + (m.len - min m.len room.sum) = m.len by omega] at hall
      rw [← hgotlen] at hall
      obtain ⟨hp, he, hm⟩ := hwhole _ hall
      refine ⟨hp, he, Or.inr ⟨_, _, hm, ?_⟩⟩
      rw [hblen, decide_eq_true (by omega : room.sum < m.len)]
      exact congrArg (fun g => (⟨g, if asks then m.fds else [], if asks then [] else m.fds,
        true⟩ : Taken D)) hgot'
    · rw [if_neg hcut]
      rw [hgotlen] at hcut
      rw [show min m.len room.sum = m.len by omega] at ht
      obtain ⟨hp, he, hm⟩ := hwhole _ ht
      refine ⟨hp, he, Or.inr ⟨_, _, hm, ?_⟩⟩
      rw [hblen, decide_eq_false (by omega : ¬room.sum < m.len)]
      exact congrArg (fun g => (⟨g, if asks then m.fds else [], if asks then [] else m.fds,
        false⟩ : Taken D)) hgot'

/-- A stream pair's messages stand in order among the bytes that wait, and have descriptors. -/
structure Woven (p : Pipe D) : Prop where
  sound : Sound p
  stream : p.packets = false
  among : Among p.taken p.wrote p.msgs
  wrote : p.wrote = p.taken + p.left
  given : ∀ m ∈ p.msgs, m.fds ≠ []

/-- What waits on a stream pair. -/
def items (p : Pipe D) : List (Item D) := weave p.msgs p.taken p.bytes

end Pipe

/-- What a receive took of a stream pair: descriptors, then bytes. -/
def Taken.items (r : Taken D) : List (Item D) :=
  (match r.fds ++ r.dropped with
    | [] => []
    | l => [.fds l]) ++ r.got.map .byte

namespace Pipe

/-- Bytes taken up to the next message. -/
theorem Woven.took {n : ℕ} (ms : List (Pmsg D)) (h : Woven p) (ht : Took p q n) (hn : n ≤ p.left)
    (hms : Among p.taken p.wrote ms) (hm : ∀ m ∈ ms.head?, p.taken + n ≤ m.at_)
    (hsome : ∀ m ∈ ms, m.fds ≠ []) : Woven { q with msgs := ms } ∧
      weave ms p.taken p.bytes = (p.bytes.take n).map .byte ++ ({ q with msgs := ms } : Pipe D).items := by
  have hleft : q.left = p.left - n := by
    rw [← length_bytes, ht.bytes, List.length_drop, length_bytes]
  have hw := h.wrote
  have htaken := ht.taken
  have hwrote := ht.wrote
  refine ⟨⟨⟨ht.sound.read, ht.sound.len, ht.sound.size, ht.sound.cap⟩,
    ht.alike.packets.trans h.stream, ?_, ?_, hsome⟩, ?_⟩
  · show Among q.taken q.wrote ms
    rw [htaken, hwrote]
    exact hms.drop (by omega) hm
  · show q.wrote = q.taken + q.left
    omega
  · rw [weave_take n hm]
    show _ = _ ++ weave ms q.taken q.bytes
    rw [htaken, ht.bytes]

theorem eq_zero_of_take {l : List UInt8} {n : ℕ} (hl : l.take n = []) (hn : n ≤ l.length) : n = 0 := by
  have := congrArg List.length hl
  rw [List.length_take, List.length_nil] at this
  omega

/-- What a stream pair's receive comes to, and what it leaves. -/
structure Received (p : Pipe D) (room : List ℕ) (t : Pipe D × Taken D) : Prop where
  woven : Woven t.1
  ends : SameEnds p t.1
  size : t.1.size = p.size
  items : p.items = t.2.items ++ t.1.items
  got : t.2.got = [] → 0 < room.sum → p.left = 0 ∨
    ∃ l' rest, p.items = .fds (t.2.fds ++ t.2.dropped) :: .fds l' :: rest

/-- A message that stands first goes with the bytes up to the next. -/
theorem pop_received {m : Pmsg D} {ms : List (Pmsg D)} {limit : ℕ} (h : Woven p) (room : List ℕ)
    (asks : Bool) (hms : p.msgs = m :: ms) (hat : m.at_ = p.taken)
    (hnext : ∀ m' ∈ ms.head?, p.taken + limit ≤ m'.at_)
    (hsome : limit = 0 → p.left = 0 ∨ ∃ m' ∈ ms.head?, m'.at_ = p.taken) :
    Received p room ((scatter (min limit p.left) room.sum room p []).1.pop m ms
      (scatter (min limit p.left) room.sum room p []).2 asks false) := by
  have hamong := h.among
  rw [hms] at hamong
  obtain ⟨ht, hgot⟩ := scatter_first h.sound room (min_le_right limit p.left)
  obtain ⟨hw, hitems⟩ := h.took ms ht (by omega) (hat ▸ hamong.2)
    (fun m' hm' => (hnext m' hm').trans' (by omega)) fun m' hm' =>
      h.given m' (hms ▸ List.mem_cons_of_mem _ hm')
  have hfirst : p.items = .fds m.fds :: weave ms p.taken p.bytes := by
    unfold items
    rw [hms]
    simp only [weave, hat, Nat.sub_self, List.take_zero, List.drop_zero, List.map_nil, List.nil_append]
  have htake : (if asks then m.fds else []) ++ (if asks then [] else m.fds) = m.fds := by
    cases asks
    · rfl
    · exact List.append_nil _
  refine ⟨hw, ⟨ht.alike.refs, ht.alike.count, ht.alike.packets⟩, ht.size, ?_, fun hno hroom => ?_⟩
  · show p.items = ((match (if asks then m.fds else []) ++ (if asks then [] else m.fds) with
      | [] => []
      | l => [Item.fds l]) ++ _) ++ _
    rw [htake, hfirst, hitems]
    cases hl : m.fds with
    | nil => exact absurd hl (h.given m (hms ▸ List.mem_cons_self))
    | cons d l =>
      show _ = Item.fds (d :: l) :: (((scatter _ _ room p []).2).map Item.byte ++ _)
      rw [hgot]
      rfl
  · change (scatter _ room.sum room p []).2 = [] at hno
    rw [hgot] at hno
    have hzero := eq_zero_of_take hno (by rw [length_bytes]; omega)
    rcases Nat.eq_zero_or_pos p.left with hz | hpos
    · exact Or.inl hz
    · refine (hsome (by omega)).imp_right fun ⟨m', hm', hat'⟩ => ?_
      cases ms with
      | nil => exact nomatch hm'
      | cons m'' ms =>
        obtain rfl := Option.some.inj hm'
        refine ⟨m''.fds, weave ms p.taken p.bytes, ?_⟩
        rw [hfirst]
        show _ = Item.fds ((if asks then m.fds else []) ++ (if asks then [] else m.fds)) :: _
        rw [htake]
        simp only [weave, hat', Nat.sub_self, List.take_zero, List.drop_zero, List.map_nil,
          List.nil_append]

/-- Bytes taken from before the first message. -/
theorem scatter_received {limit : ℕ} (h : Woven p) (room : List ℕ) (hl : limit ≤ p.left)
    (hm : ∀ m ∈ p.msgs.head?, p.taken + limit ≤ m.at_) (hsome : limit = 0 → p.left = 0) :
    Received p room ((scatter limit room.sum room p []).1,
      ⟨(scatter limit room.sum room p []).2, [], [], false⟩) := by
  obtain ⟨ht, hgot⟩ := scatter_first h.sound room hl
  obtain ⟨hw, hitems⟩ := h.took p.msgs ht (by omega) h.among
    (fun m hm' => (hm m hm').trans' (by omega)) h.given
  have hq : { (scatter limit room.sum room p []).1 with msgs := p.msgs } =
      (scatter limit room.sum room p []).1 := by
    rw [← ht.alike.msgs]
  rw [hq] at hw hitems
  refine ⟨hw, ht.alike.sameEnds, ht.size, ?_, fun hno hroom => Or.inl ?_⟩
  · show p.items = ([] ++ ((scatter _ _ room p []).2).map Item.byte) ++ _
    rw [hgot]
    exact hitems
  · change (scatter _ room.sum room p []).2 = [] at hno
    rw [hgot] at hno
    have hzero := eq_zero_of_take hno (by rw [length_bytes]; omega)
    exact hsome (by omega)

/-- **A receive on a stream pair** takes the first of what waits; with room for a byte it takes one,
or a message of none, or finds no bytes. -/
theorem receive_stream (h : Woven p) (room : List ℕ) (asks : Bool) :
    Received p room (p.receive room asks) := by
  have hamong := h.among
  unfold receive
  rw [h.stream]
  cases hms : p.msgs with
  | nil => exact scatter_received h room (le_refl _) (by rw [hms]; exact (fun m hm => nomatch hm)) id
  | cons m ms =>
    rw [hms] at hamong
    simp only
    split_ifs with hat
    · have hlo : m.at_ = p.taken := le_antisymm hat hamong.1
      cases ms with
      | nil =>
        exact pop_received h room asks hms hlo (fun m' hm' => nomatch hm') Or.inl
      | cons m' ms =>
        have hle := hamong.2.1
        refine pop_received h room asks hms hlo (fun m'' hm'' => ?_) fun hzero => Or.inr ⟨m', rfl, ?_⟩
        · obtain rfl := Option.some.inj hm''
          show p.taken + (m'.at_ - p.taken) ≤ m'.at_
          omega
        · change m'.at_ - p.taken = 0 at hzero
          omega
    · refine scatter_received h room (min_le_right _ _) (fun m' hm' => ?_) fun hzero => ?_
      · rw [hms] at hm'
        obtain rfl := Option.some.inj hm'
        omega
      · omega

/-- Descriptors are handed over where they are asked for, and let go of where they are not. -/
theorem receive_asked (p : Pipe D) (room : List ℕ) (asks : Bool) :
    if asks then (p.receive room asks).2.dropped = [] else (p.receive room asks).2.fds = [] := by
  have hpop : ∀ (q : Pipe D) m ms got cut, if asks then (q.pop m ms got asks cut).2.dropped = []
      else (q.pop m ms got asks cut).2.fds = [] := fun q m ms got cut => by
    cases asks <;> rfl
  have hnone : ∀ got cut, if asks then (⟨got, [], [], cut⟩ : Taken D).dropped = []
      else (⟨got, [], [], cut⟩ : Taken D).fds = [] := fun got cut => by
    cases asks <;> rfl
  unfold receive
  cases p.packets with
  | true =>
    cases p.msgs with
    | nil => exact hnone _ _
    | cons m ms =>
      simp only
      by_cases hcut : (scatter (min m.len p.left) room.sum room p []).2.length < m.len
      · rw [if_pos hcut]
        exact hpop _ _ _ _ _
      · rw [if_neg hcut]
        exact hpop _ _ _ _ _
  | false =>
    cases p.msgs with
    | nil => exact hnone _ _
    | cons m ms =>
      simp only
      by_cases hat : m.at_ ≤ p.taken
      · rw [if_pos hat]
        exact hpop _ _ _ _ _
      · rw [if_neg hat]
        exact hnone _ _

/-- A read of a stream pair with no messages. -/
theorem take_received (h : Woven p) (hms : p.msgs = []) (count : ℕ) :
    Received p [count] ((p.take count).1, ⟨(p.take count).2, [], [], false⟩) := by
  obtain ⟨hs, hgot, hbytes, halike, hwrote, htaken⟩ := take_spec h.sound count
  have hb : p.bytes.take (min count p.left) = p.bytes.take count := by
    rw [← length_bytes]
    exact List.take_eq_take_min.symm
  have hd : p.bytes.drop (min count p.left) = p.bytes.drop count := by
    rcases Nat.le_total count p.left with hle | hle
    · rw [Nat.min_eq_left hle]
    · rw [Nat.min_eq_right hle, List.drop_eq_nil_of_le (by rw [length_bytes]),
        List.drop_eq_nil_of_le (by rw [length_bytes]; exact hle)]
  obtain ⟨hw, hitems⟩ := h.took [] ⟨hs, hbytes.trans hd.symm, halike, hwrote, htaken, take_size p count⟩
    (min_le_right _ _) (hms ▸ h.among) (fun m hm => nomatch hm) fun m hm => nomatch hm
  have hq : { (p.take count).1 with msgs := [] } = (p.take count).1 := by
    rw [← hms, ← halike.msgs]
  rw [hq] at hw hitems
  refine ⟨hw, halike.sameEnds, take_size p count, ?_, fun hno hroom => Or.inl ?_⟩
  · show p.items = ([] ++ ((p.take count).2).map Item.byte) ++ (p.take count).1.items
    unfold items at hitems ⊢
    rw [hms, hgot, ← hb]
    exact hitems
  · change (p.take count).2 = [] at hno
    rw [hgot, ← hb] at hno
    have hzero := eq_zero_of_take hno (by rw [length_bytes]; exact min_le_right _ _)
    rw [List.sum_singleton] at hroom
    omega

/-! ### Turns of a receive -/

/-- How a turn of a receive ends: it took what it did, or nothing, and returns an error or waits. -/
inductive Receives (a : Looks) (p p' : Pipe D) (P : Taken D → Prop) : Turn Unit (Taken D) → Prop
  | took (r : Taken D) (hp : P r) (ha : 0 < p.left ∨ p.count = 0 ∨ a.alone = true) :
      Receives a p p' P (.returns (.ok r))
  | failed (hp : p' = p) (e : Errno) : Receives a p p' P (.returns (.error e))
  | waits (hp : p' = p) : Receives a p p' P (.waits ())

/-- The wait for something to read ends the turn, or there is something to read, or nothing else
runs. -/
theorem await_cases {ρ : Type} (a : Looks) (dontwait : Bool) (p : Pipe D) :
    (∃ e, p.await a dontwait = some (.returns (.error e) : Turn Unit ρ)) ∨
      p.await a dontwait = some (.waits () : Turn Unit ρ) ∨
        p.await a dontwait = (none : Option (Turn Unit ρ)) ∧
          (0 < p.left ∨ p.count = 0 ∨ a.alone = true) := by
  unfold await
  split_ifs with hread hno halone hint
  · exact Or.inr (Or.inr ⟨rfl, (readable_eq.1 hread).imp_right Or.inl⟩)
  · exact Or.inl ⟨_, rfl⟩
  · exact Or.inr (Or.inr ⟨rfl, Or.inr (Or.inr halone)⟩)
  · exact Or.inl ⟨_, rfl⟩
  · exact Or.inr (Or.inl rfl)

theorem pairTake_spec {P : Pipe D → Taken D → Prop} {room : List ℕ} {asks : Bool}
    (h : P (p.receive room asks).1 (p.receive room asks).2) (a : Looks) (dontwait : Bool) :
    Receives a p (p.pairTake a dontwait room asks).1 (P (p.pairTake a dontwait room asks).1)
      (p.pairTake a dontwait room asks).2 := by
  unfold pairTake
  rcases await_cases (ρ := Taken D) a dontwait p with ⟨e, ht⟩ | ht | ⟨ht, ha⟩
  · rw [ht]
    exact .failed rfl e
  · rw [ht]
    exact .waits rfl
  · rw [ht]
    exact .took _ h ha

/-- **A turn of a read of a socketpair's end** takes what a receive without room for descriptors
does. -/
theorem sysRead_spec {P : Pipe D → Taken D → Prop} {count : ℕ} (out : Option ℕ) (sem : Bool)
    (h : P (p.receive [count] false).1 (p.receive [count] false).2)
    (hnone : p.packets = false → p.msgs = [] → P (p.take count).1 ⟨(p.take count).2, [], [], false⟩)
    (a : Looks) :
    Receives a p (p.sysRead (.pair out) sem a count).1 (P (p.sysRead (.pair out) sem a count).1)
      (p.sysRead (.pair out) sem a count).2 := by
  unfold sysRead
  simp only
  rcases await_cases (ρ := Taken D) a false p with ⟨e, ht⟩ | ht | ⟨ht, ha⟩
  · rw [ht]
    exact .failed rfl e
  · rw [ht]
    exact .waits rfl
  · rw [ht]
    simp only
    split_ifs with hmsgs
    · exact pairTake_spec h a false
    · rw [Bool.or_eq_true, not_or, Bool.not_eq_true, Bool.not_eq_true, Bool.not_eq_false',
        List.isEmpty_iff] at hmsgs
      exact .took _ (hnone hmsgs.1 hmsgs.2) ha

end Pipe
end BaxOS.Ipc
