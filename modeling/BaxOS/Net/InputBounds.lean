import BaxOS.Net.Input

/-!
# No frame is looked at past its end, but for one byte

`raw_input` looks at the byte after an ICMP packet's header, to know its type, before anything has seen that
there is one. A frame is looked at past its end exactly where the header is all there is of it and a raw
socket is there for it (`ethInput_inside_iff`); what loops back in answer never is.
-/

namespace BaxOS.Net.Input
open Function Peeks

variable {s s' : Host} {n h p len i size : ℕ} {memory : ℕ → UInt8} {c : Choice} {loop : Bool}
variable {dst : Addr} {data : ℕ} {room : Bool}

/-! ### Fields -/

theorem below_halfAt {Q : ℕ → Prop} (hle : i + 2 ≤ n) (hq : Q (halfAt i memory).1) :
    Below n memory (halfAt i) Q := by
  refine ⟨fun j hj => ?_, hq⟩
  simp only [halfAt, bind_apply, peek_apply, pure_apply, List.append_nil, List.cons_append, List.nil_append,
    List.mem_cons, List.not_mem_nil, or_false] at hj
  omega

theorem below_wordAt {Q : Seq → Prop} (hle : i + 4 ≤ n) (hq : ∀ a, Q a) : Below n memory (wordAt i) Q := by
  unfold wordAt
  rw [below_bind]
  apply below_halfAt (by omega)
  rw [below_bind]
  apply below_halfAt (by omega)
  exact below_pure.2 (hq _)

theorem below_addrAt {Q : Addr → Prop} (hle : i + 4 ≤ n) (hq : Q (addrAt i memory).1) :
    Below n memory (addrAt i) Q := by
  refine ⟨fun j hj => ?_, hq⟩
  simp only [addrAt, bind_apply, peek_apply, pure_apply, List.append_nil, List.cons_append, List.nil_append,
    List.mem_cons, List.not_mem_nil, or_false] at hj
  omega

theorem headLen_le (vhl : UInt8) : headLen vhl ≤ 60 := by
  unfold headLen
  have := Nat.mod_lt vhl.toNat (by decide : 0 < 2 ^ 4)
  omega

/-! ### What is sent -/

/-- What is in `loop_buf`, if it is an ICMP packet, has more than its header. -/
def Fine (x : Host × Option ℕ) : Prop :=
  ∀ n, x.2 = some n → 20 ≤ n → x.1.loopBuf 9 = netIcmp → headLen (x.1.loopBuf 0) < n

theorem fine_none (s : Host) : Fine (s, none) := nofun

theorem length_ipHeader (total id : ℕ) (ttl proto : UInt8) (src dst : Addr) :
    (ipHeader total id ttl proto src dst).length = 20 := by
  simp [ipHeader, be16, le32, sumEnd]

theorem length_icmpMessage (type code : UInt8) (rest : List UInt8) :
    (icmpMessage type code rest).length = 4 + rest.length := by
  simp [icmpMessage, sumEnd, be16]
  omega

theorem ipSend_fine {proto ttl : UInt8} {payload : List UInt8}
    (hlen : proto = netIcmp → 0 < payload.length ∧ 20 + payload.length < 2 ^ 16) :
    Fine (s.ipSend dst loop proto payload ttl) := by
  unfold Host.ipSend
  cases loop with
  | false => exact fine_none _
  | true =>
    intro total htotal hge hproto
    obtain rfl := Option.some.inj htotal
    simp only [Sock.lay, Nat.zero_le, if_true, Nat.sub_zero, List.getElem?_take] at hproto ⊢
    rw [if_pos (by omega), List.getElem?_append_left (by rw [length_ipHeader]; omega)] at hproto
    rw [if_pos (by omega), List.getElem?_append_left (by rw [length_ipHeader]; omega)]
    obtain ⟨hpos, hlt⟩ := hlen hproto
    change headLen 0x45 < _
    rw [Nat.mod_eq_of_lt hlt]
    have : headLen 0x45 = 20 := by decide
    omega

theorem tcp_fine {ttl : UInt8} {payload : List UInt8} :
    Fine (s.ipSend dst loop netTcp payload ttl) :=
  ipSend_fine fun heq => absurd heq (by decide)

theorem turn_fine (src : Addr) (t : Turn) : Fine (s.turn src loop i t) := by
  unfold Host.turn
  cases t.sent with
  | none => exact fine_none _
  | some x =>
    by_cases hrst : x.flags.rst = true
    · simp only [hrst, if_true]
      exact tcp_fine
    · simp only [hrst]
      exact tcp_fine

/-! ### Sockets -/

/-- Every socket is of the kind it was. -/
def SameKinds (s s' : Host) : Prop := ∀ i kind, s'.isOther i kind = s.isOther i kind

theorem SameKinds.refl (s : Host) : SameKinds s s := fun _ _ => rfl

/-- A slot left with the protocol it had. -/
theorem SameKinds.put {k : Sock} (hsame : SameKinds s s') (hk : k.proto = (s'.stack.socks i).proto) :
    SameKinds s (s'.put i k) := by
  intro j kind
  rw [← hsame j kind]
  have hproto : ((s'.put i k).stack.socks j).proto = (s'.stack.socks j).proto := by
    change (update s'.stack.socks i k j).proto = _
    rcases eq_or_ne j i with rfl | hne
    · rw [update_self, hk]
    · rw [update_of_ne hne]
  unfold Host.isOther
  rw [hproto]
  rfl

theorem below_deliver {port : ℕ} {Q : Host → Prop} (hh : h + 20 ≤ n) (hdata : data + size ≤ n)
    (hsame : Q s) (hput : ∀ k : Sock, k.proto = (s.stack.socks i).proto → Q (s.put i k)) :
    Below n memory (deliver s i h port data size) Q := by
  refine below_ite (fun _ => below_pure.2 hsame) fun _ => ?_
  rw [below_bind]
  apply below_look (by omega)
  rw [below_bind, below_peek]
  refine ⟨by omega, ?_⟩
  rw [below_bind]
  apply below_look hdata
  exact below_pure.2 (hput _ rfl)

/-- A raw socket of ICMP is there. -/
def Host.Raw (s : Host) : Prop := ∃ i < sockets, s.isOther i (.raw netIcmp) = true

theorem below_rawTurn (hh : h + 20 ≤ n) (htotal : h + size ≤ n) (hsame : SameKinds s s')
    (hraw : memory (h + 9) = netIcmp → s.isOther i (.raw netIcmp) = true → h + headLen (memory h) < n) :
    Below n memory (rawTurn h size s' i) (SameKinds s) := by
  have hdeliver : Below n memory (deliver s' i h 0 h size) (SameKinds s) :=
    below_deliver hh htotal hsame fun k hk => hsame.put hk
  unfold rawTurn
  rw [below_bind, below_peek]
  refine ⟨by omega, below_ite (fun _ => below_pure.2 hsame) fun hother =>
    below_ite (fun hicmp => ?_) fun _ => hdeliver⟩
  rw [below_bind, below_peek]
  refine ⟨by omega, ?_⟩
  rw [below_bind, below_peek]
  refine ⟨hraw hicmp ?_, below_ite (fun _ => below_pure.2 hsame) fun _ => hdeliver⟩
  rw [← hsame, ← hicmp]
  simpa using hother

/-- **`raw_input`** looks at nothing past the packet, where there is a byte after an ICMP packet's header
or no raw socket that would ask for it. -/
theorem below_rawInput (hh : h + 20 ≤ n) (htotal : h + size ≤ n)
    (hraw : memory (h + 9) = netIcmp → s.Raw → h + headLen (memory h) < n) :
    Below n memory (rawInput s h size) (SameKinds s) :=
  below_foldlM (.refl s) fun _ i hi hsame => below_rawTurn hh htotal hsame fun hicmp hkind =>
    hraw hicmp ⟨i, List.mem_range.1 hi, hkind⟩

/-- A raw socket asks for the byte after the header. -/
theorem mem_rawInput (hraw : s.Raw) (hicmp : memory (h + 9) = netIcmp) :
    h + headLen (memory h) ∈ (rawInput s h size memory).2 := by
  obtain ⟨i, hi, hkind⟩ := hraw
  have hle := headLen_le (memory h)
  refine mem_foldlM (Q := SameKinds s) (List.mem_range.2 hi) (.refl s) (fun s' j _ hsame => ?_)
    fun s' hsame => ?_
  · exact (below_rawTurn (n := h + size + 61) (by omega) (by omega) hsame fun _ _ => by omega).2
  · unfold rawTurn
    rw [mem_bind, peek_apply, if_neg (by rw [hicmp, hsame, hkind]; simp), if_pos hicmp, mem_bind, mem_bind]
    exact .inr (.inr (.inl List.mem_cons_self))

/-! ### ICMP -/

theorem below_icmpSendError (hh : h + 20 ≤ n) (htotal : h + (halfAt (h + 2) memory).1 ≤ n) (type code : UInt8) :
    Below n memory (icmpSendError s h type code) Fine := by
  unfold icmpSendError
  rw [below_bind, below_peek]
  refine ⟨by omega, ?_⟩
  rw [below_bind]
  apply below_halfAt (by omega)
  rw [below_bind]
  apply below_addrAt (by omega)
  rw [below_bind]
  apply below_addrAt (by omega)
  have hhead := headLen_le (memory h)
  refine below_ite (fun _ => below_pure.2 (fine_none _)) fun hlong => ?_
  cases s.route (addrAt (h + 12) memory).1 with
  | none => exact below_pure.2 (fine_none _)
  | some loop =>
    simp only
    rw [below_bind]
    apply below_look (by omega)
    refine below_pure.2 (ipSend_fine fun _ => ?_)
    rw [length_icmpMessage]
    simp only [List.length_append, List.length_cons, List.length_nil, List.length_map, List.length_range]
    omega

theorem below_errqPush {e : List UInt8} {Q : Host → Prop} (hdata : data + size ≤ n)
    (hq : ∀ s, Q s) : Below n memory (errqPush s room i e data size) Q := by
  refine below_ite (fun _ => below_pure.2 (hq _)) fun _ => below_ite (fun _ => below_pure.2 (hq _)) fun _ => ?_
  rw [below_bind]
  apply below_look hdata
  exact below_pure.2 (hq _)

theorem below_sockError {m dport : ℕ} {Q : Host → Prop} (hh : h + 20 ≤ n)
    (hm : m + 8 ≤ n) (hdata : data + size ≤ n) (hq : ∀ s, Q s) :
    Below n memory (sockError s room i h m dst dport data size) Q := by
  unfold sockError
  rw [below_bind, below_peek]
  refine ⟨by omega, ?_⟩
  rw [below_bind, below_peek]
  refine ⟨by omega, below_ite (fun _ => ?_) fun _ =>
    below_ite (fun _ => below_pure.2 (hq _)) fun _ => below_pure.2 (hq _)⟩
  rw [below_bind, below_peek]
  refine ⟨by omega, ?_⟩
  rw [below_bind]
  apply below_halfAt (by omega)
  rw [below_bind]
  apply below_look (by omega)
  rw [below_bind]
  exact below_errqPush hdata fun s => below_pure.2 (hq _)

theorem below_icmpErrorTurn {t rest : ℕ} {Q : Host → Prop} (hh : h + 20 ≤ n) (hp : p + 28 ≤ n)
    (ht : t + rest ≤ n) (hrest : 8 ≤ rest) (hq : ∀ s, Q s) :
    Below n memory (icmpErrorTurn room h p t rest s i) Q := by
  unfold icmpErrorTurn
  rw [below_bind, below_peek]
  refine ⟨by omega, ?_⟩
  rw [below_bind]
  apply below_addrAt (by omega)
  rw [below_bind]
  apply below_halfAt (by omega)
  rw [below_bind]
  apply below_halfAt (by omega)
  refine below_ite (fun _ => below_sockError hh (by omega) (by omega) hq) fun _ =>
    below_ite (fun _ => ?_) fun _ => below_ite (fun _ => ?_) fun _ => below_pure.2 (hq _)
  · rw [below_bind]
    apply below_halfAt (by omega)
    exact below_ite (fun _ => below_sockError hh (by omega) ht hq) fun _ => below_pure.2 (hq _)
  · rw [below_bind, below_peek]
    refine ⟨by omega, ?_⟩
    rw [below_bind, below_peek]
    exact ⟨by omega, below_ite (fun _ => below_pure.2 (hq _)) fun _ => below_pure.2 (hq _)⟩

/-- **`icmp_error`**: the header it quotes is all there, and eight bytes after it. -/
theorem below_icmpError {Q : Host → Prop} (hh : h + 20 ≤ n) (hp : p + len ≤ n)
    (hq : ∀ s, Q s) : Below n memory (icmpError s room h p len) Q := by
  refine below_ite (fun _ => below_pure.2 (hq _)) fun hshort => ?_
  rw [below_bind, below_peek]
  refine ⟨by omega, below_ite (fun _ => below_pure.2 (hq _)) fun hhead => ?_⟩
  exact below_foldlM (hq _) fun s' i _ _ => below_icmpErrorTurn hh (by omega) (by omega) (by omega) hq

theorem below_echoTurn {Q : Host → Prop} (hh : h + 20 ≤ n) (hp : p + len ≤ n) (hlen : 8 ≤ len) (hq : ∀ s, Q s) :
    Below n memory (echoTurn h p len s i) Q := by
  refine below_ite (fun _ => ?_) fun _ => below_pure.2 (hq _)
  rw [below_bind]
  apply below_halfAt (by omega)
  exact below_ite (fun _ => below_deliver hh hp (hq _) fun _ _ => hq _) fun _ => below_pure.2 (hq _)

/-- **`icmp_input`**. -/
theorem below_icmpInput (hh : h + 20 ≤ n) (hp : p + len ≤ n) :
    Below n memory (icmpInput s room h p len) Fine := by
  refine below_ite (fun _ => below_pure.2 (fine_none _)) fun hshort => ?_
  rw [below_bind, below_peek]
  refine ⟨by omega, below_ite (fun _ => ?_) fun _ => below_ite (fun _ => ?_) fun _ =>
    below_ite (fun _ => ?_) fun _ => below_pure.2 (fine_none _)⟩
  · rw [below_bind]
    apply below_addrAt (by omega)
    refine below_ite (fun _ => below_pure.2 (fine_none _)) fun hlong => ?_
    cases s.route (addrAt (h + 12) memory).1 with
    | none => exact below_pure.2 (fine_none _)
    | some loop =>
      simp only
      rw [below_bind, below_peek]
      refine ⟨by omega, ?_⟩
      rw [below_bind]
      apply below_look (by omega)
      refine below_pure.2 (ipSend_fine fun _ => ?_)
      rw [length_icmpMessage]
      simp only [List.length_map, List.length_range]
      omega
  · rw [below_bind]
    have hturns : Below n memory ((List.range sockets).foldlM (echoTurn h p len) s) fun _ => True :=
      below_foldlM trivial fun s' i _ _ => below_echoTurn hh hp (by omega) fun _ => trivial
    exact hturns.mono fun s' _ => below_pure.2 (fine_none _)
  · rw [below_bind]
    exact below_icmpError hh hp fun s' => below_pure.2 (fine_none _)

/-! ### DHCP and UDP -/

theorem below_dhcpOption {code type : UInt8} {o : ℕ} {d : Dhcp} {Q : UInt8 × Dhcp → Prop} (ho : o + size ≤ n)
    (hq : ∀ r, Q r) : Below n memory (dhcpOption code size o type d) Q := by
  refine below_ite (fun _ => ?_) fun _ => below_ite (fun _ => ?_) fun _ => below_pure.2 (hq _)
  · rw [below_bind, below_peek]
    exact ⟨by omega, below_pure.2 (hq _)⟩
  · rw [below_bind]
    apply below_addrAt (by omega)
    exact below_pure.2 (hq _)

/-- The options of DHCP: each turn moves on, and ends before what is there does. -/
theorem below_dhcpOptions {last : ℕ} (hlast : last ≤ n) (o : ℕ) (type : UInt8) (d : Dhcp) :
    Below n memory (dhcpOptions last o type d) fun _ => True := by
  induction o, type, d using dhcpOptions.induct last with
  | case1 o type d hend =>
    rw [dhcpOptions, if_pos hend]
    exact below_pure.2 trivial
  | case2 o type d hmore ihpad ihnext =>
    rw [dhcpOptions, if_neg hmore, below_bind, below_peek]
    refine ⟨by omega, below_ite (fun _ => below_pure.2 trivial) fun _ => below_ite (fun _ => ihpad) fun _ => ?_⟩
    rw [below_bind, below_peek]
    refine ⟨by omega, below_ite (fun _ => below_pure.2 trivial) fun hfits => ?_⟩
    rw [below_bind]
    exact below_dhcpOption (by omega) fun r => ihnext _ hfits r

theorem length_addrAt (i : ℕ) : (addrAt i memory).2.length = 4 := rfl

theorem length_dhcpOption (code type : UInt8) (o : ℕ) (d : Dhcp) :
    (dhcpOption code size o type d memory).2.length ≤ size := by
  unfold dhcpOption
  by_cases hfirst : code = 53 ∧ 1 ≤ size
  · rw [if_pos hfirst]
    exact hfirst.2
  rw [if_neg hfirst]
  by_cases hfour : 4 ≤ size ∧ (code = 1 ∨ code = 3 ∨ code = 6 ∨ code = 54)
  · rw [if_pos hfour]
    simp only [bind_apply, pure_apply, List.append_nil, length_addrAt]
    exact hfour.1
  · rw [if_neg hfour]
    exact Nat.zero_le _

/-- **The options of DHCP end**: no more is looked at than there is. -/
theorem dhcpOptions_ends (last o : ℕ) (type : UInt8) (d : Dhcp) :
    (dhcpOptions last o type d memory).2.length ≤ last - o := by
  induction o, type, d using dhcpOptions.induct last with
  | case1 o type d hend =>
    rw [dhcpOptions, if_pos hend]
    exact Nat.zero_le _
  | case2 o type d hmore ihpad ihnext =>
    rw [dhcpOptions, if_neg hmore, bind_apply, peek_apply]
    simp only [List.length_append, List.length_cons, List.length_nil]
    split_ifs with hend hpad
    · simp only [pure_apply, List.length_nil]
      omega
    · omega
    · rw [bind_apply, peek_apply]
      simp only [List.length_append, List.length_cons, List.length_nil]
      split_ifs with hshort
      · simp only [pure_apply, List.length_nil]
        omega
      · rw [bind_apply]
        have hsays : (dhcpOption (memory o) (memory (o + 1)).toNat (o + 2) type d memory).2.length ≤ _ :=
          length_dhcpOption _ _ _ _
        have hrest := ihnext _ hshort (dhcpOption (memory o) (memory (o + 1)).toNat (o + 2) type d memory).1
        simp only [List.length_append]
        omega

/-- **`dhcp_input`**. -/
theorem below_dhcpInput {Q : Host → Prop} (hp : p + len ≤ n) (hq : ∀ s, Q s) :
    Below n memory (dhcpInput s p len) Q := by
  refine below_ite (fun _ => below_pure.2 (hq _)) fun hshort => ?_
  rw [below_bind, below_peek]
  refine ⟨by omega, ?_⟩
  rw [below_bind]
  apply below_addrAt (by omega)
  rw [below_bind]
  apply below_addrAt (by omega)
  refine below_ite (fun _ => below_pure.2 (hq _)) fun _ => ?_
  rw [below_bind]
  refine (below_dhcpOptions hp _ _ _).mono fun r _ => below_ite (fun _ => ?_) fun _ =>
    below_ite (fun _ => below_pure.2 (hq _)) fun _ => below_pure.2 (hq _)
  rw [below_bind]
  apply below_addrAt (by omega)
  exact below_pure.2 (hq _)

/-- **`udp_input`**, of a packet whose total length is in it. -/
theorem below_udpInput (hh : h + 20 ≤ n) (htotal : h + (halfAt (h + 2) memory).1 ≤ n) (hp : p + len ≤ n) :
    Below n memory (udpInput s h p len) Fine := by
  refine below_ite (fun _ => below_pure.2 (fine_none _)) fun hshort => ?_
  rw [below_bind]
  apply below_halfAt (by omega)
  refine below_ite (fun _ => below_pure.2 (fine_none _)) fun hsize => ?_
  rw [below_bind]
  apply below_halfAt (by omega)
  refine below_ite (fun _ => ?_) fun _ => ?_
  · rw [below_bind]
    exact below_dhcpInput (by omega) fun s' => below_pure.2 (fine_none _)
  · rw [below_bind]
    apply below_halfAt (by omega)
    rw [below_bind]
    apply below_addrAt (by omega)
    cases s.udpFind (addrAt (h + 12) memory).1 (halfAt p memory).1 (halfAt (p + 2) memory).1 with
    | some i =>
      simp only
      rw [below_bind]
      exact below_deliver hh (by omega) (below_pure.2 (fine_none _)) fun _ _ => below_pure.2 (fine_none _)
    | none =>
      simp only
      rw [below_bind]
      apply below_addrAt (by omega)
      exact below_ite (fun _ => below_icmpSendError hh htotal 3 3) fun _ => below_pure.2 (fine_none _)

/-! ### TCP -/

/-- The options of TCP: each turn moves on, and none looks past where they end. -/
theorem below_tcpOptions {off : ℕ} (hoff : p + off ≤ n) (i mss : ℕ) :
    Below n memory (tcpOptions p off i mss) fun _ => True := by
  induction i, mss using tcpOptions.induct off with
  | case1 i mss hend =>
    rw [tcpOptions, if_pos hend]
    exact below_pure.2 trivial
  | case2 i mss hmore ihpad ihmost ihnext =>
    rw [tcpOptions, if_neg hmore, below_bind, below_peek]
    refine ⟨by omega, below_ite (fun _ => below_pure.2 trivial) fun _ => below_ite (fun _ => ihpad) fun _ => ?_⟩
    rw [below_bind, below_peek]
    refine ⟨by omega, below_ite (fun hmost => ?_) fun _ =>
      below_ite (fun _ => below_pure.2 trivial) fun hsize => ihnext _ hsize⟩
    rw [below_bind]
    apply below_halfAt (by omega)
    exact ihmost _ _ hmost _

/-- **The options of TCP end**: no more is looked at than there is. -/
theorem tcpOptions_ends (p off i mss : ℕ) : (tcpOptions p off i mss memory).2.length ≤ off - i := by
  induction i, mss using tcpOptions.induct off with
  | case1 i mss hend =>
    rw [tcpOptions, if_pos hend]
    exact Nat.zero_le _
  | case2 i mss hmore ihpad ihmost ihnext =>
    rw [tcpOptions, if_neg hmore, bind_apply, peek_apply]
    simp only [List.length_append, List.length_cons, List.length_nil]
    split_ifs with hend hpad
    · simp only [pure_apply, List.length_nil]
      omega
    · omega
    · rw [bind_apply, peek_apply]
      simp only [List.length_append, List.length_cons, List.length_nil]
      split_ifs with hmost hsize
      · have hrest := ihmost _ _ hmost (halfAt (p + (i + 2)) memory).1
        have hhalf : (halfAt (p + (i + 2)) memory).2.length = 2 := rfl
        rw [bind_apply]
        simp only [List.length_append, hhalf]
        omega
      · simp only [pure_apply, List.length_nil]
        omega
      · have hrest := ihnext _ hsize
        omega

theorem below_tcpSegment {Q : Option (ℕ × ℕ × Seg) → Prop} (hp : p + len ≤ n) (hq : ∀ r, Q r) :
    Below n memory (tcpSegment p len) Q := by
  refine below_ite (fun _ => below_pure.2 (hq _)) fun hshort => ?_
  rw [below_bind, below_peek]
  refine ⟨by omega, below_ite (fun _ => below_pure.2 (hq _)) fun hoff => ?_⟩
  rw [below_bind]
  apply below_halfAt (by omega)
  rw [below_bind]
  apply below_halfAt (by omega)
  rw [below_bind]
  refine below_wordAt (by omega) fun seq => ?_
  rw [below_bind]
  refine below_wordAt (by omega) fun ackNo => ?_
  rw [below_bind, below_peek]
  refine ⟨by omega, ?_⟩
  rw [below_bind]
  apply below_halfAt (by omega)
  rw [below_bind]
  refine (below_tcpOptions (by omega) _ _).mono fun mss _ => ?_
  rw [below_bind]
  apply below_look (by omega)
  exact below_pure.2 (hq _)

theorem tcpTake_fine (src : Addr) (sport dport : ℕ) (x : Seg) : Fine (s.tcpTake c loop src sport dport x) := by
  unfold Host.tcpTake
  cases s.stack.tcpFind src.toNat sport dport with
  | none =>
    simp only
    split_ifs
    · exact fine_none _
    · exact tcp_fine
  | some i =>
    simp only
    split_ifs
    · exact fine_none _
    · exact tcp_fine
    · split
      · exact tcp_fine
      · exact fine_none _
    · exact fine_none _
    · exact turn_fine _ _

/-- **`tcp_input`**. -/
theorem below_tcpInput (hh : h + 20 ≤ n) (hp : p + len ≤ n) :
    Below n memory (tcpInput s c loop h p len) Fine := by
  unfold tcpInput
  rw [below_bind]
  apply below_addrAt (by omega)
  rw [below_bind]
  refine below_tcpSegment hp fun r => ?_
  cases r with
  | none => exact below_pure.2 (fine_none _)
  | some segment => exact below_pure.2 (tcpTake_fine _ _ _ _)

/-! ### IP and Ethernet -/

/-- `ip_input` takes a packet: it is of version 4, whole, no longer than it says and than its header, and
for this host. -/
structure Takes (s : Host) (memory : ℕ → UInt8) (h len : ℕ) : Prop where
  version : (memory h).toNat / 2 ^ 4 = 4
  le : (halfAt (h + 2) memory).1 ≤ len
  head : headLen (memory h) ≤ (halfAt (h + 2) memory).1
  whole : (halfAt (h + 6) memory).1 % 2 ^ 14 = 0
  hears : s.hears (addrAt (h + 16) memory).1 = true

/-- **`ip_input`**, of a packet that has a byte after its header, if it is of ICMP and a raw socket is there. -/
theorem below_ipInput
    (hraw : 20 ≤ len → Takes s memory h len → memory (h + 9) = netIcmp → s.Raw → headLen (memory h) < len) :
    Below (h + len) memory (ipInput s c loop h len) Fine := by
  refine below_ite (fun _ => below_pure.2 (fine_none _)) fun hshort => ?_
  rw [below_bind, below_peek]
  refine ⟨by omega, ?_⟩
  rw [below_bind]
  apply below_halfAt (by omega)
  rw [below_bind]
  apply below_halfAt (by omega)
  rw [below_bind]
  apply below_addrAt (by omega)
  refine below_ite (fun _ => below_pure.2 (fine_none _)) fun htakes => ?_
  push Not at htakes
  obtain ⟨hversion, htotal, hhead, hwhole, hhears⟩ := htakes
  rw [below_bind]
  refine (below_rawInput (by omega) (by omega) fun hicmp hthere => ?_).mono fun s' _ => ?_
  · have := hraw (by omega) ⟨hversion, htotal, hhead, hwhole, by simpa using hhears⟩ hicmp hthere
    omega
  · rw [below_bind, below_peek]
    refine ⟨by omega, below_ite (fun _ => below_icmpInput (by omega) (by omega)) fun _ =>
      below_ite (fun _ => below_udpInput (by omega) (by omega) (by omega)) fun _ =>
      below_ite (fun _ => below_tcpInput (by omega) (by omega)) fun _ => below_pure.2 (fine_none _)⟩

/-- **`arp_input`**. -/
theorem below_arpInput {a : ℕ} {Q : Host → Prop} (ha : a + len ≤ n) (hq : ∀ s, Q s) :
    Below n memory (arpInput s a len) Q := by
  refine below_ite (fun _ => below_pure.2 (hq _)) fun hshort => ?_
  rw [below_bind]
  apply below_halfAt (by omega)
  rw [below_bind]
  apply below_addrAt (by omega)
  refine below_ite (fun _ => below_pure.2 (hq _)) fun _ => ?_
  rw [below_bind]
  apply below_addrAt (by omega)
  rw [below_bind]
  apply below_look (by omega)
  rw [below_bind]
  apply below_halfAt (by omega)
  exact below_pure.2 (hq _)

/-! ### What follows -/

/-- **What loops back in answer**, and what that is answered with, is not looked at past its end. -/
theorem next_inside {x : Host × Option ℕ} (hx : Fine x) (c : Choice) :
    (next x c).2.Inside ∧ Fine (next x c).1 := by
  obtain ⟨s, pending⟩ := x
  unfold next
  cases pending with
  | some m =>
    have hbelow : Below (0 + m) s.loopBuf
        (ipInput { s with stack := { s.stack with now := s.stack.now + c.ms } } c true 0 m) Fine :=
      below_ipInput fun hge _ hicmp _ => hx m rfl hge hicmp
    rw [Nat.zero_add] at hbelow
    exact hbelow
  | none =>
    simp only
    cases s.stack.frames with
    | nil => exact ⟨nofun, fine_none _⟩
    | cons f rest =>
      cases f with
      | push i => exact ⟨nofun, turn_fine _ _⟩
      | closed i err => exact ⟨nofun, fine_none _⟩
      | children l i => exact ⟨nofun, fine_none _⟩
      | linger i till => exact ⟨nofun, fine_none _⟩

theorem looks_inside (cs : List Choice) {x : Host × Option ℕ} (hx : Fine x) : ∀ l ∈ looks x cs, l.Inside := by
  induction cs generalizing x with
  | nil => exact nofun
  | cons c cs ih =>
    have hnext := next_inside hx c
    intro l hl
    rcases List.mem_cons.1 hl with rfl | hl
    · exact hnext.1
    · exact ih hnext.2 l hl

/-! ### The frame -/

/-- A frame that is an IP header of ICMP and nothing else, `ip_input` takes it, and a raw socket of ICMP is
there. -/
structure Bare (s : Host) (memory : ℕ → UInt8) (len : ℕ) : Prop where
  up : s.down = false
  long : 34 ≤ len
  ip : (halfAt 12 memory).1 = ethIp
  takes : Takes s memory 14 (len - 14)
  icmp : memory 23 = netIcmp
  raw : s.Raw
  len : len = 14 + headLen (memory 14)

/-- Where a frame came from, learnt or not, makes no difference. -/
theorem learnt_same (p : Prop) [Decidable p] (s : Host) (ip : Addr) (mac : List UInt8) :
    (∀ dst, (if p then s.arpLearn ip mac else s).hears dst = s.hears dst) ∧
      ((if p then s.arpLearn ip mac else s).Raw ↔ s.Raw) := by
  split_ifs
  · unfold Host.arpLearn
    split
    · exact ⟨fun _ => rfl, Iff.rfl⟩
    · exact ⟨fun _ => rfl, Iff.rfl⟩
  · exact ⟨fun _ => rfl, Iff.rfl⟩

/-- A bare header is looked at past its end. -/
theorem Bare.mem (hb : Bare s memory len) (c : Choice) : len ∈ (ethInput s c len memory).2 := by
  have hlong := hb.long
  have hlen := hb.len
  obtain ⟨hversion, htotal, hhead, hwhole, hhears⟩ := hb.takes
  unfold ethInput
  rw [if_neg (by rw [hb.up]; simp; omega), mem_bind, hb.ip, if_pos ⟨hlong, rfl⟩, mem_bind, mem_bind]
  refine .inr (.inr (.inr ?_))
  obtain ⟨hsame, hraw⟩ := learnt_same (s.myIp ≠ 0 ∧ ((addrAt 26 memory).1 ^^^ s.myIp) &&& s.mask = 0) s
    (addrAt 26 memory).1 (look 6 6 memory).1
  unfold ipInput
  rw [if_neg (by omega), mem_bind, mem_bind, mem_bind, mem_bind]
  refine .inr (.inr (.inr (.inr ?_)))
  rw [if_neg, mem_bind]
  · rw [hlen]
    exact .inl (mem_rawInput (hraw.2 hb.raw) hb.icmp)
  · push Not
    refine ⟨hversion, htotal, hhead, hwhole, ?_⟩
    rw [hsame, hhears]
    decide

/-- **A frame is looked at past its end exactly where it is bare.** Whatever there is in the memory that a
frame of `len` bytes lies in and whatever sockets are open, `eth_input` and all it calls look at nothing
outside it, nor outside what loops back in answer, unless it is an ICMP packet without a byte after its header
and a raw socket of ICMP is there; and the loops over options end. -/
theorem ethInput_inside_iff (s : Host) (memory : ℕ → UInt8) (len : ℕ) (c : Choice) (cs : List Choice) :
    (((⟨len, (ethInput s c len memory).2⟩ : Look).Inside ∧
      ∀ l ∈ looks (ethInput s c len memory).1 cs, l.Inside) ↔ ¬Bare s memory len) ∧
    (∀ last o type d, (dhcpOptions last o type d memory).2.length ≤ last - o) ∧
    ∀ p off i mss, (tcpOptions p off i mss memory).2.length ≤ off - i := by
  refine ⟨?_, fun last o type d => dhcpOptions_ends last o type d,
    fun p off i mss => tcpOptions_ends p off i mss⟩
  constructor
  · rintro ⟨hinside, -⟩ hb
    exact lt_irrefl _ (hinside _ (hb.mem c))
  · intro hb
    suffices hbelow : Below len memory (ethInput s c len) Fine from ⟨hbelow.1, looks_inside cs hbelow.2⟩
    refine below_ite (fun _ => below_pure.2 (fine_none _)) fun hup => ?_
    push Not at hup
    obtain ⟨hup, hlong⟩ := hup
    rw [below_bind]
    apply below_halfAt (by omega)
    refine below_ite (fun hip => ?_) fun _ => below_ite (fun _ => ?_) fun _ => below_pure.2 (fine_none _)
    · obtain ⟨hlong, hip⟩ := hip
      rw [below_bind]
      apply below_addrAt (by omega)
      rw [below_bind]
      apply below_look (by omega)
      obtain ⟨hsame, hraw⟩ := learnt_same (s.myIp ≠ 0 ∧ ((addrAt 26 memory).1 ^^^ s.myIp) &&& s.mask = 0) s
        (addrAt 26 memory).1 ((List.range 6).map fun i => memory (6 + i))
      generalize (if s.myIp ≠ 0 ∧ ((addrAt 26 memory).1 ^^^ s.myIp) &&& s.mask = 0 then
        s.arpLearn (addrAt 26 memory).1 ((List.range 6).map fun i => memory (6 + i)) else s) = s1 at hsame hraw
      have hpacket : Below (14 + (len - 14)) memory (ipInput s1 c false 14 (len - 14)) Fine := by
        refine below_ipInput fun _ htakes hicmp hthere => ?_
        by_contra hbare
        refine hb ⟨by simpa using hup, hlong, hip, ?_, hicmp, hraw.1 hthere, ?_⟩
        · exact ⟨htakes.version, htakes.le, htakes.head, htakes.whole, hsame _ ▸ htakes.hears⟩
        · have hle := htakes.head.trans htakes.le
          omega
      rwa [Nat.add_sub_cancel' (by omega)] at hpacket
    · rw [below_bind]
      exact below_arpInput (by omega) fun s' => below_pure.2 (fine_none _)

/-- Nothing open but a raw socket of ICMP, and no card. -/
def oneRaw : Host where
  stack := { Stack.empty with socks := update Stack.empty.socks 0 { Sock.new .other with refs := 1 } }
  others _ := ⟨.raw netIcmp, false, 0, none, 0⟩
  ttl _ := 0
  link := .noAddress
  down := false
  myIp := 0
  mask := 0
  gateway := 0
  arps _ := (0, [])
  arpNext := 0
  ipId := 0
  loopBuf _ := 0
  dhcp := ⟨0, 0, 0, 0, 0, 0, 0⟩

/-- A frame of 34 bytes: Ethernet's header, and an IP header of ICMP. -/
def bareFrame : List UInt8 :=
  List.replicate 12 0 ++ [8, 0, 0x45, 0, 0, 20, 0, 0, 0, 0, 64, 1] ++ List.replicate 10 0

/-- **The byte after a frame is looked at.** -/
theorem exists_not_inside : ∃ (s : Host) (memory : ℕ → UInt8) (len : ℕ) (c : Choice),
    ¬(⟨len, (ethInput s c len memory).2⟩ : Look).Inside := by
  have hb : Bare oneRaw (fun i => bareFrame.getD i 0) 34 :=
    ⟨rfl, le_rfl, by decide, ⟨by decide, by decide, by decide, by decide, by decide⟩, by decide,
      ⟨0, by decide, by decide⟩, by decide⟩
  exact ⟨oneRaw, _, 34, ⟨0, true, 0⟩, fun hinside => lt_irrefl _ (hinside _ (hb.mem _))⟩

end BaxOS.Net.Input
