import BaxOS.Net.Stack

/-!
# What a step does to a slot

Said once (`Moved`), for every invariant that is of one slot; and a condition on the steps of a run
(`Always`).
-/

namespace BaxOS.Net
open Function

namespace Stack

variable {s s' : Stack} {k : Sock} {t : Turn} {i j : ℕ} {a : Act}

/-- What a step makes of a slot. -/
inductive Moved (s : Stack) (i : ℕ) : Act → Sock → Prop
  | same (a : Act) : Moved s i a (s.socks i)
  | heard {src : ℕ} {p : List UInt8} (loop room : Bool) (iss : Seq) {sport dport : ℕ} {x : Seg}
      (hp : parse p = some (sport, dport, x)) (hf : s.tcpFind src sport dport = some i)
      (hl : (s.socks i).state ≠ .listen) :
      Moved s i (.segment src p loop room iss) ((s.socks i).tcpInput s.now x).sock
  | offered (src : ℕ) (p : List UInt8) (loop room : Bool) (iss : Seq) (hfree : (s.socks i).proto = .free)
      {l : ℕ} (hl : l < sockets) (port sport : ℕ) (x : Seg) :
      Moved s i (.segment src p loop room iss)
        ((Sock.new .tcp).offered s.now (l + 1) port src sport loop iss x).sock
  | unreachable (htcp : (s.socks i).proto = .tcp) (hsent : (s.socks i).state = .synSent) :
      Moved s i (.unreachable i) ((s.socks i).tcpClosed econnrefused)
  | timeout (hpolls : s.polls = true) (htcp : (s.socks i).proto = .tcp) (hset : (s.socks i).timer ≠ 0) :
      Moved s i (.timeout i) ((s.socks i).tcpTimeout s.now).sock
  | pushed : Moved s i .resume ((s.socks i).tcpPush s.now false).sock
  | closed (err : ℕ) (hframe : s.frames.head? = some (.closed i err)) :
      Moved s i .resume ((s.socks i).tcpClosed err)
  | child (l : ℕ) (htcp : (s.socks i).proto = .tcp) (hchild : (s.socks i).parent = l + 1) :
      Moved s i .resume ((s.socks i).tcpAbort 0).sock
  | childless {n : ℕ} (hframe : s.frames.head? = some (.children i n)) : Moved s i .resume .free
  | lingered (htcp : (s.socks i).proto = .tcp) (hhalf : (s.socks i).state = .finWait2) :
      Moved s i .resume { s.socks i with timer := s.now + 30000 }
  | made {proto : Proto} (room : Bool) (hfree : (s.socks i).proto = .free) (hproto : proto ≠ .free) :
      Moved s i (.socket proto room) { Sock.new proto with refs := 1 }
  | held : Moved s i (.hold i) { s.socks i with refs := ((s.socks i).refs + 1) % 2 ^ 8 }
  | fewer (hproto : (s.socks i).proto ≠ .free) (hrefs : 0 < (s.socks i).refs - 1) :
      Moved s i (.drop i) { s.socks i with refs := (s.socks i).refs - 1 }
  | freed (hrefs : (s.socks i).refs = 1)
      (hstate : (s.socks i).proto ≠ .tcp ∨ (s.socks i).state = .synSent ∨ (s.socks i).state = .closed) :
      Moved s i (.drop i) .free
  | left (hrefs : (s.socks i).refs = 1) (htcp : (s.socks i).proto = .tcp)
      (hsent : (s.socks i).state ≠ .synSent) (hclosed : (s.socks i).state ≠ .closed)
      (hopen : (s.socks i).state ≠ .established) (hhalf : (s.socks i).state ≠ .closeWait) :
      Moved s i (.drop i) { s.socks i with refs := 0 }
  | aborted (hrefs : (s.socks i).refs = 1) (htcp : (s.socks i).proto = .tcp)
      (hopen : (s.socks i).state = .established ∨ (s.socks i).state = .closeWait)
      (hunread : 0 < (s.socks i).inLen) : Moved s i (.drop i) (Sock.tcpAbort { s.socks i with refs := 0 } 0).sock
  | finished (hrefs : (s.socks i).refs = 1) (htcp : (s.socks i).proto = .tcp)
      (hopen : (s.socks i).state = .established ∨ (s.socks i).state = .closeWait)
      (hread : (s.socks i).inLen = 0) :
      Moved s i (.drop i) (Sock.tcpPush s.now { s.socks i with refs := 0, finOut := true } false).sock
  | bound (port auto : ℕ) (p : ℕ) : Moved s i (.bind i port auto) { s.socks i with port := p }
  | connected (ip port auto : ℕ) (loop : Bool) (iss : Seq) (p : ℕ) (hclosed : (s.socks i).state = .closed) :
      Moved s i (.connect i ip port auto loop iss) ((s.socks i).connect s.now loop ip port p iss).sock
  | listened (backlog auto : ℕ) (p n : ℕ)
      (hclosed : (s.socks i).state = .closed ∨ (s.socks i).state = .listen) :
      Moved s i (.listen i backlog auto) { s.socks i with port := p, state := .listen, backlog := n }
  | accepted {l : ℕ} (htcp : (s.socks i).proto = .tcp) (hchild : (s.socks i).parent = l + 1)
      (hopen : (s.socks i).state ≠ .synRcvd) : Moved s i (.accept l) { s.socks i with parent := 0, refs := 1 }
  | shut : Moved s i (.shutdown i) ((s.socks i).shutdown s.now).sock
  | wrote (data : List UInt8) : Moved s i (.write i data) ((s.socks i).tcpWrite s.now data).1.sock
  | read (size : ℕ) (peek : Bool) : Moved s i (.read i size peek) ((s.socks i).tcpRead size peek).1.sock
  | cleared : Moved s i (.error i) { s.socks i with error := 0 }

theorem Moved.put {s₁ : Stack} (hm : Moved s i a k) (hsocks : s₁.socks = s.socks) (j : ℕ) :
    Moved s j a ((s₁.put i k).socks j) := by
  show Moved s j a (update s₁.socks i k j)
  by_cases hj : j = i
  · subst hj
    rwa [update_self]
  · rw [update_of_ne hj, hsocks]
    exact .same a

theorem find_some {p : Sock → Bool} (h : s.find p = some i) : i < sockets ∧ p (s.socks i) = true := by
  unfold find at h
  exact ⟨List.mem_range.1 (List.mem_of_find?_eq_some h), @List.find?_some _ (fun i => p (s.socks i)) _ _ h⟩

/-- What `tcp_find` finds is a TCP socket that is not closed. -/
theorem tcpFind_some {src sport dport : ℕ} (h : s.tcpFind src sport dport = some i) :
    i < sockets ∧ (s.socks i).proto = .tcp ∧ (s.socks i).state ≠ .closed := by
  unfold tcpFind at h
  simp only at h
  split at h
  · rename_i j hj
    obtain rfl := Option.some.inj h
    obtain ⟨hlt, hp⟩ := find_some hj
    simp only [Bool.and_eq_true, decide_eq_true_eq] at hp
    exact ⟨hlt, hp.1.1.1.1.1, hp.1.1.1.2⟩
  · have hp := List.find?_some h
    have hmem := List.mem_range.1 (List.mem_reverse.1 (List.mem_of_find?_eq_some h))
    simp only [Bool.and_eq_true, decide_eq_true_eq] at hp
    exact ⟨hmem, hp.1.1.1, hp.1.2⟩

/-- Where `sock_new` makes one. -/
theorem sockNew_some {room : Bool} (h : s.sockNew room t = some (i, s')) :
    i < sockets ∧ (s.socks i).proto = .free ∧ s' = Stack.run { s with
      syn := update s.syn i false, pages := update s.pages i (some s.given), given := s.given + 1 } i t := by
  unfold sockNew at h
  cases hf : s.find fun k => k.proto = .free with
  | none =>
    rw [hf] at h
    exact nomatch h
  | some j =>
    rw [hf] at h
    simp only at h
    split_ifs at h
    obtain ⟨rfl, rfl⟩ := Prod.mk.inj (Option.some.inj h)
    obtain ⟨hlt, hfree⟩ := find_some hf
    exact ⟨hlt, of_decide_eq_true hfree, rfl⟩

theorem tcpInput_moved (src : ℕ) (p : List UInt8) (loop room : Bool) (iss : Seq) (j : ℕ) :
    Moved s j (.segment src p loop room iss) ((s.tcpInput src p loop room iss).socks j) := by
  unfold tcpInput
  split
  · exact .same _
  · rename_i sport dport x hp
    split
    · exact .same _
    · rename_i i hf
      simp only
      split_ifs with hl hsyn
      · cases hn : s.sockNew room ((Sock.new .tcp).offered s.now (i + 1) (s.socks i).port src sport loop iss x) with
        | none => exact .same _
        | some r =>
          obtain ⟨i, s₁⟩ := r
          obtain ⟨-, hfree, heq⟩ := sockNew_some hn
          rw [Option.map_some, Option.getD_some, heq]
          exact (Moved.offered src p loop room iss hfree (tcpFind_some hf).1 _ sport x).put rfl j
      · exact .same _
      · exact (Moved.heard loop room iss hp hf hl).put rfl j

theorem drop_moved (i j : ℕ) : Moved s j (.drop i) ((s.drop i).socks j) := by
  unfold drop
  simp only
  split_ifs with hgone hrefs
  · exact .same _
  · exact (Moved.fewer (not_or.1 hgone).1 hrefs).put rfl j
  · have hone : (s.socks i).refs = 1 := by
      have := (not_or.1 hgone).2
      omega
    unfold dropLast
    split_ifs with hproto
    · exact (Moved.freed hone (Or.inl hproto)).put rfl j
    · have htcp : (s.socks i).proto = .tcp := not_not.1 hproto
      have hzero : (s.socks i).refs - 1 = 0 := by omega
      rw [hzero]
      have hopen : ((s.socks i).state = .established ∨ (s.socks i).state = .closeWait) →
          Moved s j (.drop i) (((s.holds i (s.held i - 1)).dropOpen i { s.socks i with refs := 0 }).socks j) := by
        intro hc
        unfold dropOpen
        split_ifs with hunread
        · exact (Moved.aborted hone htcp hc hunread).put rfl j
        · exact (Moved.finished hone htcp hc (Nat.eq_zero_of_not_pos hunread)).put rfl j
      split
      · rename_i hc
        refine (Moved.left hone htcp ?_ ?_ ?_ ?_).put (j := j) rfl <;> rw [hc] <;> decide
      · rename_i hc
        exact hopen (Or.inl hc)
      · rename_i hc
        exact hopen (Or.inr hc)
      · rename_i hc
        exact (Moved.freed hone (Or.inr (Or.inl hc))).put rfl j
      · rename_i hc
        exact (Moved.freed hone (Or.inr (Or.inr hc))).put rfl j
      · rename_i hopen hhalf hsent hclosed
        exact (Moved.left hone htcp hsent hclosed hopen hhalf).put rfl j

theorem resume_moved {f : Frame} {rest : List Frame} (hframes : s.frames = f :: rest)
    (hs : Stack.resume { s with frames := rest } f = some s') (j : ℕ) : Moved s j .resume (s'.socks j) := by
  have htop : s.frames.head? = some f := by rw [hframes, List.head?_cons]
  cases f with
  | push i =>
    obtain rfl := Option.some.inj hs
    exact (Moved.pushed (i := i)).put rfl j
  | closed i err =>
    obtain rfl := Option.some.inj hs
    exact (Moved.closed err htop).put rfl j
  | children l i =>
    unfold Stack.resume at hs
    simp only at hs
    split_ifs at hs with hlt hchild
    · obtain rfl := Option.some.inj hs
      exact (Moved.child (s := s) l hchild.1 hchild.2).put rfl j
    · obtain rfl := Option.some.inj hs
      exact .same _
    · obtain rfl := Option.some.inj hs
      exact (Moved.childless htop).put rfl j
  | linger i till =>
    unfold Stack.resume at hs
    simp only at hs
    split_ifs at hs with hwait hhalf
    · obtain rfl := Option.some.inj hs
      exact (Moved.lingered hhalf.1 hhalf.2).put rfl j
    · obtain rfl := Option.some.inj hs
      exact .same _

theorem call_eq {f : Stack} (hs : s.call i f = some s') : s' = f := by
  unfold call at hs
  split_ifs at hs
  exact (Option.some.inj hs).symm

/-- **What a step does to a slot.** -/
theorem step_moved (hs : s.step a = some s') (j : ℕ) : Moved s j a (s'.socks j) := by
  unfold step at hs
  cases a with
  | segment src p loop room iss =>
    obtain rfl := Option.some.inj hs
    exact tcpInput_moved src p loop room iss j
  | unreachable i =>
    simp only at hs
    split_ifs at hs with hg
    obtain rfl := Option.some.inj hs
    exact (Moved.unreachable hg.1 hg.2).put rfl j
  | timeout i =>
    simp only at hs
    split_ifs at hs with hg
    obtain rfl := Option.some.inj hs
    exact (Moved.timeout hg.1 hg.2.2.1 hg.2.2.2.1).put rfl j
  | tick ms =>
    obtain rfl := Option.some.inj hs
    exact .same _
  | resume =>
    simp only at hs
    cases hf : s.frames with
    | nil =>
      rw [hf] at hs
      exact nomatch hs
    | cons f rest =>
      rw [hf] at hs
      exact resume_moved hf hs j
  | socket proto room =>
    simp only at hs
    split_ifs at hs with hg
    obtain rfl := Option.some.inj hs
    cases hn : s.sockNew room ⟨{ Sock.new proto with refs := 1 }, none, .done, []⟩ with
    | none => exact .same _
    | some r =>
      obtain ⟨i, s₁⟩ := r
      obtain ⟨-, hfree, heq⟩ := sockNew_some hn
      rw [Option.map_some, Option.getD_some]
      show Moved s j _ (s₁.socks j)
      rw [heq]
      exact (Moved.made room hfree hg.2).put rfl j
  | hold i =>
    simp only at hs
    split_ifs at hs
    obtain rfl := Option.some.inj hs
    exact (Moved.held (i := i)).put rfl j
  | drop i =>
    simp only at hs
    split_ifs at hs
    obtain rfl := Option.some.inj hs
    exact drop_moved i j
  | bind i port auto =>
    obtain rfl := call_eq hs
    unfold bind
    simp only
    split_ifs
    · exact .same _
    · exact (Moved.bound port auto auto).put rfl j
    · exact (Moved.bound port auto port).put rfl j
  | connect i ip port auto loop iss =>
    obtain rfl := call_eq hs
    unfold connect
    simp only
    by_cases hc : (s.socks i).state ≠ .closed ∨ (s.socks i).finIn = true ∨ ip = 0
    · rw [if_pos hc]
      exact .same _
    · rw [if_neg hc]
      exact (Moved.connected ip port auto loop iss _ (not_not.1 (not_or.1 hc).1)).put rfl j
  | listen i backlog auto =>
    obtain rfl := call_eq hs
    unfold listen
    simp only
    by_cases hc : (s.socks i).state ≠ .closed ∧ (s.socks i).state ≠ .listen
    · rw [if_pos hc]
      exact .same _
    · rw [if_neg hc]
      exact (Moved.listened backlog auto _ _ (by
        by_contra hno
        exact hc (not_or.1 hno))).put rfl j
  | accept i =>
    obtain rfl := call_eq hs
    unfold accept
    split_ifs
    · exact .same _
    · split
      · exact .same _
      · rename_i c hc
        obtain ⟨-, hp⟩ := find_some hc
        simp only [Bool.and_eq_true, decide_eq_true_eq] at hp
        exact (Moved.accepted hp.1.1 hp.1.2 hp.2).put rfl j
  | shutdown i =>
    obtain rfl := call_eq hs
    exact (Moved.shut (i := i)).put rfl j
  | write i data =>
    obtain rfl := call_eq hs
    exact (Moved.wrote data).put rfl j
  | read i size peek =>
    obtain rfl := call_eq hs
    exact (Moved.read size peek).put rfl j
  | error i =>
    obtain rfl := call_eq hs
    exact (Moved.cleared (i := i)).put rfl j

/-! ### Conditions on a run -/

/-- Every step of a run meets a condition on the state before it. -/
def always (c : Stack → Act → Bool) (s : Stack) : List Act → Bool
  | [] => true
  | a :: as => c s a && (s.step a).all fun s => always c s as

/-- What every step that meets the condition keeps, every run keeps whose steps do. -/
theorem always_keeps {c : Stack → Act → Bool} {I : Stack → Prop}
    (hstep : ∀ {s a s'}, I s → c s a = true → s.step a = some s' → I s') {as : List Act} (h : I s)
    (hc : always c s as = true) (hs : s.steps as = some s') : I s' := by
  induction as generalizing s with
  | nil =>
    obtain rfl := Option.some.inj hs
    exact h
  | cons a as ih =>
    obtain ⟨s₁, h₁, h₂⟩ := Option.bind_eq_some_iff.1 hs
    unfold always at hc
    rw [Bool.and_eq_true_iff, h₁, Option.all_some] at hc
    exact ih (hstep h hc.1 h₁) hc.2 h₂

end Stack
end BaxOS.Net
