import BaxOS.Net.TcpBounds
import BaxOS.Net.Moves

/-!
# Every run of the stack stays in bounds

What one step keeps to (`step_sound`), and from it every run (`steps_sound`).
-/

namespace BaxOS.Net
open Function

namespace Stack

variable {s s' : Stack} {k : Sock} {t : Turn} {i : ℕ} {a : Act}

/-- **The invariant**: every socket is within its bounds, and all that was copied was. -/
structure Sound (s : Stack) : Prop where
  bounds : ∀ i, (s.socks i).Bounds (s.syn i)
  marks : ∀ m ∈ s.marks, Sock.MarkOk m

/-- What a step keeps to. -/
structure Keeps (s s' : Stack) : Prop where
  sound : Sound s'
  onward : ∀ i, (s.socks i).Onward (s'.socks i)

theorem Sound.empty : Sound Stack.empty := ⟨fun _ => Sock.Bounds.free _, fun _ hm => nomatch hm⟩

theorem Sound.ring (h : Sound s) (i : ℕ) : (s.socks i).inLen ≤ rbuf := (h.bounds i).ring

/-- What is not a socket changed. -/
theorem Sound.keeps (h : Sound s) (hsocks : s'.socks = s.socks) (hsyn : s'.syn = s.syn)
    (hmarks : s'.marks = s.marks) : Keeps s s' :=
  ⟨⟨fun i => by rw [hsocks, hsyn]; exact h.bounds i, hmarks ▸ h.marks⟩, fun i => by
    rw [hsocks]
    exact Sock.Still.onward ⟨rfl, rfl⟩ (h.ring i)⟩

theorem Keeps.congr {s₁ : Stack} (h : Keeps s₁ s') (hsocks : s₁.socks = s.socks) : Keeps s s' :=
  ⟨h.sound, hsocks ▸ h.onward⟩

theorem Sound.congr (h : Sound s) (hsocks : s'.socks = s.socks) (hsyn : s'.syn = s.syn)
    (hmarks : s'.marks = s.marks) : Sound s' := (h.keeps hsocks hsyn hmarks).sound

/-- A slot changed, of a stack that is otherwise as before. -/
theorem Sound.put_of {s₁ : Stack} (h : Sound s) (hsocks : s₁.socks = s.socks) (hmarks : s₁.marks = s.marks)
    (hsyn : ∀ j ≠ i, s₁.syn j = s.syn j) (hk : k.Bounds (Sock.synAfter (s₁.syn i) k))
    (ho : (s.socks i).Onward k) : Keeps s (s₁.put i k) := by
  refine ⟨⟨fun j => ?_, fun m hm => h.marks m (hmarks ▸ hm)⟩, fun j => ?_⟩
  · show (update s₁.socks i k j).Bounds (update s₁.syn i _ j)
    by_cases hj : j = i
    · subst hj
      rw [update_self, update_self]
      exact hk
    · rw [update_of_ne hj, update_of_ne hj, hsocks, hsyn j hj]
      exact h.bounds j
  · show (s.socks j).Onward (update s₁.socks i k j)
    by_cases hj : j = i
    · subst hj
      rw [update_self]
      exact ho
    · rw [update_of_ne hj, hsocks]
      exact Sock.Still.onward ⟨rfl, rfl⟩ (h.ring j)

theorem Sound.put (h : Sound s) (hk : k.Bounds (Sock.synAfter (s.syn i) k)) (ho : (s.socks i).Onward k) :
    Keeps s (s.put i k) := h.put_of rfl rfl (fun _ _ => rfl) hk ho

/-- A slot changed in nothing that is counted. -/
theorem Sound.put_still (h : Sound s) (hk : k.Bounds (s.syn i)) (ho : Sock.Still (s.socks i) k) :
    Keeps s (s.put i k) := by
  refine h.put ?_ (ho.onward (h.ring i))
  rw [hk.syn]
  exact hk

theorem Sound.put_closed (h : Sound s) (i err : ℕ) : Keeps s (s.put i ((s.socks i).tcpClosed err)) :=
  h.put ((h.bounds i).closed err) (Sock.onward_of_past (Sock.closed_past _ _))

theorem Sound.put_free (h : Sound s) (i : ℕ) : Keeps s (s.put i .free) :=
  h.put (Sock.Bounds.free _) (Sock.onward_of_past rfl)

/-- A function runs up to a send. -/
theorem Sound.run (h : Sound s) (ht : Sock.Within t (s.syn i)) (ho : (s.socks i).Onward t.sock) :
    Keeps s (s.run i t) := by
  have hput := h.put ht.sock ho
  exact ⟨⟨hput.sound.bounds, fun m hm => (List.mem_append.1 hm).elim (ht.marks m) (h.marks m)⟩, hput.onward⟩

theorem Sound.run_still (h : Sound s) (ht : Sock.Within t (s.syn i)) (ho : Sock.Still (s.socks i) t.sock) :
    Keeps s (s.run i t) := h.run ht (ho.onward (h.ring i))

/-- A socket made in a free slot. -/
theorem Sound.sockNew {room : Bool} (h : Sound s) (ht : Sock.Within t false)
    (hn : s.sockNew room t = some (i, s')) : Keeps s s' := by
  obtain ⟨-, hfree, rfl⟩ := sockNew_some hn
  have hput : Keeps s (Stack.put { s with
      syn := update s.syn i false, pages := update s.pages i (some s.given), given := s.given + 1 } i t.sock) := by
    refine h.put_of rfl rfl (fun j hj => update_of_ne hj _ _) ?_ fun htcp => ?_
    · show t.sock.Bounds (Sock.synAfter (update s.syn i false i) t.sock)
      rw [update_self]
      exact ht.sock
    · rw [hfree] at htcp
      exact nomatch htcp
  exact ⟨⟨hput.sound.bounds, fun m hm => (List.mem_append.1 hm).elim (ht.marks m) (h.marks m)⟩, hput.onward⟩

/-- A socket made in a free slot, if there is one. -/
theorem Sound.sockNew_getD {room : Bool} (h : Sound s) (ht : Sock.Within t false) :
    Keeps s (((s.sockNew room t).map Prod.snd).getD s) := by
  cases hn : s.sockNew room t with
  | none => exact h.keeps rfl rfl rfl
  | some r =>
    obtain ⟨i, s₁⟩ := r
    exact h.sockNew ht hn

theorem Keeps.holds (h : Keeps s s') (i n : ℕ) : Keeps s (s'.holds i n) :=
  ⟨h.sound.congr rfl rfl rfl, h.onward⟩

/-! ### What happens -/

theorem Sound.tcpInput (h : Sound s) (src : ℕ) (p : List UInt8) (loop room : Bool) (iss : Seq) :
    Keeps s (s.tcpInput src p loop room iss) := by
  have hsame : Keeps s s := h.keeps rfl rfl rfl
  unfold Stack.tcpInput
  split
  · exact hsame
  · rename_i sport dport x _
    split
    · exact hsame
    · rename_i i hi
      simp only
      split_ifs with hlisten hsyn
      · exact h.sockNew_getD (Sock.offered_bounds _ _ _ _ _ _)
      · exact hsame
      · obtain ⟨-, -, hclosed⟩ := tcpFind_some hi
        obtain ⟨hw, htook⟩ := (h.bounds i).tcpInput s.now x (Sock.lives_iff.2 ⟨hclosed, hlisten⟩)
        refine h.run hw fun htcp hp hp' => ?_
        obtain ⟨n, e, ht⟩ := htook hp hp'
        exact ht.onward hw.sock.ring htcp hp hp'

theorem Sound.tcpAbort (h : Sound s) (i err : ℕ) : Keeps s (s.run i ((s.socks i).tcpAbort err)) :=
  h.run ((h.bounds i).tcpAbort err) (Sock.Still.tcpAbort ⟨rfl, rfl⟩ (h.ring i) err)

theorem Sound.tcpPush (h : Sound s) (i : ℕ) : Keeps s (s.run i ((s.socks i).tcpPush s.now false)) :=
  h.run_still ((h.bounds i).tcpPush s.now false) (Sock.tcpPush_still _ _ _)

theorem Keeps.later (h : Keeps s s') (f : Frame) : Keeps s (s'.later f) :=
  ⟨h.sound.congr rfl rfl rfl, h.onward⟩

theorem Sound.dropOpen (h : Sound s) (hk : k.Bounds (s.syn i)) (hs : Sock.Still (s.socks i) k) :
    Keeps s (s.dropOpen i k) := by
  unfold Stack.dropOpen
  split_ifs
  · exact h.run (hk.tcpAbort 0) (hs.tcpAbort (h.ring i) 0)
  · have h₁ : Sound (s.later (.linger i (s.now + lingerMs))) := h.congr rfl rfl rfl
    have hb : Sock.Bounds { k with finOut := true } (s.syn i) := hk.congr rfl rfl rfl rfl rfl rfl rfl
    have hs₁ : Sock.Still (s.socks i) { k with finOut := true } := hs
    exact (h₁.run_still (hb.tcpPush s.now false) (hs₁.tcpPush s.now false)).congr rfl

theorem Sound.dropLast (h : Sound s) (hk : k.Bounds (s.syn i)) (hs : Sock.Still (s.socks i) k) :
    Keeps s (s.dropLast i k) := by
  have hput := h.put_still hk hs
  unfold Stack.dropLast
  split_ifs with hproto
  · exact h.put_free i
  · split
    · exact hput.later _
    · exact h.dropOpen hk hs
    · exact h.dropOpen hk hs
    · exact h.put_free i
    · exact h.put_free i
    · exact hput.later _

/-- One descriptor fewer. -/
theorem Sound.drop (h : Sound s) (i : ℕ) : Keeps s (s.drop i) := by
  suffices hk : Keeps (s.holds i (s.held i - 1)) (s.drop i) from hk.congr rfl
  have h₁ : Sound (s.holds i (s.held i - 1)) := h.congr rfl rfl rfl
  have hb : ∀ n, Sock.Bounds { s.socks i with refs := n } (s.syn i) := fun n =>
    (h.bounds i).congr rfl rfl rfl rfl rfl rfl rfl
  unfold Stack.drop
  simp only
  split_ifs with h₂ h₃
  · exact h₁.keeps rfl rfl rfl
  · exact h₁.put_still (hb _) ⟨rfl, rfl⟩
  · exact h₁.dropLast (hb _) ⟨rfl, rfl⟩

/-- What is left of a function. -/
theorem Sound.resume {f : Frame} (h : Sound s) (hs : s.resume f = some s') : Keeps s s' := by
  cases f with
  | push i =>
    obtain rfl := Option.some.inj hs
    exact h.tcpPush i
  | closed i err =>
    obtain rfl := Option.some.inj hs
    exact h.put_closed i err
  | children l i =>
    unfold Stack.resume at hs
    simp only at hs
    split_ifs at hs
    · obtain rfl := Option.some.inj hs
      exact (Sound.tcpAbort (s := s.later (.children l (i + 1))) (h.congr rfl rfl rfl) i 0).congr rfl
    · obtain rfl := Option.some.inj hs
      exact h.keeps rfl rfl rfl
    · obtain rfl := Option.some.inj hs
      exact h.put_free l
  | linger i till =>
    unfold Stack.resume at hs
    simp only at hs
    split_ifs at hs
    · obtain rfl := Option.some.inj hs
      exact h.put_still ((h.bounds i).congr rfl rfl rfl rfl rfl rfl rfl) ⟨rfl, rfl⟩
    · obtain rfl := Option.some.inj hs
      exact h.keeps rfl rfl rfl

theorem Keeps.call {f : Stack} (h : Keeps s f) (hs : s.call i f = some s') : Keeps s s' := by
  unfold Stack.call at hs
  split_ifs at hs
  obtain rfl := Option.some.inj hs
  exact h

/-- **A step** keeps every socket within its bounds, and moves no window's edge back. -/
theorem step_sound (h : Sound s) (hs : s.step a = some s') : Keeps s s' := by
  have hsame : Keeps s s := h.keeps rfl rfl rfl
  have hput : ∀ i k, k.Bounds (s.syn i) → Sock.Still (s.socks i) k → Keeps s (s.put i k) :=
    fun i k => h.put_still
  unfold Stack.step at hs
  cases a with
  | segment src p loop room iss =>
    obtain rfl := Option.some.inj hs
    exact h.tcpInput src p loop room iss
  | unreachable i =>
    simp only at hs
    split_ifs at hs
    obtain rfl := Option.some.inj hs
    exact h.put_closed i _
  | timeout i =>
    simp only at hs
    split_ifs at hs
    obtain rfl := Option.some.inj hs
    exact h.run ((h.bounds i).tcpTimeout s.now) (Sock.tcpTimeout_onward (h.ring i) s.now)
  | tick ms =>
    obtain rfl := Option.some.inj hs
    exact h.keeps rfl rfl rfl
  | resume =>
    simp only at hs
    cases hf : s.frames with
    | nil =>
      rw [hf] at hs
      exact nomatch hs
    | cons f rest =>
      rw [hf] at hs
      exact (Sound.resume (s := { s with frames := rest }) (h.congr rfl rfl rfl) hs).congr rfl
  | socket proto room =>
    simp only at hs
    split_ifs at hs
    obtain rfl := Option.some.inj hs
    have hw : Sock.Within ⟨{ Sock.new proto with refs := 1 }, none, .done, []⟩ false :=
      Sock.Bounds.within ((Sock.Bounds.free false).congr rfl rfl rfl rfl rfl rfl rfl) fun m hm => nomatch hm
    cases hn : s.sockNew room ⟨{ Sock.new proto with refs := 1 }, none, .done, []⟩ with
    | none => exact hsame
    | some r =>
      obtain ⟨i, s₁⟩ := r
      exact (h.sockNew hw hn).holds _ _
  | hold i =>
    simp only at hs
    split_ifs at hs
    obtain rfl := Option.some.inj hs
    refine Keeps.holds (hput i _ ?_ ?_) _ _
    · exact (h.bounds i).congr rfl rfl rfl rfl rfl rfl rfl
    · exact ⟨rfl, rfl⟩
  | drop i =>
    simp only at hs
    split_ifs at hs
    obtain rfl := Option.some.inj hs
    exact h.drop i
  | bind i port auto =>
    refine Keeps.call ?_ hs
    unfold Stack.bind
    simp only
    split_ifs
    · exact hsame
    · exact hput i _ ((h.bounds i).congr rfl rfl rfl rfl rfl rfl rfl) ⟨rfl, rfl⟩
    · exact hput i _ ((h.bounds i).congr rfl rfl rfl rfl rfl rfl rfl) ⟨rfl, rfl⟩
  | connect i ip port auto loop iss =>
    refine Keeps.call ?_ hs
    unfold Stack.connect
    simp only
    by_cases hc : (s.socks i).state ≠ .closed ∨ (s.socks i).finIn = true ∨ ip = 0
    · rw [if_pos hc]
      exact hsame
    · rw [if_neg hc]
      refine h.run ((h.bounds i).connect _ _ _ _ _) fun _ hp => ?_
      have hclosed := not_not.1 (not_or.1 hc).1
      unfold Sock.past at hp
      rw [hclosed] at hp
      exact nomatch hp
  | listen i backlog auto =>
    refine Keeps.call ?_ hs
    unfold Stack.listen
    simp only
    by_cases hc : (s.socks i).state ≠ .closed ∧ (s.socks i).state ≠ .listen
    · rw [if_pos hc]
      exact hsame
    · rw [if_neg hc]
      have hb := h.bounds i
      exact h.put ⟨hb.out, hb.ring, hb.head, hb.flight, rfl⟩ (Sock.onward_of_past rfl)
  | accept i =>
    refine Keeps.call ?_ hs
    unfold Stack.accept
    split_ifs
    · exact hsame
    · split
      · exact hsame
      · refine Keeps.holds (hput _ _ ?_ ?_) _ _
        · exact (h.bounds _).congr rfl rfl rfl rfl rfl rfl rfl
        · exact ⟨rfl, rfl⟩
  | shutdown i =>
    obtain ⟨hw, hstill⟩ := (h.bounds i).shutdown s.now
    exact (h.run_still hw hstill).call hs
  | write i data =>
    obtain ⟨hw, hstill⟩ := (h.bounds i).tcpWrite s.now data
    exact (h.run_still hw hstill).call hs
  | read i size peek =>
    obtain ⟨hw, hle, hnxt⟩ := (h.bounds i).tcpRead size peek
    exact (h.run hw (Sock.onward_of_le hle hnxt (h.ring i))).call hs
  | error i =>
    refine Keeps.call ?_ hs
    exact hput i _ ((h.bounds i).congr rfl rfl rfl rfl rfl rfl rfl) ⟨rfl, rfl⟩

theorem Sound.steps {as : List Act} (h : Sound s) (hs : s.steps as = some s') : Sound s' := by
  induction as generalizing s with
  | nil =>
    obtain rfl := Option.some.inj hs
    exact h
  | cons a as ih =>
    obtain ⟨s₁, h₁, h₂⟩ := Option.bind_eq_some_iff.1 hs
    exact ih (step_sound h h₁).sound h₂

/-- **Every run of the stack stays in bounds**, and its next step moves no window's edge back. -/
theorem steps_sound {as : List Act} (hs : Stack.empty.steps as = some s) :
    (∀ i, (s.socks i).Bounds (s.syn i)) ∧ (∀ m ∈ s.marks, Sock.MarkOk m) ∧
      ∀ a s', s.step a = some s' → ∀ i, (s.socks i).Onward (s'.socks i) := by
  have h := Sound.empty.steps hs
  exact ⟨h.bounds, h.marks, fun a s' ha => (step_sound h ha).onward⟩

/-- A header with its ports, numbers, flags and window; no options. -/
def header (sport dport seq ack flags win : ℕ) : List UInt8 :=
  let two (n : ℕ) : List UInt8 := [.ofNat (n / 2 ^ 8), .ofNat n]
  two sport ++ two dport ++ two 0 ++ two seq ++ two 0 ++ two ack ++ [80, .ofNat flags] ++ two win ++ two 0 ++ two 0

/-- A program listens, is asked for a connection, accepts it, and reads two bytes of three. -/
def readsTwo : List Act :=
  [.socket .tcp true, .listen 0 1 80, .segment 7 (header 9 80 100 0 2 4096) true true 5,
    .segment 7 (header 9 80 101 6 16 4096 ++ [1, 2, 3]) true true 0, .accept 0, .read 1 2 false]

theorem steps_sound_read : ∃ s, Stack.empty.steps readsTwo = some s ∧
    ((s.socks 1).inLen, (s.socks 1).inHead, s.marks.length) = (1, 2, 7) ∧
      (∀ i, (s.socks i).Bounds (s.syn i)) ∧ (∀ m ∈ s.marks, Sock.MarkOk m) ∧
        ∀ a s', s.step a = some s' → ∀ i, (s.socks i).Onward (s'.socks i) := by
  have hrun : (Stack.empty.steps readsTwo).map
      (fun s => ((s.socks 1).inLen, (s.socks 1).inHead, s.marks.length)) = some (1, 2, 7) := by
    decide +kernel
  obtain ⟨s, hs, hlen⟩ := Option.map_eq_some_iff.1 hrun
  exact ⟨s, hs, hlen, steps_sound hs⟩

end Stack
end BaxOS.Net
