import BaxOS.Lib.Runs
import BaxOS.Proc.Signals

/-!
# What a handled signal leaves as it was

`rt_sigreturn` gives back every register that is in the frame but RCX and R11, and of the flags those
a program mostly sets; the x87 and SSE registers are in no frame, and the mask comes back without
`SIGKILL` and `SIGSTOP`. So a signal goes unseen just where that is enough (`run_invisible_iff`),
whatever handlers are entered and left meanwhile.
-/

namespace BaxOS.Signals
open ByteStore Masked

variable {p p' : Program} {h : Held} {e : Cpu} {g : Greg → Word} {fpu : Fpu}

/-! ### The same registers -/

/-- The registers but RCX and R11. -/
def Cpu.forget (c : Cpu) : Cpu := { c with rcx := 0, r11 := 0 }

/-- Registers as a signal should leave them: RCX and R11 are a syscall's own to change. -/
def Kind.Same : Kind → Cpu → Cpu → Prop
  | .call, c, d => c.forget = d.forget
  | .fault, c, d => c = d

namespace Machine

variable {m : Machine}

/-- Nothing is written to the frames. -/
def Untouched (m : Machine) (mem : Store) : Prop :=
  ∀ h ∈ m.held, Agree mem m.prog.mem h.addr.toNat sigFrameBytes

/-- The stack that a frame would be put on is not in a frame. -/
def OffFrames (m : Machine) (rsp : Word) : Prop :=
  ∀ h ∈ m.held, rsp.toNat ≤ h.addr.toNat + 136 ∨
    h.addr.toNat + sigFrameBytes + 591 ≤ rsp.toNat

/-- The handlers leave their frames alone, each returns through its restorer, and it is the last
entered that does. -/
def Proper (m : Machine) : Event → Prop
  | .runs _ mem => m.Untouched mem
  | .calls _ s _ => m.Untouched s.mem
  | .suspends s =>
    m.Untouched s.mem ∧ ∀ c, m.place = .running c → m.Suspends c → m.OffFrames c.rsp
  | .returns =>
    ∀ c, m.place = .running c → c.rax = sysRtSigreturn → ∃ h ∈ m.held.head?, c.rsp = h.addr + 8
  | .leaves =>
    ∀ f fpu number result, m.place = .leaving f fpu number result →
      m.prog.deliverable ≠ 0 ∧ number ≠ sysRtSigreturn → m.OffFrames f.rsp
  | .faults _ => ∀ c, m.place = .running c → m.OffFrames c.rsp

/-- After `rt_sigreturn` the program goes on as if the signal had not come. -/
def Invisible (m : Machine) : Event → Prop
  | .returns =>
    ∀ c, m.place = .running c → c.rax = sysRtSigreturn → ∀ h ∈ m.held.head?,
      (∃ c' ∈ (m.step .returns).place.cpu, h.kind.Same c' h.cpu) ∧
        (m.step .returns).prog.blocked = h.mask
  | _ => True

end Machine

/-- What `rt_sigreturn` does not put back is as it was when the signal came: the handler leaves the
x87 and SSE registers and the other flags; RCX and R11, at a fault, were what a syscall leaves in
them; and the mask had neither `SIGKILL` nor `SIGSTOP`. -/
def Undisturbed (h : Held) (c : Cpu) : Prop :=
  (c.fpu = h.cpu.fpu ∧
    c.rflags &&& ~~~ restoredFlags = h.cpu.rflags &&& ~~~ restoredFlags ∧
    (h.kind = .fault → h.cpu.rcx = 0 ∧ h.cpu.r11 = h.cpu.rflags)) ∧
  h.mask &&& always = 0

/-- That, of every `rt_sigreturn`. -/
def Machine.Spared (m : Machine) : Event → Prop
  | .returns =>
    ∀ c, m.place = .running c → c.rax = sysRtSigreturn → ∀ h ∈ m.held.head?, Undisturbed h c
  | _ => True

/-! ### A frame written and read -/

theorem SigFrame.length_words (frame : SigFrame) : frame.words.length = 55 := by
  simp [SigFrame.words, Greg.all]

theorem SigFrame.words_greg (frame : SigFrame) (r : Greg) :
    frame.words[6 + r.ctorIdx]? = some (frame.gregs r) := by
  cases r <;> rfl

theorem SigFrame.words_sigmask (frame : SigFrame) : frame.words[38]? = some frame.sigmask := rfl

theorem word_putFrame (mem : Store) (addr : Word) (frame : SigFrame) {i : ℕ} {v : Word}
    (hi : frame.words[i]? = some v) :
    BitVec.ofNat 64 (word64 (putFrame mem addr frame) (addr.toNat + 8 * i)) = v := by
  obtain ⟨hlt, hv⟩ := List.getElem?_eq_some_iff.1 hi
  have hlt' : i < (frame.words.map BitVec.toNat).length := by rwa [List.length_map]
  have hsmall : ∀ n ∈ frame.words.map BitVec.toNat, n < 2 ^ 64 := by
    intro n hn
    obtain ⟨w, -, rfl⟩ := List.mem_map.1 hn
    exact w.isLt
  rw [putFrame, word64_putWords hsmall hlt', List.getElem_map, hv, BitVec.ofNat_toNat,
    BitVec.setWidth_eq]

theorem gregIn_putFrame (mem : Store) (addr : Word) (frame : SigFrame) (r : Greg) :
    gregIn (putFrame mem addr frame) addr.toNat r = frame.gregs r :=
  word_putFrame mem addr frame (frame.words_greg r)

theorem sigmaskIn_putFrame (mem : Store) (addr : Word) (frame : SigFrame) :
    sigmaskIn (putFrame mem addr frame) addr.toNat = frame.sigmask :=
  word_putFrame mem addr frame frame.words_sigmask

theorem Greg.ctorIdx_lt (r : Greg) : r.ctorIdx < 23 := by
  cases r <;> decide

theorem gregIn_congr {mem mem' : Store} {a : ℕ} (hmem : Agree mem mem' a sigFrameBytes) :
    gregIn mem a = gregIn mem' a := by
  funext r
  have hr := r.ctorIdx_lt
  unfold gregIn
  rw [word64_congr (hmem.mono (by omega) (by unfold sigFrameBytes; omega))]

theorem sigmaskIn_congr {mem mem' : Store} {a : ℕ} (hmem : Agree mem mem' a sigFrameBytes) :
    sigmaskIn mem a = sigmaskIn mem' a := by
  unfold sigmaskIn
  rw [word64_congr (hmem.mono (by omega) (by unfold sigFrameBytes; omega))]

theorem agree_putFrame {mem : Store} {addr : Word} {frame : SigFrame} {a n : ℕ}
    (hd : a + n ≤ addr.toNat ∨ addr.toNat + sigFrameBytes ≤ a) :
    Agree (putFrame mem addr frame) mem a n := by
  apply Agree.putWords
  rw [List.length_map, frame.length_words]
  exact hd

/-! ### Where a frame is -/

theorem Window.lt_of_holds {w : Window} {a n : ℕ} (hh : w.holds a n = true) : a + n ≤ 2 ^ 47 := by
  have hslot := w.slot_lt
  unfold Exec.Space.holds Exec.Space.base Exec.slotSize at hh
  rw [Bool.or_eq_true, Option.any_eq_true, decide_eq_true_eq] at hh
  rcases hh with ⟨r, hr, hh⟩ | hh
  · have := w.low_le r hr
    rw [decide_eq_true_eq] at hh
    omega
  · omega

/-- A frame in the window is under the stack pointer, past the red zone, and not far. -/
theorem frameAt_bounds {rsp : Word} (hin : p.userRange (frameAt rsp) sigFrameBytes = true) :
    (frameAt rsp).toNat + sigFrameBytes + 136 ≤ rsp.toNat ∧
      rsp.toNat ≤ (frameAt rsp).toNat + 591 := by
  have hlt := Window.lt_of_holds hin
  have hrsp := rsp.isLt
  have hclear := toNat_clearLow (rsp - 128 - BitVec.ofNat 64 sigFrameBytes) 4 (by decide)
  unfold sigFrameBytes at *
  unfold frameAt at hlt ⊢
  unfold sigFrameBytes at *
  rw [show BitVec.ofNat 64 (2 ^ 4 - 1) = 15 from rfl] at hclear
  rw [BitVec.toNat_sub] at hlt ⊢
  rw [hclear] at hlt ⊢
  simp only [BitVec.toNat_sub, BitVec.toNat_ofNat, BitVec.ofNat_eq_ofNat] at hlt ⊢
  omega

/-! ### What a delivery saves -/

/-- The registers of a frame, with these x87 and SSE registers. -/
def frameCpu (g : Greg → Word) (fpu : Fpu) : Cpu :=
  { rax := g .rax, rbx := g .rbx, rcx := g .rcx, rdx := g .rdx, rsi := g .rsi, rdi := g .rdi
    rbp := g .rbp, rsp := g .rsp, r8 := g .r8, r9 := g .r9, r10 := g .r10, r11 := g .r11
    r12 := g .r12, r13 := g .r13, r14 := g .r14, r15 := g .r15, rip := g .rip, rflags := g .eflags
    fpu }

/-- A handler's frame is in the window, and holds what the program was doing. -/
structure Saved (p : Program) (h : Held) : Prop where
  inside : p.userRange h.addr sigFrameBytes = true
  gregs : h.kind.Same (frameCpu (gregIn p.mem h.addr.toNat) h.cpu.fpu) h.cpu
  mask : sigmaskIn p.mem h.addr.toNat = h.mask

theorem Saved.congr (hs : Saved p h) (hw : p'.window = p.window)
    (hmem : Agree p'.mem p.mem h.addr.toNat sigFrameBytes) : Saved p' h where
  inside := by
    unfold Program.userRange
    rw [hw]
    exact hs.inside
  gregs := by
    rw [gregIn_congr hmem]
    exact hs.gregs
  mask := by
    rw [sigmaskIn_congr hmem]
    exact hs.mask

/-- What a program is when a frame has been put on its stack. -/
structure Entered (p p' : Program) (rsp : Word) (g : Greg → Word) (mask : Word) : Prop where
  inside : p.userRange (frameAt rsp) sigFrameBytes = true
  window : p'.window = p.window
  gregs : gregIn p'.mem (frameAt rsp).toNat = g
  sigmask : sigmaskIn p'.mem (frameAt rsp).toNat = mask
  others : ∀ {a n}, a + n ≤ (frameAt rsp).toNat ∨ (frameAt rsp).toNat + sigFrameBytes ≤ a →
    Agree p'.mem p.mem a n

@[simp] theorem Program.enter_mem (q : Program) (sig : ℕ) (addr : Word) (frame : SigFrame) :
    (q.enter sig addr frame).mem = putFrame q.mem addr frame := rfl

@[simp] theorem Program.enter_window (q : Program) (sig : ℕ) (addr : Word) (frame : SigFrame) :
    (q.enter sig addr frame).window = q.window := rfl

theorem Program.enter_spec (q : Program) {rsp : Word} (sig : ℕ) (frame : SigFrame)
    (hin : p.userRange (frameAt rsp) sigFrameBytes = true) (hmem : q.mem = p.mem)
    (hw : q.window = p.window) :
    Entered p (q.enter sig (frameAt rsp) frame) rsp frame.gregs frame.sigmask where
  inside := hin
  window := by rw [Program.enter_window, hw]
  gregs := by
    funext r
    rw [Program.enter_mem, gregIn_putFrame]
  sigmask := by rw [Program.enter_mem, sigmaskIn_putFrame]
  others hd := by
    rw [Program.enter_mem, ← hmem]
    exact agree_putFrame hd

/-- **At a syscall** the frame holds its registers, its answer and the mask to put back. -/
theorem Program.signalDeliver_spec {f f' : UserRegs} {result result' restore : Word}
    (hs : p.signalDeliver f result restore = some (p', f', result')) :
    Entered p p' f.rsp (callGregs f result) restore ∧ f'.rsp = frameAt f.rsp := by
  unfold Program.signalDeliver at hs
  by_cases hin : p.userRange (frameAt f.rsp) sigFrameBytes = true
  · simp only at hs
    rw [if_neg (by simpa [Program.userRange] using hin)] at hs
    simp only [Option.some.injEq, Prod.mk.injEq] at hs
    obtain ⟨rfl, rfl, -⟩ := hs
    exact ⟨Program.enter_spec _ _ _ hin rfl rfl, rfl⟩
  · simp only at hs
    rw [if_pos (by simpa [Program.userRange] using hin)] at hs
    exact absurd hs (by simp)

/-- **At a fault** it holds every register, and the mask as it is. -/
theorem Program.faultDeliver_spec {sig vector : ℕ} {code : BitVec 32} {addr : Word}
    {r r' : TrapRegs} (hs : p.faultDeliver sig code addr vector r = some (p', r')) :
    Entered p p' r.rsp (faultGregs r vector addr) p.blocked ∧ r'.rsp = frameAt r.rsp := by
  unfold Program.faultDeliver at hs
  simp only at hs
  by_cases hno : r.cs &&& 3 ≠ 3 ∨ (! p.handled sig) = true ∨ p.blocked &&& bit (sig - 1) ≠ 0
  · rw [if_pos hno] at hs
    exact absurd hs (by simp)
  rw [if_neg hno] at hs
  by_cases hin : p.userRange (frameAt r.rsp) sigFrameBytes = true
  · rw [if_neg (by simpa using hin)] at hs
    simp only [Option.some.injEq, Prod.mk.injEq] at hs
    obtain ⟨rfl, rfl⟩ := hs
    exact ⟨Program.enter_spec _ _ _ hin rfl rfl, rfl⟩
  · rw [if_pos (by simpa using hin)] at hs
    exact absurd hs (by simp)

theorem Program.exists_faultDeliver {sig : ℕ} (vector : ℕ) (code : BitVec 32) (addr : Word)
    {r : TrapRegs} (hcs : r.cs &&& 3 = 3) (hh : p.handled sig = true) (hb : p.blocked &&& bit (sig - 1) = 0)
    (hin : p.userRange (frameAt r.rsp) sigFrameBytes = true) :
    ∃ q, p.faultDeliver sig code addr vector r = some q := by
  unfold Program.faultDeliver
  simp only
  have hno : ¬ (r.cs &&& 3 ≠ 3 ∨ (! p.handled sig) = true ∨ p.blocked &&& bit (sig - 1) ≠ 0) := by
    rw [hcs, hh, hb]
    decide
  rw [if_neg hno, if_neg (by simp [hin])]
  exact ⟨_, rfl⟩

/-! ### Every frame keeps what it holds -/

namespace Machine

variable {m : Machine}

/-- What holds in every state of a run. -/
def Inv (m : Machine) : Prop := ∀ h ∈ m.held, Saved m.prog h

/-- A handler entered on a stack that is off the frames: they are left alone, and its own is right. -/
theorem Inv.enter (hi : m.Inv) {rsp mask : Word} {g : Greg → Word} {q : Program} (place : Place)
    (hw : q.window = m.prog.window) (hmem : m.Untouched q.mem) (hoff : m.OffFrames rsp)
    (he : Entered q p' rsp g mask) {h : Held} (haddr : h.addr = frameAt rsp)
    (hg : h.kind.Same (frameCpu g h.cpu.fpu) h.cpu) (hmask : h.mask = mask) :
    Inv { place, prog := p', held := h :: m.held } := by
  intro k hk
  rcases List.mem_cons.1 hk with rfl | hk
  · refine ⟨?_, ?_, ?_⟩
    · unfold Program.userRange
      rw [haddr, he.window]
      exact he.inside
    · rw [haddr, he.gregs]
      exact hg
    · rw [haddr, he.sigmask, hmask]
  · obtain ⟨hlow, hhigh⟩ := frameAt_bounds he.inside
    refine (hi k hk).congr (he.window.trans hw) ((he.others ?_).trans (hmem k hk))
    rcases hoff k hk with hb | ha
    · right
      omega
    · left
      omega

theorem untouched_self (m : Machine) : m.Untouched m.prog.mem := fun _ _ => Agree.rfl'

theorem Inv.rest (hi : m.Inv) (q : Program) (hw : q.window = m.prog.window)
    (hmem : m.Untouched q.mem) {held : List Held} (hsub : held ⊆ m.held) (place : Place) :
    Inv { place, prog := q, held } :=
  fun k hk => (hi k (hsub hk)).congr hw (hmem k (hsub hk))

theorem same_callGregs (f : UserRegs) (result : Word) (fpu : Fpu) :
    Kind.call.Same (frameCpu (Program.callGregs f result) fpu) (syscallExit f result fpu) := rfl

theorem same_faultGregs (c : Cpu) (err cs addr : Word) (vector : ℕ) :
    Kind.fault.Same (frameCpu (Program.faultGregs (trapEntry c err cs) vector addr) c.fpu) c := rfl

end Machine

/-- `rt_sigsuspend` delivers the signal it has waited for, or is refused. -/
theorem Program.rtSigsuspend_spec {f f' : UserRegs} {mask size result : Word} {s : Shared}
    (hs : p.rtSigsuspend f mask size s = some (p', f', result)) :
    if size = 8 ∧ p.userRange mask 8 = true then
      (p.woken mask s).signalDeliver f eintr p.blocked = some (p', f', result)
    else p' = p ∧ f' = f := by
  unfold Program.rtSigsuspend at hs
  simp only at hs
  by_cases hsize : size = 8
  · rw [if_neg (not_not.2 hsize)] at hs
    by_cases hin : p.userRange mask 8 = true
    · rw [if_pos ⟨hsize, hin⟩]
      rwa [if_neg (by simpa using hin)] at hs
    · rw [if_neg fun hc => hin hc.2]
      rw [if_pos (by simpa using hin)] at hs
      simp only [Option.some.injEq, Prod.mk.injEq] at hs
      exact ⟨hs.1.symm, hs.2.1.symm⟩
  · rw [if_neg fun hc => hsize hc.1]
    rw [if_pos hsize] at hs
    simp only [Option.some.injEq, Prod.mk.injEq] at hs
    exact ⟨hs.1.symm, hs.2.1.symm⟩

/-- What `rt_sigreturn` makes of a program whose frame is right. -/
theorem Program.rtSigreturn_eq {f : UserRegs} (hs : Saved p h) (hrsp : f.rsp = h.addr + 8) :
    ∃ f', p.rtSigreturn f =
        some ({ p with blocked := h.mask &&& ~~~ always }, f', gregIn p.mem h.addr.toNat .rax) ∧
      ∀ fpu, syscallExit f' (gregIn p.mem h.addr.toNat .rax) fpu =
        let g := gregIn p.mem h.addr.toNat
        { frameCpu g fpu with
          rcx := 0, r11 := merge restoredFlags f.rflags (g .eflags)
          rflags := merge restoredFlags f.rflags (g .eflags) } := by
  have haddr : f.rsp - 8 = h.addr := by
    rw [hrsp]
    exact BitVec.add_sub_cancel h.addr 8
  unfold Program.rtSigreturn
  simp only
  rw [haddr, if_neg (by rw [hs.inside]; decide), hs.mask]
  exact ⟨_, rfl, fun _ => rfl⟩

namespace Machine

variable {m : Machine}

/-- What one event keeps. -/
theorem Inv.step (hi : m.Inv) (ev : Event) (hp : m.Proper ev) : (m.step ev).Inv := by
  cases hplace : m.place with
  | ended => cases ev <;> simpa only [Machine.step, hplace] using hi
  | running c =>
    cases ev with
    | runs c' mem =>
      simp only [Machine.step, hplace]
      exact hi.rest { m.prog with mem } rfl hp (List.Subset.refl _) _
    | calls result s blocked =>
      simp only [Machine.step, hplace]
      split_ifs with hno
      · exact hi
      · exact hi.rest { m.prog with toShared := s, blocked } rfl hp (List.Subset.refl _) _
    | suspends s =>
      obtain ⟨hmem, hoff⟩ := hp
      simp only [Machine.step, hplace]
      by_cases hno : c.rax ≠ sysRtSigsuspend ∨
          (m.Suspends c ∧ (m.prog.woken c.rdi s).deliverable = 0)
      · rw [if_pos hno]
        exact hi
      · rw [if_neg hno]
        cases hs : m.prog.rtSigsuspend (syscallEntry c) c.rdi c.rsi s with
        | none => exact hi
        | some q =>
          have hspec := Program.rtSigsuspend_spec hs
          simp only
          by_cases hw : m.Suspends c
          · rw [if_pos hw]
            rw [if_pos (show c.rsi = 8 ∧ _ from hw)] at hspec
            obtain ⟨he, -⟩ := Program.signalDeliver_spec hspec
            exact hi.enter _ (by rfl) hmem (hoff c hplace hw) he rfl (same_callGregs _ _ _) rfl
          · rw [if_neg hw]
            rw [if_neg (show ¬ (c.rsi = 8 ∧ _) from hw)] at hspec
            rw [hspec.1]
            exact hi
    | returns =>
      simp only [Machine.step, hplace]
      split_ifs with hno
      · exact hi
      · obtain ⟨h, hh, hrsp⟩ := hp c hplace (not_not.1 hno)
        obtain ⟨f', hf', -⟩ :=
          Program.rtSigreturn_eq (f := syscallEntry c) (hi h (List.mem_of_head? hh)) hrsp
        simp only [hf']
        exact hi.rest { m.prog with blocked := h.mask &&& ~~~ always } rfl m.untouched_self
          (List.tail_subset _) _
    | leaves => simpa only [Machine.step, hplace] using hi
    | faults f =>
      simp only [Machine.step, hplace]
      cases hs : m.prog.faultDeliver f.signal f.code (f.addr (trapEntry c f.err userCs)) f.vector
          (trapEntry c f.err userCs) with
      | none => exact hi
      | some q =>
        obtain ⟨he, -⟩ := Program.faultDeliver_spec hs
        exact hi.enter _ (by rfl) m.untouched_self (hp c hplace) he rfl (same_faultGregs _ _ _ _ _) rfl
  | leaving f fpu number result =>
    cases ev with
    | leaves =>
      simp only [Machine.step, hplace]
      split_ifs with hd
      · cases hs : m.prog.signalDeliver f result m.prog.blocked with
        | none => exact hi
        | some q =>
          obtain ⟨he, -⟩ := Program.signalDeliver_spec hs
          exact hi.enter _ (by rfl) m.untouched_self (hp f fpu number result hplace hd) he rfl
            (same_callGregs _ _ _) rfl
      · exact hi
    | runs | calls | suspends | returns | faults => simpa only [Machine.step, hplace] using hi

/-! ### What comes back -/

/-- Registers put back from a frame, flags and all, seen as the signal should leave them. -/
theorem same_returned_iff {k : Kind} (hs : k.Same (frameCpu g fpu) e) (c : Cpu) :
    k.Same
        { frameCpu g c.fpu with
          rcx := 0, r11 := merge restoredFlags c.rflags (g .eflags)
          rflags := merge restoredFlags c.rflags (g .eflags) } e ↔
      c.fpu = e.fpu ∧ c.rflags &&& ~~~ restoredFlags = e.rflags &&& ~~~ restoredFlags ∧
        (k = .fault → e.rcx = 0 ∧ e.r11 = e.rflags) := by
  cases k with
  | call =>
    simp only [Kind.Same, Cpu.forget, frameCpu, Cpu.mk.injEq] at hs ⊢
    have hflags : g .eflags = e.rflags := by tauto
    rw [hflags, merge_eq_iff]
    constructor
    · tauto
    · tauto
  | fault =>
    simp only [Kind.Same] at hs ⊢
    subst hs
    simp only [frameCpu, Cpu.mk.injEq, true_and, forall_const]
    have hmerge := merge_eq_iff (m := restoredFlags) (a := c.rflags) (b := g .eflags)
    constructor
    · rintro ⟨hcx, h11, hfl, hfpu⟩
      exact ⟨hfpu, hmerge.1 hfl, hcx.symm, by rw [← h11, hfl]⟩
    · rintro ⟨hfpu, hfl, hcx, h11⟩
      exact ⟨hcx.symm, by rw [hmerge.2 hfl, h11], hmerge.2 hfl, hfpu⟩

/-- **One `rt_sigreturn`** goes unseen just where it is spared what it does not put back. -/
theorem Inv.invisible_iff (hi : m.Inv) (ev : Event) (hp : m.Proper ev) :
    m.Invisible ev ↔ m.Spared ev := by
  cases ev with
  | returns =>
    unfold Invisible Spared
    refine forall_congr' fun c => forall_congr' fun hplace => forall_congr' fun hrax =>
      forall_congr' fun h => forall_congr' fun hh => ?_
    obtain ⟨h', hh', hrsp⟩ := hp c hplace hrax
    obtain rfl : h' = h := Option.mem_unique hh' hh
    have hs := hi h' (List.mem_of_head? hh)
    obtain ⟨f', hf', hcpu⟩ := Program.rtSigreturn_eq (f := syscallEntry c) hs hrsp
    have hstep : m.step .returns =
        { place := .leaving f' c.fpu c.rax (gregIn m.prog.mem h'.addr.toNat .rax)
          prog := { m.prog with blocked := h'.mask &&& ~~~ always }
          held := m.held.tail } := by
      simp only [Machine.step, hplace]
      rw [if_neg (not_not.2 hrax), hf']
    rw [hstep]
    unfold Undisturbed
    refine and_congr ?_ and_not_eq_self_iff
    rw [← same_returned_iff hs.gregs c]
    simp only [Place.cpu, Option.mem_some_iff, exists_eq_left', hcpu]
    rfl
  | runs | calls | suspends | leaves | faults => exact Iff.rfl

theorem Inv.start (hm : m.held = []) : m.Inv := by
  intro h hh
  rw [hm] at hh
  exact absurd hh List.not_mem_nil

theorem Inv.along_iff (hi : m.Inv) {es : List Event} (hp : Runs.Along Proper Machine.step m es) :
    Runs.Along Invisible Machine.step m es ↔ Runs.Along Spared Machine.step m es :=
  hp.congr (fun _ ev hi hp => hi.step ev hp) (fun _ ev hi hp => hi.invisible_iff ev hp) hi

/-- **A handled signal goes unseen** in a run just where every `rt_sigreturn` of it is spared what
it does not put back. -/
theorem run_invisible_iff (m : Machine) (es : List Event) (hm : m.held = [])
    (hp : Runs.Along Proper Machine.step m es) :
    Runs.Along Invisible Machine.step m es ↔ Runs.Along Spared Machine.step m es :=
  (Inv.start hm).along_iff hp

/-! ### A handler for a fault, entered and left -/

/-- A program with a handler for `SIGSEGV`, about to touch what is not there. -/
def touching (c : Cpu) : Machine where
  place := .running c
  prog :=
    { mem := fun _ => 0
      actions := Function.update (fun _ => {}) sigSegv { handler := 0x8000001000, flags := saRestorer }
      window :=
        { slot := 1, low := none, slot_pos := Nat.one_pos, slot_lt := Exec.one_lt_slots, low_le := by simp } }

/-- The fault, its handler, which changes RBX, and the way back. -/
def faultAndBack (c : Cpu) : List Event :=
  [.faults (.page 0 0),
    .runs { c with rax := sysRtSigreturn, rbx := 7, rsp := frameAt c.rsp + 8 }
      ((touching c).step (.faults (.page 0 0))).prog.mem,
    .returns]

/-- A program with this in RCX and R11. -/
def withCxR11 (rcx r11 : Word) : Cpu := { rsp := 0x8001000000, rcx, r11 }

theorem handled_touching (c : Cpu) : (touching c).prog.handled sigSegv = true := by
  have h : Program.handled (touching {}).prog sigSegv = true := by decide
  exact h

theorem userRange_touching (c : Cpu) (hrsp : c.rsp = 0x8001000000) :
    (touching c).prog.userRange (frameAt c.rsp) sigFrameBytes = true := by
  rw [hrsp]
  have h : Program.userRange (touching {}).prog (frameAt 0x8001000000) sigFrameBytes = true := by
    decide
  exact h

/-- The handler is entered. -/
theorem touching_entered (rcx r11 : Word) :
    (∃ c, ((touching (withCxR11 rcx r11)).step (.faults (.page 0 0))).place = .running c) ∧
      ((touching (withCxR11 rcx r11)).step (.faults (.page 0 0))).held =
        [⟨frameAt 0x8001000000, .fault, withCxR11 rcx r11, 0⟩] := by
  set c := withCxR11 rcx r11 with hc
  have hcs : (trapEntry c 0 userCs).cs &&& 3 = 3 := by
    have h : userCs &&& 3 = 3 := by decide
    exact h
  have hb : (touching c).prog.blocked &&& bit (sigSegv - 1) = 0 := by
    have h : (0 : Word) &&& bit (sigSegv - 1) = 0 := by decide
    exact h
  obtain ⟨q, hq⟩ := Program.exists_faultDeliver (Fault.page 0 0).vector (Fault.page 0 0).code
    ((Fault.page 0 0).addr (trapEntry c 0 userCs)) hcs (handled_touching c) hb
    (userRange_touching c rfl)
  have hplace : (touching c).place = .running c := rfl
  simp only [Machine.step, hplace, Fault.err, Fault.signal, hq]
  exact ⟨⟨_, rfl⟩, rfl⟩

theorem held_runs (m : Machine) (c : Cpu) (mem : Store) : (m.step (.runs c mem)).held = m.held := by
  cases hplace : m.place <;> simp only [Machine.step, hplace]

theorem place_runs {c d : Cpu} (mem : Store) (h : m.place = .running d) :
    (m.step (.runs c mem)).place = .running c := by
  simp only [Machine.step, h]

/-- The handler runs, and is about to return. -/
theorem touching_returning (rcx r11 : Word) :
    let c := withCxR11 rcx r11
    let m := (faultAndBack c).dropLast.foldl Machine.step (touching c)
    m.place = .running { c with rax := sysRtSigreturn, rbx := 7, rsp := frameAt c.rsp + 8 } ∧
      m.held.head? = some ⟨frameAt 0x8001000000, .fault, c, 0⟩ := by
  obtain ⟨⟨d, hplace⟩, hheld⟩ := touching_entered rcx r11
  refine ⟨place_runs _ hplace, ?_⟩
  exact congrArg List.head? ((held_runs _ _ _).trans hheld)

theorem faultAndBack_proper (rcx r11 : Word) :
    Runs.Along Proper Machine.step (touching (withCxR11 rcx r11))
      (faultAndBack (withCxR11 rcx r11)) := by
  obtain ⟨hplace, hheld⟩ := touching_returning rcx r11
  refine ⟨?_, fun _ _ => Agree.rfl', ?_, trivial⟩
  · intro c _ h hh
    exact absurd hh List.not_mem_nil
  · intro c hc _
    obtain rfl := Place.running.inj (hplace.symm.trans hc)
    exact ⟨_, hheld, rfl⟩

/-- Its signal goes unseen where RCX and R11 are what a syscall leaves in them. -/
theorem faultAndBack_spared_iff (rcx r11 : Word) :
    Runs.Along Spared Machine.step (touching (withCxR11 rcx r11))
        (faultAndBack (withCxR11 rcx r11)) ↔ rcx = 0 ∧ r11 = 0x202 := by
  obtain ⟨hplace, hheld⟩ := touching_returning rcx r11
  constructor
  · rintro ⟨-, -, hs, -⟩
    exact (hs _ hplace rfl _ hheld).1.2.2 rfl
  · rintro ⟨rfl, rfl⟩
    refine ⟨trivial, trivial, ?_, trivial⟩
    intro c hc _ h hh
    obtain rfl := Place.running.inj (hplace.symm.trans hc)
    obtain rfl := Option.mem_unique hheld hh
    exact ⟨⟨rfl, rfl, fun _ => ⟨rfl, rfl⟩⟩, by decide⟩

theorem run_invisible_syscallLike :
    Runs.Along Invisible Machine.step (touching (withCxR11 0 0x202))
      (faultAndBack (withCxR11 0 0x202)) :=
  (run_invisible_iff (touching (withCxR11 0 0x202)) (faultAndBack (withCxR11 0 0x202)) rfl
    (faultAndBack_proper 0 0x202)).2 ((faultAndBack_spared_iff 0 0x202).2 ⟨rfl, rfl⟩)

/-- With 5 in RCX a handled fault is seen: RCX comes back 0. -/
theorem exists_not_invisible :
    ¬ ∀ (m : Machine) (es : List Event), m.held = [] → Runs.Along Proper Machine.step m es →
      Runs.Along Invisible Machine.step m es := by
  intro h
  have hp := faultAndBack_proper 5 0
  have hseen := h (touching (withCxR11 5 0)) (faultAndBack (withCxR11 5 0)) rfl hp
  have hs := ((Inv.start rfl).along_iff hp).1 hseen
  have hcx := ((faultAndBack_spared_iff 5 0).1 hs).1
  exact absurd hcx (by decide)

end Machine

end BaxOS.Signals
