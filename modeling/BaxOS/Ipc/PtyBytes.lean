import BaxOS.Ipc.Pty
import BaxOS.Lib.Runs

/-!
# What the slave writes

`pty_write` of the slave takes its bytes one at a time, and may wait before each; the master reads
meanwhile. A newline goes out as two bytes, but the wait before it asks for the room of one: with
exactly one place left in the queue the carriage return takes it, and the newline is dropped. In a
run without that, the master reads what the writes report (`Terminal.written_read`).
-/

namespace BaxOS.Terminal

/-- How `pty_write` ends. -/
inductive Answer
  | wrote (n : ℕ)
  | eio
  | eagain
  | eintr
  deriving DecidableEq

/-- A `pty_write` of the slave: its `i`, and what it has answered. -/
structure Write where
  text : List UInt8
  nonblock : Bool
  done : ℕ
  answer : Option Answer
  deriving DecidableEq

namespace Write

/-- The call ends before its last byte. -/
def stop (w : Write) (e : Answer) : Write :=
  { w with answer := some (if w.done > 0 then .wrote w.done else e) }

/-- What of its text a write has put out. -/
def written (w : Write) : List UInt8 := w.text.take w.done

/-- An answer tells how much was put out. -/
def Honest (w : Write) : Prop :=
  w.done ≤ w.text.length ∧ ∀ a ∈ w.answer, a = .wrote w.done ∨ w.done = 0 ∧ ∀ n, a ≠ .wrote n

end Write

/-! ### A turn of a write -/

namespace Pty

variable {p : Pty} {w : Write} {c : UInt8}

/-- A turn of `pty_write`'s loop, with what `interrupt_check` finds if it comes to that. -/
def writeTurn (p : Pty) (w : Write) (signal : Bool) : Pty × Write :=
  match w.text[w.done]? with
  | none => (p, { w with answer := some (.wrote w.text.length) })
  | some c =>
    if p.out.length + 2 > queue ∧ !p.slaveCanWrite then
      if w.nonblock then (p, w.stop .eagain)
      else if signal then (p, w.stop .eintr)
      else (p, w)
    else if p.masters = 0 then (p, w.stop .eio)
    else (p.output c, { w with done := w.done + 1 })

/-- Whether a newline goes out as two bytes. -/
def crlf (p : Pty) : Bool := p.t.opost && p.t.onlcr

/-- A byte as the terminal is to put it out. -/
def expand (crlf : Bool) (c : UInt8) : List UInt8 :=
  if crlf && c = newline then [carriage, newline] else [c]

/-- The queue has the room for a byte as it is to go out. -/
def RoomFor (p : Pty) (c : UInt8) : Prop := p.out.length + (expand p.crlf c).length ≤ queue

theorem outPut_eq (h : p.out.length < queue) : p.outPut c = { p with out := p.out ++ [c] } := if_pos h

/-- **A byte that has room goes out whole.** -/
theorem output_eq (h : p.RoomFor c) : p.output c = { p with out := p.out ++ expand p.crlf c } := by
  unfold RoomFor expand crlf at h
  unfold output expand crlf
  split_ifs at h ⊢ with ht
  · have hlt : p.out.length + 2 ≤ queue := h
    have h₁ : p.outPut carriage = { p with out := p.out ++ [carriage] } := outPut_eq (by omega)
    have h₂ : (p.out ++ [carriage]).length < queue := by
      rw [List.length_append]
      exact hlt
    rw [Bool.and_eq_true_iff, decide_eq_true_iff] at ht
    rw [h₁, outPut_eq (p := { p with out := p.out ++ [carriage] }) h₂, ht.2]
    simp
  · exact outPut_eq h

/-- With one place left, an expanded newline is dropped behind its carriage return. -/
theorem output_lost (h : p.out.length + 1 = queue) (ht : p.crlf = true) :
    p.output newline = { p with out := p.out ++ [carriage] } := by
  unfold crlf at ht
  unfold output
  have h₁ : p.outPut carriage = { p with out := p.out ++ [carriage] } := outPut_eq (by omega)
  rw [if_pos (by rw [ht]; rfl), h₁]
  refine if_neg ?_
  simp only [List.length_append, List.length_singleton]
  omega

/-! Typing is echoed only where the terminal echoes. -/

section Quiet

variable (hq : p.t.echo = false)
include hq

theorem echo_quiet (c : UInt8) : p.echo c = p := if_pos (by rw [hq]; rfl)

theorem eraseOne_quiet : p.eraseOne = { p with line := p.line.dropLast } := by
  unfold eraseOne
  split_ifs with hl
  · rw [hl]
    show p = { p with line := [] }
    rw [← hl]
  · rw [if_neg]
    rw [hq]
    exact Bool.false_ne_true

theorem erase_quiet (which : UInt8 → Bool) : ∃ l, p.erase which = { p with line := l } := by
  unfold erase
  generalize p.line.length = n
  induction n generalizing p with
  | zero => exact ⟨p.line, rfl⟩
  | succ n ih =>
    unfold eraseWhile
    split_ifs with h
    · rw [eraseOne_quiet hq]
      obtain ⟨l, hl⟩ := ih (p := { p with line := p.line.dropLast }) hq
      exact ⟨l, hl⟩
    · exact ⟨p.line, rfl⟩

/-- **With echo off typing puts nothing out**, and sets no flag. -/
theorem input_quiet (c : UInt8) : (p.input c).out = p.out ∧ (p.input c).t = p.t := by
  unfold input
  generalize typed p.t c = c
  simp only [echo_quiet hq]
  split_ifs with h₁ h₂ h₃ h₄ h₅ h₆ h₇ h₈ h₉ h₁₀
  · exact ⟨rfl, rfl⟩
  · rw [echo_quiet (p := { p with inq := p.inq ++ [c] }) hq]
    exact ⟨rfl, rfl⟩
  · rw [echo_quiet hq]
    exact ⟨rfl, rfl⟩
  · rw [eraseOne_quiet hq]
    exact ⟨rfl, rfl⟩
  · obtain ⟨l, hl⟩ := erase_quiet hq fun _ => true
    rw [hl]
    exact ⟨rfl, rfl⟩
  · obtain ⟨l, hl⟩ := erase_quiet hq (· = space)
    rw [hl]
    obtain ⟨l', hl'⟩ := erase_quiet (p := { p with line := l }) hq (· ≠ space)
    rw [hl']
    exact ⟨rfl, rfl⟩
  · exact ⟨rfl, rfl⟩
  · rw [echo_quiet (p := { p with line := p.line ++ [c] }) hq]
    exact ⟨rfl, rfl⟩
  · rw [echo_quiet hq]
    exact ⟨rfl, rfl⟩
  · unfold gather
    rw [echo_quiet (p := { p with line := p.line ++ [c] }) hq]
    exact ⟨rfl, rfl⟩
  · exact ⟨rfl, rfl⟩

end Quiet

/-- So of all that the master writes. -/
theorem inputs_quiet (text : List UInt8) (hq : p.t.echo = false) :
    (text.foldl input p).out = p.out ∧ (text.foldl input p).t = p.t := by
  induction text generalizing p with
  | nil => exact ⟨rfl, rfl⟩
  | cons c text ih =>
    obtain ⟨ho, ht⟩ := input_quiet hq c
    obtain ⟨ho', ht'⟩ := ih (p := p.input c) (by rw [ht, hq])
    exact ⟨ho'.trans ho, ht'.trans ht⟩

/-- How a turn of a write goes. -/
inductive Turned (p : Pty) (w : Write) : Pty × Write → Prop
  | put (c : UInt8) (hc : w.text[w.done]? = some c) :
      Turned p w ({ p with out := p.out ++ expand p.crlf c }, { w with done := w.done + 1 })
  | answers (a : Answer) (hw : Write.Honest { w with answer := some a }) :
      Turned p w (p, { w with answer := some a })
  | waits : Turned p w (p, w)

theorem stop_turned (e : Answer) (he : ∀ n, e ≠ .wrote n) (hw : w.done ≤ w.text.length) :
    Turned p w (p, w.stop e) := by
  refine .answers _ ⟨hw, fun a ha => ?_⟩
  obtain rfl := Option.mem_some.1 ha
  split_ifs with hd
  · exact .inl rfl
  · exact .inr ⟨Nat.eq_zero_of_not_pos hd, he⟩

/-- A turn's byte is not a newline for which only one place is left. -/
def Fits (p : Pty) (w : Write) : Prop :=
  p.masters ≠ 0 → w.text[w.done]? = some newline → p.crlf = true → p.out.length + 1 ≠ queue

/-- **A turn of a write** puts its next byte out whole, ends the call or waits. -/
theorem writeTurn_turned (hw : w.done ≤ w.text.length) (hf : p.Fits w) (signal : Bool) :
    Turned p w (p.writeTurn w signal) := by
  unfold writeTurn
  cases hc : w.text[w.done]? with
  | none =>
    have hd : w.done = w.text.length := le_antisymm hw (List.getElem?_eq_none_iff.1 hc)
    refine .answers _ ⟨hw, fun a ha => .inl ?_⟩
    obtain rfl := Option.mem_some.1 ha
    rw [hd]
  | some c =>
    show Turned p w (ite _ _ _)
    split_ifs with hfull hn hs hm
    · exact stop_turned _ (fun n h => nomatch h) hw
    · exact stop_turned _ (fun n h => nomatch h) hw
    · exact .waits
    · exact stop_turned _ (fun n h => nomatch h) hw
    · have hlt : p.out.length + 2 ≤ queue ∨ p.out.length < queue := by
        by_contra hcon
        push Not at hcon
        refine hfull ⟨hcon.1, ?_⟩
        simp [slaveCanWrite, hm, hcon.2]
      have hroom : p.RoomFor c := by
        unfold RoomFor expand
        split_ifs with ht
        · rw [Bool.and_eq_true_iff, decide_eq_true_iff] at ht
          have hne := hf hm (by rw [hc, ht.2]) ht.1
          show p.out.length + 2 ≤ queue
          omega
        · show p.out.length + 1 ≤ queue
          omega
      rw [output_eq hroom]
      exact .put c hc

end Pty

/-! ### Runs -/

/-- A byte a write has put out: which write, and whether a newline then went out as two bytes. -/
structure Put where
  call : ℕ
  byte : UInt8
  crlf : Bool

/-- The bytes the master is to have of it. -/
def Put.sent (x : Put) : List UInt8 := Pty.expand x.crlf x.byte

/-- The terminal, the slave's writes, what they have put out and what the master has read. -/
structure Traffic where
  pty : Pty
  calls : List Write
  puts : List Put
  got : List UInt8

/-- What happens at a terminal. -/
inductive Act
  | write (text : List UInt8) (nonblock : Bool)
  | turn (i : ℕ) (signal : Bool)
  | read (count : ℕ)
  | type (text : List UInt8)
  | slaveRead (count : ℕ)
  | set (t : Termios) (flush : Bool)
  | ends (masters slaves : ℕ) (opened : Bool)

namespace Traffic

variable {s : Traffic} {w : Write} {i : ℕ}

/-- A terminal before the first write. -/
def start (p : Pty) : Traffic := ⟨p, [], [], []⟩

/-- The `i`th write has had a turn. -/
def turned (s : Traffic) (i : ℕ) (w : Write) (r : Pty × Write) : Traffic :=
  { s with
    pty := r.1
    calls := s.calls.set i r.2
    puts := s.puts ++ ((w.text.take r.2.done).drop w.done).map fun c => ⟨i, c, s.pty.crlf⟩ }

/-- The writes that have not answered. -/
def pending (s : Traffic) (i : ℕ) : Option Write := s.calls[i]?.filter fun w => w.answer.isNone

/-- A step. A write begun takes its turns one by one, with anything between them. -/
def step (s : Traffic) : Act → Traffic
  | .write text nonblock => { s with calls := s.calls ++ [⟨text, nonblock, 0, none⟩] }
  | .turn i signal =>
    match s.pending i with
    | some w => s.turned i w (s.pty.writeTurn w signal)
    | none => s
  | .read count => { s with pty := (s.pty.masterRead count).2, got := s.got ++ (s.pty.masterRead count).1 }
  | .type text => { s with pty := text.foldl Pty.input s.pty }
  | .slaveRead count => { s with pty := (s.pty.slaveRead count).2 }
  | .set t flush => { s with pty := s.pty.setTermios t flush }
  | .ends masters slaves opened => { s with pty := { s.pty with masters, slaves, opened } }

/-- Echo stays off. -/
def Quiet : Act → Prop
  | .set t _ => t.echo = false
  | _ => True

/-- No turn puts out a newline that wants two places where one is left. -/
def Roomy (s : Traffic) : Act → Prop
  | .turn i _ => ∀ w ∈ s.pending i, s.pty.Fits w
  | _ => True

/-- A write begins when those before it have answered. -/
def Alone (s : Traffic) : Act → Prop
  | .write _ _ => ∀ w ∈ s.calls, w.answer ≠ none
  | _ => True

/-- What the writes have put out is with the master or on its way, and each write's answer tells how
much of it is its own. -/
structure Sound (p : Pty) (s : Traffic) : Prop where
  quiet : s.pty.t.echo = false
  bytes : s.got ++ s.pty.out = p.out ++ s.puts.flatMap Put.sent
  written : ∀ i w, s.calls[i]? = some w →
    (s.puts.filter fun x => x.call = i).map Put.byte = w.written ∧ w.Honest
  known : ∀ x ∈ s.puts, x.call < s.calls.length

theorem start_sound {p : Pty} (h : p.t.echo = false) : Sound p (start p) where
  quiet := h
  bytes := (List.append_nil _).symm
  written _ _ hw := nomatch hw
  known _ hx := nomatch hx

theorem pending_eq (h : s.pending i = some w) : s.calls[i]? = some w ∧ w.answer = none := by
  obtain ⟨hw, ha⟩ := Option.filter_eq_some_iff.1 h
  exact ⟨hw, Option.isNone_iff_eq_none.1 ha⟩

/-- A step that touches no more of the terminal than its other queue. -/
theorem Sound.frame {p q : Pty} (h : Sound p s) (ho : q.out = s.pty.out) (ht : q.t.echo = false) :
    Sound p { s with pty := q } where
  quiet := ht
  bytes := by
    show s.got ++ q.out = _
    rw [ho]
    exact h.bytes
  written := h.written
  known := h.known

/-- A write that puts nothing out, whatever it answers. -/
theorem Sound.answered {p : Pty} (h : Sound p s) (hw : s.calls[i]? = some w) {w' : Write}
    (hd : w'.written = w.written) (hh : w'.Honest) : Sound p { s with calls := s.calls.set i w' } where
  quiet := h.quiet
  bytes := h.bytes
  written j v hv := by
    by_cases hij : i = j
    · subst hij
      have hlt : i < s.calls.length := (List.getElem?_eq_some_iff.1 hw).1
      rw [List.getElem?_set_self hlt] at hv
      obtain rfl := Option.some.inj hv
      exact ⟨(h.written i w hw).1.trans hd.symm, hh⟩
    · rw [List.getElem?_set_ne hij] at hv
      exact h.written j v hv
  known x hx := by
    rw [List.length_set]
    exact h.known x hx

/-- One byte more. -/
theorem written_succ {c : UInt8} (hc : w.text[w.done]? = some c) :
    Write.written { w with done := w.done + 1 } = w.written ++ [c] := by
  show w.text.take (w.done + 1) = _
  rw [List.take_add_one, hc]
  rfl

/-- A write that puts its next byte out. -/
theorem Sound.put {p : Pty} (h : Sound p s) (hi : s.pending i = some w) {c : UInt8}
    (hc : w.text[w.done]? = some c) :
    Sound p { s with
      pty := { s.pty with out := s.pty.out ++ Pty.expand s.pty.crlf c }
      calls := s.calls.set i { w with done := w.done + 1 }
      puts := s.puts ++ [⟨i, c, s.pty.crlf⟩] } := by
  obtain ⟨hw, ha⟩ := pending_eq hi
  have hlt : i < s.calls.length := (List.getElem?_eq_some_iff.1 hw).1
  refine ⟨h.quiet, ?_, fun j v hv => ?_, fun x hx => ?_⟩
  · have hone : [Put.mk i c s.pty.crlf].flatMap Put.sent = Pty.expand s.pty.crlf c := List.append_nil _
    show s.got ++ (s.pty.out ++ Pty.expand s.pty.crlf c) = _
    rw [List.flatMap_append, hone, ← List.append_assoc, h.bytes, List.append_assoc]
  · rw [List.filter_append, List.map_append]
    by_cases hij : i = j
    · subst hij
      rw [List.getElem?_set_self hlt] at hv
      obtain rfl := Option.some.inj hv
      rw [(h.written i w hw).1, written_succ hc, List.filter_singleton]
      refine ⟨by simp, ?_, fun a h => ?_⟩
      · exact (List.getElem?_eq_some_iff.1 hc).1
      · rw [ha] at h
        exact nomatch h
    · rw [List.getElem?_set_ne hij] at hv
      rw [List.filter_singleton]
      simpa [hij] using h.written j v hv
  · rw [List.length_set]
    rcases List.mem_append.1 hx with hx | hx
    · exact h.known x hx
    · rw [List.mem_singleton.1 hx]
      exact hlt

theorem slaveRead_frame (p : Pty) (count : ℕ) :
    (p.slaveRead count).2.out = p.out ∧ (p.slaveRead count).2.t = p.t := by
  unfold Pty.slaveRead
  split_ifs <;> exact ⟨rfl, rfl⟩

theorem setTermios_frame (p : Pty) (t : Termios) (flush : Bool) :
    (p.setTermios t flush).out = p.out ∧ (p.setTermios t flush).t = t := by
  unfold Pty.setTermios
  dsimp only
  split_ifs <;> exact ⟨rfl, rfl⟩

/-- What a turn does to the traffic, by how it goes. -/
theorem turned_cases {P : Traffic → Prop} (r : Pty × Write) (ht : Pty.Turned s.pty w r)
    (hput : ∀ c, w.text[w.done]? = some c → P { s with
      pty := { s.pty with out := s.pty.out ++ Pty.expand s.pty.crlf c }
      calls := s.calls.set i { w with done := w.done + 1 }
      puts := s.puts ++ [⟨i, c, s.pty.crlf⟩] })
    (hans : ∀ a, Write.Honest { w with answer := some a } →
      P { s with calls := s.calls.set i { w with answer := some a } })
    (hwait : P { s with calls := s.calls.set i w }) : P (s.turned i w r) := by
  have hnil : (w.text.take w.done).drop w.done = [] :=
    List.drop_eq_nil_of_le (List.length_take_le _ _)
  cases ht with
  | put c hc =>
    have hone : (w.text.take (w.done + 1)).drop w.done = [c] := by
      have hlt := (List.getElem?_eq_some_iff.1 hc).1
      rw [List.take_add_one, hc, List.drop_append_of_le_length (by simp; omega), hnil]
      rfl
    have := hput c hc
    unfold turned
    simpa only [hone, List.map_cons, List.map_nil] using this
  | answers a hw =>
    have := hans a hw
    unfold turned
    simpa only [hnil, List.map_nil, List.append_nil] using this
  | waits =>
    unfold turned
    simpa only [hnil, List.map_nil, List.append_nil] using hwait

/-- **Every step** with echo off and room for its newlines keeps the traffic sound. -/
theorem step_sound {p : Pty} (a : Act) (h : Sound p s) (hq : Quiet a) (hr : s.Roomy a) :
    Sound p (s.step a) := by
  cases a with
  | write text nonblock =>
    refine ⟨h.quiet, h.bytes, fun j v hv => ?_, fun x hx => ?_⟩
    · change (s.calls ++ [_])[j]? = some v at hv
      rcases Nat.lt_or_ge j s.calls.length with hj | hj
      · rw [List.getElem?_append_left hj] at hv
        exact h.written j v hv
      · rw [List.getElem?_append_right hj] at hv
        have hj' := (List.getElem?_eq_some_iff.1 hv).1
        rw [List.length_singleton, Nat.lt_one_iff] at hj'
        rw [hj'] at hv
        obtain rfl := Option.some.inj hv
        refine ⟨?_, Nat.zero_le _, fun a ha => nomatch ha⟩
        rw [List.filter_eq_nil_iff.2 fun x hx => ?_]
        · rfl
        · have := h.known x hx
          simp only [decide_eq_true_eq]
          omega
    · show x.call < (s.calls ++ [_]).length
      rw [List.length_append]
      exact Nat.lt_add_right 1 (h.known x hx)
  | turn i signal =>
    unfold step
    dsimp only
    cases hi : s.pending i with
    | none => exact h
    | some w =>
      obtain ⟨hw, ha⟩ := pending_eq hi
      have hh := (h.written i w hw).2
      refine turned_cases _ (Pty.writeTurn_turned hh.1 (hr w hi) signal) (fun c hc => h.put hi hc)
        (fun a hw' => h.answered hw rfl hw') (h.answered hw rfl hh)
  | read count =>
    refine ⟨h.quiet, ?_, h.written, h.known⟩
    show (s.got ++ s.pty.out.take count) ++ s.pty.out.drop count = _
    rw [List.append_assoc, List.take_append_drop]
    exact h.bytes
  | type text =>
    obtain ⟨ho, ht⟩ := Pty.inputs_quiet text h.quiet
    exact h.frame ho (by rw [ht, h.quiet])
  | slaveRead count =>
    obtain ⟨ho, ht⟩ := slaveRead_frame s.pty count
    exact h.frame ho (by rw [ht, h.quiet])
  | set t flush =>
    obtain ⟨ho, ht⟩ := setTermios_frame s.pty t flush
    exact h.frame ho (by rw [ht]; exact hq)
  | ends masters slaves opened => exact h.frame rfl h.quiet

/-- Where writes follow one another, only the last has not answered, and what they have put out is
what they have written, one after another. -/
structure InTurn (s : Traffic) : Prop where
  ended : ∀ w ∈ s.calls.dropLast, w.answer ≠ none
  order : s.puts.map Put.byte = s.calls.flatMap Write.written

theorem start_inTurn {p : Pty} : InTurn (start p) where
  ended _ hw := nomatch hw
  order := rfl

/-- The only write still to answer is the last. -/
theorem InTurn.last (h : s.InTurn) (hi : s.pending i = some w) :
    ∃ l, s.calls = l ++ [w] ∧ i = l.length := by
  obtain ⟨hw, ha⟩ := pending_eq hi
  obtain ⟨hlt, rfl⟩ := List.getElem?_eq_some_iff.1 hw
  have hne : s.calls ≠ [] := List.ne_nil_of_length_pos (Nat.zero_lt_of_lt hlt)
  have hdrop := List.dropLast_append_getLast hne
  have hend : i = s.calls.dropLast.length := by
    rw [List.length_dropLast]
    by_contra hcon
    have hlt' : i < s.calls.dropLast.length := by
      rw [List.length_dropLast]
      omega
    refine h.ended _ (List.getElem_mem hlt') ?_
    rw [List.getElem_dropLast]
    exact ha
  refine ⟨s.calls.dropLast, ?_, hend⟩
  have hlast : s.calls.getLast hne = s.calls[i] := by
    rw [List.getLast_eq_getElem]
    congr 1
    rw [hend, List.length_dropLast]
  rw [← hlast, hdrop]

/-- A turn of the last write keeps the order. -/
theorem InTurn.turned (h : s.InTurn) (hi : s.pending i = some w) {r : Pty × Write}
    (ht : Pty.Turned s.pty w r) : InTurn (s.turned i w r) := by
  obtain ⟨l, hl, rfl⟩ := h.last hi
  have hset : ∀ w', s.calls.set l.length w' = l ++ [w'] := by
    intro w'
    rw [hl, List.set_append_right _ _ le_rfl, Nat.sub_self]
    rfl
  have hended : ∀ v ∈ l, v.answer ≠ none := by
    intro v hv
    refine h.ended v ?_
    rw [hl, List.dropLast_concat]
    exact hv
  have horder := h.order
  rw [hl, List.flatMap_append, List.flatMap_singleton] at horder
  refine turned_cases r ht (fun c hc => ⟨?_, ?_⟩) (fun a _ => ⟨?_, ?_⟩) ⟨?_, ?_⟩
  · rw [hset, List.dropLast_concat]
    exact hended
  · rw [hset, List.map_append, horder, List.flatMap_append, List.flatMap_singleton, written_succ hc,
      List.append_assoc]
    rfl
  · rw [hset, List.dropLast_concat]
    exact hended
  · rw [hset, List.flatMap_append, List.flatMap_singleton]
    exact horder
  · rw [hset, List.dropLast_concat]
    exact hended
  · rw [hset, List.flatMap_append, List.flatMap_singleton]
    exact horder

/-- A step that keeps the traffic sound, with one write at a time, keeps the order. -/
theorem step_inTurn {p : Pty} (a : Act) (hs : Sound p s) (h : s.InTurn) (hr : s.Roomy a)
    (ho : s.Alone a) : InTurn (s.step a) := by
  cases a with
  | write text nonblock =>
    refine ⟨fun w hw => ?_, ?_⟩
    · change w ∈ (s.calls ++ [_]).dropLast at hw
      rw [List.dropLast_concat] at hw
      exact ho w hw
    · show s.puts.map Put.byte = (s.calls ++ [_]).flatMap Write.written
      rw [List.flatMap_append, h.order]
      exact (List.append_nil _).symm
  | turn i signal =>
    unfold step
    dsimp only
    cases hi : s.pending i with
    | none => exact h
    | some w =>
      have hh := (hs.written i w (pending_eq hi).1).2
      exact h.turned hi (Pty.writeTurn_turned hh.1 (hr w hi) signal)
  | read count => exact ⟨h.ended, h.order⟩
  | type text => exact ⟨h.ended, h.order⟩
  | slaveRead count => exact ⟨h.ended, h.order⟩
  | set t flush => exact ⟨h.ended, h.order⟩
  | ends masters slaves opened => exact ⟨h.ended, h.order⟩

end Traffic

open Traffic Runs

/-- **What the slave writes, the master reads**: in a run with echo off in which no newline is put out as
two bytes into the last place of the queue, the master has or is to have the bytes put out, each newline
with its carriage return; they are, of each write, as many as its answer tells, and where the writes
follow one another they are in the writes' order. -/
theorem written_read {p : Pty} {acts : List Act} (hecho : p.t.echo = false)
    (hrun : Along (fun s a => Quiet a ∧ s.Roomy a) step (start p) acts) :
    let s := acts.foldl step (start p)
    s.got ++ s.pty.out = p.out ++ s.puts.flatMap Put.sent ∧
      (∀ i w, s.calls[i]? = some w →
        (s.puts.filter fun x => x.call = i).map Put.byte = w.written ∧ w.Honest) ∧
      (Along Alone step (start p) acts → s.puts.map Put.byte = s.calls.flatMap Write.written) := by
  have hsound : Sound p (acts.foldl step (start p)) :=
    hrun.invariant (fun s a h hok => step_sound a h hok.1 hok.2) (start_sound hecho)
  refine ⟨hsound.bytes, hsound.written, fun halone => ?_⟩
  have hboth := hrun.and halone
  exact (hboth.invariant (P := fun s => Sound p s ∧ s.InTurn)
    (fun s a h hok => ⟨step_sound a h.1 hok.1.1 hok.1.2, step_inTurn a h.1 h.2 hok.1.2 hok.2⟩)
    ⟨start_sound hecho, start_inTurn⟩).2.order

/-- A terminal open at both ends, its echo off. -/
def silent : Pty where
  masters := 1
  slaves := 1
  opened := true
  eof := false
  t := { Termios.cooked with lflag := 0x8A33 }
  inq := []
  out := []
  line := []

/-- A letter and a newline are written, and read. -/
theorem written_read_letter :
    silent.t.echo = false ∧
      let acts : List Act := [.write [97, newline] false, .turn 0 false, .turn 0 false, .turn 0 false,
        .read 3]
      let s := acts.foldl step (start silent)
      s.got ++ s.pty.out = silent.out ++ s.puts.flatMap Put.sent ∧
        (∀ i w, s.calls[i]? = some w →
          (s.puts.filter fun x => x.call = i).map Put.byte = w.written ∧ w.Honest) ∧
        (Along Alone step (start silent) acts → s.puts.map Put.byte = s.calls.flatMap Write.written) := by
  have hecho : silent.t.echo = false := by decide
  refine ⟨hecho, written_read hecho ⟨⟨trivial, trivial⟩, ⟨trivial, fun w hw => ?_⟩,
    ⟨trivial, fun w hw => ?_⟩, ⟨trivial, fun w hw => ?_⟩, ⟨trivial, trivial⟩, trivial⟩⟩
  · obtain rfl := Option.mem_some.1 hw
    intro _ h
    exact absurd h (by decide)
  · obtain rfl := Option.mem_some.1 hw
    intro _ _ _
    decide
  · obtain rfl := Option.mem_some.1 hw
    intro _ h
    exact absurd h (by decide)

/-! ### The newline that is lost -/

namespace Pty

variable {p : Pty} {w : Write} {c : UInt8}

theorem writeTurn_output (hc : w.text[w.done]? = some c) (hm : p.masters ≠ 0)
    (hlt : p.out.length < queue) (signal : Bool) :
    p.writeTurn w signal = (p.output c, { w with done := w.done + 1 }) := by
  have hcan : p.slaveCanWrite = true := by simp [slaveCanWrite, hlt]
  unfold writeTurn
  rw [hc]
  simp [hcan, hm]

end Pty

/-- Letters, and a newline after them. -/
def lettersLine (m : ℕ) : List UInt8 := List.replicate m 97 ++ [newline]

theorem lettersLine_letter {m n : ℕ} (h : n < m) : (lettersLine m)[n]? = some 97 := by
  unfold lettersLine
  rw [List.getElem?_append_left (by rw [List.length_replicate]; exact h),
    List.getElem?_replicate_of_lt h]

theorem lettersLine_newline (m : ℕ) : (lettersLine m)[m]? = some newline := by
  unfold lettersLine
  rw [List.getElem?_append_right (by rw [List.length_replicate]), List.length_replicate, Nat.sub_self]
  rfl

/-- A turn that puts a byte out. -/
theorem step_put {s : Traffic} {w : Write} {i : ℕ} {c : UInt8} (hi : s.pending i = some w)
    (hc : w.text[w.done]? = some c) (hm : s.pty.masters ≠ 0) (hlt : s.pty.out.length < queue) :
    s.step (.turn i false) = { s with
      pty := s.pty.output c
      calls := s.calls.set i { w with done := w.done + 1 }
      puts := s.puts ++ [⟨i, c, s.pty.crlf⟩] } := by
  have hone : (w.text.take (w.done + 1)).drop w.done = [c] := by
    have hdone := (List.getElem?_eq_some_iff.1 hc).1
    rw [List.take_add_one, hc,
      List.drop_append_of_le_length (by rw [List.length_take, Nat.min_eq_left hdone.le]),
      List.drop_eq_nil_of_le (List.length_take_le _ _)]
    rfl
  unfold step
  simp only [hi]
  unfold turned
  rw [Pty.writeTurn_output hc hm hlt]
  simp only [hone, List.map_cons, List.map_nil]

/-- The letters go out one by one. -/
theorem letters_out {p : Pty} {m n : ℕ} (hm : p.masters ≠ 0) (hmost : p.out.length + m < queue)
    (hn : n ≤ m) :
    (List.replicate n (Act.turn 0 false)).foldl step ((start p).step (.write (lettersLine m) false)) =
      { pty := { p with out := p.out ++ List.replicate n 97 }
        calls := [⟨lettersLine m, false, n, none⟩]
        puts := List.replicate n ⟨0, 97, p.crlf⟩
        got := [] } := by
  induction n with
  | zero =>
    simp only [List.replicate_zero, List.append_nil]
    rfl
  | succ n ih =>
    have hlt : (p.out ++ List.replicate n 97).length < queue := by
      rw [List.length_append, List.length_replicate]
      omega
    have hexpand : Pty.expand p.crlf 97 = [97] := by
      unfold Pty.expand
      rw [if_neg]
      rw [Bool.and_eq_true_iff]
      exact fun h => absurd h.2 (by decide)
    rw [List.replicate_succ', List.foldl_append, ih (by omega), List.foldl_cons, List.foldl_nil,
      step_put (w := ⟨lettersLine m, false, n, none⟩) rfl (lettersLine_letter hn) hm hlt,
      Pty.output_eq (p := { p with out := p.out ++ List.replicate n 97 })]
    · simp only [Pty.crlf] at hexpand ⊢
      rw [hexpand, List.replicate_succ', List.replicate_succ', List.append_assoc]
      rfl
    · show (p.out ++ List.replicate n 97).length + (Pty.expand p.crlf 97).length ≤ queue
      rw [hexpand]
      exact hlt

/-- After letters that leave one place in the queue a newline is dropped, and its write answers that it has
put it out. -/
theorem letters_newline {p : Pty} {m : ℕ} (hm : p.masters ≠ 0) (hmost : p.out.length + m + 1 = queue)
    (ht : p.crlf = true) :
    [Act.turn 0 false, Act.turn 0 false].foldl step ((List.replicate m (Act.turn 0 false)).foldl step
        ((start p).step (.write (lettersLine m) false))) =
      { pty := { p with out := p.out ++ List.replicate m 97 ++ [carriage] }
        calls := [⟨lettersLine m, false, m + 1, some (.wrote (lettersLine m).length)⟩]
        puts := List.replicate m ⟨0, 97, p.crlf⟩ ++ [⟨0, newline, p.crlf⟩]
        got := [] } := by
  have hlen : (p.out ++ List.replicate m 97).length + 1 = queue := by
    rw [List.length_append, List.length_replicate]
    exact hmost
  have hend : (lettersLine m)[m + 1]? = none := by
    rw [List.getElem?_eq_none_iff, lettersLine, List.length_append, List.length_replicate]
    rfl
  rw [letters_out hm (by omega) le_rfl, List.foldl_cons,
    step_put (w := ⟨lettersLine m, false, m, none⟩) rfl (lettersLine_newline m) hm (by exact hlen.le),
    Pty.output_lost (p := { p with out := p.out ++ List.replicate m 97 }) hlen ht]
  show turned _ 0 ⟨lettersLine m, false, m + 1, none⟩ (Pty.writeTurn _ _ false) = _
  unfold Pty.writeTurn
  rw [hend]
  unfold turned
  rw [List.drop_eq_nil_of_le (List.length_take_le _ _), List.map_nil, List.append_nil]
  rfl

/-- **The last newline of a write is lost**: after 4095 letters the write answers that it has put all its
bytes out, and the master has the newline's carriage return only. -/
theorem newline_lost :
    ∃ acts : List Act, (∀ a ∈ acts, Quiet a) ∧
      let s := acts.foldl step (start silent)
      (∃ w, s.calls = [w] ∧ w.answer = some (.wrote w.text.length)) ∧
        s.got ++ s.pty.out ≠ silent.out ++ s.puts.flatMap Put.sent := by
  obtain ⟨m, hmost⟩ : ∃ m, m + 1 = queue := ⟨4095, rfl⟩
  refine ⟨.write (lettersLine m) false :: (List.replicate m (.turn 0 false) ++
    [.turn 0 false, .turn 0 false]), fun a ha => ?_, ?_⟩
  · rcases List.mem_cons.1 ha with rfl | ha
    · trivial
    rcases List.mem_append.1 ha with ha | ha
    · rw [List.eq_of_mem_replicate ha]
      trivial
    · simp only [List.mem_cons, List.not_mem_nil, or_false, or_self] at ha
      subst ha
      trivial
  · have hcr : silent.crlf = true := by decide
    rw [List.foldl_cons, List.foldl_append,
      letters_newline (p := silent) Nat.one_ne_zero (by rw [← hmost]; simp [silent]) hcr]
    refine ⟨⟨_, rfl, rfl⟩, fun heq => ?_⟩
    have hsent : [Put.mk 0 newline silent.crlf].flatMap Put.sent = [carriage] ++ [newline] := by
      rw [hcr]
      rfl
    have hlast := congrArg List.getLast? heq
    rw [List.flatMap_append, hsent, List.nil_append, ← List.append_assoc, ← List.append_assoc,
      List.getLast?_concat, List.getLast?_concat] at hlast
    exact absurd (Option.some.inj hlast : carriage = newline) (by decide)

end BaxOS.Terminal
