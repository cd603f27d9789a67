import BaxOS.Ipc.Pty
import BaxOS.Lib.Runs
import Mathlib.Data.List.DropRight

/-!
# Lines as they are typed

What a canonical terminal is for: the lines typed wait in order, each with its end, and a read takes from
the first of them only (`Typist`). The terminal's own queue does not mark where lines end: a read looks
for a newline, and one flag stands for every end of file. It still hands the lines over as typed, as long
as nothing is completed behind a line that no newline ends, or behind an end of file
(`Terminal.reads_lines`).
-/

namespace BaxOS.Terminal

open Runs
open Pty (typed signals)

/-! ### What a key does -/

/-- What a character does when lines are gathered. -/
inductive Key
  | erase
  | kill
  | wordErase
  | eof
  | eol
  | plain
  deriving DecidableEq

/-- The key a character is. -/
def key (t : Termios) (c : UInt8) : Key :=
  if c = t.verase ∨ c = backspace then .erase
  else if c = t.vkill then .kill
  else if c = t.vwerase then .wordErase
  else if c = t.veof ∧ t.veof ≠ 0 then .eof
  else if c = newline ∨ t.veol ≠ 0 ∧ c = t.veol then .eol
  else .plain

/-- Lines as they are typed: the one being edited, and those that wait, an end of file among them as an
empty one. -/
structure Typist where
  t : Termios
  line : List UInt8
  items : List (List UInt8)

namespace Typist

/-- A line ends. -/
def finish (s : Typist) (l : List UInt8) : Typist := { s with line := [], items := s.items ++ [l] }

/-- A character is typed. A line holds no more than the terminal's. -/
def input (s : Typist) (c : UInt8) : Typist :=
  match key s.t (typed s.t c) with
  | .erase => { s with line := s.line.dropLast }
  | .kill => { s with line := [] }
  | .wordErase => { s with line := (s.line.rdropWhile (· = space)).rdropWhile (· ≠ space) }
  | .eof => s.finish s.line
  | .eol => s.finish (s.line ++ [typed s.t c])
  | .plain => if s.line.length < lineMost - 1 then { s with line := s.line ++ [typed s.t c] } else s

/-- A read takes from the first line, and an end of file whole. -/
def read (s : Typist) (count : ℕ) : Option (List UInt8) × Typist :=
  match s.items with
  | [] => (none, s)
  | l :: items =>
    (some (l.take count),
      { s with items := if l.length ≤ count then items else l.drop count :: items })

end Typist

/-! ### The two side by side -/

/-- What happens at a terminal whose master types. -/
inductive Stroke
  | type (c : UInt8)
  | read (count : ℕ)
  | set (t : Termios)

/-- The terminal, with the results of its slave's reads: what was read, or that it waited. -/
def Pty.stroke (s : Pty × List (Option (List UInt8))) : Stroke → Pty × List (Option (List UInt8))
  | .type c => (s.1.input c, s.2)
  | .read count => ((s.1.slaveRead count).2, s.2 ++ [(s.1.slaveRead count).1])
  | .set t => (s.1.setTermios t false, s.2)

/-- The lines, with the results of the reads. -/
def Typist.stroke (s : Typist × List (Option (List UInt8))) : Stroke → Typist × List (Option (List UInt8))
  | .type c => (s.1.input c, s.2)
  | .read count => ((s.1.read count).2, s.2 ++ [(s.1.read count).1])
  | .set t => ({ s.1 with t }, s.2)

/-- Nothing waits that a line completed now would run into: no end of file, and no line without its
newline. -/
def Pty.Ready (p : Pty) : Prop := p.eof = false ∧ (p.inq = [] ∨ p.inq.getLast? = some newline)

/-- The character is not a signal, and the line it completes has room. -/
def Pty.Takes (p : Pty) (c : UInt8) : Prop :=
  signals p.t (typed p.t c) = false ∧
    match key p.t (typed p.t c) with
    | .eof => p.inq.length + p.line.length ≤ queue
    | .eol => p.inq.length + (p.line.length + 1) ≤ queue
    | _ => True

/-- A character typed completes a line only when the terminal is ready for it, and an end of file only
when none waits. -/
def Pty.Clear (p : Pty) (c : UInt8) : Prop :=
  match key p.t (typed p.t c) with
  | .eof => if p.line = [] then p.eof = false else p.Ready
  | .eol => p.Ready
  | _ => True

/-- The terminal stays canonical, without signals or a queue that overflows. -/
def Pty.Canonical (s : Pty × List (Option (List UInt8))) : Stroke → Prop
  | .type c => s.1.Takes c
  | .read _ => True
  | .set t => t.icanon = true

/-- Every line completed finds the terminal ready. -/
def Pty.Orderly (s : Pty × List (Option (List UInt8))) : Stroke → Prop
  | .type c => s.1.Clear c
  | _ => True

/-! ### What typing does to the terminal -/

namespace Pty

variable {p : Pty} {c : UInt8}

/-- Echoing changes only what the master is to read. -/
theorem outPut_frame (c : UInt8) : ∃ o, p.outPut c = { p with out := o } := by
  unfold outPut
  split_ifs
  · exact ⟨_, rfl⟩
  · exact ⟨p.out, rfl⟩

theorem output_frame (p : Pty) (c : UInt8) : ∃ o, p.output c = { p with out := o } := by
  unfold output
  split_ifs
  · obtain ⟨o, ho⟩ := outPut_frame (p := p) carriage
    obtain ⟨o', ho'⟩ := outPut_frame (p := { p with out := o }) c
    exact ⟨o', by rw [ho, ho']⟩
  · exact outPut_frame c

theorem echo_frame (p : Pty) (c : UInt8) : ∃ o, p.echo c = { p with out := o } := by
  unfold echo
  split_ifs
  · exact ⟨p.out, rfl⟩
  · obtain ⟨o, ho⟩ := output_frame p caret
    obtain ⟨o', ho'⟩ := output_frame { p with out := o } (c + 64)
    exact ⟨o', by rw [ho, ho']⟩
  · exact output_frame p c

/-- Erasing takes the last of the line. -/
theorem eraseOne_frame (p : Pty) : ∃ o, p.eraseOne = { p with line := p.line.dropLast, out := o } := by
  unfold eraseOne
  dsimp only
  split_ifs with hl
  · refine ⟨p.out, ?_⟩
    rw [hl]
    show p = { p with line := [] }
    rw [← hl]
  · obtain ⟨o, ho⟩ := output_frame { p with line := p.line.dropLast } backspace
    obtain ⟨o₁, ho₁⟩ := output_frame { p with line := p.line.dropLast, out := o } space
    obtain ⟨o₂, ho₂⟩ := output_frame { p with line := p.line.dropLast, out := o₁ } backspace
    exact ⟨o₂, by rw [ho, ho₁, ho₂]⟩
  · exact ⟨p.out, rfl⟩

/-- A loop of erasing takes from the end of the line what is so. -/
theorem erase_frame (p : Pty) (which : UInt8 → Bool) :
    ∃ o, p.erase which = { p with line := p.line.rdropWhile which, out := o } := by
  unfold erase
  generalize hn : p.line.length = n
  induction n generalizing p with
  | zero =>
    rw [List.length_eq_zero_iff] at hn
    refine ⟨p.out, ?_⟩
    rw [hn, List.rdropWhile_nil]
    show p = { p with line := [] }
    rw [← hn]
  | succ n ih =>
    have hne : p.line ≠ [] := List.ne_nil_of_length_eq_add_one hn
    have hline := List.dropLast_append_getLast hne
    unfold eraseWhile
    rw [List.getLast?_eq_some_getLast hne, Option.any_some]
    split_ifs with hw
    · obtain ⟨o, ho⟩ := eraseOne_frame p
      rw [ho]
      obtain ⟨o', ho'⟩ := ih { p with line := p.line.dropLast, out := o } (by simp [hn])
      refine ⟨o', ?_⟩
      rw [ho', ← hline, List.rdropWhile_concat_pos _ _ _ hw, hline]
    · refine ⟨p.out, ?_⟩
      rw [← hline, List.rdropWhile_concat_neg _ _ _ hw, hline]

theorem lineDone_eq (h : p.inq.length + p.line.length ≤ queue) :
    p.lineDone = { p with inq := p.inq ++ p.line, line := [] } := by
  have hn : min p.line.length (queue - p.inq.length) = p.line.length := Nat.min_eq_left (by omega)
  unfold lineDone
  simp only [hn, List.take_length]

end Pty

/-! ### The lines in the queue -/

/-- Lines as they can be told apart by their newlines: none is empty, a newline is only at the end of one,
and every one but the last has it. -/
structure Parted (ls : List (List UInt8)) : Prop where
  some_ : ∀ l ∈ ls, l ≠ []
  inner : ∀ l ∈ ls, newline ∉ l.dropLast
  ended : ∀ l ∈ ls.dropLast, l.getLast? = some newline

namespace Parted

variable {l : List UInt8} {ls : List (List UInt8)}

theorem nil : Parted [] where
  some_ _ h := nomatch h
  inner _ h := nomatch h
  ended _ h := nomatch h

/-- A line typed when the last one has its newline. -/
theorem concat (h : Parted ls) (hready : ls.flatten = [] ∨ ls.flatten.getLast? = some newline)
    (hl : l ≠ []) (hi : newline ∉ l.dropLast) : Parted (ls ++ [l]) := by
  refine ⟨fun m hm => ?_, fun m hm => ?_, fun m hm => ?_⟩
  · rcases List.mem_append.1 hm with hm | hm
    · exact h.some_ m hm
    · rw [List.mem_singleton.1 hm]
      exact hl
  · rcases List.mem_append.1 hm with hm | hm
    · exact h.inner m hm
    · rw [List.mem_singleton.1 hm]
      exact hi
  · rw [List.dropLast_concat] at hm
    rcases List.eq_nil_or_concat' ls with rfl | ⟨ls', m', rfl⟩
    · exact nomatch hm
    rcases List.mem_append.1 hm with hm | hm
    · refine h.ended m ?_
      rwa [List.dropLast_concat]
    · obtain rfl := List.mem_singleton.1 hm
      have hne : m ≠ [] := h.some_ m (by simp)
      rcases hready with hready | hready
      · exact absurd (List.flatten_eq_nil_iff.1 hready m (by simp)) hne
      · rw [List.flatten_append, List.getLast?_append] at hready
        have hm' : [m].flatten = m := by simp
        rw [hm', List.getLast?_eq_some_getLast hne] at hready
        rw [List.getLast?_eq_some_getLast hne]
        exact hready

/-- What is left of the first line, or of the rest. -/
theorem tail (h : Parted (l :: ls)) : Parted ls where
  some_ m hm := h.some_ m (List.mem_cons_of_mem l hm)
  inner m hm := h.inner m (List.mem_cons_of_mem l hm)
  ended m hm := by
    cases ls with
    | nil => exact nomatch hm
    | cons m' ls => exact h.ended m (List.mem_cons_of_mem l hm)

theorem drop_first (h : Parted (l :: ls)) {n : ℕ} (hn : n < l.length) : Parted (l.drop n :: ls) := by
  have hne : l.drop n ≠ [] := by
    intro hnil
    rw [List.drop_eq_nil_iff] at hnil
    omega
  refine ⟨fun m hm => ?_, fun m hm => ?_, fun m hm => ?_⟩
  · rcases List.mem_cons.1 hm with rfl | hm
    · exact hne
    · exact h.tail.some_ m hm
  · rcases List.mem_cons.1 hm with rfl | hm
    · rw [List.dropLast_drop_eq_drop_dropLast]
      exact fun hmem => h.inner l List.mem_cons_self (List.mem_of_mem_drop hmem)
    · exact h.tail.inner m hm
  · cases ls with
    | nil => exact nomatch hm
    | cons m' ls =>
      rcases List.mem_cons.1 hm with rfl | hm
      · have hend := h.ended l List.mem_cons_self
        rwa [List.getLast?_drop, if_neg (by omega)]
      · exact h.ended m (List.mem_cons_of_mem l hm)

/-- A read stops where the first line does. -/
theorem take_first (h : Parted (l :: ls)) {n : ℕ} :
    let inq := (l :: ls).flatten
    let stop := (inq.takeWhile (· ≠ newline)).length
    let k := if stop < inq.length ∧ stop + 1 < n then stop + 1 else n
    inq.take k = l.take n ∧
      inq.drop k = (if l.length ≤ n then ls else l.drop n :: ls).flatten := by
  intro inq stop k
  have hne : l ≠ [] := h.some_ l List.mem_cons_self
  have hinner := h.inner l List.mem_cons_self
  have hline := List.dropLast_append_getLast hne
  obtain ⟨b, hb⟩ : ∃ b, l.getLast hne = b := ⟨_, rfl⟩
  rw [hb] at hline
  have hinq : inq = l ++ ls.flatten := rfl
  by_cases hend : b = newline
  · -- the newline ends the line
    subst hend
    have hlen : l.length = l.dropLast.length + 1 := by rw [← hline]; simp
    have hstop : stop = l.dropLast.length := by
      show (inq.takeWhile _).length = _
      rw [hinq, ← hline, List.append_assoc, List.takeWhile_append_of_pos]
      · simp
      · intro c hc
        simp only [decide_eq_true_eq]
        rintro rfl
        exact hinner hc
    have hlt : stop < inq.length := by
      rw [hinq, hstop, List.length_append]
      omega
    have hk : k = min n l.length := by
      show (if stop < inq.length ∧ stop + 1 < n then stop + 1 else n) = _
      split_ifs <;> omega
    rw [hk, hinq, List.take_append_of_le_length (Nat.min_le_right _ _),
      List.drop_append_of_le_length (Nat.min_le_right _ _), ← List.take_take, List.take_length]
    refine ⟨rfl, ?_⟩
    split_ifs with hn
    · rw [Nat.min_eq_right hn, List.drop_length]
      rfl
    · rw [Nat.min_eq_left (by omega)]
      rfl
  · -- no newline ends it, so that it is the last
    obtain rfl : ls = [] := by
      cases ls with
      | nil => rfl
      | cons m ls =>
        have := h.ended l List.mem_cons_self
        rw [List.getLast?_eq_some_getLast hne, hb] at this
        exact absurd (Option.some.inj this) hend
    have hinq' : inq = l := List.append_nil l
    have hstop : stop = inq.length := by
      show (inq.takeWhile _).length = _
      rw [List.takeWhile_eq_self_iff.2]
      intro c hc
      simp only [decide_eq_true_eq]
      rintro rfl
      rw [hinq', ← hline, List.mem_append, List.mem_singleton] at hc
      exact hc.elim hinner fun h => hend h.symm
    have hk : k = n := by
      show (if stop < inq.length ∧ stop + 1 < n then stop + 1 else n) = _
      rw [if_neg (by omega)]
    rw [hk, hinq']
    refine ⟨rfl, ?_⟩
    split_ifs with hn
    · rw [List.drop_eq_nil_iff.2 hn]
      rfl
    · exact (List.append_nil _).symm

end Parted

/-! ### The terminal hands over the lines -/

/-- The terminal's queue is the lines that wait, its flag an end of file behind them. -/
structure Rep (p : Pty) (s : Typist) : Prop where
  t : s.t = p.t
  line : s.line = p.line
  masters : p.masters ≠ 0
  canon : p.t.icanon = true
  plain : newline ∉ p.line
  short : p.line.length < lineMost
  waits : ∃ ls, Parted ls ∧ ls.flatten = p.inq ∧ s.items = ls ++ if p.eof then [[]] else []

namespace Rep

variable {p : Pty} {s : Typist} {c : UInt8}

/-- A character typed, by the key it is. -/
theorem input_key (hcanon : p.t.icanon = true) (hs : signals p.t (typed p.t c) = false) :
    p.input c = match key p.t (typed p.t c) with
      | .erase => p.eraseOne
      | .kill => p.erase fun _ => true
      | .wordErase => (p.erase (· = space)).erase (· ≠ space)
      | .eof => Pty.lineDone { p with eof := p.line = [] }
      | .eol => (Pty.echo (if p.line.length < lineMost then { p with line := p.line ++ [typed p.t c] } else p)
          (typed p.t c)).lineDone
      | .plain => if p.line.length < lineMost - 1 then p.gather (typed p.t c) else p := by
  unfold Pty.input key
  dsimp only
  generalize typed p.t c = c at hs
  simp only [hs, hcanon, Bool.not_true, Bool.false_eq_true, if_false]
  split_ifs <;> rfl

/-- The line alone changes, and loses only what it had. -/
theorem relined (h : Rep p s) {l : List UInt8} (hsub : l.Sublist p.line) (o : List UInt8) :
    Rep { p with line := l, out := o } { s with line := l } where
  t := h.t
  line := rfl
  masters := h.masters
  canon := h.canon
  plain hmem := h.plain (hsub.subset hmem)
  short := hsub.length_le.trans_lt h.short
  waits := h.waits

/-- A line is completed when the terminal is ready for it. -/
theorem finished (h : Rep p s) (hready : p.Ready) {l : List UInt8} (hl : l ≠ [])
    (hi : newline ∉ l.dropLast) (o : List UInt8) :
    Rep { p with inq := p.inq ++ l, line := [], out := o } (s.finish l) := by
  obtain ⟨ls, hp, hq, hitems⟩ := h.waits
  rw [hready.1] at hitems
  refine ⟨h.t, rfl, h.masters, h.canon, List.not_mem_nil, Nat.zero_lt_succ 255, ls ++ [l],
    hp.concat (hq ▸ hready.2) hl hi, ?_, ?_⟩
  · rw [List.flatten_append, hq, List.flatten_singleton]
  · show s.items ++ [l] = _
    rw [hitems]
    show ls ++ [] ++ [l] = ls ++ [l] ++ if p.eof then _ else _
    rw [hready.1, List.append_nil]
    exact (List.append_nil _).symm

/-- An end of file, when none waits. -/
theorem ended (h : Rep p s) (heof : p.eof = false) (hline : p.line = []) :
    Rep { p with eof := true, inq := p.inq ++ p.line, line := [] } (s.finish s.line) := by
  obtain ⟨ls, hp, hq, hitems⟩ := h.waits
  refine ⟨h.t, rfl, h.masters, h.canon, List.not_mem_nil, Nat.zero_lt_succ 255, ls, hp, ?_, ?_⟩
  · rw [hq, hline, List.append_nil]
  · show s.items ++ [s.line] = _
    rw [hitems, heof, h.line, hline]
    exact congrArg (· ++ [[]]) (List.append_nil ls)

/-- **A character typed** does to the terminal what it does to the lines. -/
theorem input (h : Rep p s) (htakes : p.Takes c) (hclear : p.Clear c) :
    Rep (p.input c) (s.input c) := by
  obtain ⟨hs, hroom⟩ := htakes
  obtain ⟨t, line, items⟩ := s
  obtain rfl : t = p.t := h.t
  obtain rfl : line = p.line := h.line
  unfold Pty.Clear at hclear
  unfold Typist.input
  rw [input_key h.canon hs]
  cases hk : key p.t (typed p.t c) <;> rw [hk] at hclear hroom <;> dsimp only at hclear hroom ⊢
  case erase =>
    obtain ⟨o, ho⟩ := Pty.eraseOne_frame p
    rw [ho]
    exact h.relined (List.dropLast_sublist _) o
  case kill =>
    obtain ⟨o, ho⟩ := Pty.erase_frame p fun _ => true
    rw [ho, List.rdropWhile_eq_nil_iff.2 fun _ _ => rfl]
    exact h.relined (List.nil_sublist _) o
  case wordErase =>
    obtain ⟨o, ho⟩ := Pty.erase_frame p (· = space)
    rw [ho]
    obtain ⟨o', ho'⟩ := Pty.erase_frame { p with line := p.line.rdropWhile (· = space), out := o } (· ≠ space)
    rw [ho']
    exact h.relined ((List.rdropWhile_prefix _ _).trans (List.rdropWhile_prefix _ _)).sublist o'
  case eof =>
    rw [Pty.lineDone_eq (p := { p with eof := p.line = [] }) hroom]
    split_ifs at hclear with hline
    · have hended := h.ended hclear hline
      rw [decide_eq_true hline]
      exact hended
    · have hfin := h.finished hclear hline (fun hmem => h.plain (List.mem_of_mem_dropLast hmem)) p.out
      rw [decide_eq_false hline, ← hclear.1]
      exact hfin
  case eol =>
    obtain ⟨o, ho⟩ := Pty.echo_frame { p with line := p.line ++ [typed p.t c] } (typed p.t c)
    rw [if_pos h.short, ho, Pty.lineDone_eq]
    · refine h.finished hclear (List.append_ne_nil_of_right_ne_nil _ (List.cons_ne_nil _ _)) ?_ o
      rw [List.dropLast_concat]
      exact h.plain
    · show p.inq.length + (p.line ++ [_]).length ≤ queue
      rw [List.length_append]
      exact hroom
  case plain =>
    have hne : typed p.t c ≠ newline := by
      intro hnl
      unfold key at hk
      split_ifs at hk with _ _ _ _ h₅
      exact h₅ (.inl hnl)
    split_ifs with hlt
    · obtain ⟨o, ho⟩ := Pty.echo_frame { p with line := p.line ++ [typed p.t c] } (typed p.t c)
      unfold Pty.gather
      rw [ho]
      refine ⟨rfl, rfl, h.masters, h.canon, ?_, ?_, h.waits⟩
      · rw [List.mem_append, List.mem_singleton, not_or]
        exact ⟨h.plain, hne.symm⟩
      · rw [List.length_append, List.length_singleton]
        omega
    · exact h

/-- **A read** gives what a read of the lines gives. -/
theorem read (h : Rep p s) (n : ℕ) :
    (p.slaveRead n).1 = (s.read n).1 ∧ Rep (p.slaveRead n).2 (s.read n).2 := by
  obtain ⟨ls, hp, hq, hitems⟩ := h.waits
  have hcan : p.slaveCanRead = (p.inq ≠ [] || p.eof) := by
    unfold Pty.slaveCanRead
    simp [h.masters, h.canon]
  unfold Pty.slaveRead Typist.read
  rw [hcan, hitems]
  cases ls with
  | nil =>
    have hnil : p.inq = [] := hq.symm
    cases heof : p.eof with
    | false =>
      simp only [hnil, ne_eq, not_true_eq_false, decide_false, Bool.or_false, Bool.not_false, if_true]
      exact ⟨rfl, h⟩
    | true =>
      simp only [hnil, Bool.or_true, Bool.not_true, Bool.false_eq_true, if_false, if_true,
        List.nil_append, List.take_nil, List.length_nil, Nat.zero_le]
      exact ⟨trivial, h.t, h.line, h.masters, h.canon, h.plain, h.short, [], .nil, rfl, rfl⟩
  | cons l ls =>
    have hne : p.inq ≠ [] := by
      rw [← hq, List.flatten_cons]
      exact List.append_ne_nil_of_left_ne_nil (hp.some_ l List.mem_cons_self) _
    obtain ⟨htake, hdrop⟩ := hp.take_first (n := n)
    have hcount : p.readCount n =
        if (p.inq.takeWhile (· ≠ newline)).length < p.inq.length ∧
            (p.inq.takeWhile (· ≠ newline)).length + 1 < n then
          (p.inq.takeWhile (· ≠ newline)).length + 1 else n := by
      unfold Pty.readCount
      rw [h.canon]
      simp only [Bool.true_and, Bool.and_eq_true, decide_eq_true_eq]
    rw [hq, ← hcount] at htake hdrop
    simp only [hne, ne_eq, not_false_eq_true, decide_true, Bool.true_or, Bool.not_true,
      Bool.false_eq_true, if_false, List.cons_append, htake, hdrop]
    refine ⟨trivial, h.t, h.line, h.masters, h.canon, h.plain, h.short, _, ?_, rfl, ?_⟩
    · split_ifs with hn
      · exact hp.tail
      · exact hp.drop_first (by omega)
    · split_ifs <;> rfl

/-- Another `termios`. -/
theorem set (h : Rep p s) {t : Termios} (ht : t.icanon = true) :
    Rep (p.setTermios t false) { s with t } := by
  unfold Pty.setTermios
  simp only [ht, Bool.not_true, Bool.false_and, Bool.false_eq_true, if_false]
  exact ⟨rfl, h.line, h.masters, ht, h.plain, h.short, h.waits⟩

end Rep

/-- A step at the terminal does what it does to the lines, with the same results. -/
theorem stroke_rep {p : Pty × List (Option (List UInt8))} {s : Typist × List (Option (List UInt8))}
    (a : Stroke) (h : Rep p.1 s.1 ∧ p.2 = s.2) (hc : Pty.Canonical p a) (ho : Pty.Orderly p a) :
    Rep (Pty.stroke p a).1 (Typist.stroke s a).1 ∧ (Pty.stroke p a).2 = (Typist.stroke s a).2 := by
  cases a with
  | type c => exact ⟨h.1.input hc ho, h.2⟩
  | read n =>
    obtain ⟨hres, hrep⟩ := h.1.read n
    refine ⟨hrep, ?_⟩
    show p.2 ++ [_] = s.2 ++ [_]
    rw [h.2, hres]
  | set t => exact ⟨h.1.set hc, h.2⟩

/-- **Canonical reads are the lines in the order typed**: from an empty terminal, where every line is
completed when no end of file and no line without its newline waits, the slave's reads give what reads of
the typed lines give. -/
theorem reads_lines {p : Pty} (hm : p.masters ≠ 0) (hcanon : p.t.icanon = true)
    (hempty : p.inq = [] ∧ p.line = [] ∧ p.eof = false) {acts : List Stroke}
    (hrun : Along (fun s a => Pty.Canonical s a ∧ Pty.Orderly s a) Pty.stroke (p, []) acts) :
    (acts.foldl Pty.stroke (p, [])).2 = (acts.foldl Typist.stroke (⟨p.t, [], []⟩, [])).2 := by
  have hrep : Rep p ⟨p.t, [], []⟩ := by
    obtain ⟨hq, hl, he⟩ := hempty
    refine ⟨rfl, hl.symm, hm, hcanon, ?_, ?_, [], .nil, hq.symm, ?_⟩
    · rw [hl]
      exact List.not_mem_nil
    · rw [hl]
      exact Nat.zero_lt_succ 255
    · rw [he]
      rfl
  suffices ∀ (q : Pty × List (Option (List UInt8))) (s : Typist × List (Option (List UInt8))),
      Along (fun s a => Pty.Canonical s a ∧ Pty.Orderly s a) Pty.stroke q acts →
      Rep q.1 s.1 ∧ q.2 = s.2 → (acts.foldl Pty.stroke q).2 = (acts.foldl Typist.stroke s).2 from
    this _ _ hrun ⟨hrep, rfl⟩
  clear hrun
  induction acts with
  | nil => exact fun q s _ h => h.2
  | cons a acts ih => exact fun q s h hr => ih _ _ h.2 (stroke_rep a hr h.1.1 h.1.2)

/-- A terminal as it is opened. -/
def opened : Pty where
  masters := 1
  slaves := 1
  opened := true
  eof := false
  t := .cooked
  inq := []
  out := []
  line := []

/-- A line and an end of file behind it, read. -/
theorem reads_lines_then_eof :
    opened.masters ≠ 0 ∧ opened.t.icanon = true ∧
      let acts : List Stroke := [.type 97, .type newline, .type 4, .read 8, .read 8, .read 8]
      (acts.foldl Pty.stroke (opened, [])).2 = (acts.foldl Typist.stroke (⟨opened.t, [], []⟩, [])).2 := by
  have hline : (0 + (1 + 1) ≤ queue) := by decide
  refine ⟨Nat.one_ne_zero, rfl, reads_lines Nat.one_ne_zero rfl ⟨rfl, rfl, rfl⟩
    ⟨⟨⟨rfl, trivial⟩, trivial⟩, ⟨⟨rfl, hline⟩, rfl, .inl rfl⟩, ⟨⟨rfl, ?_⟩, ?_⟩, ⟨trivial, trivial⟩,
      ⟨trivial, trivial⟩, ⟨trivial, trivial⟩, trivial⟩⟩
  · show 2 + 0 ≤ queue
    decide
  · exact rfl

/-- **An end of file does not keep its place**: one typed on an empty line and a line after it are read
the other way round. -/
theorem eof_after_line :
    let acts : List Stroke := [.type 4, .type 97, .type newline, .read 8, .read 8]
    Along Pty.Canonical Pty.stroke (opened, []) acts ∧
      (acts.foldl Pty.stroke (opened, [])).2 = [some [97, newline], some []] ∧
      (acts.foldl Typist.stroke (⟨opened.t, [], []⟩, [])).2 = [some [], some [97, newline]] := by
  have hline : (0 + (1 + 1) ≤ queue) := by decide
  exact ⟨⟨⟨rfl, Nat.zero_le _⟩, ⟨rfl, trivial⟩, ⟨rfl, hline⟩, trivial, trivial, trivial⟩, rfl, rfl⟩

/-- Two lines that `Ctrl-D` ended are read as one. -/
example : (List.foldl Pty.stroke (opened, []) [.type 97, .type 4, .type 98, .type 4, .read 8]).2 =
    [some [97, 98]] := rfl

end BaxOS.Terminal
