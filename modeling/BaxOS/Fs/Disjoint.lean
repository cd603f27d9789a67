import BaxOS.Fs.Steps

/-!
# Nobody's sectors are anybody else's

Over every run whose allocations find room safely the sectors in use stay disjoint, inside the disk
and before the end of the data (`run_sectorsKept`). A gap that `allocate_gap` finds may reach past
the end of the data, which it leaves where it was; the next file then gets the same sectors
(`exists_not_sectorsKept`).
-/

namespace BaxOS.Fs
open ByteStore Extents Runs

instance (r q : Run) : Decidable (Apart r q) :=
  inferInstanceAs (Decidable (r.2 = 0 ∨ q.2 = 0 ∨ r.1 + r.2 ≤ q.1 ∨ q.1 + q.2 ≤ r.1))

/-- No two owners share a sector; all are on the disk, after the header and before the end of the
data. -/
structure SectorsKept (s : State) : Prop where
  apart : ∀ o p, o ≠ p → Apart (owned s o) (owned s p)
  inside : ∀ o, 0 < (owned s o).2 →
    dataLba ≤ (owned s o).1 ∧ (owned s o).1 + (owned s o).2 ≤ s.head.dataEnd
  dataEnd : s.head.dataEnd ≤ s.head.diskSectors

/-- **The sectors in use stay disjoint** over every run from a new filesystem of 22 sectors or
more, whether its calls succeed or fail, whose allocations all find room safely. -/
theorem run_sectorsKept {n : ℕ} {s : State} {ops : List Op} (hs : Formatted n s) (hn : 22 ≤ n)
    (hops : Along OpRoomy (fun s op => (exec s op).2) s ops) : SectorsKept (run s ops) := by
  have h := (run_layout (hs.layout hn) hs.cwdOk hops).1
  exact ⟨h.packed.apart, h.packed.inside, h.dataEnd_le⟩

/-- A disk of zeros, nothing known of it, and memory whenever it is asked for. -/
def blankState : State := ⟨fun _ => 0, ⟨0, 0, 0, 0, 0, 0, 0, 0, 0, 0⟩, [], fun _ => true⟩

/-- The filesystem made on it. -/
def newDisk (n : ℕ) : State := (fsFormat blankState n).2

theorem newDisk_formatted {n : ℕ} (hn : n < 2 ^ 32) : Formatted n (newDisk n) :=
  ⟨blankState, rfl, hn, rfl⟩

/-- A path of one letter. -/
def letter (c : UInt8) (h : c ≠ 0) : CString := ⟨[c], by simpa using h.symm⟩

theorem letterA_ne_zero : (0x61 : UInt8) ≠ 0 := by decide

theorem letterB_ne_zero : (0x62 : UInt8) ≠ 0 := by decide

theorem letterC_ne_zero : (0x63 : UInt8) ≠ 0 := by decide

theorem letterF_ne_zero : (0x66 : UInt8) ≠ 0 := by decide

theorem run_sectorsKept_write : SectorsKept (run (newDisk 64)
    [.write (letter 0x61 (by decide)) [1], .remove (letter 0x61 (by decide))]) := by
  refine run_sectorsKept (newDisk_formatted (by norm_num)) (by norm_num) ⟨?_, trivial, trivial⟩
  intro name hname _ _
  have hn : resolve (newDisk 64) [0x61] true = .ok [0x61] := by decide
  obtain rfl : [0x61] = name := Except.ok.inj (hn.symm.trans hname)
  have hf : find (newDisk 64) [0x61] = none := by decide
  rw [hf]
  refine ⟨fun _ h => absurd h (by decide), fun i s1 h => ?_⟩
  obtain ⟨hi, rfl⟩ := Prod.mk.inj h
  obtain rfl := Option.some.inj hi
  refine ⟨by norm_num, .append (by decide), fun _ start s1 h _ hfull => ?_⟩
  obtain ⟨rfl, rfl⟩ := Prod.mk.inj h
  exact absurd hfull (by decide)

/-- A file of one sector, removed; a file of two, which on a disk of 24 has to go in the gap left
before the end of the data and reaches past it; and a file of one, which gets its second sector. -/
def overlapRun : List Op :=
  [.write (letter 0x62 letterB_ne_zero) [0], .remove (letter 0x62 letterB_ne_zero),
    .write (letter 0x63 letterC_ne_zero) (List.replicate 513 0), .write (letter 0x61 letterA_ne_zero) [0]]

theorem exists_not_sectorsKept : ∃ n s ops, Formatted n s ∧ 22 ≤ n ∧ ¬ SectorsKept (run s ops) :=
  ⟨24, newDisk 24, overlapRun, newDisk_formatted (by norm_num), by norm_num, fun h =>
    absurd (h.apart (.file 0) (.file 1) (by decide)) (by decide +kernel)⟩

end BaxOS.Fs
