import BaxOS.Fs.Failure
import BaxOS.Fs.Disjoint

/-!
# The index agrees with the table

Over every run whose allocations find room safely, and whose calls either succeed or change nothing,
names are unique, each live entry has its one record, `find` finds each name and no other, and the
free list is the entries given up (`run_indexAgrees`).
-/

namespace BaxOS.Fs
open ByteStore Extents Probe Chains Forest Runs

/-! ### From a new filesystem on -/

theorem Formatted.coherent {n : ℕ} {s : State} (h : Formatted n s) (hn : 22 ≤ n) :
    Coherent s none := by
  obtain ⟨hh, -, hz, -⟩ := h.eq
  rw [newHeader_eq] at hh
  have hcell : ∀ p, p < records * s.head.indexSectors → indexCell s p = .fresh := by
    intro p hp
    refine Record.cell_eq_fresh.2 (word_zeros fun x h1 h2 => hz x ?_ ?_)
    · rw [hh] at h1
      simp only [sectorSize, records] at h1 ⊢
      omega
    · rw [hh] at hp h2
      simp only [sectorSize, records] at hp h2 ⊢
      omega
  have hknown : known s none = fun _ => none := by
    rw [known_none]
    funext i
    refine liveName_eq_none.2 fun hl => ?_
    have := hl.1
    rw [hh] at this
    exact Nat.not_lt_zero _ this
  refine ⟨h.layout hn, ⟨?_, ?_, ?_, ?_⟩, ?_, by simp, [], ?_, fun i => ?_⟩
  · rw [hknown, show keysOf (fun _ => none) = ∅ by ext r; simp [keysOf]]
    exact Holds.empty hcell
  · rw [used_eq_zero hcell, hh]
  · rw [hh]
    exact Nat.zero_le _
  · rw [hknown]
    simp
  · rw [hknown]
    simp
  · rw [hh]
    rfl
  · unfold Blank
    rw [hh]
    simp

/-! ### What the index says -/

/-- A live entry's record: where in the index it is, and what it holds. -/
def RecordOf (s : State) (e p : ℕ) : Prop :=
  p < records * s.head.indexSectors ∧ (cellOf s p).entry = e + 1

/-- The index agrees with the table. -/
structure IndexAgrees (s : State) : Prop where
  distinct : ∀ i j, Live s i → Live s j → (entryOf s i).name = (entryOf s j).name → i = j
  recorded : ∀ e, Live s e → ∃! p, RecordOf s e p
  hashes : ∀ e p, Live s e → RecordOf s e p →
    (cellOf s p).hash = hashOf (entryOf s e).name ∧
      (cellOf s p).parent = parentHash (entryOf s e).name
  live : ∀ p, p < records * s.head.indexSectors → (cellOf s p).entry ≠ 0 →
    (cellOf s p).entry ≠ gone → Live s ((cellOf s p).entry - 1)
  found : ∀ n e, (find s n).map Slot.index = some e ↔ Live s e ∧ (entryOf s e).name = n
  free : ∃ free : List ℕ, free.Nodup ∧ Chain (nextFree s) (linkAt s.head.freeHead) free ∧
    ∀ i, i ∈ free ↔ i < s.head.tableNext ∧ (entryOf s i).name = []

theorem Coherent.indexAgrees {s : State} (h : Coherent s none) : IndexAgrees s := by
  have hx := h.indexed
  rw [known_none] at hx
  have hof : ∀ p, p < records * s.head.indexSectors → (cellOf s p).entry ≠ 0 →
      (cellOf s p).entry ≠ gone → ∃ e, Live s e ∧ cellOf s p = keyOf e (entryOf s e).name := by
    intro p hp h0 hg
    obtain ⟨e, n, he, hk⟩ := hx.holds.sound p hp (cellOf s p)
      (Record.cell_eq_full.2 ⟨rfl, h0, hg⟩)
    obtain ⟨hlive, rfl⟩ := liveName_eq_some.1 he
    exact ⟨e, hlive, hk⟩
  have hrec : ∀ e p, Live s e → RecordOf s e p → cellOf s p = keyOf e (entryOf s e).name := by
    intro e p he hp
    have hsmall := hx.small e _ (liveName_of_live he)
    obtain ⟨i, -, hi⟩ := hof p hp.1 (by rw [hp.2]; omega) (by rw [hp.2]; omega)
    have : e + 1 = i + 1 := hp.2.symm.trans (congrArg Record.entry hi)
    obtain rfl : e = i := by omega
    exact hi
  refine ⟨fun i j => h.live_unique, fun e he => ?_, fun e p he hp => ?_, fun p hp h0 hg => ?_,
    fun n e => ?_, ?_⟩
  · have hlive := liveName_of_live he
    have hsmall := hx.small e _ hlive
    obtain ⟨p, hp, hcell⟩ := hx.holds.held (keyOf e (entryOf s e).name) ⟨e, _, hlive, rfl⟩
    have hkey : cellOf s p = keyOf e (entryOf s e).name := (Record.cell_eq_full.1 hcell).1
    refine ⟨p, ⟨hp, by rw [hkey, keyOf]⟩, fun q hq => ?_⟩
    refine hx.holds.once q hq.1 p hp _ ?_ hcell
    rw [indexCell, hrec e q he hq, keyOf_cell hsmall]
  · rw [hrec e p he hp]
    exact ⟨rfl, rfl⟩
  · obtain ⟨e, he, hk⟩ := hof p hp h0 hg
    rw [hk, keyOf, Nat.add_sub_cancel]
    exact he
  · rw [Option.map_eq_some_iff]
    constructor
    · rintro ⟨f, hf, rfl⟩
      obtain ⟨hok, hname⟩ := h.find_iff.1 hf
      exact ⟨hok.1, hname⟩
    · rintro ⟨he, hname⟩
      exact ⟨⟨e, (entryOf s e).start, (entryOf s e).size⟩,
        h.find_iff.2 ⟨⟨he, rfl, rfl⟩, hname⟩, rfl⟩
  · obtain ⟨free, hc, hm⟩ := h.free
    exact ⟨free, hc.nodup, hc, fun i => by rw [hm]; simp [Blank]⟩

/-! ### Runs -/

/-- The call returns 0, or an error found before it has changed anything. -/
def Returns (s : State) (op : Op) : Prop :=
  (exec s op).1 = .ok () ∨ (exec s op).2.disk = s.disk ∧ (exec s op).2.head = s.head

/-- Besides, it finds room safely. -/
def OpWhole (s : State) (op : Op) : Prop := OpRoomy s op ∧ Returns s op

theorem run_coherent {s : State} {ops : List Op} (hs : Coherent s none) (hc : CwdOk s)
    (h : Along OpWhole (fun s op => (exec s op).2) s ops) :
    Coherent (run s ops) none ∧ CwdOk (run s ops) :=
  h.invariant (P := fun s => Coherent s none ∧ CwdOk s)
    (fun s op hp hop => by
      have hstep := exec_spec hp.1.layout hp.2 hop.1
      refine ⟨?_, hstep.cwdOk hp.1.layout hp.2⟩
      rcases hop.2 with hok | ⟨hd, hh⟩
      · exact (hstep.refines hp.1 (Or.inl hok)).1
      · exact hp.1.of_eq hd hh) ⟨hs, hc⟩

/-- **The index agrees with the table** over every run from a new filesystem of 22 sectors or more
whose allocations find room safely and whose calls each return 0 or an error found before anything
was changed. -/
theorem run_indexAgrees {n : ℕ} {s : State} {ops : List Op} (hs : Formatted n s) (hn : 22 ≤ n)
    (hops : Along OpWhole (fun s op => (exec s op).2) s ops) : IndexAgrees (run s ops) :=
  (run_coherent (hs.coherent hn) hs.cwdOk hops).1.indexAgrees

/-- A file that comes and goes. -/
def comeAndGo : List Op :=
  [.write (letter 0x66 letterF_ne_zero) [0], .remove (letter 0x66 letterF_ne_zero)]

theorem comeAndGo_whole :
    Along OpWhole (fun s op => (exec s op).2) (newDisk 102) comeAndGo := by
  refine ⟨⟨fun name hname _ _ => ?_, Or.inl (by decide)⟩,
    ⟨trivial, Or.inl (by decide)⟩, trivial⟩
  have hn : resolve (newDisk 102) [0x66] true = .ok [0x66] := by decide
  obtain rfl : [0x66] = name := Except.ok.inj (hn.symm.trans hname)
  have hf : find (newDisk 102) [0x66] = none := by decide
  rw [hf]
  refine ⟨fun _ h => absurd h (by decide), fun i s1 h => ?_⟩
  obtain ⟨hi, rfl⟩ := Prod.mk.inj h
  obtain rfl := Option.some.inj hi
  refine ⟨by norm_num, .append (by decide), fun _ start s1 h _ hfull => ?_⟩
  obtain ⟨rfl, rfl⟩ := Prod.mk.inj h
  exact absurd hfull (by decide)

theorem comeAndGo_supplied :
    OpSupplied (newDisk 102) (.write (letter 0x66 (by decide)) [0]) := by
  intro name hname _ i s1 hget
  have hn : resolve (newDisk 102) [0x66] true = .ok [0x66] := by decide
  obtain rfl : [0x66] = name := Except.ok.inj (hn.symm.trans hname)
  obtain ⟨hi, rfl⟩ := Prod.mk.inj hget
  obtain rfl := Option.some.inj hi
  refine ⟨Or.inl (by decide), fun start s2 hall _ hfull => ?_⟩
  obtain ⟨rfl, rfl⟩ := Prod.mk.inj hall
  exact absurd hfull (by decide)

theorem run_indexAgrees_comeAndGo : IndexAgrees (run (newDisk 102) comeAndGo) :=
  run_indexAgrees (newDisk_formatted (by norm_num)) (by norm_num) comeAndGo_whole

end BaxOS.Fs
