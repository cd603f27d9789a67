import BaxOS.Ipc.PipeBytes

/-!
# Descriptors on pipes, counted

How often a descriptor holds a pipe and whether it writes to it, which is what `pipe_hold` adds to
the two counts and `pipe_release` takes away (`pipeHold_spec`, `pipeRelease_spec`); and what that
keeps of the counts of all the descriptors there are (`Counted`).
-/

namespace BaxOS.Ipc
open Function

variable {D : Type} {t t' : ℕ → Pipe D} {e : End} {i : ℕ}

namespace End

/-- How often a descriptor holds a pipe: a socketpair's end holds the one it reads and the one it
writes. -/
def holds (e : End) (i : ℕ) : ℕ :=
  (if e.slot = i then 1 else 0) + if e.kind = .pair (some i) then 1 else 0

/-- Whether a descriptor writes to a pipe. -/
def writes (e : End) (i : ℕ) : ℕ :=
  if e.kind = .write ∧ e.slot = i ∨ e.kind = .pair (some i) then 1 else 0

/-- A descriptor reads a pipe. -/
def Reads (e : End) (i : ℕ) : Prop := e.slot = i ∧ (e.kind = .read ∨ ∃ out, e.kind = .pair out)

/-- A descriptor is of slots there are. -/
structure InTable (e : End) : Prop where
  slot : e.slot < pipeSlots
  out : ∀ {o}, e.kind = .pair (some o) → o < pipeSlots

theorem holds_slot_pos (e : End) : 0 < e.holds e.slot := by
  unfold holds
  rw [if_pos rfl]
  exact Nat.add_pos_left Nat.one_pos _

theorem holds_out_pos {o : ℕ} (h : e.kind = .pair (some o)) : 0 < e.holds o := by
  unfold holds
  rw [if_pos h]
  exact Nat.add_pos_right _ Nat.one_pos

theorem writes_le_holds (e : End) (i : ℕ) : e.writes i ≤ e.holds i := by
  unfold writes holds
  split_ifs with h h1 h2 <;> first | omega | skip
  rcases h with ⟨-, h⟩ | h
  · exact absurd h ‹_›
  · exact absurd h ‹_›

theorem holds_pos_iff : 0 < e.holds i ↔ e.slot = i ∨ e.kind = .pair (some i) := by
  unfold holds
  split_ifs with h1 h2 h2 <;> simp [h1, h2]

/-- A descriptor holds a pipe more often than it writes to it: it reads it. -/
theorem reads_of_lt (hk : e.kind = .read ∨ e.kind = .write ∨ ∃ o, e.kind = .pair o)
    (h : e.writes i < e.holds i) : e.Reads i := by
  unfold writes holds at h
  rcases hk with hk | hk | ⟨o, hk⟩
  · refine ⟨?_, Or.inl hk⟩
    by_contra hne
    simp [hk, hne] at h
  · by_cases hi : e.slot = i <;> simp [hk, hi] at h
  · refine ⟨?_, Or.inr ⟨o, hk⟩⟩
    by_contra hne
    by_cases ho : o = some i <;> simp [hk, hne, ho] at h

end End

/-! ### The table -/

theorem change_apply (t : ℕ → Pipe D) (o : Option ℕ) (f : Pipe D → Pipe D) (i : ℕ) :
    change t o f i = if o = some i then f (t i) else t i := by
  cases o with
  | none => rfl
  | some j =>
    rcases eq_or_ne j i with rfl | hne
    · exact (update_self _ _ _).trans (if_pos rfl).symm
    · rw [if_neg fun heq => hne (Option.some.inj heq)]
      exact update_of_ne hne.symm _ _

/-- What a descriptor is of is in use. -/
def Alive (t : ℕ → Pipe D) (e : End) : Prop := ∀ i, 0 < e.holds i → 0 < (t i).refs

theorem pipeOf_eq (h : e.InTable) (hr : Alive t e) : pipeOf t e = some e.slot :=
  if_pos ⟨h.slot, hr _ e.holds_slot_pos⟩

theorem pairOut_eq (h : e.InTable) (hr : Alive t e) (i : ℕ) :
    pairOut t e = some i ↔ e.kind = .pair (some i) := by
  unfold pairOut
  split
  · next o hk =>
    rw [if_pos ⟨h.out hk, hr o (End.holds_out_pos hk)⟩, hk, Kind.pair.injEq]
  · next hno =>
    exact ⟨(fun heq => nomatch heq), fun hk => absurd hk (hno i)⟩

theorem written_eq (h : e.InTable) (hr : Alive t e) (i : ℕ) :
    written t e = some i ↔ e.kind = .write ∧ e.slot = i ∨ e.kind = .pair (some i) := by
  unfold written
  split_ifs with hk
  · rw [pipeOf_eq h hr, Option.some.injEq]
    simp [hk]
  · rw [pairOut_eq h hr]
    simp [hk]

/-- A slot that is in use is not the next to be given. -/
theorem pipeSlot_spec {i : ℕ} (h : pipeSlot t = some i) : i < pipeSlots ∧ (t i).refs = 0 := by
  have hmem := List.mem_of_find?_eq_some h
  exact ⟨List.mem_range.1 hmem, of_decide_eq_true (List.find?_some (p := fun i => (t i).refs = 0) h)⟩

/-- **`pipe_hold`**: a pipe's counts as many more as the descriptor holds and writes it. -/
theorem pipeHold_spec (h : e.InTable) (hr : Alive t e) (i : ℕ) :
    pipeHold t e i = { t i with
      refs := (t i).refs + e.holds i
      count := (t i).count + e.writes i } := by
  unfold pipeHold End.holds End.writes
  simp only [change_apply, pairOut_eq h hr, written_eq h hr, pipeOf_eq h hr, Option.some.injEq]
  split_ifs <;> rfl

/-- `pipe_drop` of a pipe held more than once, or of none. -/
theorem pipeDrop_spec (t : ℕ → Pipe D) (o : Option ℕ) (i : ℕ) : (pipeDrop t o).1 i =
    if o = some i then if (t i).refs = 1 then Pipe.free else { t i with refs := (t i).refs - 1 }
    else t i := by
  unfold pipeDrop
  cases o with
  | none => rfl
  | some j =>
    rcases eq_or_ne j i with rfl | hne
    · rw [if_pos rfl]
      simp only
      split_ifs
      · exact update_self _ _ _
      · exact update_self _ _ _
    · rw [if_neg fun heq => hne (Option.some.inj heq)]
      simp only
      split_ifs
      · exact update_of_ne hne.symm _ _
      · exact update_of_ne hne.symm _ _

/-- **`pipe_release`**: a pipe's counts as many fewer as the descriptor holds and writes it, and a
pipe that nothing holds any more is free. -/
theorem pipeRelease_spec (h : e.InTable) (hr : ∀ i, e.holds i ≤ (t i).refs) (i : ℕ) :
    (pipeRelease t e).1 i = if 0 < e.holds i ∧ (t i).refs = e.holds i then Pipe.free
      else { t i with
        refs := (t i).refs - e.holds i
        count := (t i).count - e.writes i } := by
  have halive : Alive t e := fun i hi => hi.trans_le (hr i)
  set t1 := change t (written t e) fun p => { p with count := p.count - 1 } with ht1
  have h1 : ∀ i, t1 i = { t i with count := (t i).count - e.writes i } := fun i => by
    rw [ht1, change_apply]
    unfold End.writes
    simp only [written_eq h halive]
    split_ifs <;> rfl
  have hrefs1 : ∀ i, (t1 i).refs = (t i).refs := fun i => by rw [h1]
  have halive1 : Alive t1 e := fun i hi => by
    rw [hrefs1]
    exact halive i hi
  set t2 := (pipeDrop t1 (pairOut t1 e)).1 with ht2
  have h2 : ∀ i, t2 i = if e.kind = .pair (some i) then
      if (t i).refs = 1 then Pipe.free else { t1 i with refs := (t i).refs - 1 } else t1 i := fun i => by
    rw [ht2, pipeDrop_spec, hrefs1]
    simp only [pairOut_eq h halive1]
  have hown : pipeOf t2 e = some e.slot := by
    -- an end that reads what it writes holds its pipe twice
    have hslot := hr e.slot
    have hpos := e.holds_slot_pos
    refine if_pos ⟨h.slot, ?_⟩
    unfold End.holds at hslot hpos
    rw [if_pos rfl] at hslot hpos
    rw [h2]
    split_ifs with hk hone
    · rw [if_pos hk] at hslot
      omega
    · rw [if_pos hk] at hslot
      show 0 < (t e.slot).refs - 1
      omega
    · rw [hrefs1]
      omega
  have hdrop : (pipeRelease t e).1 i = (pipeDrop t2 (pipeOf t2 e)).1 i := rfl
  have hi := hr i
  rw [hdrop, hown, pipeDrop_spec, h2]
  unfold End.holds at hi ⊢
  simp only [Option.some.injEq]
  by_cases hs : e.slot = i <;> by_cases hk : e.kind = .pair (some i)
  · simp only [if_pos hs, if_pos hk] at hi ⊢
    rw [if_neg (show ¬(t i).refs = 1 by omega)]
    simp only [h1]
    split_ifs with ha hb hb
    · rfl
    · omega
    · omega
    · rfl
  · simp only [if_pos hs, if_neg hk, h1] at hi ⊢
    split_ifs with ha hb hb
    · rfl
    · omega
    · omega
    · rfl
  · simp only [if_neg hs, if_pos hk, h1] at hi ⊢
    split_ifs with ha hb hb
    · rfl
    · omega
    · omega
    · rfl
  · simp only [if_neg hs, if_neg hk, h1, Nat.add_zero, Nat.lt_irrefl, false_and, if_false, Nat.sub_zero]

/-! ### Descriptors counted -/

section Count

variable {pipes pipes' : ℕ → Pipe D} {ends es : List End}

/-- How often the descriptors there are hold a pipe. -/
def held (ends : List End) (i : ℕ) : ℕ := (ends.map (·.holds i)).sum

/-- How many of them write to it. -/
def writers (ends : List End) (i : ℕ) : ℕ := (ends.map (·.writes i)).sum

theorem held_append (es ends : List End) (i : ℕ) : held (es ++ ends) i = held es i + held ends i := by
  unfold held
  rw [List.map_append, List.sum_append]

theorem writers_append (es ends : List End) (i : ℕ) :
    writers (es ++ ends) i = writers es i + writers ends i := by
  unfold writers
  rw [List.map_append, List.sum_append]

theorem holds_le_held (he : e ∈ ends) (i : ℕ) : e.holds i ≤ held ends i :=
  List.le_sum_of_mem (List.mem_map_of_mem he)

theorem held_erase (he : e ∈ ends) (i : ℕ) : e.holds i + held (ends.erase e) i = held ends i :=
  List.sum_map_erase (fun e : End => e.holds i) he

theorem writers_erase (he : e ∈ ends) (i : ℕ) :
    e.writes i + writers (ends.erase e) i = writers ends i :=
  List.sum_map_erase (fun e : End => e.writes i) he

theorem writers_le_held (ends : List End) (i : ℕ) : writers ends i ≤ held ends i :=
  List.sum_le_sum fun e _ => e.writes_le_holds i

/-- More hold a pipe than write to it: one of them reads it. -/
theorem exists_reads (hk : ∀ e ∈ ends, e.kind = .read ∨ e.kind = .write ∨ ∃ o, e.kind = .pair o)
    (h : writers ends i < held ends i) : ∃ e ∈ ends, e.Reads i := by
  by_contra hno
  refine Nat.lt_irrefl _ (h.trans_le (List.sum_le_sum fun e he => ?_))
  by_contra hlt
  exact hno ⟨e, he, End.reads_of_lt (hk e he) (Nat.not_le.1 hlt)⟩

/-- **A pipe's counts are those of its descriptors**: none that is open holds a slot that is free,
and at least those that write to it are counted as such. -/
structure Counted (pipes : ℕ → Pipe D) (ends : List End) : Prop where
  inTable : ∀ {e}, e ∈ ends → e.InTable
  kinds : ∀ e ∈ ends, e.kind = .read ∨ e.kind = .write ∨ ∃ o, e.kind = .pair o
  refs : ∀ {i}, 0 < held ends i → (pipes i).refs = held ends i
  count : ∀ {i}, 0 < held ends i → writers ends i ≤ (pipes i).count
  unnamed : ∀ {i}, held ends i = 0 → 0 < (pipes i).refs → (pipes i).fifo = 0
  sound : ∀ {i}, 0 < (pipes i).refs →
    (pipes i).Sound ∧ (pipes i).packets = false ∧ (pipes i).msgs = []

theorem Counted.held_eq_zero (h : Counted pipes ends) (hr : (pipes i).refs = 0) : held ends i = 0 := by
  by_contra hne
  exact hne ((h.refs (Nat.pos_of_ne_zero hne)).symm.trans hr)

theorem Counted.alive (h : Counted pipes ends) (he : e ∈ ends) : Alive pipes e := fun i hi => by
  have hpos := hi.trans_le (holds_le_held he i)
  rw [h.refs hpos]
  exact hpos

/-- A buffer changed. -/
theorem Counted.alike (h : Counted pipes ends) (hp : ∀ i, Pipe.Alike (pipes i) (pipes' i))
    (hs : ∀ i, 0 < (pipes i).refs → (pipes' i).Sound) : Counted pipes' ends where
  inTable := h.inTable
  kinds := h.kinds
  refs {i} hi := (hp i).refs.trans (h.refs hi)
  count {i} hi := by
    rw [(hp i).count]
    exact h.count hi
  unnamed {i} hi hr := (hp i).fifo.trans (h.unnamed hi ((hp i).refs ▸ hr))
  sound {i} hr := by
    rw [(hp i).refs] at hr
    obtain ⟨-, hpackets, hmsgs⟩ := h.sound hr
    exact ⟨hs i hr, (hp i).packets.trans hpackets, (hp i).msgs.trans hmsgs⟩

/-- Slots that nothing holds used for new descriptors, or for nothing. -/
theorem Counted.made (h : Counted pipes ends) (es : List End) (slots : List ℕ)
    (hfree : ∀ i ∈ slots, held ends i = 0) (hsame : ∀ i, i ∉ slots → pipes' i = pipes i)
    (hes : ∀ e ∈ es, e.InTable ∧ (e.kind = .read ∨ e.kind = .write ∨ ∃ o, e.kind = .pair o) ∧
      ∀ i, 0 < e.holds i → i ∈ slots)
    (hnew : ∀ i ∈ slots, (0 < held es i → (pipes' i).refs = held es i ∧ writers es i ≤ (pipes' i).count) ∧
      (held es i = 0 → 0 < (pipes' i).refs → (pipes' i).fifo = 0) ∧
      (0 < (pipes' i).refs → (pipes' i).Sound ∧ (pipes' i).packets = false ∧ (pipes' i).msgs = [])) :
    Counted pipes' (es ++ ends) := by
  have hin : ∀ {i}, i ∈ slots → held (es ++ ends) i = held es i ∧ writers (es ++ ends) i = writers es i :=
    fun {i} hi => by
      have hzero := hfree i hi
      have hle := writers_le_held ends i
      rw [held_append, writers_append, hzero]
      exact ⟨rfl, by omega⟩
  have hout : ∀ {i}, i ∉ slots → held (es ++ ends) i = held ends i ∧
      writers (es ++ ends) i = writers ends i := fun {i} hi => by
    have hzero : held es i = 0 := List.sum_eq_zero fun n hn => by
      obtain ⟨e, he, rfl⟩ := List.mem_map.1 hn
      exact Nat.eq_zero_of_not_pos fun hpos => hi ((hes e he).2.2 i hpos)
    have hle := writers_le_held es i
    rw [held_append, writers_append, hzero]
    exact ⟨Nat.zero_add _, by omega⟩
  constructor
  · intro e he
    rcases List.mem_append.1 he with he | he
    · exact (hes e he).1
    · exact h.inTable he
  · intro e he
    rcases List.mem_append.1 he with he | he
    · exact (hes e he).2.1
    · exact h.kinds e he
  · intro i hi
    by_cases hs : i ∈ slots
    · rw [(hin hs).1] at hi ⊢
      exact ((hnew i hs).1 hi).1
    · rw [(hout hs).1] at hi ⊢
      rw [hsame i hs]
      exact h.refs hi
  · intro i hi
    by_cases hs : i ∈ slots
    · rw [(hin hs).1] at hi
      rw [(hin hs).2]
      exact ((hnew i hs).1 hi).2
    · rw [(hout hs).1] at hi
      rw [(hout hs).2, hsame i hs]
      exact h.count hi
  · intro i hi hr
    by_cases hs : i ∈ slots
    · rw [(hin hs).1] at hi
      exact (hnew i hs).2.1 hi hr
    · rw [(hout hs).1] at hi
      rw [hsame i hs] at hr ⊢
      exact h.unnamed hi hr
  · intro i hr
    by_cases hs : i ∈ slots
    · exact (hnew i hs).2.2 hr
    · rw [hsame i hs] at hr ⊢
      exact h.sound hr

/-- A descriptor more on pipes that descriptors are open on. -/
theorem Counted.cons (h : Counted pipes ends) (hin : e.InTable)
    (hk : e.kind = .read ∨ e.kind = .write ∨ ∃ o, e.kind = .pair o)
    (hheld : ∀ i, 0 < e.holds i → 0 < held ends i)
    (hp : ∀ i, ∃ n ≥ e.writes i, pipes' i = { pipes i with
      refs := (pipes i).refs + e.holds i
      count := (pipes i).count + n }) : Counted pipes' (e :: ends) := by
  have hsum : ∀ i, held (e :: ends) i = e.holds i + held ends i := fun i => held_append [e] ends i
  have hw : ∀ i, writers (e :: ends) i = e.writes i + writers ends i := fun i => writers_append [e] ends i
  have hpos : ∀ {i}, 0 < held (e :: ends) i → 0 < held ends i := fun {i} hi => by
    rw [hsum] at hi
    rcases Nat.eq_zero_or_pos (e.holds i) with hz | hz
    · omega
    · exact hheld i hz
  have hrefs : ∀ {i}, 0 < (pipes' i).refs → 0 < (pipes i).refs := fun {i} hi => by
    obtain ⟨n, -, heq⟩ := hp i
    rw [heq] at hi
    change 0 < (pipes i).refs + e.holds i at hi
    rcases Nat.eq_zero_or_pos (e.holds i) with hz | hz
    · omega
    · have := hheld i hz
      rw [h.refs this]
      exact this
  refine ⟨fun {d} hd => ?_, fun d hd => ?_, fun {i} hi => ?_, fun {i} hi => ?_, fun {i} hi hr => ?_,
    fun {i} hr => ?_⟩
  · rcases List.mem_cons.1 hd with rfl | hd
    · exact hin
    · exact h.inTable hd
  · rcases List.mem_cons.1 hd with rfl | hd
    · exact hk
    · exact h.kinds d hd
  · obtain ⟨n, -, heq⟩ := hp i
    rw [heq, hsum, ← h.refs (hpos hi)]
    exact Nat.add_comm _ _
  · obtain ⟨n, hn, heq⟩ := hp i
    have hc := h.count (hpos hi)
    rw [heq, hw]
    show _ ≤ (pipes i).count + n
    omega
  · obtain ⟨n, -, heq⟩ := hp i
    rw [heq]
    exact h.unnamed (Nat.eq_zero_of_not_pos fun hno => by
      rw [hsum] at hi
      omega) (hrefs hr)
  · obtain ⟨n, -, heq⟩ := hp i
    obtain ⟨hs, hrest⟩ := h.sound (hrefs hr)
    rw [heq]
    exact ⟨⟨hs.read, hs.len, hs.size, hs.cap⟩, hrest⟩

/-- A descriptor fewer. -/
theorem Counted.erase (h : Counted pipes ends) (he : e ∈ ends) :
    Counted (pipeRelease pipes e).1 (ends.erase e) := by
  have hle : ∀ i, e.holds i ≤ (pipes i).refs := fun i => by
    rcases Nat.eq_zero_or_pos (e.holds i) with hz | hz
    · omega
    · rw [h.refs (hz.trans_le (holds_le_held he i))]
      exact holds_le_held he i
  have hp := pipeRelease_spec (h.inTable he) hle
  have hmem : ∀ {d}, d ∈ ends.erase e → d ∈ ends := fun hd => List.mem_of_mem_erase hd
  -- a slot that is still held is not given up
  have hkept : ∀ {i}, 0 < held (ends.erase e) i → (pipes i).refs = held ends i ∧
      (pipeRelease pipes e).1 i = { pipes i with
        refs := (pipes i).refs - e.holds i
        count := (pipes i).count - e.writes i } := fun {i} hi => by
    have hsum := held_erase he i
    have hr := h.refs (i := i) (by omega)
    rw [hp, if_neg (by omega)]
    exact ⟨hr, rfl⟩
  refine ⟨fun hd => h.inTable (hmem hd), fun d hd => h.kinds d (hmem hd), fun {i} hi => ?_, fun {i} hi => ?_,
    fun {i} hi hr => ?_, fun {i} hr => ?_⟩
  · obtain ⟨hr, heq⟩ := hkept hi
    have hsum := held_erase he i
    rw [heq]
    show (pipes i).refs - e.holds i = _
    omega
  · obtain ⟨-, heq⟩ := hkept hi
    have hsum := held_erase he i
    have hwsum := writers_erase he i
    have hc := h.count (i := i) (by omega)
    rw [heq]
    show _ ≤ (pipes i).count - e.writes i
    omega
  · have hsum := held_erase he i
    rw [hp] at hr ⊢
    split_ifs at hr ⊢ with hlast
    · rfl
    · refine h.unnamed ?_ (hr.trans_le (Nat.sub_le _ _))
      rcases Nat.eq_zero_or_pos (e.holds i) with hz | hz
      · omega
      · exact absurd ⟨hz, by rw [h.refs (by omega)]; omega⟩ hlast
  · rw [hp] at hr ⊢
    split_ifs at hr ⊢ with hlast
    · exact absurd hr (Nat.lt_irrefl 0)
    · obtain ⟨hs, hrest⟩ := h.sound (hr.trans_le (Nat.sub_le _ _))
      exact ⟨⟨hs.read, hs.len, hs.size, hs.cap⟩, hrest⟩

end Count

end BaxOS.Ipc
