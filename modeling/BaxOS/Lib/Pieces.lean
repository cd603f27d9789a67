import Mathlib.Tactic

/-!
# Messages a piece at a time

A message goes a piece at a time through a queue to a buffer of `cap` places, and each piece that
comes out of the queue is stored or dropped. `Whole` says that of each message all the pieces are
stored or none: what was taken and stored is the pieces of messages entire, in the order sent, but
for the last, whose remaining pieces are next in the queue and have room. One rule for each thing
that happens says what keeps it so (`Whole.send`, `Whole.refuse`, `Whole.store`, `Whole.skip`,
`Whole.clear`, `Whole.take`, `Whole.reset`, `Whole.turn`), and `Whole.taken_whole` what it says of what was taken.
-/

namespace Pieces

variable {α : Type*}
variable {w : List α} {i : ℕ}

/-- A message and a place in it. -/
abbrev Piece (α : Type*) := List α × ℕ

/-- A message's pieces, in order. -/
def pieces (w : List α) : List (Piece α) := (List.range w.length).map fun i => (w, i)

/-- What a piece carries. -/
def value [Inhabited α] (p : Piece α) : α := p.1.getD p.2 default

/-- Whether a list of pieces is empty or begins with a message's first. -/
def Clean (l : List (Piece α)) : Prop := ∀ p ∈ l.head?, p.2 = 0

instance (l : List (Piece α)) : Decidable (Clean l) :=
  inferInstanceAs (Decidable (∀ p ∈ l.head?, _))

@[simp] theorem pieces_nil : pieces ([] : List α) = [] := rfl

@[simp] theorem length_pieces (w : List α) : (pieces w).length = w.length := by
  simp [pieces]

theorem getElem_pieces (h : i < (pieces w).length) : (pieces w)[i] = (w, i) := by
  simp [pieces]

theorem mem_pieces {p : Piece α} : p ∈ pieces w ↔ p.1 = w ∧ p.2 < w.length := by
  unfold pieces
  rw [List.mem_map]
  constructor
  · rintro ⟨i, hi, rfl⟩
    exact ⟨rfl, List.mem_range.1 hi⟩
  · rintro ⟨rfl, hi⟩
    exact ⟨p.2, List.mem_range.2 hi, rfl⟩

theorem drop_pieces (h : i < w.length) :
    (pieces w).drop i = (w, i) :: (pieces w).drop (i + 1) := by
  have hi : i < (pieces w).length := by rwa [length_pieces]
  rw [List.drop_eq_getElem_cons hi, getElem_pieces]

theorem drop_pieces_eq_nil (h : w.length ≤ i) : (pieces w).drop i = [] :=
  List.drop_eq_nil_of_le (by rwa [length_pieces])

theorem take_pieces (h : i < w.length) :
    (pieces w).take (i + 1) = (pieces w).take i ++ [(w, i)] := by
  have hi : i < (pieces w).length := by rwa [length_pieces]
  rw [List.take_succ_eq_append_getElem hi, getElem_pieces]

theorem take_pieces_eq (h : w.length ≤ i) : (pieces w).take i = pieces w :=
  List.take_of_length_le (by rwa [length_pieces])

/-- The pieces of a message carry the message. -/
theorem map_value_pieces [Inhabited α] (w : List α) : (pieces w).map value = w := by
  apply List.ext_getElem
  · simp
  · intro i h _
    have hi : i < w.length := by simpa using h
    simp [pieces, value, List.getElem?_eq_getElem hi]

theorem map_value_flatMap [Inhabited α] (ks : List (List α)) :
    (ks.flatMap pieces).map value = ks.flatten := by
  induction ks with
  | nil => rfl
  | cons k ks ih =>
    rw [List.flatMap_cons, List.map_append, map_value_pieces, ih, List.flatten_cons]

/-- Messages' pieces cut before a first piece are cut between messages. -/
theorem cut_clean {ks : List (List α)} {a b : List (Piece α)} (h : a ++ b = ks.flatMap pieces)
    (hb : Clean b) : ∃ ks' : List (List α), ks'.Sublist ks ∧ a = ks'.flatMap pieces := by
  induction ks generalizing a with
  | nil =>
    rw [List.flatMap_nil] at h
    exact ⟨[], List.nil_sublist _, (List.append_eq_nil_iff.1 h).1⟩
  | cons k ks ih =>
    rw [List.flatMap_cons] at h
    rcases List.append_eq_append_iff.1 h with ⟨c, hk, hc⟩ | ⟨c, ha, hc⟩
    · -- the cut is in the first message, before a piece of it or at its end
      cases c with
      | nil =>
        rw [List.append_nil] at hk
        exact ⟨[k], (List.nil_sublist ks).cons_cons k, by simp [hk]⟩
      | cons p c =>
        have hlen : a.length < (pieces k).length := by rw [hk]; simp
        have hp : (pieces k)[a.length] = p := by simp [hk]
        have h0 : p.2 = 0 := hb p (by rw [hc]; rfl)
        rw [getElem_pieces] at hp
        rw [← hp] at h0
        exact ⟨[], List.nil_sublist _, List.length_eq_zero_iff.1 h0⟩
    · -- it is past the first message
      obtain ⟨ks', hks, hc'⟩ := ih hc.symm
      exact ⟨k :: ks', hks.cons_cons k, by rw [ha, hc', List.flatMap_cons]⟩

/-- The next piece is the message's whose pieces were coming out, or a later one's first. -/
theorem next_cases {k : List α} {ms : List (List α)} {p : Piece α} {q : List (Piece α)}
    (h : p :: q = (pieces k).drop i ++ ms.flatMap pieces) :
    (i < k.length ∧ p = (k, i) ∧ q = (pieces k).drop (i + 1) ++ ms.flatMap pieces) ∨
    ∃ m ms', k.length ≤ i ∧ (m :: ms').Sublist ms ∧ 0 < m.length ∧ p = (m, 0) ∧
      q = (pieces m).drop 1 ++ ms'.flatMap pieces := by
  by_cases hi : i < k.length
  · left
    rw [drop_pieces hi, List.cons_append, List.cons.injEq] at h
    exact ⟨hi, h.1, h.2⟩
  · right
    rw [drop_pieces_eq_nil (Nat.le_of_not_lt hi), List.nil_append] at h
    induction ms with
    | nil => exact absurd h (by simp)
    | cons m ms ih =>
      rw [List.flatMap_cons] at h
      by_cases hm : 0 < m.length
      · rw [← List.drop_zero (l := pieces m), drop_pieces hm, List.cons_append,
          List.cons.injEq] at h
        exact ⟨m, ms, Nat.le_of_not_lt hi, List.Sublist.refl _, hm, h.1, h.2⟩
      · -- a message of no pieces is passed over
        have hnil : m = [] := List.length_eq_zero_iff.1 (Nat.eq_zero_of_not_pos hm)
        rw [hnil, pieces_nil, List.nil_append] at h
        obtain ⟨m', ms', h1, h2, h3⟩ := ih h
        exact ⟨m', ms', h1, h2.cons m, h3⟩

/-! ### All of a message or none of it -/

/-- Where the message stands whose pieces are coming out. While one is stored it has room and the
buffer is not shut; while one is dropped the buffer is full or shut. -/
inductive Whole (cap : ℕ) (shut : Prop) (sent : List (List α)) (taken stored queue : List (Piece α)) :
    Prop
  /-- Its pieces before the `i`-th are the last stored. -/
  | within (ks : List (List α)) (k : List α) (ms : List (List α)) (i : ℕ) (rest : List (Piece α))
      (hpos : 0 < i) (hlt : i < k.length) (hsub : (ks ++ k :: ms).Sublist sent)
      (hks : taken ++ rest = ks.flatMap pieces) (hstored : stored = rest ++ (pieces k).take i)
      (hqueue : queue = (pieces k).drop i ++ ms.flatMap pieces)
      (hroom : rest.length + k.length ≤ cap) (hopen : ¬ shut)
  /-- Its pieces before the `i`-th were dropped, or it is done. -/
  | skipping (ks : List (List α)) (k : List α) (ms : List (List α)) (i : ℕ)
      (hsub : (ks ++ ms).Sublist sent) (hks : taken ++ stored = ks.flatMap pieces)
      (hqueue : queue = (pieces k).drop i ++ ms.flatMap pieces)
      (hfull : i < k.length → stored.length = cap ∨ shut)

namespace Whole

variable {cap : ℕ} {shut : Prop} {sent : List (List α)} {taken stored queue : List (Piece α)}
  {p : Piece α}

theorem start : Whole cap shut [] ([] : List (Piece α)) [] [] :=
  .skipping [] [] [] 0 (List.Sublist.refl _) rfl rfl fun h => absurd h (Nat.lt_irrefl 0)

/-- **What was taken**: whole messages, but for what is still in the buffer of the last. -/
theorem taken_whole (h : Whole cap shut sent taken stored queue) :
    ∃ (ks : List (List α)) (rest : List (Piece α)),
      ks.Sublist sent ∧ taken ++ rest = ks.flatMap pieces ∧ rest <+: stored := by
  cases h with
  | within ks k ms i rest _ _ hsub hks hstored =>
    exact ⟨ks, rest, (List.sublist_append_left _ _).trans hsub, hks, ⟨_, hstored.symm⟩⟩
  | skipping ks k ms i hsub hks =>
    exact ⟨ks, stored, (List.sublist_append_left _ _).trans hsub, hks, List.prefix_refl _⟩

/-- A message is sent with room for all of it in the queue. -/
theorem send (h : Whole cap shut sent taken stored queue) (w : List α) :
    Whole cap shut (sent ++ [w]) taken stored (queue ++ pieces w) := by
  have hq : ∀ (k : List α) ms i, (pieces k).drop i ++ ms.flatMap pieces ++ pieces w =
      (pieces k).drop i ++ (ms ++ [w]).flatMap pieces := by
    intro k ms i
    simp
  cases h with
  | within ks k ms i rest hpos hlt hsub hks hstored hqueue hroom hopen =>
    refine .within ks k (ms ++ [w]) i rest hpos hlt ?_ hks hstored (by rw [hqueue, hq]) hroom hopen
    rw [← List.cons_append, ← List.append_assoc]
    exact hsub.append (List.Sublist.refl _)
  | skipping ks k ms i hsub hks hqueue hfull =>
    refine .skipping ks k (ms ++ [w]) i ?_ hks (by rw [hqueue, hq]) hfull
    rw [← List.append_assoc]
    exact hsub.append (List.Sublist.refl _)

/-- One is sent with room for none of it. -/
theorem refuse (h : Whole cap shut sent taken stored queue) (w : List α) :
    Whole cap shut (sent ++ [w]) taken stored queue := by
  have hs : sent.Sublist (sent ++ [w]) := List.sublist_append_left _ _
  cases h with
  | within ks k ms i rest hpos hlt hsub hks hstored hqueue hroom hopen =>
    exact .within ks k ms i rest hpos hlt (hsub.trans hs) hks hstored hqueue hroom hopen
  | skipping ks k ms i hsub hks hqueue hfull =>
    exact .skipping ks k ms i (hsub.trans hs) hks hqueue hfull

/-- The next piece is stored: a first one has room for its whole message. -/
theorem store (h : Whole cap shut sent taken stored (p :: queue)) (hopen : ¬ shut)
    (hlt : stored.length < cap) (hfit : p.2 = 0 → stored.length + p.1.length ≤ cap) :
    Whole cap shut sent taken (stored ++ [p]) queue := by
  cases h with
  | within ks k ms i rest hpos hik hsub hks hstored hqueue hroom _ =>
    rw [drop_pieces hik, List.cons_append, List.cons.injEq] at hqueue
    obtain ⟨rfl, hq⟩ := hqueue
    have hst : stored ++ [(k, i)] = rest ++ (pieces k).take (i + 1) := by
      rw [hstored, List.append_assoc, take_pieces hik]
    rcases Nat.lt_or_ge (i + 1) k.length with hi | hi
    · exact .within ks k ms (i + 1) rest (by omega) hi hsub hks hst hq hroom hopen
    · -- that was its last
      rw [take_pieces_eq hi] at hst
      refine .skipping (ks ++ [k]) k ms (i + 1) ?_ ?_ hq fun h => absurd h (Nat.not_lt.2 hi)
      · rwa [List.append_assoc, List.singleton_append]
      · rw [hst, ← List.append_assoc, hks]
        simp
  | skipping ks k ms i hsub hks hqueue hfull =>
    rcases next_cases hqueue with ⟨hik, _⟩ | ⟨m, ms', _, hms, hm, rfl, hq⟩
    · -- nothing is stored of a message that is being dropped
      rcases hfull hik with hc | hs
      · omega
      · exact absurd hs hopen
    · have hsub' : (ks ++ m :: ms').Sublist sent := ((List.Sublist.refl ks).append hms).trans hsub
      have hone : [(m, 0)] = (pieces m).take 1 := by
        rw [take_pieces hm]
        rfl
      rcases Nat.lt_or_ge 1 m.length with h1 | h1
      · exact .within ks m ms' 1 stored Nat.one_pos h1 hsub' hks (by rw [hone]) hq (hfit rfl) hopen
      · rw [take_pieces_eq h1] at hone
        refine .skipping (ks ++ [m]) m ms' 1 ?_ ?_ hq fun h => absurd h (Nat.not_lt.2 h1)
        · rwa [List.append_assoc, List.singleton_append]
        · rw [← List.append_assoc, hks, hone]
          simp

/-- It is dropped: the buffer is full or shut. -/
theorem skip (h : Whole cap shut sent taken stored (p :: queue)) (hfull : stored.length = cap ∨ shut) :
    Whole cap shut sent taken stored queue := by
  cases h with
  | within ks k ms i rest hpos hik hsub hks hstored hqueue hroom hopen =>
    -- a message that was begun has room
    have hlen : stored.length = rest.length + i := by
      rw [hstored, List.length_append, List.length_take, length_pieces, Nat.min_eq_left hik.le]
    rcases hfull with hc | hs
    · omega
    · exact absurd hs hopen
  | skipping ks k ms i hsub hks hqueue _ =>
    rcases next_cases hqueue with ⟨_, _, hq⟩ | ⟨m, ms', _, hms, _, _, hq⟩
    · exact .skipping ks k ms (i + 1) hsub hks hq fun _ => hfull
    · refine .skipping ks m ms' 1 ?_ hks hq fun _ => hfull
      exact ((List.Sublist.refl ks).append ((List.sublist_cons_self m ms').trans hms)).trans hsub

/-- It is its message's last, and empties a buffer that does not begin inside a message. -/
theorem clear (h : Whole cap shut sent taken stored (p :: queue)) (hlast : p.1.length ≤ p.2 + 1)
    (hclean : Clean stored) : Whole cap shut sent taken [] queue := by
  cases h with
  | within ks k ms i rest hpos hik hsub hks hstored hqueue hroom hopen =>
    rw [drop_pieces hik, List.cons_append, List.cons.injEq] at hqueue
    obtain ⟨rfl, hq⟩ := hqueue
    have hrest : Clean rest := by
      intro x hx
      apply hclean x
      rw [hstored, List.head?_append, Option.mem_def.1 hx]
      rfl
    obtain ⟨ks', hks', ht⟩ := cut_clean hks hrest
    refine .skipping ks' k ms (i + 1) ?_ (by rw [List.append_nil, ht]) hq
      fun h => absurd h (Nat.not_lt.2 hlast)
    exact (hks'.append (List.sublist_cons_self k ms)).trans hsub
  | skipping ks k ms i hsub hks hqueue hfull =>
    obtain ⟨ks', hks', ht⟩ := cut_clean hks hclean
    have ht' : taken ++ [] = ks'.flatMap pieces := by rw [List.append_nil, ht]
    rcases next_cases hqueue with ⟨_, rfl, hq⟩ | ⟨m, ms', _, hms, _, rfl, hq⟩
    · exact .skipping ks' k ms (i + 1) ((hks'.append (List.Sublist.refl ms)).trans hsub) ht' hq
        fun h => absurd h (Nat.not_lt.2 hlast)
    · refine .skipping ks' m ms' 1 ?_ ht' hq fun h => absurd h (Nat.not_lt.2 hlast)
      exact (hks'.append ((List.sublist_cons_self m ms').trans hms)).trans hsub

/-- With nothing in the queue no message is begun, and the buffer may be shut or opened. -/
theorem done (h : Whole cap shut sent taken stored []) :
    ∃ ks : List (List α), ks.Sublist sent ∧ taken ++ stored = ks.flatMap pieces := by
  cases h with
  | within ks k ms i rest hpos hik hsub hks hstored hqueue =>
    rw [drop_pieces hik] at hqueue
    exact absurd hqueue (by simp)
  | skipping ks k ms i hsub hks =>
    exact ⟨ks, (List.sublist_append_left _ _).trans hsub, hks⟩

theorem of_done {ks : List (List α)} (hsub : ks.Sublist sent)
    (hks : taken ++ stored = ks.flatMap pieces) : Whole cap shut sent taken stored [] :=
  .skipping ks [] [] 0 (by rwa [List.append_nil]) hks rfl fun h => absurd h (Nat.lt_irrefl 0)

/-- The first stored is taken. -/
theorem take (h : Whole cap shut sent taken (p :: stored) []) :
    Whole cap shut sent (taken ++ [p]) stored [] := by
  obtain ⟨ks, hsub, hks⟩ := h.done
  exact of_done hsub (by rw [List.append_assoc, List.singleton_append, hks])

/-- A buffer that does not begin inside a message is emptied. -/
theorem reset (h : Whole cap shut sent taken stored []) (hclean : Clean stored) :
    Whole cap shut sent taken [] [] := by
  obtain ⟨ks, hsub, hks⟩ := h.done
  obtain ⟨ks', hks', ht⟩ := cut_clean hks hclean
  exact of_done (hks'.trans hsub) (by rw [List.append_nil, ht])

/-- The buffer is shut or opened. -/
theorem turn (h : Whole cap shut sent taken stored []) (shut' : Prop) :
    Whole cap shut' sent taken stored [] := by
  obtain ⟨ks, hsub, hks⟩ := h.done
  exact of_done hsub hks

end Whole

end Pieces
