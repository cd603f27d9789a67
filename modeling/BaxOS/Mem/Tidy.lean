import BaxOS.Mem.Owners
import BaxOS.Lib.Spaced

/-!
# The runs as they are kept

`Tidy`: the runs of free memory are in order, none is empty, none touches the next, and there are at
most `RUNS` of them. Putting pages back keeps that where they are in no run (`runAdd_tidy`), and taking
pages out always does.
-/

namespace BaxOS.Mem
open Spans Chains

/-- The runs as they are kept. -/
structure Tidy (runs : List Span) : Prop where
  spaced : Spaced runs
  some_ : ∀ r ∈ runs, 0 < r.count
  room : runs.length ≤ maxRuns

namespace Tidy

variable {runs as bs : List Span} {page count i : ℕ}

theorem nil : Tidy [] where
  spaced := List.Pairwise.nil
  some_ _ h := nomatch h
  room := Nat.zero_le _

theorem sublist {runs' : List Span} (h : Tidy runs) (hsub : runs'.Sublist runs) : Tidy runs' :=
  ⟨h.spaced.sublist hsub, fun r hr => h.some_ r (hsub.subset hr), hsub.length_le.trans h.room⟩

/-- One more run, with a gap on each side. -/
theorem insert {m : Span} (h : Tidy (as ++ bs)) (ha : ∀ a ∈ as, a.stop < m.first)
    (hb : ∀ b ∈ bs, m.stop < b.first) (hm : 0 < m.count) (hroom : (as ++ bs).length < maxRuns) :
    Tidy (as ++ m :: bs) := by
  refine ⟨h.spaced.insert ha hb, fun r hr => ?_, ?_⟩
  · rcases List.mem_append.1 hr with hr | hr
    · exact h.some_ r (List.mem_append_left _ hr)
    rcases List.mem_cons.1 hr with rfl | hr
    · exact hm
    · exact h.some_ r (List.mem_append_right _ hr)
  · rw [List.length_append, List.length_cons]
    rw [List.length_append] at hroom
    exact hroom

/-- A run in another's place, within the gaps around that one. -/
theorem replace {r m : Span} (h : Tidy (as ++ r :: bs)) (hfirst : r.first ≤ m.first)
    (hstop : m.stop ≤ r.stop) (hm : 0 < m.count) : Tidy (as ++ m :: bs) := by
  obtain ⟨ha, hb⟩ := h.spaced.lt_of_append
  have hsub : (as ++ bs).Sublist (as ++ r :: bs) := (List.sublist_cons_self r bs).append_left as
  refine (h.sublist hsub).insert (fun a hmem => (ha a hmem).trans_le hfirst)
    (fun b hmem => hstop.trans_lt (hb b hmem)) hm ?_
  have := h.room
  rw [List.length_append, List.length_cons] at this
  rw [List.length_append]
  exact this

end Tidy

/-! ### Putting back -/

section Around

variable {as bs : List Span} {page count : ℕ}

theorem touchesLast_append : touchesLast (as ++ bs) as.length page =
    as.getLast?.filter fun r => r.stop = page := by
  unfold touchesLast
  rcases List.eq_nil_or_concat' as with rfl | ⟨as, a, rfl⟩
  · rfl
  · rw [List.getLast?_concat, List.length_append, List.length_singleton, if_pos (Nat.succ_pos _),
      Nat.add_sub_cancel, List.append_assoc, List.getElem?_append_right le_rfl, Nat.sub_self]
    rfl

theorem touchesNext_append : touchesNext (as ++ bs) as.length page =
    bs.head?.filter fun r => page = r.first := by
  unfold touchesNext
  rw [List.getElem?_append_right le_rfl, Nat.sub_self, List.head?_eq_getElem?]

/-- Where pages belong between the runs before and those after, what they are joined to is the last of
the ones and the first of the others. -/
theorem joined_append (hplace : as.length = place (as ++ bs) page) :
    joined (as ++ bs) page count =
      match as.getLast?.filter (fun r => r.stop = page),
        bs.head?.filter (fun r => page + count = r.first) with
      | some last, some next =>
        some (as.dropLast ++ ⟨last.first, last.count + count + next.count⟩ :: bs.tail)
      | some last, none => some (as.dropLast ++ ⟨last.first, last.count + count⟩ :: bs)
      | none, some next => some (as ++ ⟨page, next.count + count⟩ :: bs.tail)
      | none, none => none := by
  unfold joined
  dsimp only
  rw [← hplace, touchesLast_append, touchesNext_append]
  cases hl : as.getLast?.filter (fun r => decide (r.stop = page)) with
  | none =>
    cases hn : bs.head?.filter (fun r => decide (page + count = r.first)) with
    | none => rfl
    | some next =>
      cases bs with
      | nil => exact nomatch hn
      | cons b bs => exact congrArg some (by rw [List.set_append_right _ _ le_rfl, Nat.sub_self]; rfl)
  | some last =>
    rcases List.eq_nil_or_concat' as with rfl | ⟨as, a, rfl⟩
    · exact nomatch hl
    have hlen : (as ++ [a]).length - 1 = as.length := by
      rw [List.length_append, List.length_singleton, Nat.add_sub_cancel]
    have hset : ∀ m : Span, (as ++ [a] ++ bs).set as.length m = as ++ m :: bs := by
      intro m
      rw [List.append_assoc, List.set_append_right _ _ le_rfl, Nat.sub_self]
      rfl
    cases hn : bs.head?.filter (fun r => decide (page + count = r.first)) with
    | none =>
      dsimp only
      rw [hlen, hset, List.dropLast_concat]
    | some next =>
      cases bs with
      | nil => exact nomatch hn
      | cons b bs =>
        dsimp only
        rw [hlen, hset, List.dropLast_concat, List.eraseIdx_append_of_length_le (by simp)]
        simp

/-- The last of the runs before, if it does not touch: none of them does. -/
theorem lt_of_not_touchesLast (h : Spaced as) (ha : ∀ a ∈ as, a.stop ≤ page)
    (hl : as.getLast?.filter (fun r => r.stop = page) = none) : ∀ a ∈ as, a.stop < page := by
  rcases List.eq_nil_or_concat' as with rfl | ⟨as, x, rfl⟩
  · exact fun a ha => nomatch ha
  rw [List.getLast?_concat, Option.filter_some] at hl
  have hx : x.stop ≠ page := by
    intro heq
    rw [if_pos (decide_eq_true heq)] at hl
    exact nomatch hl
  have hlast : x.stop < page := lt_of_le_of_ne (ha x (by simp)) hx
  intro a hmem
  rcases List.mem_append.1 hmem with hmem | hmem
  · have := (List.pairwise_append.1 h).2.2 a hmem x (List.mem_singleton_self x)
    unfold Span.stop at hlast this ⊢
    omega
  · rwa [List.mem_singleton.1 hmem]

/-- The first of the runs after, if it does not touch: none of them does. -/
theorem lt_of_not_touchesNext {stop : ℕ} (h : Spaced bs) (hb : ∀ b ∈ bs, stop ≤ b.first)
    (hn : bs.head?.filter (fun r => stop = r.first) = none) : ∀ b ∈ bs, stop < b.first := by
  cases bs with
  | nil => exact fun b hb => nomatch hb
  | cons y bs =>
    rw [List.head?_cons, Option.filter_some] at hn
    have hy : stop ≠ y.first := by
      intro heq
      rw [if_pos (decide_eq_true heq)] at hn
      exact nomatch hn
    have hfirst : stop < y.first := lt_of_le_of_ne (hb y List.mem_cons_self) hy
    intro b hmem
    rcases List.mem_cons.1 hmem with rfl | hmem
    · exact hfirst
    · have := (List.pairwise_cons.1 h).1 b hmem
      unfold Span.stop at this
      omega

/-- **Pages joined to what they touch** leave the runs as they are to be; where they touch nothing there
is a gap on each side of them. -/
theorem joined_tidy (h : Tidy (as ++ bs)) (hplace : as.length = place (as ++ bs) page)
    (ha : ∀ a ∈ as, a.stop ≤ page) (hb : ∀ b ∈ bs, page + count ≤ b.first) :
    (∀ runs', joined (as ++ bs) page count = some runs' → Tidy runs') ∧
      (joined (as ++ bs) page count = none →
        (∀ a ∈ as, a.stop < page) ∧ ∀ b ∈ bs, page + count < b.first) := by
  obtain ⟨hsa, hsb, -⟩ := List.pairwise_append.1 h.spaced
  rw [joined_append hplace]
  cases hl : as.getLast?.filter (fun r => decide (r.stop = page)) with
  | none =>
    have halt := lt_of_not_touchesLast hsa ha hl
    cases hn : bs.head?.filter (fun r => decide (page + count = r.first)) with
    | none => exact ⟨(fun _ h => nomatch h), fun _ => ⟨halt, lt_of_not_touchesNext hsb hb hn⟩⟩
    | some y =>
      refine ⟨fun runs' hr => ?_, fun h => nomatch h⟩
      obtain rfl := Option.some.inj hr
      obtain ⟨hy, hfirst⟩ := Option.filter_eq_some_iff.1 hn
      rw [decide_eq_true_eq] at hfirst
      obtain ⟨bs, rfl⟩ : ∃ bs', bs = y :: bs' := List.head?_eq_some_iff.1 hy
      have hpos := h.some_ y (by simp)
      have hafter := (List.pairwise_cons.1 hsb).1
      have hroom := h.room
      refine (h.sublist ((List.sublist_cons_self y bs).append_left as)).insert halt (fun b hmem => ?_)
        (Nat.add_pos_left hpos _) ?_
      · have := hafter b hmem
        unfold Span.stop at this ⊢
        simp only at this ⊢
        omega
      · rw [List.length_append, List.length_cons] at hroom
        rw [List.length_append]
        exact hroom
  | some x =>
    obtain ⟨hx, hstop⟩ := Option.filter_eq_some_iff.1 hl
    rw [decide_eq_true_eq] at hstop
    obtain ⟨as, rfl⟩ := List.getLast?_eq_some_iff.1 hx
    have hpos := h.some_ x (by simp)
    have hbefore : ∀ a ∈ as, a.stop < x.first := fun a hmem =>
      (List.pairwise_append.1 hsa).2.2 a hmem x (List.mem_singleton_self x)
    have hroom := h.room
    have hsub : (as ++ bs).Sublist (as ++ [x] ++ bs) := (List.sublist_append_left as [x]).append_right bs
    cases hn : bs.head?.filter (fun r => decide (page + count = r.first)) with
    | none =>
      refine ⟨fun runs' hr => ?_, fun h => nomatch h⟩
      obtain rfl := Option.some.inj hr
      have hblt := lt_of_not_touchesNext hsb hb hn
      rw [List.dropLast_concat]
      refine (h.sublist hsub).insert hbefore (fun b hmem => ?_) (Nat.add_pos_left hpos _) ?_
      · have := hblt b hmem
        unfold Span.stop at hstop ⊢
        simp only
        omega
      · rw [List.length_append, List.length_append, List.length_singleton] at hroom
        rw [List.length_append]
        omega
    | some y =>
      refine ⟨fun runs' hr => ?_, fun h => nomatch h⟩
      obtain rfl := Option.some.inj hr
      obtain ⟨hy, hfirst⟩ := Option.filter_eq_some_iff.1 hn
      rw [decide_eq_true_eq] at hfirst
      obtain ⟨bs, rfl⟩ : ∃ bs', bs = y :: bs' := List.head?_eq_some_iff.1 hy
      have hafter := (List.pairwise_cons.1 hsb).1
      rw [List.dropLast_concat, List.tail_cons]
      have hsub' : (as ++ bs).Sublist (as ++ [x] ++ y :: bs) :=
        ((List.sublist_cons_self y bs).append_left as).trans hsub
      refine (h.sublist hsub').insert hbefore (fun b hmem => ?_)
        (Nat.add_pos_left (Nat.add_pos_left hpos _) _) ?_
      · have := hafter b hmem
        unfold Span.stop at hstop this ⊢
        simp only
        omega
      · rw [List.length_append, List.length_append, List.length_singleton, List.length_cons] at hroom
        rw [List.length_append]
        omega

theorem insertIdx_append (m : Span) : (as ++ bs).insertIdx as.length m = as ++ m :: bs := by
  induction as with
  | nil => rfl
  | cons a as ih => exact congrArg (a :: ·) ih

/-- The run at one place let go of, and others put where they belong. -/
theorem evict_append (m : Span) (j : ℕ) :
    ∃ as' bs', ((as ++ bs).eraseIdx j).insertIdx (if j < as.length then as.length - 1 else as.length) m =
        as' ++ m :: bs' ∧ (as ++ bs).eraseIdx j = as' ++ bs' ∧ as'.Sublist as ∧ bs'.Sublist bs := by
  by_cases hlt : j < as.length
  · refine ⟨as.eraseIdx j, bs, ?_, List.eraseIdx_append_of_lt_length hlt bs, List.eraseIdx_sublist as j,
      List.Sublist.refl bs⟩
    have hlen : as.length - 1 = (as.eraseIdx j).length := by rw [List.length_eraseIdx, if_pos hlt]
    rw [if_pos hlt, List.eraseIdx_append_of_lt_length hlt, hlen, insertIdx_append]
  · have hle := not_lt.1 hlt
    refine ⟨as, bs.eraseIdx (j - as.length), ?_, List.eraseIdx_append_of_length_le hle bs,
      List.Sublist.refl as, List.eraseIdx_sublist bs _⟩
    rw [if_neg hlt, List.eraseIdx_append_of_length_le hle, insertIdx_append]

end Around

/-- What `run_add` comes to. -/
inductive PutBack (s : State) (page count : ℕ) : State → Prop
  | none (h : count = 0) : PutBack s page count s
  | joined (h : 0 < count) (runs : List Span) (_ : Mem.joined s.runs page count = some runs) :
      PutBack s page count { s with runs := runs }
  | inserted (h : 0 < count) (hj : Mem.joined s.runs page count = Option.none)
      (hroom : s.runs.length ≠ maxRuns) :
      PutBack s page count { s with runs := s.runs.insertIdx (place s.runs page) ⟨page, count⟩ }
  | loosened (h : 0 < count) (hj : Mem.joined s.runs page count = Option.none)
      (hfull : s.runs.length = maxRuns) (hs : isSmallest s.runs page count = true) :
      PutBack s page count (loosen page count s)
  | evicted (h : 0 < count) (hj : Mem.joined s.runs page count = Option.none)
      (hfull : s.runs.length = maxRuns) (hs : isSmallest s.runs page count = false) (least : Span)
      (hl : s.runs[smallest s.runs]? = some least) :
      PutBack s page count { loosen least.first least.count s with
        runs := (s.runs.eraseIdx (smallest s.runs)).insertIdx
          (if smallest s.runs < place s.runs page then place s.runs page - 1 else place s.runs page)
          ⟨page, count⟩ }

theorem runAdd_putBack (s : State) (page count : ℕ) : PutBack s page count (runAdd s page count) := by
  unfold runAdd
  by_cases h0 : count = 0
  · rw [if_pos h0]
    exact .none h0
  have hpos := Nat.pos_of_ne_zero h0
  rw [if_neg h0]
  split
  · rename_i runs hj
    exact .joined hpos runs hj
  · rename_i hj
    dsimp only
    by_cases hfull : s.runs.length = maxRuns
    · rw [if_pos hfull]
      by_cases hs : isSmallest s.runs page count = true
      · rw [if_pos hs]
        exact .loosened hpos hj hfull hs
      rw [if_neg hs]
      have hlt := smallest_lt (List.ne_nil_of_length_pos (by rw [hfull]; decide))
      have hget := List.getElem?_eq_getElem hlt
      rw [getD_of_getElem? hget, loosen_runs]
      exact .evicted hpos hj hfull (by simpa using hs) _ hget
    · rw [if_neg hfull]
      exact .inserted hpos hj hfull

/-- **Pages put back keep the runs tidy**, where no run has them. -/
theorem runAdd_tidy {s : State} {page count : ℕ} (h : Tidy s.runs)
    (hfree : ∀ p, tally s.runs p + (⟨page, count⟩ : Span).holds p ≤ 1) :
    Tidy (runAdd s page count).runs := by
  rcases Nat.eq_zero_or_pos count with rfl | hpos
  · exact h
  obtain ⟨as, bs, hruns, hplace, ha, hb⟩ := h.spaced.around h.some_ (m := ⟨page, count⟩) hpos hfree
  have hplace' : as.length = place s.runs page := hplace
  obtain ⟨hjoin, hgap⟩ := joined_tidy (hruns ▸ h) (by rw [← hruns]; exact hplace') ha hb
  rw [← hruns] at hjoin hgap
  have hput := runAdd_putBack s page count
  generalize runAdd s page count = s' at hput ⊢
  cases hput with
  | none _ => exact h
  | joined _ runs hj => exact hjoin runs hj
  | inserted _ hj hroom =>
    obtain ⟨ha', hb'⟩ := hgap hj
    show Tidy (s.runs.insertIdx (place s.runs page) ⟨page, count⟩)
    rw [← hplace']
    rw [hruns] at h hroom ⊢
    rw [insertIdx_append]
    exact h.insert ha' hb' hpos (lt_of_le_of_ne h.room hroom)
  | loosened _ _ _ _ => rw [loosen_runs]; exact h
  | evicted _ hj hfull _ least hl =>
    obtain ⟨ha', hb'⟩ := hgap hj
    have hlt := (List.getElem?_eq_some_iff.1 hl).1
    dsimp only
    rw [← hplace']
    generalize smallest s.runs = j at hlt
    have hlen : (s.runs.eraseIdx j).length < maxRuns := by
      rw [List.length_eraseIdx, if_pos hlt, hfull]
      decide
    have hsub := List.eraseIdx_sublist s.runs j
    rw [hruns] at h hlt hlen hsub ⊢
    obtain ⟨as', bs', heq, herase, hsa, hsb⟩ := @evict_append as bs ⟨page, count⟩ j
    rw [herase] at hlen hsub
    rw [heq]
    exact (h.sublist hsub).insert (fun a hmem => ha' a (hsa.subset hmem))
      (fun b hmem => hb' b (hsb.subset hmem)) hpos hlen

/-! ### Taking -/

/-- A run cut down. -/
theorem keepFirst_tidy {runs : List Span} {i left : ℕ} {r : Span} (h : Tidy runs)
    (hr : runs[i]? = some r) (hleft : left ≤ r.count) : Tidy (keepFirst runs i left) := by
  unfold keepFirst
  rw [getD_of_getElem? hr]
  split_ifs with h0
  · exact h.sublist (List.eraseIdx_sublist runs i)
  · obtain ⟨hlt, rfl⟩ := List.getElem?_eq_some_iff.1 hr
    rw [List.set_eq_take_append_cons_drop, if_pos hlt]
    have hsplit : runs = runs.take i ++ runs[i] :: runs.drop (i + 1) := by
      rw [← List.drop_eq_getElem_cons hlt, List.take_append_drop]
    rw [hsplit] at h
    exact h.replace le_rfl (Nat.add_le_add_left hleft _) (Nat.pos_of_ne_zero h0)

theorem takeTop_tidy {s : State} {i count : ℕ} {r : Span} (h : Tidy s.runs)
    (hr : s.runs[i]? = some r) : Tidy (takeTop s i count).2.runs := by
  unfold takeTop
  simp only [getD_of_getElem? hr]
  exact keepFirst_tidy h hr (Nat.sub_le _ _)

/-- **A page taken out of its run** leaves the runs tidy. -/
theorem runTake_tidy {s : State} (h : Tidy s.runs) (page : ℕ) : Tidy (runTake s page).2.runs := by
  unfold runTake
  split
  · exact h
  · rename_i i hi
    obtain ⟨r, hget, -, -, hleft, hcut⟩ := runTake_cut hi
    simp only [getD_of_getElem? hget]
    refine runAdd_tidy (keepFirst_tidy h hget hleft) fun p => ?_
    have hp := hcut p
    have hle := h.spaced.tally_le p
    simp only
    omega

end BaxOS.Mem
