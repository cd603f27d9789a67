import BaxOS.Tuxpac.Versions

/-!
# What one pass through the index finds

`scan` gives `match` each line of the index with where it starts, and `match` keeps for each want of the
round the line that answers it best so far. A rank is a byte, of which `NONE` is the last value, and
versions are compared as far as `version_of` keeps them: what is left is the best answer where one has a
rank below `NONE` and no newer one is taken for the best for what is cut off (`scanMatch_findsBest_iff`).
-/

namespace BaxOS.Tuxpac
open Comparisons

/-! ### The index -/

def tab : UInt8 := 9
def newline : UInt8 := 10

/-- `LINE`. -/
def lineRoom : ℕ := 5120

/-- `scan`, at a byte of the index and in a line of it: the lines that end, each with where it starts. -/
def scanOn : List UInt8 → ℕ → ℕ → Text → List (ℕ × Text)
  | [], _, _, _ => []
  | c :: cs, at_, start, line =>
    if c ≠ newline then
      scanOn cs (at_ + 1) start (if line.length < lineRoom - 1 then line ++ [c] else line)
    else (start, line) :: scanOn cs (at_ + 1) (at_ + 1) []

/-- `scan`. -/
def scan (index : List UInt8) : List (ℕ × Text) := scanOn index 0 0 []

/-- The field so many tabs on. -/
def fieldAt : ℕ → Text → Text
  | 0, l => l.takeWhile (· ≠ tab)
  | n + 1, l => fieldAt n ((l.dropWhile (· ≠ tab)).drop 1)

/-- A line cut into its fields, up to a 0: `F_NAME`, `F_VER`, `F_DEPS` and `F_PROV`. -/
def lineOf (bytes : Text) : Line :=
  let l := bytes.takeWhile (· ≠ 0)
  ⟨fieldAt 0 l, fieldAt 1 l, fieldAt 6 l, fieldAt 7 l⟩

/-! ### A want and a line -/

/-- `struct want`. -/
structure Wanted where
  want : Want
  rank : ℕ
  off : ℕ
  ver : Text

/-- A want as `want` makes it. -/
def unmatched (x : Want) : Wanted := ⟨x, noRank, 0, []⟩

/-- `better`. -/
def betterAt (x : Wanted) (r at_ : ℕ) (l : Line) : Wanted :=
  let ver := l.ver.take (verRoom - 1)
  if r < x.rank ∨ 0 < vcmp ver x.ver then { x with rank := r, off := at_, ver } else x

/-- `match`'s loop over the alternatives from the one of rank `r` on: the first rank no worse than `rank`
that the line answers at, which ends it. -/
def answerAt (kind : Asked) (l : Line) (rank : ℕ) : List Text → ℕ → Option ℕ
  | [], _ => none
  | a :: as, r =>
    if rank < r then none
    else if a = l.name then some r
    else if kind ≠ .upgrade ∧ r + 1 ≤ rank ∧ listed l.prov a then some (r + 1)
    else answerAt kind l rank as (r + 2)

/-- `match`, of one want. -/
def matchWant (at_ : ℕ) (l : Line) (x : Wanted) : Wanted :=
  match answerAt x.want.kind l x.rank (alternatives x.want.text) 0 with
  | some r => betterAt x r at_ l
  | none => x

/-- `match`. -/
def matchAt (ws : List Wanted) (e : ℕ × Text) : List Wanted := ws.map (matchWant e.1 (lineOf e.2))

/-- `scan(match)`, of a round of wants. -/
def scanMatch (index : List UInt8) (round : List Want) : List Wanted :=
  (scan index).foldl matchAt (round.map unmatched)

/-! ### The best answer -/

/-- A line as an answer: how good, where, and its version. -/
structure Answer where
  rank : ℕ
  off : ℕ
  ver : Text

/-- A line answers at rank `2k` alternative `k` that is its name, and at `2k + 1` one that it provides. -/
def AnswersAt (kind : Asked) (l : Line) (as : List Text) (r : ℕ) : Prop :=
  ∃ k a, as[k]? = some a ∧
    (r = 2 * k ∧ a = l.name ∨ r = 2 * k + 1 ∧ kind ≠ .upgrade ∧ listed l.prov a = true)

/-- The answers the index has to a want. -/
def Answers (index : List UInt8) (x : Want) (a : Answer) : Prop :=
  ∃ e ∈ scan index, a.off = e.1 ∧ a.ver = (lineOf e.2).ver ∧
    AnswersAt x.kind (lineOf e.2) (alternatives x.text) a.rank

/-- An answer is as good as another: of a lower rank, or of the same and newer, or as new and no later in
the index. -/
def Answer.Leads (a b : Answer) : Prop :=
  a.rank < b.rank ∨ a.rank = b.rank ∧
    (0 < vcmp a.ver b.ver ∨ vcmp a.ver b.ver = 0 ∧ a.off ≤ b.off)

/-- The best answer of all. -/
def Best (index : List UInt8) (x : Want) (a : Answer) : Prop :=
  Answers index x a ∧ ∀ b, Answers index x b → a.Leads b

/-- What was found for a want is the best answer, and nothing where there is none. -/
def FindsBest (index : List UInt8) (w : Wanted) : Prop :=
  (w.rank = noRank ↔ ∀ a, ¬Answers index w.want a) ∧
    ∀ a, Best index w.want a → w.rank = a.rank ∧ w.off = a.off

/-- An answer, with as much of its version as `version_of` keeps. -/
def Answer.cut (a : Answer) : Answer := { a with ver := a.ver.take (verRoom - 1) }

/-- The best answer, if there is one, has a rank below `NONE`, and among the answers of that rank it is
still the best one when versions are cut. -/
def KeptWhole (index : List UInt8) (x : Want) : Prop :=
  ∀ a, Best index x a → a.rank < noRank ∧
    ∀ b, Answers index x b → b.rank = a.rank → a.cut.Leads b.cut

/-! ### Lines and their places -/

theorem scanOn_places (cs : List UInt8) {at_ start : ℕ} (line : Text) (h : start ≤ at_) :
    (∀ e ∈ scanOn cs at_ start line, start ≤ e.1) ∧
      (scanOn cs at_ start line).Pairwise fun e e' => e.1 < e'.1 := by
  induction cs generalizing at_ start line with
  | nil => exact ⟨fun e he => (nomatch he), List.Pairwise.nil⟩
  | cons c cs ih =>
    unfold scanOn
    split_ifs
    · exact ih _ (by omega)
    · exact ih _ (by omega)
    · obtain ⟨hle, hlt⟩ := ih [] (le_refl (at_ + 1))
      refine ⟨fun e he => ?_, List.pairwise_cons.2 ⟨fun e he => ?_, hlt⟩⟩
      · rcases List.mem_cons.1 he with rfl | he
        · exact le_rfl
        · have := hle e he
          omega
      · have := hle e he
        change start < e.1
        omega

/-! ### A line's rank -/

theorem rankOf_answersAt {kind : Asked} {l : Line} {as : List Text} {r r' : ℕ}
    (h : rankOf kind l as r = some r') : ∃ q, r' = r + q ∧ AnswersAt kind l as q := by
  induction as generalizing r with
  | nil => exact nomatch h
  | cons a as ih =>
    unfold rankOf at h
    split_ifs at h with hname hprov
    · exact ⟨0, (Option.some.inj h).symm, 0, a, rfl, .inl ⟨rfl, hname⟩⟩
    · exact ⟨1, (Option.some.inj h).symm, 0, a, rfl, .inr ⟨rfl, hprov.1, hprov.2⟩⟩
    · obtain ⟨q, rfl, k, b, hb, hq⟩ := ih h
      refine ⟨q + 2, by omega, k + 1, b, hb, ?_⟩
      exact hq.imp (fun hq => ⟨by omega, hq.2⟩) fun hq => ⟨by omega, hq.2⟩

/-- A line's rank is the least it answers at. -/
theorem rankOf_le {kind : Asked} {l : Line} {as : List Text} {q : ℕ} (r : ℕ)
    (h : AnswersAt kind l as q) : ∃ q' ≤ q, rankOf kind l as r = some (r + q') := by
  induction as generalizing r q with
  | nil => obtain ⟨k, a, ha, -⟩ := h; exact nomatch ha
  | cons a as ih =>
    obtain ⟨k, b, hb, hq⟩ := h
    unfold rankOf
    by_cases hname : a = l.name
    · rw [if_pos hname]
      exact ⟨0, Nat.zero_le q, rfl⟩
    · rw [if_neg hname]
      by_cases hprov : kind ≠ .upgrade ∧ listed l.prov a = true
      · rw [if_pos hprov]
        refine ⟨1, ?_, rfl⟩
        rcases hq with ⟨rfl, hb'⟩ | ⟨rfl, -⟩
        · cases k with
          | zero =>
            rw [List.getElem?_cons_zero] at hb
            exact absurd ((Option.some.inj hb).trans hb') hname
          | succ k => omega
        · omega
      · rw [if_neg hprov]
        cases k with
        | zero =>
          obtain rfl : a = b := Option.some.inj hb
          rcases hq with ⟨-, hb'⟩ | ⟨-, hb'⟩
          · exact absurd hb' hname
          · exact absurd hb' hprov
        | succ k =>
          have hlater : AnswersAt kind l as (q - 2) := by
            refine ⟨k, b, hb, ?_⟩
            exact hq.imp (fun hq => ⟨by omega, hq.2⟩) fun hq => ⟨by omega, hq.2⟩
          obtain ⟨q', hle, hrank⟩ := ih (r + 2) hlater
          have hge : 2 ≤ q := by rcases hq with ⟨h, -⟩ | ⟨h, -⟩ <;> omega
          exact ⟨q' + 2, by omega, by rw [hrank]; congr 1; omega⟩

/-- The loop finds a line's rank, where that is no worse than what was found. -/
theorem answerAt_eq (kind : Asked) (l : Line) (rank : ℕ) (as : List Text) (r : ℕ) :
    answerAt kind l rank as r = (rankOf kind l as r).filter (· ≤ rank) := by
  induction as generalizing r with
  | nil => rfl
  | cons a as ih =>
    unfold answerAt
    by_cases hr : rank < r
    · rw [if_pos hr]
      cases hrank : rankOf kind l (a :: as) r with
      | none => rfl
      | some r' =>
        have := rankOf_ge hrank
        rw [Option.filter_some, if_neg (by simpa using by omega)]
    · rw [if_neg hr]
      unfold rankOf
      by_cases hname : a = l.name
      · rw [if_pos hname, if_pos hname, Option.filter_some, if_pos (by simpa using by omega)]
      · rw [if_neg hname, if_neg hname]
        by_cases hprov : kind ≠ .upgrade ∧ listed l.prov a = true
        · rw [if_pos hprov, Option.filter_some]
          by_cases hr' : r + 1 ≤ rank
          · rw [if_pos ⟨hprov.1, hr', hprov.2⟩, if_pos (by simpa using hr')]
          · rw [if_neg (fun h => hr' h.2.1), if_neg (by simpa using hr'), ih]
            cases hrank : rankOf kind l as (r + 2) with
            | none => rfl
            | some r' =>
              have := rankOf_ge hrank
              rw [Option.filter_some, if_neg (by simpa using by omega)]
        · rw [if_neg (fun h => hprov ⟨h.1, h.2.2⟩), if_neg hprov, ih]

/-! ### What a pass finds -/

/-- An answer is better at a lower rank, and at the same rank in a newer version. -/
def Answer.key (a : Answer) : ℕᵒᵈ ×ₗ ℕ ×ₗ Lex (ℕ → ℤ) ×ₗ Lex (ℕ → ℤ) :=
  toLex (OrderDual.toDual a.rank, vkey a.ver)

/-- And where that is the same, earlier in the index. -/
def Answer.placedKey (a : Answer) : (ℕᵒᵈ ×ₗ ℕ ×ₗ Lex (ℕ → ℤ) ×ₗ Lex (ℕ → ℤ)) ×ₗ ℕᵒᵈ :=
  toLex (a.key, OrderDual.toDual a.off)

/-- What a want starts with. -/
def noAnswer : Answer := ⟨noRank, 0, []⟩

/-- The line at a place as an answer, at the rank it has. -/
def answerOf (x : Want) (e : ℕ × Text) : Option Answer :=
  (rankOf x.kind (lineOf e.2) (alternatives x.text) 0).map fun r => ⟨r, e.1, (lineOf e.2).ver⟩

/-- The answers `match` goes through, each line's at its rank and with its version cut. -/
def answersOn (index : List UInt8) (x : Want) : List Answer :=
  (scan index).filterMap fun e => (answerOf x e).map Answer.cut

theorem answerOf_cut {x : Want} {e : ℕ × Text} {a : Answer}
    (h : (answerOf x e).map Answer.cut = some a) :
    ∃ r, rankOf x.kind (lineOf e.2) (alternatives x.text) 0 = some r ∧
      a = ⟨r, e.1, (lineOf e.2).ver.take (verRoom - 1)⟩ := by
  unfold answerOf at h
  rw [Option.map_map] at h
  obtain ⟨r, hr, rfl⟩ := Option.map_eq_some_iff.1 h
  exact ⟨r, hr, rfl⟩

/-- A want for which an answer has been found. -/
def answered (x : Want) (a : Answer) : Wanted := ⟨x, a.rank, a.off, a.ver⟩

theorem matchWant_answered (x : Want) (e : ℕ × Text) (a : Answer) :
    matchWant e.1 (lineOf e.2) (answered x a) =
      answered x (((answerOf x e).map Answer.cut).elim a fun b => if a.key < b.key then b else a) := by
  unfold matchWant answerOf
  change (match answerAt x.kind (lineOf e.2) a.rank (alternatives x.text) 0 with
    | some r => betterAt (answered x a) r e.1 (lineOf e.2)
    | none => answered x a) = _
  rw [answerAt_eq]
  cases rankOf x.kind (lineOf e.2) (alternatives x.text) 0 with
  | none => rfl
  | some r =>
    rw [Option.filter_some]
    simp only [decide_eq_true_eq, Option.map_some, Option.elim_some]
    by_cases hr : r ≤ a.rank
    · rw [if_pos hr]
      change (if r < a.rank ∨ 0 < vcmp ((lineOf e.2).ver.take (verRoom - 1)) a.ver then
        answered x ⟨r, e.1, (lineOf e.2).ver.take (verRoom - 1)⟩ else answered x a) = _
      rw [if_congr (key_lt_iff a.ver ((lineOf e.2).ver.take (verRoom - 1)) hr).symm rfl rfl]
      exact (apply_ite (answered x) _ _ _).symm
    · rw [if_neg hr, if_neg]
      intro hk
      rcases Prod.Lex.toLex_lt_toLex.1 hk with hlt | ⟨heq, -⟩
      · exact hr (OrderDual.toDual_lt_toDual.1 hlt).le
      · exact hr (OrderDual.toDual_inj.1 heq).ge

/-- **`scan(match)` looks for each want's first greatest answer.** -/
theorem scanMatch_eq (index : List UInt8) (round : List Want) :
    scanMatch index round = round.map fun x =>
      answered x (greatest Answer.placedKey noAnswer (answersOn index x)) := by
  have hplaced : ∀ x, greatest Answer.key noAnswer (answersOn index x) =
      greatest Answer.placedKey noAnswer (answersOn index x) := fun x => by
    refine greatest_placed Answer.key Answer.off (List.pairwise_cons.2 ⟨fun _ _ => Nat.zero_le _, ?_⟩)
    refine List.Pairwise.filterMap _ (fun e e' hlt b hb b' hb' => ?_) (scanOn_places index [] le_rfl).2
    obtain ⟨r, hr, rfl⟩ := answerOf_cut hb
    obtain ⟨r', hr', rfl⟩ := answerOf_cut hb'
    exact hlt.le
  have hfold : ∀ (l : List (ℕ × Text)) (f : Want → Answer),
      l.foldl matchAt (round.map fun x => answered x (f x)) =
        round.map fun x => answered x (greatest Answer.key (f x)
          (l.filterMap fun e => (answerOf x e).map Answer.cut)) := by
    intro l
    induction l with
    | nil => exact fun f => rfl
    | cons e l ih =>
      intro f
      have hstep : matchAt (round.map fun x => answered x (f x)) e = round.map fun x =>
          answered x (((answerOf x e).map Answer.cut).elim (f x) fun b =>
            if (f x).key < b.key then b else f x) := by
        unfold matchAt
        rw [List.map_map]
        exact List.map_congr_left fun x _ => matchWant_answered x e (f x)
      rw [List.foldl_cons, hstep, ih]
      refine List.map_congr_left fun x _ => ?_
      rw [List.filterMap_cons]
      cases (answerOf x e).map Answer.cut with
      | none => rfl
      | some b => rfl
  unfold scanMatch
  rw [show round.map unmatched = round.map fun x => answered x noAnswer from rfl, hfold]
  exact List.map_congr_left fun x _ => congrArg (answered x) (hplaced x)

/-! ### The best of them -/

variable {index : List UInt8} {x : Want} {a b : Answer}

theorem leads_iff : a.Leads b ↔ b.placedKey ≤ a.placedKey := by
  unfold Answer.Leads Answer.placedKey Answer.key
  rw [Prod.Lex.toLex_le_toLex, Prod.Lex.toLex_lt_toLex, OrderDual.toDual_lt_toDual,
    OrderDual.toDual_le_toDual, (vcmp_keyed _ _).pos, (vcmp_keyed _ _).eq_zero_iff]
  constructor
  · rintro (hlt | ⟨heq, hlt | ⟨hver, hoff⟩⟩)
    · exact .inl (.inl hlt)
    · exact .inl (.inr ⟨congrArg OrderDual.toDual heq.symm, hlt⟩)
    · exact .inr ⟨by rw [heq, hver], hoff⟩
  · rintro ((hlt | ⟨heq, hlt⟩) | ⟨hkey, hoff⟩)
    · exact .inl hlt
    · exact .inr ⟨(OrderDual.toDual_inj.1 heq).symm, .inl hlt⟩
    · obtain ⟨hrank, hver⟩ := Prod.ext_iff.1 (toLex_inj.1 hkey)
      exact .inr ⟨(OrderDual.toDual_inj.1 hrank).symm, .inr ⟨hver.symm, hoff⟩⟩

/-- An answer is no better than the one its line gives at its rank. -/
theorem Answers.ranked (h : Answers index x a) : ∃ e ∈ scan index, ∃ b, answerOf x e = some b ∧
    b.rank ≤ a.rank ∧ b.off = a.off ∧ b.ver = a.ver := by
  obtain ⟨e, he, hoff, hver, hat⟩ := h
  obtain ⟨r, hle, hr⟩ := rankOf_le 0 hat
  refine ⟨e, he, ⟨r, e.1, (lineOf e.2).ver⟩, ?_, hle, hoff.symm, hver.symm⟩
  unfold answerOf
  rw [hr, Nat.zero_add]
  rfl

theorem answers_of_answerOf {e : ℕ × Text} (he : e ∈ scan index) (h : answerOf x e = some a) :
    Answers index x a := by
  obtain ⟨r, hr, rfl⟩ := Option.map_eq_some_iff.1 h
  obtain ⟨q, rfl, hq⟩ := rankOf_answersAt hr
  exact ⟨e, he, rfl, rfl, by rwa [Nat.zero_add]⟩

/-- Answers from one place are of one version. -/
theorem Answers.ver_eq (ha : Answers index x a) (hb : Answers index x b) (h : a.off = b.off) :
    a.ver = b.ver := by
  obtain ⟨e, he, hoff, hver, -⟩ := ha
  obtain ⟨e', he', hoff', hver', -⟩ := hb
  have heq : e = e' := by
    by_contra hne
    have hplaces : (scan index).Pairwise fun e e' => e.1 ≠ e'.1 :=
      (scanOn_places index [] le_rfl).2.imp fun hlt => hlt.ne
    have : Std.Symm fun e e' : ℕ × Text => e.1 ≠ e'.1 := ⟨fun _ _ hne => hne.symm⟩
    exact hplaces.forall he he' hne (by rw [← hoff, h, hoff'])
  rw [hver, hver', heq]

theorem exists_best (h : Answers index x a) : ∃ b, Best index x b := by
  obtain ⟨e, he, b, hb, -⟩ := h.ranked
  have hmem : b ∈ (scan index).filterMap (answerOf x) := List.mem_filterMap.2 ⟨e, he, hb⟩
  cases hl : (scan index).filterMap (answerOf x) with
  | nil => rw [hl] at hmem; exact nomatch hmem
  | cons y l =>
    obtain ⟨hin, hmax⟩ := greatest_spec Answer.placedKey y l
    rw [← hl] at hin hmax
    obtain ⟨e', he', hbest⟩ := List.mem_filterMap.1 hin
    refine ⟨_, answers_of_answerOf he' hbest, fun c hc => leads_iff.2 ?_⟩
    obtain ⟨e, he, d, hd, hrank, hoff, hver⟩ := hc.ranked
    refine le_trans (leads_iff.1 ?_) (hmax d (List.mem_filterMap.2 ⟨e, he, hd⟩))
    rcases hrank.lt_or_eq with hlt | heq
    · exact .inl hlt
    · exact .inr ⟨heq, .inr ⟨by rw [hver]; exact vcmp_keyed.self _, hoff.le⟩⟩

theorem cut_of_mem (h : a ∈ answersOn index x) : ∃ b, Answers index x b ∧ a = b.cut := by
  obtain ⟨e, he, ha⟩ := List.mem_filterMap.1 h
  obtain ⟨b, hb, rfl⟩ := Option.map_eq_some_iff.1 ha
  exact ⟨b, answers_of_answerOf he hb, rfl⟩

/-- What is found is the greatest of the answers with their versions cut, or nothing. -/
theorem greatest_answer (index : List UInt8) (x : Want) :
    let w := greatest Answer.placedKey noAnswer (answersOn index x)
    (w = noAnswer ∨ ∃ b, Answers index x b ∧ w = b.cut) ∧ noAnswer.placedKey ≤ w.placedKey ∧
      ∀ b, Answers index x b → b.cut.placedKey ≤ w.placedKey := by
  obtain ⟨hin, hmax⟩ := greatest_spec Answer.placedKey noAnswer (answersOn index x)
  refine ⟨(List.mem_cons.1 hin).imp id cut_of_mem, hmax _ List.mem_cons_self, fun b hb => ?_⟩
  obtain ⟨e, he, d, hd, hrank, hoff, hver⟩ := hb.ranked
  have hd' : d.cut ∈ answersOn index x :=
    List.mem_filterMap.2 ⟨e, he, Option.map_eq_some_iff.2 ⟨d, hd, rfl⟩⟩
  refine le_trans (leads_iff.1 ?_) (hmax _ (List.mem_cons_of_mem _ hd'))
  rcases hrank.lt_or_eq with hlt | heq
  · exact .inl hlt
  · refine .inr ⟨heq, .inr ⟨?_, hoff.le⟩⟩
    unfold Answer.cut
    rw [hver]
    exact vcmp_keyed.self _

/-- No answer found is the one of rank `NONE` at most. -/
theorem rank_le_of_key_le (h : a.placedKey ≤ b.placedKey) : b.rank ≤ a.rank :=
  (leads_iff.2 h).elim le_of_lt fun h => h.1.le

/-- The best answer is what is found, where it is kept. -/
theorem Best.found (h : Best index x a) (hkept : a.rank < noRank ∧
    ∀ b, Answers index x b → b.rank = a.rank → a.cut.Leads b.cut) :
    greatest Answer.placedKey noAnswer (answersOn index x) = a.cut := by
  obtain ⟨hw, -, hmax⟩ := greatest_answer index x
  have hle := hmax a h.1
  rcases hw with hw | ⟨b, hb, hw⟩
  · rw [hw] at hle
    exact absurd (rank_le_of_key_le hle) (Nat.not_le.2 hkept.1)
  · rw [hw] at hle ⊢
    have hrank : b.cut.rank ≤ a.cut.rank := rank_le_of_key_le hle
    have hrank' : b.rank = a.rank := le_antisymm hrank (rank_le_of_key_le (leads_iff.1 (h.2 b hb)))
    have hkey := hle.antisymm (leads_iff.1 (hkept.2 b hb hrank'))
    have hoff : a.off = b.off := OrderDual.toDual_inj.1 (Prod.ext_iff.1 (toLex_inj.1 hkey)).2
    unfold Answer.cut
    rw [hrank', hoff, h.1.ver_eq hb hoff]

/-- **What one pass finds for a want is the best answer exactly where that is kept.** -/
theorem findsBest_iff (index : List UInt8) (x : Want) :
    FindsBest index (answered x (greatest Answer.placedKey noAnswer (answersOn index x))) ↔
      KeptWhole index x := by
  obtain ⟨hw, hno, hmax⟩ := greatest_answer index x
  have hfound : KeptWhole index x → ∀ a, Best index x a →
      greatest Answer.placedKey noAnswer (answersOn index x) = a.cut :=
    fun h a ha => ha.found (h a ha)
  generalize greatest Answer.placedKey noAnswer (answersOn index x) = g at hw hno hmax hfound ⊢
  change (g.rank = noRank ↔ ∀ a, ¬Answers index x a) ∧
    (∀ a, Best index x a → g.rank = a.rank ∧ g.off = a.off) ↔ _
  constructor
  · rintro ⟨hnone, hbest⟩ a ha
    obtain ⟨hrank, hoff⟩ := hbest a ha
    have hne : a.rank ≠ noRank := fun hr => hnone.1 (hrank.trans hr) a ha.1
    have hle : g.rank ≤ noRank := rank_le_of_key_le hno
    refine ⟨lt_of_le_of_ne (hrank ▸ hle) hne, fun b hb _ => ?_⟩
    have hcut : g = a.cut := by
      rcases hw with rfl | ⟨c, hc, rfl⟩
      · exact absurd hrank.symm hne
      · change c.rank = a.rank at hrank
        change c.off = a.off at hoff
        unfold Answer.cut
        rw [hrank, hoff, hc.ver_eq ha.1 hoff]
    rw [← hcut]
    exact leads_iff.2 (hmax b hb)
  · intro h
    refine ⟨⟨fun hr a ha => ?_, fun hnone => ?_⟩, fun a ha => ?_⟩
    · obtain ⟨b, hb⟩ := exists_best ha
      rw [hfound h b hb] at hr
      exact (h b hb).1.ne hr
    · rcases hw with rfl | ⟨c, hc, -⟩
      · rfl
      · exact absurd hc (hnone c)
    · rw [hfound h a ha]
      exact ⟨rfl, rfl⟩

/-- **`match` finds the best answer to every want of a round exactly where it is kept:** where it has a
rank below `NONE` and leads the others of its rank with their versions cut. -/
theorem scanMatch_findsBest_iff (index : List UInt8) (round : List Want) :
    (∀ w ∈ scanMatch index round, FindsBest index w) ↔ ∀ x ∈ round, KeptWhole index x := by
  rw [scanMatch_eq]
  simp only [List.forall_mem_map, findsBest_iff]

/-- A want of no more than 127 alternatives, in an index of versions no longer than 39 characters. -/
theorem kept_of_short (hx : (alternatives x.text).length < 128)
    (hver : ∀ e ∈ scan index, (lineOf e.2).ver.length < verRoom) : KeptWhole index x := by
  have hcut : ∀ b, Answers index x b → b.cut = b := by
    rintro b ⟨e, he, -, hb, -⟩
    unfold Answer.cut
    rw [List.take_of_length_le]
    have := hver e he
    rw [hb]
    omega
  intro a ha
  refine ⟨?_, fun b hb _ => ?_⟩
  · obtain ⟨e, -, -, -, k, t, hk, hr⟩ := ha.1
    have := (List.getElem?_eq_some_iff.1 hk).1
    unfold noRank
    rcases hr with ⟨hr, -⟩ | ⟨hr, -⟩ <;> omega
  · rw [hcut a ha.1, hcut b hb]
    exact ha.2 b hb

/-- A package named only after 128 other names is not found. -/
theorem exists_not_findsBest :
    ∃ index round, ¬ ∀ w ∈ scanMatch index round, FindsBest index w := by
  let index := text "b\t1\n"
  let x : Want := ⟨(List.replicate 128 (text "a|")).flatten ++ text "b", .dep⟩
  refine ⟨index, [x], fun h => ?_⟩
  have hone : (scanMatch index [x]).map (fun w => (w.want, w.rank)) = [(x, noRank)] := by
    decide +kernel
  obtain ⟨w, hw, heq⟩ := List.mem_map.1 (hone ▸ List.mem_singleton_self (x, noRank))
  obtain ⟨hwant, hrank⟩ := Prod.mk.inj heq
  refine (h w hw).1.1 hrank ⟨256, 0, text "1"⟩ ?_
  rw [hwant]
  exact ⟨(0, text "b\t1"), by decide, rfl, by decide, 128, text "b", by decide,
    .inl ⟨rfl, by decide⟩⟩

end BaxOS.Tuxpac
