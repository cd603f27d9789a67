import Mathlib.Data.List.Shortlex
import Mathlib.Data.List.Nodup

/-!
# Coming to nodes breadth first

Items lead to nodes, or to none, and a node has items of its own, which are come to after those there
were; a node is left out if one of its key was seen before. The nodes are seen in the order of their first
ways (`Walk.first`, `first_iff`): a way is the number of an item, then of one of the node's that leads to,
and so on, and a shorter way is before a longer one.
-/

namespace BreadthFirst

variable {ι α κ : Type*}

/-! ### Coming to a node -/

/-- What an item leads to has been seen. -/
def Spent (lead : ι → Option α) (key : α → κ) (seen : List α) (x : ι) : Prop :=
  ∀ a, lead x = some a → ∃ p ∈ seen, key p = key a

theorem Spent.mono {lead : ι → Option α} {key : α → κ} {seen seen' : List α} {x : ι}
    (h : Spent lead key seen x) (hsub : ∀ p ∈ seen, p ∈ seen') : Spent lead key seen' x :=
  fun a ha => (h a ha).imp fun _ hp => ⟨hsub _ hp.1, hp.2⟩

section Come

variable [DecidableEq κ] (lead : ι → Option α) (next : α → List ι) (key : α → κ)

/-- An item come to: the node it leads to is seen after those before, unless one of its key was, and its
items are to be come to after the others. -/
def come (s : List α × List ι) (x : ι) : List α × List ι :=
  match lead x with
  | none => s
  | some a => if s.1.any fun p => key p = key a then s else (s.1 ++ [a], s.2 ++ next a)

variable {lead next key} {s : List α × List ι} {x : ι}

variable (lead next key) in
/-- An item come to adds the node it leads to, or nothing. -/
theorem come_cases (s : List α × List ι) (x : ι) :
    (come lead next key s x = s ∧ Spent lead key s.1 x) ∨
      ∃ a, lead x = some a ∧ (∀ p ∈ s.1, key p ≠ key a) ∧
        come lead next key s x = (s.1 ++ [a], s.2 ++ next a) := by
  unfold come
  cases hl : lead x with
  | none =>
    refine Or.inl ⟨rfl, fun a ha => ?_⟩
    rw [hl] at ha
    cases ha
  | some a =>
    simp only
    split_ifs with hany
    · obtain ⟨p, hp, hkey⟩ := List.any_eq_true.1 hany
      refine Or.inl ⟨rfl, fun b hb => ?_⟩
      obtain rfl := Option.some.inj (hl.symm.trans hb)
      exact ⟨p, hp, of_decide_eq_true hkey⟩
    · exact Or.inr ⟨a, rfl, fun p hp hkey => hany (List.any_eq_true.2 ⟨p, hp, decide_eq_true hkey⟩), rfl⟩

/-- An item that is spent comes to nothing more. -/
theorem come_spent (h : Spent lead key s.1 x) : come lead next key s x = s := by
  rcases come_cases lead next key s x with ⟨hsame, -⟩ | ⟨a, ha, hnew, -⟩
  · exact hsame
  · obtain ⟨p, hp, hkey⟩ := h a ha
    exact absurd hkey (hnew p hp)

variable (lead next key) in
theorem come_grows (s : List α × List ι) (x : ι) : ∃ more, (come lead next key s x).1 = s.1 ++ more := by
  rcases come_cases lead next key s x with ⟨hsame, -⟩ | ⟨a, -, -, hcome⟩
  · exact ⟨[], by rw [hsame, List.append_nil]⟩
  · exact ⟨[a], by rw [hcome]⟩

/-- What an item came to is seen. -/
theorem spent_come (s : List α × List ι) (x : ι) : Spent lead key (come lead next key s x).1 x := by
  rcases come_cases lead next key s x with ⟨hsame, hspent⟩ | ⟨a, ha, -, hcome⟩
  · rw [hsame]
    exact hspent
  · rw [hcome]
    intro b hb
    obtain rfl := Option.some.inj (ha.symm.trans hb)
    exact ⟨a, List.mem_append_right _ (List.mem_singleton_self a), rfl⟩

variable (lead next key) in
theorem comes_grow (xs : List ι) (s : List α × List ι) :
    ∃ more, (xs.foldl (come lead next key) s).1 = s.1 ++ more := by
  induction xs generalizing s with
  | nil => exact ⟨[], (List.append_nil _).symm⟩
  | cons x xs ih =>
    obtain ⟨more, hmore⟩ := come_grows lead next key s x
    obtain ⟨more', hmore'⟩ := ih (come lead next key s x)
    exact ⟨more ++ more', by rw [List.foldl_cons, hmore', hmore, List.append_assoc]⟩

end Come

/-! ### Ways and their order -/

/-- A way is before another: it is shorter, or as long and the first number that differs is smaller. -/
abbrev Before (v w : List ℕ) : Prop := List.Shortlex (· < ·) v w

theorem Before.irrefl (w : List ℕ) : ¬Before w w := fun h => Std.Asymm.asymm _ _ h h

theorem Before.trans {u v w : List ℕ} (h : Before u v) (h' : Before v w) : Before u w := by
  rcases List.shortlex_def.1 h with hlt | ⟨heq, hlex⟩
  · rcases List.shortlex_def.1 h' with hlt' | ⟨heq', -⟩
    · exact .of_length_lt (hlt.trans hlt')
    · exact .of_length_lt (heq' ▸ hlt)
  · rcases List.shortlex_def.1 h' with hlt' | ⟨heq', hlex'⟩
    · exact .of_length_lt (heq ▸ hlt')
    · exact .of_lex (heq.trans heq') (List.lex_trans (fun h h' => Nat.lt_trans h h') hlex hlex')

theorem Before.length_le {v w : List ℕ} (h : Before v w) : v.length ≤ w.length := by
  rcases List.shortlex_def.1 h with hlt | ⟨heq, -⟩
  · exact hlt.le
  · exact heq.le

theorem Before.cases (v w : List ℕ) : Before v w ∨ v = w ∨ Before w v := by
  by_cases h : Before v w
  · exact Or.inl h
  · by_cases h' : Before w v
    · exact Or.inr (Or.inr h')
    · exact Or.inr (Or.inl (Std.Trichotomous.trichotomous v w h h'))

theorem Before.of_not {u v w : List ℕ} (h : Before u v) (h' : ¬Before w v) : Before u w := by
  rcases Before.cases v w with hlt | rfl | hgt
  · exact h.trans hlt
  · exact h
  · exact absurd hgt h'

/-- A way that goes on is after what it goes on from. -/
theorem before_append {v w : List ℕ} (h : v ≠ []) : Before w (w ++ v) :=
  .of_length_lt (by
    have := List.length_pos_of_ne_nil h
    rw [List.length_append]
    omega)

/-- A way before another stays before it, one number on. -/
theorem Before.snoc {v w : List ℕ} (h : Before v w) (i j : ℕ) : Before (v ++ [i]) (w ++ [j]) := by
  rcases List.shortlex_def.1 h with hlen | ⟨hlen, hlex⟩
  · exact .of_length_lt (by simpa using hlen)
  · refine .of_lex (by simpa using hlen) ?_
    clear h
    induction hlex with
    | nil => cases hlen
    | cons _ ih => exact .cons (ih (Nat.succ_injective hlen))
    | rel hlt => exact .rel hlt

theorem before_snoc_self {w : List ℕ} {i j : ℕ} (h : i < j) : Before (w ++ [i]) (w ++ [j]) :=
  ((List.shortlex_singleton_iff i j).2 h).append_left w

section Ways

variable (lead : ι → Option α) (next : α → List ι) (key : α → κ)

/-- The node a way leads to. -/
def target : List ι → List ℕ → Option α
  | _, [] => none
  | xs, i :: w => (xs[i]?.bind lead).bind fun a => if w = [] then some a else target (next a) w

/-- A way goes on only through nodes of whose key no way before led to another. -/
def Goes (xs : List ι) (w : List ℕ) : Prop :=
  ∀ u v a b, u <+: w → u ≠ w → Before v u → target lead next xs u = some a → target lead next xs v = some b →
    key b = key a → b ≠ a → ¬Goes xs v
  termination_by w.length
  decreasing_by
    rename_i hpre hne hbefore _ _ _ _
    have hle := hpre.length_le
    have hlt : u.length ≠ w.length := fun heq => hne (hpre.eq_of_length heq)
    have := hbefore.length_le
    omega

/-- The first way to a node of its key. -/
structure First (xs : List ι) (w : List ℕ) (a : α) : Prop where
  goes : Goes lead next key xs w
  leads : target lead next xs w = some a
  least : ∀ v b, Goes lead next key xs v → target lead next xs v = some b → key b = key a → ¬Before v w

variable {lead next key} {xs : List ι} {w : List ℕ} {a : α} {i j : ℕ}

theorem target_singleton : target lead next xs [i] = xs[i]?.bind lead := by
  unfold target
  simp

/-- A way that goes on by one number. -/
theorem target_snoc (h : w ≠ []) :
    target lead next xs (w ++ [j]) = (target lead next xs w).bind fun a => (next a)[j]?.bind lead := by
  induction w generalizing xs with
  | nil => exact absurd rfl h
  | cons i w ih =>
    rw [List.cons_append]
    unfold target
    cases xs[i]?.bind lead with
    | none => rfl
    | some a =>
      simp only [Option.bind_some]
      rw [if_neg (by simp)]
      by_cases hw : w = []
      · rw [if_pos hw, hw, List.nil_append, target_singleton]
        rfl
      · rw [if_neg hw]
        exact ih hw

end Ways

/-! ### What has been come to, and by which ways -/

section Walks

variable (lead : ι → Option α) (next : α → List ι) (key : α → κ)

/-- Where the item at the end of a way comes from: it is one of those at first, or of a node's that was
seen. -/
inductive Stems (xs : List ι) (seen : List (List ℕ × α)) : List ℕ → ι → Prop
  | root (i : ℕ) (x : ι) (h : xs[i]? = some x) : Stems xs seen [i] x
  | child (w : List ℕ) (a : α) (j : ℕ) (x : ι) (hin : (w, a) ∈ seen) (h : (next a)[j]? = some x) :
      Stems xs seen (w ++ [j]) x

/-- The nodes seen and the items to be come to, each with its way: they stand in the order of these; no two
nodes have a key in common; each comes from an item there was; and such an item is still to be come to, or
a node of the key it leads to was seen by a way that is not after it. -/
structure Walk (xs : List ι) (seen : List (List ℕ × α)) (queue : List (List ℕ × ι)) : Prop where
  ordered : (seen.map Prod.fst ++ queue.map Prod.fst).Pairwise Before
  keys : (seen.map fun s => key s.2).Nodup
  stems : ∀ s ∈ seen, ∃ x, Stems next xs seen s.1 x ∧ lead x = some s.2
  queued : ∀ q ∈ queue, Stems next xs seen q.1 q.2
  closed : ∀ w x, Stems next xs seen w x → (w, x) ∈ queue ∨
    ∀ a, lead x = some a → ∃ s ∈ seen, key s.2 = key a ∧ ¬Before w s.1

variable {lead next key} {xs : List ι} {seen seen' : List (List ℕ × α)} {queue queue' : List (List ℕ × ι)}
  {w : List ℕ} {x : ι} {a : α}

theorem Stems.mono (h : Stems next xs seen w x) (hsub : ∀ s ∈ seen, s ∈ seen') : Stems next xs seen' w x := by
  cases h with
  | root i x h => exact .root i x h
  | child w a j x hin h => exact .child w a j x (hsub _ hin) h

theorem Stems.ne_nil (h : Stems next xs seen w x) : w ≠ [] := by
  cases h <;> simp

/-- Items, each with the way that goes on to it. -/
def numbered (w : List ℕ) (xs : List ι) : List (List ℕ × ι) := xs.mapIdx fun j x => (w ++ [j], x)

theorem map_snd_numbered (w : List ℕ) (xs : List ι) : (numbered w xs).map Prod.snd = xs := by
  unfold numbered
  refine List.ext_getElem? fun j => ?_
  rw [List.getElem?_map, List.getElem?_mapIdx, Option.map_map]
  exact Option.map_id'

theorem mem_numbered {q : List ℕ × ι} : q ∈ numbered w xs ↔ ∃ j, xs[j]? = some q.2 ∧ q.1 = w ++ [j] := by
  unfold numbered
  rw [List.mem_iff_getElem?]
  refine exists_congr fun j => ?_
  rw [List.getElem?_mapIdx, Option.map_eq_some_iff]
  constructor
  · rintro ⟨x, hx, rfl⟩
    exact ⟨hx, rfl⟩
  · rintro ⟨hx, hw⟩
    exact ⟨q.2, hx, by rw [← hw]⟩

theorem pairwise_numbered (w : List ℕ) (xs : List ι) : ((numbered w xs).map Prod.fst).Pairwise Before := by
  unfold numbered
  rw [List.pairwise_iff_getElem]
  intro i j hi hj hlt
  simp only [List.getElem_map, List.getElem_mapIdx]
  exact before_snoc_self hlt

/-- Before anything is seen. -/
theorem Walk.start (xs : List ι) : Walk lead next key xs [] (numbered [] xs) where
  ordered := pairwise_numbered [] xs
  keys := List.nodup_nil
  stems s hs := nomatch hs
  queued q hq := by
    obtain ⟨j, hx, hw⟩ := mem_numbered.1 hq
    rw [hw]
    exact .root j q.2 hx
  closed w x h := by
    cases h with
    | root i x h => exact Or.inl (mem_numbered.2 ⟨i, h, rfl⟩)
    | child w a j x hin _ => cases hin

namespace Walk

theorem before_queue (h : Walk lead next key xs seen queue) {s : List ℕ × α} (hs : s ∈ seen) {q : List ℕ × ι}
    (hq : q ∈ queue) : Before s.1 q.1 :=
  (List.pairwise_append.1 h.ordered).2.2 _ (List.mem_map_of_mem hs) _ (List.mem_map_of_mem hq)

/-- **An item that is spent** is left out. -/
theorem spent (h : Walk lead next key xs seen ((w, x) :: queue))
    (hx : Spent lead key (seen.map Prod.snd) x) : Walk lead next key xs seen queue where
  ordered := h.ordered.sublist ((List.Sublist.refl _).append ((List.sublist_cons_self _ _).map _))
  keys := h.keys
  stems := h.stems
  queued q hq := h.queued q (List.mem_cons_of_mem _ hq)
  closed v y hv := by
    rcases h.closed v y hv with hin | hdone
    · rcases List.mem_cons.1 hin with heq | hin
      · obtain ⟨rfl, rfl⟩ := Prod.mk.inj heq
        refine Or.inr fun a ha => ?_
        obtain ⟨p, hp, hkey⟩ := hx a ha
        obtain ⟨s, hs, rfl⟩ := List.mem_map.1 hp
        exact ⟨s, hs, hkey, Std.Asymm.asymm _ _ (h.before_queue hs List.mem_cons_self)⟩
      · exact Or.inl hin
    · exact Or.inr hdone

/-- **An item that leads to a node not seen**: it is seen, and its items are queued. -/
theorem sees (h : Walk lead next key xs seen ((w, x) :: queue)) (ha : lead x = some a)
    (hnew : ∀ s ∈ seen, key s.2 ≠ key a) :
    Walk lead next key xs (seen ++ [(w, a)]) (queue ++ numbered w (next a)) := by
  have hmine : (w, a) ∈ seen ++ [(w, a)] := List.mem_append_right _ (List.mem_singleton_self _)
  have hsub : ∀ s ∈ seen, s ∈ seen ++ [(w, a)] := fun s hs => List.mem_append_left _ hs
  have hw : w ≠ [] := (h.queued (w, x) List.mem_cons_self).ne_nil
  have hon : ∀ j, Before w (w ++ [j]) := fun j => before_append (by simp)
  obtain ⟨hseen, hqueue, hcross⟩ := List.pairwise_append.1 h.ordered
  rw [List.map_cons, List.pairwise_cons] at hqueue
  refine ⟨?_, ?_, fun s hs => ?_, fun q hq => ?_, fun v y hv => ?_⟩
  · rw [List.map_append, List.map_append, List.map_singleton, List.append_assoc, List.singleton_append,
      ← List.cons_append, ← List.append_assoc, List.pairwise_append]
    refine ⟨h.ordered, pairwise_numbered w _, fun v hv u hu => ?_⟩
    obtain ⟨q, hq, rfl⟩ := List.mem_map.1 hu
    obtain ⟨j, -, hj⟩ := mem_numbered.1 hq
    rw [hj]
    rcases List.mem_append.1 hv with hv | hv
    · exact (hcross v hv w List.mem_cons_self).trans (hon j)
    · rcases List.mem_cons.1 hv with rfl | hv
      · exact hon j
      · obtain ⟨r, hr, rfl⟩ := List.mem_map.1 hv
        -- what was queued before goes on from what was seen before
        have hstem := h.queued r (List.mem_cons_of_mem _ hr)
        revert hstem
        generalize r.1 = v
        generalize r.2 = y
        intro hstem
        cases hstem with
        | root i y _ =>
          refine .of_length_lt ?_
          have := List.length_pos_of_ne_nil hw
          simp only [List.length_append, List.length_singleton]
          omega
        | child u b i y hin _ =>
          exact (hcross u (List.mem_map_of_mem hin) w List.mem_cons_self).snoc i j
  · rw [List.map_append, List.map_singleton, List.nodup_append]
    refine ⟨h.keys, List.nodup_singleton _, fun k hk k' hk' heq => ?_⟩
    obtain ⟨s, hs, rfl⟩ := List.mem_map.1 hk
    exact hnew s hs (heq.trans (List.mem_singleton.1 hk'))
  · rcases List.mem_append.1 hs with hs | hs
    · obtain ⟨y, hy, hlead⟩ := h.stems s hs
      exact ⟨y, hy.mono hsub, hlead⟩
    · rw [List.mem_singleton.1 hs]
      exact ⟨x, (h.queued (w, x) List.mem_cons_self).mono hsub, ha⟩
  · rcases List.mem_append.1 hq with hq | hq
    · exact (h.queued q (List.mem_cons_of_mem _ hq)).mono hsub
    · obtain ⟨j, hy, hj⟩ := mem_numbered.1 hq
      rw [hj]
      exact .child w a j q.2 hmine hy
  · have hold : Stems next xs seen v y → (v, y) ∈ queue ++ numbered w (next a) ∨
        ∀ b, lead y = some b → ∃ s ∈ seen ++ [(w, a)], key s.2 = key b ∧ ¬Before v s.1 := fun hv => by
      rcases h.closed v y hv with hin | hdone
      · rcases List.mem_cons.1 hin with heq | hin
        · obtain ⟨rfl, rfl⟩ := Prod.mk.inj heq
          refine Or.inr fun b hb => ⟨_, hmine, ?_, Before.irrefl _⟩
          rw [Option.some.inj (ha.symm.trans hb)]
        · exact Or.inl (List.mem_append_left _ hin)
      · exact Or.inr fun b hb => (hdone b hb).imp fun s hs => ⟨hsub s hs.1, hs.2⟩
    cases hv with
    | root i y hy => exact hold (.root i y hy)
    | child u b j y hin hy =>
      rcases List.mem_append.1 hin with hin | hin
      · exact hold (.child u b j y hin hy)
      · obtain ⟨rfl, rfl⟩ := Prod.mk.inj (List.mem_singleton.1 hin)
        exact Or.inl (List.mem_append_right _ (mem_numbered.2 ⟨j, hy, rfl⟩))

/-- **Items come to** in turn. -/
theorem comes [DecidableEq κ] (h : Walk lead next key xs seen (queue ++ queue')) : ∃ seen₁ queue₁,
    Walk lead next key xs seen₁ queue₁ ∧ (queue.map Prod.snd).foldl (come lead next key)
      (seen.map Prod.snd, queue'.map Prod.snd) = (seen₁.map Prod.snd, queue₁.map Prod.snd) := by
  induction queue generalizing seen queue' with
  | nil => exact ⟨seen, queue', h, rfl⟩
  | cons q queue ih =>
    obtain ⟨w, x⟩ := q
    rw [List.map_cons, List.foldl_cons]
    rcases come_cases lead next key (seen.map Prod.snd, queue'.map Prod.snd) x
      with ⟨hsame, hspent⟩ | ⟨a, ha, hnew, hcome⟩
    · rw [hsame]
      exact ih (h.spent hspent)
    · have hmore : Walk lead next key xs (seen ++ [(w, a)]) (queue ++ (queue' ++ numbered w (next a))) := by
        rw [← List.append_assoc]
        exact h.sees ha fun s hs => hnew s.2 (List.mem_map_of_mem hs)
      obtain ⟨seen₁, queue₁, hwalk, heq⟩ := ih hmore
      refine ⟨seen₁, queue₁, hwalk, ?_⟩
      rw [hcome, ← heq, List.map_append, List.map_append, map_snd_numbered]
      rfl

/-- Items that are all spent are left out. -/
theorem done (h : Walk lead next key xs seen queue)
    (hqueue : ∀ q ∈ queue, Spent lead key (seen.map Prod.snd) q.2) : Walk lead next key xs seen [] := by
  induction queue with
  | nil => exact h
  | cons q queue ih =>
    exact ih (h.spent (hqueue q List.mem_cons_self)) fun r hr => hqueue r (List.mem_cons_of_mem q hr)

/-! ### First ways -/

/-- A node that was seen is the one its way leads to, and what the way goes through was seen by it. -/
theorem leads_through (h : Walk lead next key xs seen queue) : ∀ (n : ℕ) (w : List ℕ) (a : α), w.length ≤ n →
    (w, a) ∈ seen → target lead next xs w = some a ∧ ∀ u, u <+: w → u ≠ [] → ∃ b, (u, b) ∈ seen := by
  intro n
  induction n with
  | zero =>
    intro w a hlen hin
    obtain ⟨x, hx, -⟩ := h.stems _ hin
    exact absurd (List.length_eq_zero_iff.1 (Nat.le_zero.1 hlen)) hx.ne_nil
  | succ n ih =>
    intro w a hlen hin
    obtain ⟨x, hx, ha⟩ := h.stems _ hin
    simp only at hx ha
    cases hx with
    | root i x hi =>
      refine ⟨by rw [target_singleton, hi]; exact ha, fun u hu hne => ⟨a, ?_⟩⟩
      rcases List.prefix_cons_iff.1 hu with rfl | ⟨v, rfl, hv⟩
      · exact absurd rfl hne
      · rwa [List.prefix_nil.1 hv]
    | child w b j x hb hj =>
      rw [List.length_append, List.length_singleton] at hlen
      obtain ⟨htarget, hthrough⟩ := ih w b (by omega) hb
      have hw : w ≠ [] := by
        obtain ⟨y, hy, -⟩ := h.stems _ hb
        exact hy.ne_nil
      refine ⟨?_, fun u hu hne => ?_⟩
      · rw [target_snoc hw, htarget, Option.bind_some, hj]
        exact ha
      · rcases List.prefix_concat_iff.1 hu with rfl | hu
        · exact ⟨a, hin⟩
        · exact hthrough u hu hne

theorem unique (h : Walk lead next key xs seen queue) {s t : List ℕ × α} (hs : s ∈ seen) (ht : t ∈ seen)
    (hkey : key s.2 = key t.2) : s = t := List.inj_on_of_nodup_map h.keys hs ht hkey

/-- What was seen was seen by a way that goes on, and a node that such a way leads to, before all that is
still queued, has its key seen by a way that is not after it. -/
theorem goes_and_seen (h : Walk lead next key xs seen queue) : ∀ n : ℕ,
    (∀ w a, w.length ≤ n → (w, a) ∈ seen → Goes lead next key xs w) ∧
      ∀ v b, v.length ≤ n → Goes lead next key xs v → target lead next xs v = some b →
        (∀ q ∈ queue, Before v q.1) → ∃ s ∈ seen, key s.2 = key b ∧ ¬Before v s.1 := by
  intro n
  induction n with
  | zero =>
    constructor
    · intro w a hlen hin
      obtain ⟨x, hx, -⟩ := h.stems _ hin
      exact absurd (List.length_eq_zero_iff.1 (Nat.le_zero.1 hlen)) hx.ne_nil
    · intro v b hlen _ htarget
      rw [List.length_eq_zero_iff.1 (Nat.le_zero.1 hlen)] at htarget
      cases htarget
  | succ n ih =>
    obtain ⟨hgoes, hseen⟩ := ih
    constructor
    · intro w a hlen hin
      unfold Goes
      intro u v c b hpre hne hbefore hu hv hkey hdiff hv'
      have hu0 : u ≠ [] := by
        rintro rfl
        cases hu
      have hulen : u.length < w.length :=
        lt_of_le_of_ne hpre.length_le fun heq => hne (hpre.eq_of_length heq)
      have hvlen := hbefore.length_le
      obtain ⟨c', hc'⟩ := (h.leads_through _ w a le_rfl hin).2 u hpre hu0
      obtain rfl : c' = c :=
        Option.some.inj ((h.leads_through _ u c' le_rfl hc').1.symm.trans hu)
      obtain ⟨s, hs, hkeys, hnot⟩ := hseen v b (by omega) hv' hv fun q hq =>
        hbefore.trans (h.before_queue hc' hq)
      obtain rfl := h.unique hs hc' (hkeys.trans hkey)
      exact hnot hbefore
    · intro v b hlen hv htarget hqueue
      rcases List.eq_nil_or_concat v with rfl | ⟨u, j, rfl⟩
      · cases htarget
      rw [List.concat_eq_append] at *
      -- the item the way ends with is there, if what comes before was seen by its own first way
      have hitem : ∀ w x, Stems next xs seen w x → lead x = some b → ¬Before (u ++ [j]) w →
          ∃ s ∈ seen, key s.2 = key b ∧ ¬Before (u ++ [j]) s.1 := by
        intro w x hstem hlead hle
        rcases h.closed w x hstem with hin | hdone
        · exact absurd (hqueue _ hin) hle
        · obtain ⟨s, hs, hkey, hnot⟩ := hdone b hlead
          exact ⟨s, hs, hkey, fun hlt => hle (hlt.of_not hnot)⟩
      by_cases hu0 : u = []
      · subst hu0
        rw [List.nil_append, target_singleton] at htarget
        obtain ⟨x, hx, hlead⟩ := Option.bind_eq_some_iff.1 htarget
        exact hitem [j] x (.root j x hx) hlead (Before.irrefl _)
      · rw [target_snoc hu0] at htarget
        obtain ⟨a, hu, hx⟩ := Option.bind_eq_some_iff.1 htarget
        obtain ⟨x, hx, hlead⟩ := Option.bind_eq_some_iff.1 hx
        have hlong : Before u (u ++ [j]) := before_append (by simp)
        rw [List.length_append, List.length_singleton] at hlen
        have hpre : u <+: u ++ [j] := List.prefix_append u [j]
        have hgoes' : Goes lead next key xs u := by
          unfold Goes at hv ⊢
          exact fun u' v' c d hpre' hne' => hv u' v' c d (hpre'.trans hpre) (by
            rintro rfl
            have := hpre'.length_le
            simp at this)
        obtain ⟨⟨w, a'⟩, hin, hkey, hnot⟩ := hseen u a (by omega) hgoes' hu fun q hq =>
          hlong.trans (hqueue q hq)
        have hw := (h.leads_through _ w a' le_rfl hin).1
        have hsame : a' = a := by
          rcases Before.cases u w with hlt | rfl | hgt
          · exact absurd hlt hnot
          · exact Option.some.inj (hw.symm.trans hu)
          · by_contra hdiff
            unfold Goes at hv
            exact hv u w a a' hpre (by simp) hgt hu hw hkey hdiff
              (hgoes w a' (by have := hgt.length_le; omega) hin)
        subst hsame
        refine hitem (w ++ [j]) x (.child w a' j x hin hx) hlead fun hlt => ?_
        rcases Before.cases u w with hlt' | rfl | hgt
        · exact hnot hlt'
        · exact Before.irrefl _ hlt
        · exact Std.Asymm.asymm _ _ hlt (hgt.snoc j j)

/-- **A node is seen by the first way to a node of its key.** -/
theorem first (h : Walk lead next key xs seen queue) (hin : (w, a) ∈ seen) : First lead next key xs w a where
  goes := (h.goes_and_seen w.length).1 w a le_rfl hin
  leads := (h.leads_through _ w a le_rfl hin).1
  least v b hv htarget hkey hbefore := by
    obtain ⟨s, hs, hkeys, hnot⟩ := (h.goes_and_seen v.length).2 v b le_rfl hv htarget fun q hq =>
      hbefore.trans (h.before_queue hin hq)
    obtain rfl := h.unique hs hin (hkeys.trans hkey)
    exact hnot hbefore

/-- **Where nothing is queued any more**, what was seen is all that first ways lead to. -/
theorem first_iff (h : Walk lead next key xs seen []) : First lead next key xs w a ↔ (w, a) ∈ seen := by
  refine ⟨fun hfirst => ?_, h.first⟩
  obtain ⟨⟨v, b⟩, hin, hkey, hnot⟩ := (h.goes_and_seen w.length).2 w a le_rfl hfirst.goes hfirst.leads
    fun q hq => nomatch hq
  have hv := h.first hin
  have hnot' := hfirst.least v b hv.goes hv.leads hkey
  rcases Before.cases w v with hlt | rfl | hgt
  · exact absurd hlt hnot
  · obtain rfl := Option.some.inj (hv.leads.symm.trans hfirst.leads)
    exact hin
  · exact absurd hgt hnot'

end Walk

end Walks

end BreadthFirst
