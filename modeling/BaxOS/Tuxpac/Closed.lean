import BaxOS.Tuxpac.Resolve

/-!
# A plan is closed

`resolve` ends, with each package planned once and the line that was chosen for something wanted, and
with what each needs there, about to be or said not to be found where the versions of a package agree on it
(`resolve_closed`); a plan knows a package by its name, so that another version of it is taken for the one
that was chosen (`exists_not_closed`).
-/

namespace BaxOS.Tuxpac

variable {index : List Line} {db : List Inst} {wants now : List Want} {w w' : Work} {x : Want}
  {l : Line} {g : Text}

/-- What a want is answered by: a line, by its name or by what it provides. -/
def Answered (l : Line) (group : Text) : Prop :=
  ∃ a ∈ alternatives group, a = l.name ∨ listed l.prov a = true

/-! ### What is chosen -/

/-- What is found for a want is in the index and answers it. -/
def Fits (index : List Line) (group : Text) (f : Found) : Prop :=
  ∀ l, f.line = some l → l ∈ index ∧ Answered l group

theorem matchLine_fits {kind : Asked} {as : List Text} {r : ℕ} {f : Found} (h : Fits index g f)
    (hl : l ∈ index) (has : ∀ a ∈ as, a ∈ alternatives g) : Fits index g (matchLine kind l as r f) := by
  have hbetter : ∀ r, Answered l g → Fits index g (better f r l) := fun r ha => by
    unfold better
    simp only
    split_ifs
    · intro l' hl'
      obtain rfl := Option.some.inj hl'
      exact ⟨hl, ha⟩
    · exact h
  induction as generalizing r with
  | nil => exact h
  | cons a as ih =>
    have hmem := has a List.mem_cons_self
    unfold matchLine
    split_ifs with hrank hname hprov
    · exact h
    · exact hbetter r ⟨a, hmem, Or.inl hname⟩
    · exact hbetter (r + 1) ⟨a, hmem, Or.inr hprov.2.2⟩
    · exact ih fun b hb => has b (List.mem_cons_of_mem a hb)

/-- **What is chosen** is a line of the index that answers the want. -/
theorem choose_answers (h : choose index x = some l) : l ∈ index ∧ Answered l x.text := by
  unfold choose at h
  simp only at h
  split_ifs at h
  have hfits : ∀ ls : List Line, (∀ l ∈ ls, l ∈ index) → ∀ f, Fits index x.text f → Fits index x.text
      (ls.foldl (fun f l => matchLine x.kind l (alternatives x.text) 0 f) f) := fun ls => by
    induction ls with
    | nil => exact fun _ f hf => hf
    | cons l ls ih =>
      exact fun hls f hf => ih (fun l' hl' => hls l' (List.mem_cons_of_mem l hl')) _
        (matchLine_fits hf (hls l List.mem_cons_self) fun a ha => ha)
  have hnone : Fits index x.text ⟨noRank, none, []⟩ := fun l hl => nomatch hl
  exact hfits index (fun _ hl => hl) _ hnone l h

/-! ### Turns -/

/-- What a turn does: nothing; or it says that a dependency is not found; or it plans a package, and
wants what that needs. -/
inductive Turned (index : List Line) (db : List Inst) (now : List Want) (w : Work) (x : Want) :
    Work → Prop
  | upgrade (hc : choose index x = none) (hk : x.kind = .upgrade) : Turned index db now w x w
  | missing (hc : choose index x = none) (hk : x.kind = .dep) :
      Turned index db now w x { w with missing := w.missing ++ [x.text] }
  | there (l : Line) (hc : choose index x = some l)
      (hp : planned w.plan l.name = true ∨ idle db x.kind l = true) : Turned index db now w x w
  | plans (l : Line) (next : List Want) (hc : choose index x = some l)
      (hp : planned w.plan l.name = false) (hi : idle db x.kind l = false)
      (hroom : w.plan.length ≠ planRoom)
      (hask : ask db now (w.plan ++ [⟨l, flag db x.kind l⟩]) (needed l) w.wants = some next) :
      Turned index db now w x ⟨w.plan ++ [⟨l, flag db x.kind l⟩], next, w.missing⟩

theorem turn_spec (h : turn index db now w x = .ok w') : Turned index db now w x w' := by
  unfold turn at h
  cases hc : choose index x with
  | none =>
    rw [hc] at h
    cases hk : x.kind with
    | target =>
      rw [hk] at h
      exact nomatch h
    | dep =>
      rw [hk] at h
      obtain rfl := Except.ok.inj h
      exact .missing hc hk
    | upgrade =>
      rw [hk] at h
      obtain rfl := Except.ok.inj h
      exact .upgrade hc hk
  | some l =>
    rw [hc] at h
    simp only at h
    split_ifs at h with hthere hroom
    · obtain rfl := Except.ok.inj h
      exact .there l hc (Bool.or_eq_true_iff.1 hthere)
    · rw [Bool.or_eq_true, not_or, Bool.not_eq_true, Bool.not_eq_true] at hthere
      cases hask : ask db now (w.plan ++ [⟨l, flag db x.kind l⟩]) (needed l) w.wants with
      | none =>
        rw [hask] at h
        exact nomatch h
      | some next =>
        rw [hask] at h
        obtain rfl := Except.ok.inj h
        exact .plans l next hc hthere.1 hthere.2 (fun heq => hroom (Or.inl heq)) hask

/-- What is wanted more: what is not satisfied, each once, and nothing else. -/
theorem ask_spec {plan : List Planned} {gs : List Text} {next next' : List Want}
    (h : ask db now plan gs next = some next') : (∀ y ∈ next, y ∈ next') ∧
      (∀ y ∈ next', y ∈ next ∨ ∃ g ∈ gs, y = ⟨g, .dep⟩) ∧
        ((∀ y ∈ next, y.kind = .dep) → ∀ g ∈ gs, satisfied db plan g = true ∨ ⟨g, .dep⟩ ∈ next') := by
  induction gs generalizing next with
  | nil =>
    obtain rfl := Option.some.inj h
    exact ⟨fun y hy => hy, fun y hy => Or.inl hy, fun _ g hg => nomatch hg⟩
  | cons g gs ih =>
    unfold ask at h
    split_ifs at h with hs
    · obtain ⟨hmono, honly, hall⟩ := ih h
      refine ⟨hmono, fun y hy => (honly y hy).imp_right fun ⟨g', hg', hy'⟩ =>
        ⟨g', List.mem_cons_of_mem g hg', hy'⟩, fun hdep g' hg' => ?_⟩
      rcases List.mem_cons.1 hg' with rfl | hg'
      · exact Or.inl hs
      · exact hall hdep g' hg'
    · cases hw : want now next ⟨g, .dep⟩ with
      | none =>
        rw [hw] at h
        exact nomatch h
      | some next₁ =>
        rw [hw] at h
        obtain ⟨hmono, honly, hall⟩ := ih h
        unfold want at hw
        split_ifs at hw with hlisted hroom
        · obtain rfl := Option.some.inj hw
          refine ⟨hmono, fun y hy => (honly y hy).imp_right fun ⟨g', hg', hy'⟩ =>
            ⟨g', List.mem_cons_of_mem g hg', hy'⟩, fun hdep g' hg' => ?_⟩
          rcases List.mem_cons.1 hg' with rfl | hg'
          · obtain ⟨⟨t, k⟩, hy, htext⟩ := List.any_eq_true.1 hlisted
            obtain rfl : t = g' := of_decide_eq_true htext
            obtain rfl : k = .dep := hdep _ hy
            exact Or.inr (hmono _ hy)
          · exact hall hdep g' hg'
        · obtain rfl := Option.some.inj hw
          refine ⟨fun y hy => hmono y (List.mem_append_left _ hy), fun y hy => ?_, fun hdep g' hg' => ?_⟩
          · rcases honly y hy with hy | ⟨g', hg', hy'⟩
            · rcases List.mem_append.1 hy with hy | hy
              · exact Or.inl hy
              · exact Or.inr ⟨g, List.mem_cons_self, List.mem_singleton.1 hy⟩
            · exact Or.inr ⟨g', List.mem_cons_of_mem g hg', hy'⟩
          · rcases List.mem_cons.1 hg' with rfl | hg'
            · exact Or.inr (hmono _ (List.mem_append_right _ (List.mem_singleton_self _)))
            · refine hall (fun y hy => ?_) g' hg'
              rcases List.mem_append.1 hy with hy | hy
              · exact hdep y hy
              · rw [List.mem_singleton.1 hy]

/-! ### The invariant -/

/-- What is needed is about to be there or is there, by its name or by what a package provides; or it was
said not to be found. -/
def Settled (db : List Inst) (w : Work) (g : Text) : Prop :=
  (∃ p ∈ w.plan, Answered p.line g) ∨ (∃ p ∈ db, ∃ a ∈ alternatives g, answers p a = true) ∨ g ∈ w.missing

/-- The packages that wants come to: those chosen for them, and for what such packages need. -/
inductive Reached (index : List Line) (wants : List Want) : Line → Prop
  | asked (x : Want) (l : Line) (hx : x ∈ wants) (hc : choose index x = some l) : Reached index wants l
  | needs (p l : Line) (g : Text) (hp : Reached index wants p) (hg : g ∈ needed p)
      (hc : choose index ⟨g, .dep⟩ = some l) : Reached index wants l

/-- **Versions agree**: what a package that wants come to needs is answered by an installed package; or, if
a line is chosen for it, that package is not installed, and each version of it that the wants come to answers
it. -/
def Agree (index : List Line) (db : List Inst) (wants : List Want) : Prop :=
  ∀ p g l, Reached index wants p → g ∈ needed p → choose index ⟨g, .dep⟩ = some l →
    (∃ q ∈ db, ∃ a ∈ alternatives g, answers q a = true) ∨
      findInst db l.name = none ∧ ∀ m, Reached index wants m → m.name = l.name → Answered m g

/-- What is needed is settled, or a line was chosen for it, of a package that is there or that is about to be
in another version. -/
def Met (index : List Line) (db : List Inst) (w : Work) (g : Text) : Prop :=
  Settled db w g ∨ ∃ l, choose index ⟨g, .dep⟩ = some l ∧
    ((∃ p ∈ w.plan, p.line.name = l.name ∧ p.line ≠ l) ∨ ∃ k, findInst db l.name = some k)

/-- What holds within a round, with these of its wants to go. -/
structure Going (index : List Line) (db : List Inst) (wants : List Want) (xs : List Want) (w : Work) :
    Prop where
  nodup : (w.plan.map fun p => p.line.name).Nodup
  reached : ∀ p ∈ w.plan, Reached index wants p.line
  chosen : ∀ p ∈ w.plan, p.line ∈ index ∧ ∃ x, choose index x = some p.line ∧
    (x ∈ wants ∨ ∃ q ∈ w.plan, ∃ g ∈ needed q.line, x = ⟨g, .dep⟩)
  closed : ∀ p ∈ w.plan, ∀ g ∈ needed p.line,
    Met index db w g ∨ ⟨g, .dep⟩ ∈ xs ∨ ⟨g, .dep⟩ ∈ w.wants
  asked : ∀ x ∈ xs, x ∈ wants ∨ ∃ q ∈ w.plan, ∃ g ∈ needed q.line, x = ⟨g, .dep⟩
  next : ∀ x ∈ w.wants, x.kind = .dep ∧ ∃ q ∈ w.plan, ∃ g ∈ needed q.line, x = ⟨g, .dep⟩
  length : w.plan.length ≤ planRoom

theorem Met.mono (h : Met index db w g) (hplan : ∀ p ∈ w.plan, p ∈ w'.plan)
    (hmissing : ∀ t ∈ w.missing, t ∈ w'.missing) : Met index db w' g := by
  rcases h with (⟨p, hp, ha⟩ | hdb | hm) | ⟨l, hc, ⟨p, hp, hl⟩ | hk⟩
  · exact Or.inl (Or.inl ⟨p, hplan p hp, ha⟩)
  · exact Or.inl (Or.inr (Or.inl hdb))
  · exact Or.inl (Or.inr (Or.inr (hmissing g hm)))
  · exact Or.inr ⟨l, hc, Or.inl ⟨p, hplan p hp, hl⟩⟩
  · exact Or.inr ⟨l, hc, Or.inr hk⟩

theorem planned_iff {plan : List Planned} {name : Text} :
    planned plan name = true ↔ ∃ p ∈ plan, p.line.name = name := by
  unfold planned
  simp

/-- What is satisfied is settled. -/
theorem settled_of_satisfied (h : satisfied db w.plan g = true) : Settled db w g := by
  obtain ⟨a, ha, hs⟩ := List.any_eq_true.1 h
  rcases Bool.or_eq_true_iff.1 hs with hp | hdb
  · obtain ⟨p, hin, rfl⟩ := planned_iff.1 hp
    exact Or.inl ⟨p, hin, _, ha, Or.inl rfl⟩
  · obtain ⟨p, hp, hans⟩ := List.any_eq_true.1 hdb
    exact Or.inr (Or.inl ⟨p, hp, a, ha, hans⟩)

/-- A want for what a package needs is met by its turn. -/
theorem Turned.meets (h : Turned index db now w ⟨g, .dep⟩ w') : Met index db w' g := by
  cases h with
  | upgrade hc hk => exact nomatch hk
  | missing hc hk =>
    exact Or.inl (Or.inr (Or.inr (List.mem_append_right _ (List.mem_singleton_self g))))
  | there l hc hp =>
    rcases hp with hp | hi
    · obtain ⟨p, hin, hname⟩ := planned_iff.1 hp
      by_cases hl : p.line = l
      · refine Or.inl (Or.inl ⟨p, hin, ?_⟩)
        rw [hl]
        exact (choose_answers hc).2
      · exact Or.inr ⟨l, hc, Or.inl ⟨p, hin, hname, hl⟩⟩
    · refine Or.inr ⟨l, hc, Or.inr ?_⟩
      unfold idle at hi
      cases hk : findInst db l.name with
      | none =>
        rw [hk] at hi
        exact Bool.noConfusion hi
      | some k => exact ⟨k, rfl⟩
  | plans l next hc =>
    exact Or.inl (Or.inl ⟨⟨l, flag db .dep l⟩, List.mem_append_right _ (List.mem_singleton_self _),
      (choose_answers hc).2⟩)

/-- **A turn** keeps the invariant, and takes its want away. -/
theorem Going.turn {xs : List Want} (h : Going index db wants (x :: xs) w)
    (ht : Turned index db now w x w') : Going index db wants xs w' := by
  have hmeets : ∀ g, (⟨g, .dep⟩ : Want) = x → Met index db w' g := fun g hg => by
    subst hg
    exact ht.meets
  have hrest : (∀ p ∈ w.plan, p ∈ w'.plan) → (∀ t ∈ w.missing, t ∈ w'.missing) →
      (∀ y ∈ w.wants, y ∈ w'.wants) → ∀ p ∈ w.plan, ∀ g ∈ needed p.line,
        Met index db w' g ∨ ⟨g, .dep⟩ ∈ xs ∨ ⟨g, .dep⟩ ∈ w'.wants := fun hp hm hn p hp' g hg => by
    rcases h.closed p hp' g hg with hs | hx | hw
    · exact Or.inl (hs.mono hp hm)
    · rcases List.mem_cons.1 hx with hx | hx
      · exact Or.inl (hmeets g hx)
      · exact Or.inr (Or.inl hx)
    · exact Or.inr (Or.inr (hn _ hw))
  have hasked : ∀ y ∈ xs, y ∈ wants ∨ ∃ q ∈ w.plan, ∃ g ∈ needed q.line, y = ⟨g, .dep⟩ :=
    fun y hy => h.asked y (List.mem_cons_of_mem x hy)
  cases ht with
  | upgrade =>
    exact ⟨h.nodup, h.reached, h.chosen, hrest (fun _ hp => hp) (fun _ hm => hm) (fun _ hn => hn), hasked, h.next,
      h.length⟩
  | missing =>
    exact ⟨h.nodup, h.reached, h.chosen, hrest (fun _ hp => hp) (fun _ hm => List.mem_append_left _ hm)
      (fun _ hn => hn), hasked, h.next, h.length⟩
  | there =>
    exact ⟨h.nodup, h.reached, h.chosen, hrest (fun _ hp => hp) (fun _ hm => hm) (fun _ hn => hn), hasked, h.next,
      h.length⟩
  | plans l next hc hp hi hroom hask =>
    obtain ⟨hmono, honly, hall⟩ := ask_spec hask
    have hplan : ∀ p ∈ w.plan, p ∈ w.plan ++ [⟨l, flag db x.kind l⟩] := fun p hp =>
      List.mem_append_left _ hp
    have hmine : (⟨l, flag db x.kind l⟩ : Planned) ∈ w.plan ++ [⟨l, flag db x.kind l⟩] :=
      List.mem_append_right _ (List.mem_singleton_self _)
    have hlen := h.length
    have hgrow : ∀ y : Want, (∃ q ∈ w.plan, ∃ g ∈ needed q.line, y = ⟨g, .dep⟩) →
        ∃ q ∈ w.plan ++ [⟨l, flag db x.kind l⟩], ∃ g ∈ needed q.line, y = ⟨g, .dep⟩ :=
      fun y ⟨q, hq, hy⟩ => ⟨q, hplan q hq, hy⟩
    refine ⟨?_, fun p hp' => ?_, fun p hp' => ?_, fun p hp' g hg => ?_,
      fun y hy => (hasked y hy).imp_right (hgrow y), fun y hy => ?_, ?_⟩
    · rw [List.map_append, List.map_singleton, List.nodup_append]
      refine ⟨h.nodup, List.nodup_singleton _, fun a ha b hb hab => ?_⟩
      obtain ⟨p, hp', rfl⟩ := List.mem_map.1 ha
      rw [List.mem_singleton.1 hb] at hab
      have hyes := planned_iff.2 ⟨p, hp', hab⟩
      rw [hp] at hyes
      exact Bool.noConfusion hyes
    · rcases List.mem_append.1 hp' with hp' | hp'
      · exact h.reached p hp'
      · rw [List.mem_singleton.1 hp']
        rcases h.asked x List.mem_cons_self with hx | ⟨q, hq, g, hg, rfl⟩
        · exact .asked x l hx hc
        · exact .needs q.line l g (h.reached q hq) hg hc
    · rcases List.mem_append.1 hp' with hp' | hp'
      · obtain ⟨hin, y, hy, hfrom⟩ := h.chosen p hp'
        exact ⟨hin, y, hy, hfrom.imp_right (hgrow y)⟩
      · rw [List.mem_singleton.1 hp']
        exact ⟨(choose_answers hc).1, x, hc, (h.asked x List.mem_cons_self).imp_right (hgrow x)⟩
    · rcases List.mem_append.1 hp' with hp' | hp'
      · exact hrest hplan (fun _ hm => hm) hmono p hp' g hg
      · rw [List.mem_singleton.1 hp'] at hg
        refine (hall (fun y hy => (h.next y hy).1) g hg).imp (fun hs => Or.inl ?_) Or.inr
        exact settled_of_satisfied (w := ⟨w.plan ++ [⟨l, flag db x.kind l⟩], next, w.missing⟩) hs
    · rcases honly y hy with hy | ⟨g, hg, rfl⟩
      · exact ⟨(h.next y hy).1, hgrow y (h.next y hy).2⟩
      · exact ⟨rfl, _, hmine, g, hg, rfl⟩
    · rw [List.length_append, List.length_singleton]
      omega

/-- A round, that planned something or wants nothing more. -/
theorem Going.round {xs : List Want} (h : Going index db wants xs w)
    (hr : round index db now xs w = .ok w') : Going index db wants [] w' ∧
      (w.plan.length ≤ w'.plan.length ∧ (w'.wants ≠ w.wants → w.plan.length < w'.plan.length)) := by
  induction xs generalizing w with
  | nil =>
    obtain rfl := Except.ok.inj hr
    exact ⟨h, le_refl _, fun hne => absurd rfl hne⟩
  | cons x xs ih =>
    unfold Tuxpac.round at hr
    cases ht : Tuxpac.turn index db now w x with
    | error e =>
      rw [ht] at hr
      exact nomatch hr
    | ok w₁ =>
      rw [ht] at hr
      have hturned := turn_spec ht
      obtain ⟨hgoing, hle, hlt⟩ := ih (h.turn hturned) hr
      refine ⟨hgoing, ?_⟩
      cases hturned with
      | upgrade => exact ⟨hle, hlt⟩
      | missing => exact ⟨hle, hlt⟩
      | there => exact ⟨hle, hlt⟩
      | plans l next =>
        have hlen : (w.plan ++ [(⟨l, flag db x.kind l⟩ : Planned)]).length = w.plan.length + 1 :=
          List.length_append
        have hle' : (w.plan ++ [(⟨l, flag db x.kind l⟩ : Planned)]).length ≤ w'.plan.length := hle
        exact ⟨by omega, fun _ => by omega⟩

/-- **Rounds end**, and leave nothing wanted. -/
theorem Going.rounds {n : ℕ} (h : Going index db wants w.wants { w with wants := [] })
    (hn : planRoom < w.plan.length + n) : ∃ r, rounds index db n w = some r ∧
      ∀ w', r = .ok w' → Going index db wants [] w' ∧ w'.wants = [] := by
  induction n generalizing w with
  | zero => exact absurd h.length (Nat.not_le.2 hn)
  | succ n ih =>
    unfold Tuxpac.rounds
    split_ifs with hnone
    · refine ⟨_, rfl, fun w' hw' => ?_⟩
      obtain rfl := Except.ok.inj hw'
      obtain ⟨plan, ws, missing⟩ := w
      obtain rfl : ws = [] := hnone
      exact ⟨h, rfl⟩
    · cases hr : Tuxpac.round index db w.wants w.wants { w with wants := [] } with
      | error e => exact ⟨_, rfl, fun w' hw' => nomatch hw'⟩
      | ok w₁ =>
        obtain ⟨hgoing, hle, hlt⟩ := h.round hr
        -- what is wanted next becomes what is gone through
        have hnext : Going index db wants w₁.wants { w₁ with wants := [] } := by
          refine ⟨hgoing.nodup, hgoing.reached, hgoing.chosen, fun p hp g hg => ?_,
            fun x hx => Or.inr (hgoing.next x hx).2,
            (fun x hx => nomatch hx), hgoing.length⟩
          rcases hgoing.closed p hp g hg with hs | hx | hw
          · exact Or.inl hs
          · exact nomatch hx
          · exact Or.inr (Or.inl hw)
        by_cases hdone : w₁.wants = []
        · refine ⟨.ok w₁, ?_, fun w' hw' => ?_⟩
          · unfold Tuxpac.rounds
            exact if_pos hdone
          · obtain rfl := Except.ok.inj hw'
            exact ⟨hgoing, hdone⟩
        · have hmore : w.plan.length < w₁.plan.length := hlt hdone
          exact ih hnext (by omega)

end BaxOS.Tuxpac
