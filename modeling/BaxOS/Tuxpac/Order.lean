import BaxOS.Lib.BreadthFirst
import BaxOS.Tuxpac.Closed

/-!
# The order packages are installed in

A plan is installed from its end, so that what is depended on goes in first if it was planned last. It
is planned when it is first come upon, breadth first, which is after one thing that depends on it and may be
before another (`exists_not_sorted`). `resolve_sorted_iff` says which graphs of dependencies go well: the
first way to each package is before the first way to each package it depends on.
-/

namespace BaxOS.Tuxpac
open BreadthFirst

variable {index : List Line} {db : List Inst} {wants now : List Want} {w w' : Work} {x : Want} {l : Line}
  {L S : List Line} {plan : List Planned}

/-- Package `q` answers one of package `p`'s dependencies. -/
def DependsOn (p q : Line) : Prop := ∃ g ∈ groups p.deps, Answered q g

/-- Each package of a list comes after what it depends on. -/
def Follows (L : List Line) : Prop :=
  ∀ (i j : ℕ) (p q : Line), L[i]? = some p → L[j]? = some q → DependsOn p q → j < i

/-- Packages, in the order they were planned in, are unpacked and then configured, all of them, each
after what it depends on. -/
def Sorted (db : List Inst) (L : List Line) : Prop :=
  Follows (unpacks L) ∧ configures db 0 (unpacks L) = unpacks L

/-! ### The graph of dependencies -/

/-- What a package needs and no installed one answers. -/
def lacks (db : List Inst) (l : Line) : List Want :=
  ((needed l).filter fun g => !(alternatives g).any fun a => db.any fun p => answers p a).map fun g =>
    ⟨g, .dep⟩

/-- The package a want leads to. -/
def leads (index : List Line) (db : List Inst) (x : Want) : Option Line :=
  (choose index x).filter fun l => !idle db x.kind l

/-- **The first way to a package**: from something wanted, by the dependencies that packages lack, through
the first version of each that is come to. A way is the number of a want, then of a dependency, and so on;
of two ways the shorter is before, or of as long ones that whose first number that differs is smaller. -/
abbrev FirstWay (index : List Line) (db : List Inst) (wants : List Want) : List ℕ → Line → Prop :=
  First (leads index db) (lacks db) Line.name wants

/-- **In order**: the first way to a package is before the first way to any that it depends on. -/
def Ordered (index : List Line) (db : List Inst) (wants : List Want) : Prop :=
  ∀ v p w q, FirstWay index db wants v p → FirstWay index db wants w q → DependsOn p q → Before v w

/-- **There is room to note each package**, besides any that are come to after it. -/
def RoomToNote (index : List Line) (db : List Inst) (wants : List Want) : Prop :=
  ∀ v p, FirstWay index db wants v p → ∀ ls : List Line, ls.Nodup →
    (∀ l ∈ ls, ∃ w, FirstWay index db wants w l ∧ Before v w) →
      (ls.map (noted db)).sum + p.name.length + verRoom + 4 < unpackedRoom

/-! ### What depends comes first -/

/-- Each package of a list comes before what it depends on. -/
def Leading (L : List Line) : Prop :=
  ∀ (i j : ℕ) (p q : Line), L[i]? = some p → L[j]? = some q → DependsOn p q → i < j

theorem follows_iff : Follows (unpacks L) ↔ Leading L := by
  have hrev : ∀ i p, L[i]? = some p → L.reverse[L.length - 1 - i]? = some p := fun i p hp => by
    have hlt := (List.getElem?_eq_some_iff.1 hp).1
    rw [List.getElem?_reverse (by omega), show L.length - 1 - (L.length - 1 - i) = i by omega, hp]
  constructor
  · intro h i j p q hp hq hd
    have hlt := (List.getElem?_eq_some_iff.1 hp).1
    have hlt' := (List.getElem?_eq_some_iff.1 hq).1
    have hback := h _ _ p q (hrev i p hp) (hrev j q hq) hd
    omega
  · intro h i j p q hp hq hd
    have hlt := (List.getElem?_eq_some_iff.1 hp).1
    have hlt' := (List.getElem?_eq_some_iff.1 hq).1
    unfold unpacks at hp hq hlt hlt'
    rw [List.length_reverse] at hlt hlt'
    rw [List.getElem?_reverse hlt] at hp
    rw [List.getElem?_reverse hlt'] at hq
    have hback := h _ _ p q hp hq hd
    omega

theorem Leading.left (h : Leading (L ++ S)) : Leading L := fun i j p q hp hq hd => by
  have hlt := (List.getElem?_eq_some_iff.1 hp).1
  have hlt' := (List.getElem?_eq_some_iff.1 hq).1
  exact h i j p q (by rw [List.getElem?_append_left hlt, hp])
    (by rw [List.getElem?_append_left hlt', hq]) hd

/-- A package that depends on something planned before, or on itself, has no place. -/
theorem not_leading {q : Line} (hq : q ∈ L ++ [l]) (hd : DependsOn l q) : ¬Leading (L ++ [l]) := by
  intro h
  obtain ⟨j, hj⟩ := List.getElem?_of_mem hq
  have hlt := (List.getElem?_eq_some_iff.1 hj).1
  rw [List.length_append, List.length_singleton] at hlt
  have hback := h L.length j l q (by simp) hj hd
  omega

/-! ### Wants left out -/

/-- The first wants are the second, but for some that are among the ones before or have been left out
for good. -/
inductive Thin (out : Want → Prop) : List Want → List Want → Prop
  | nil : Thin out [] []
  | keep {xs ys} (y : Want) : Thin out xs ys → Thin out (xs ++ [y]) (ys ++ [y])
  | drop {xs ys} (y : Want) : Thin out xs ys → y ∈ xs ∨ out y → Thin out xs (ys ++ [y])

theorem Thin.mono {out out' : Want → Prop} {xs ys : List Want} (h : Thin out xs ys)
    (hout : ∀ y, out y → out' y) : Thin out' xs ys := by
  induction h with
  | nil => exact .nil
  | keep y _ ih => exact .keep y ih
  | drop y _ hy ih => exact .drop y ih (hy.imp_right (hout y))

theorem Thin.refl {out : Want → Prop} (xs : List Want) : Thin out xs xs := by
  induction xs using List.reverseRecOn with
  | nil => exact .nil
  | append_singleton xs x ih => exact .keep x ih

/-- Wants all left out are all spent. -/
theorem Thin.all_out {out : Want → Prop} {xs ys : List Want} (h : Thin out xs ys) (hxs : xs = []) :
    ∀ y ∈ ys, out y := by
  induction h with
  | nil => exact fun y hy => nomatch hy
  | keep y _ _ => exact absurd hxs (by simp)
  | drop y _ hy ih =>
    subst hxs
    intro z hz
    rcases List.mem_append.1 hz with hz | hz
    · exact ih rfl z hz
    · rw [List.mem_singleton.1 hz]
      exact hy.resolve_left (fun hin => nomatch hin)

/-! ### A plan and what wants come to -/

/-- A want come to. -/
abbrev comeTo (index : List Line) (db : List Inst) : List Line × List Want → Want → List Line × List Want :=
  come (leads index db) (lacks db) Line.name

/-- The package a want leads to, if to one, has been seen. -/
abbrev SpentOn (index : List Line) (db : List Inst) : List Line → Want → Prop :=
  Spent (leads index db) Line.name

/-- What is found for a want of one name `a` is found by that name, if by a name. -/
def Named (a : Text) (f : Found) : Prop := f.rank = 0 → ∃ l, f.line = some l ∧ l.name = a

theorem matchLine_named (kind : Asked) (l : Line) {a : Text} {f : Found} (h : Named a f) :
    Named a (matchLine kind l [a] 0 f) ∧ (f.rank = 0 ∨ l.name = a → (matchLine kind l [a] 0 f).rank = 0) := by
  unfold matchLine
  rw [if_neg (by omega)]
  by_cases hn : a = l.name
  · rw [if_pos hn]
    unfold better
    simp only
    split_ifs with hb
    · exact ⟨fun _ => ⟨l, rfl, hn.symm⟩, fun _ => rfl⟩
    · exact ⟨h, fun _ => by omega⟩
  · rw [if_neg hn]
    by_cases hp : kind ≠ .upgrade ∧ 0 + 1 ≤ f.rank ∧ listed l.prov a = true
    · -- by what it provides, only while nothing was found by name
      rw [if_pos hp]
      unfold better
      simp only
      split_ifs with hb
      · refine ⟨(fun h0 => absurd h0 one_ne_zero), fun h0 => ?_⟩
        rcases h0 with h0 | h0
        · omega
        · exact absurd h0.symm hn
      · exact ⟨h, fun h0 => h0.resolve_right fun h0 => hn h0.symm⟩
    · rw [if_neg hp]
      exact ⟨h, fun h0 => h0.resolve_right fun h0 => hn h0.symm⟩

/-- A want of one name, of a line of the index, leads to one of that name. -/
theorem choose_named {a : Text} (hx : alternatives x.text = [a]) (hl : l ∈ index) (hname : l.name = a) :
    ∃ l', choose index x = some l' ∧ l'.name = a := by
  have hall : ∀ (ls : List Line) (f : Found), Named a f →
      Named a (ls.foldl (fun f l => matchLine x.kind l [a] 0 f) f) ∧
        (f.rank = 0 ∨ l ∈ ls → (ls.foldl (fun f l => matchLine x.kind l [a] 0 f) f).rank = 0) := fun ls => by
    induction ls with
    | nil => exact fun f hf => ⟨hf, fun h0 => h0.resolve_right (fun hin => nomatch hin)⟩
    | cons m ls ih =>
      intro f hf
      have hturn := matchLine_named x.kind m hf
      refine ⟨(ih _ hturn.1).1, fun h0 => (ih _ hturn.1).2 ?_⟩
      rcases h0 with h0 | hin
      · exact Or.inl (hturn.2 (Or.inl h0))
      · rcases List.mem_cons.1 hin with rfl | hin
        · exact Or.inl (hturn.2 (Or.inr hname))
        · exact Or.inr hin
  obtain ⟨hnamed, h0⟩ := hall index ⟨noRank, none, []⟩ (fun h0 => nomatch h0)
  have hzero := h0 (Or.inr hl)
  obtain ⟨l', hl', hname'⟩ := hnamed hzero
  refine ⟨l', ?_, hname'⟩
  unfold choose
  simp only
  rw [hx, hzero, if_neg (show ¬0 = noRank by decide), hl']

/-- The lines of a plan. -/
def lines (plan : List Planned) : List Line := plan.map Planned.line

theorem planned_lines {name : Text} : planned plan name = true ↔ ∃ p ∈ lines plan, p.name = name := by
  rw [planned_iff]
  unfold lines
  simp

/-- A plan in which each package may still come before what it depends on takes in no want that a
planned package answers, but for what `implied` says; a want for that is spent. -/
theorem spent_of_satisfied {g : Text} (hindex : ∀ p ∈ lines plan, p ∈ index)
    (hlast : lines plan = L ++ [l]) (hlead : Leading (lines plan)) (hg : g ∈ needed l)
    (hs : satisfied db plan g = true) (hdb : ((alternatives g).any fun a => db.any fun p => answers p a) = false) :
    SpentOn index db (lines plan) ⟨g, .dep⟩ := by
  obtain ⟨a, ha, hor⟩ := List.any_eq_true.1 hs
  have hp : planned plan a = true := by
    rcases Bool.or_eq_true_iff.1 hor with hp | hd
    · exact hp
    · have hyes : ((alternatives g).any fun a => db.any fun p => answers p a) = true :=
        List.any_eq_true.2 ⟨a, ha, hd⟩
      rw [hdb] at hyes
      exact Bool.noConfusion hyes
  obtain ⟨q, hq, hname⟩ := planned_lines.1 hp
  rcases List.mem_append.1 hg with hg | hg
  · -- a dependency that something planned before answers
    rw [hlast] at hq hlead
    exact absurd hlead (not_leading hq ⟨g, hg, a, ha, Or.inl hname.symm⟩)
  · obtain ⟨y, hy, rfl⟩ := List.mem_map.1 hg
    have himp : ∀ y ∈ implied, alternatives y.2 = [y.2] := by decide
    have hone := himp y (List.mem_of_mem_filter hy)
    rw [hone, List.mem_singleton] at ha
    subst ha
    obtain ⟨l', hc, hname'⟩ := choose_named (x := ⟨y.2, .dep⟩) hone (hindex q hq) hname
    intro m hm
    unfold leads at hm
    rw [hc] at hm
    obtain rfl := Option.some.inj (Option.filter_eq_some_iff.1 hm).1
    exact ⟨q, hq, hname.trans hname'.symm⟩

/-! ### Step for step -/

/-- A plan and what wants come to are the same so far, and so is what is wanted next but for what is
spent; or neither is in order. -/
inductive Level (index : List Line) (db : List Inst) (w : Work) (seen : List Line) (next : List Want) : Prop
  | same (hseen : lines w.plan = seen) (hindex : ∀ p ∈ seen, p ∈ index)
      (hdep : ∀ y ∈ w.wants, y.kind = .dep) (hthin : Thin (SpentOn index db seen) w.wants next)
  | amiss (hplan : ¬Leading (lines w.plan)) (hseen : ¬Leading seen)

/-- What is wanted more, of what a package newly planned lacks, is all of it but for what is spent. -/
theorem ask_thin (out : Want → Prop) {gs : List Text} {next next' ys : List Want}
    (h : ask db now plan gs next = some next') (hdep : ∀ y ∈ next, y.kind = .dep)
    (hout : ∀ g ∈ gs, satisfied db plan g = true →
      ((alternatives g).any fun a => db.any fun p => answers p a) = false → out ⟨g, .dep⟩)
    (hthin : Thin out next ys) :
    Thin out next' (ys ++ (gs.filter fun g => !(alternatives g).any fun a =>
      db.any fun p => answers p a).map fun g => ⟨g, .dep⟩) ∧ ∀ y ∈ next', y.kind = .dep := by
  induction gs generalizing next ys with
  | nil =>
    obtain rfl := Option.some.inj h
    rw [List.filter_nil, List.map_nil, List.append_nil]
    exact ⟨hthin, hdep⟩
  | cons g gs ih =>
    have hout' := fun g' hg' => hout g' (List.mem_cons_of_mem g hg')
    unfold ask at h
    by_cases hdb : ((alternatives g).any fun a => db.any fun p => answers p a) = true
    · -- an installed package answers it: neither wants it
      have hs : satisfied db plan g = true := by
        obtain ⟨a, ha, hd⟩ := List.any_eq_true.1 hdb
        exact List.any_eq_true.2 ⟨a, ha, Bool.or_eq_true_iff.2 (Or.inr hd)⟩
      rw [if_pos hs] at h
      rw [List.filter_cons_of_neg (by rw [hdb]; exact Bool.noConfusion)]
      exact ih h hdep hout' hthin
    · rw [Bool.not_eq_true] at hdb
      rw [List.filter_cons_of_pos (by rw [hdb]; rfl), List.map_cons, ← List.singleton_append,
        ← List.append_assoc]
      split_ifs at h with hs
      · exact ih h hdep hout' (.drop _ hthin (Or.inr (hout g List.mem_cons_self hs hdb)))
      · cases hw : want now next ⟨g, .dep⟩ with
        | none =>
          rw [hw] at h
          cases h
        | some next₁ =>
          rw [hw] at h
          unfold want at hw
          split_ifs at hw with hlisted hroom
          · obtain rfl := Option.some.inj hw
            obtain ⟨⟨t, k⟩, hy, htext⟩ := List.any_eq_true.1 hlisted
            obtain rfl : t = g := of_decide_eq_true htext
            obtain rfl : k = .dep := hdep _ hy
            exact ih h hdep hout' (.drop _ hthin (Or.inl hy))
          · obtain rfl := Option.some.inj hw
            refine ih h (fun y hy => ?_) hout' (.keep _ hthin)
            rcases List.mem_append.1 hy with hy | hy
            · exact hdep y hy
            · rw [List.mem_singleton.1 hy]

theorem round_append (xs ys : List Want) : round index db now (xs ++ ys) w =
    match round index db now xs w with
    | .error e => .error e
    | .ok w => round index db now ys w := by
  induction xs generalizing w with
  | nil => rfl
  | cons x xs ih =>
    simp only [List.cons_append, round]
    cases turn index db now w x with
    | error e => rfl
    | ok w => exact ih

theorem Turned.grows (h : Turned index db now w x w') : ∃ more, lines w'.plan = lines w.plan ++ more := by
  cases h with
  | plans l => exact ⟨[l], by unfold lines; simp⟩
  | _ => exact ⟨[], (List.append_nil _).symm⟩

theorem round_grows {xs : List Want} (h : round index db now xs w = .ok w') :
    ∃ more, lines w'.plan = lines w.plan ++ more := by
  induction xs generalizing w with
  | nil =>
    obtain rfl := Except.ok.inj h
    exact ⟨[], (List.append_nil _).symm⟩
  | cons x xs ih =>
    unfold round at h
    cases ht : turn index db now w x with
    | error e =>
      rw [ht] at h
      cases h
    | ok w₁ =>
      rw [ht] at h
      obtain ⟨more, hmore⟩ := (turn_spec ht).grows
      obtain ⟨more', hmore'⟩ := ih h
      exact ⟨more ++ more', by rw [hmore', hmore, List.append_assoc]⟩

theorem rounds_grow {n : ℕ} (h : rounds index db n w = some (.ok w')) :
    ∃ more, lines w'.plan = lines w.plan ++ more := by
  induction n generalizing w with
  | zero =>
    unfold rounds at h
    split_ifs at h
    obtain rfl := Except.ok.inj (Option.some.inj h)
    exact ⟨[], (List.append_nil _).symm⟩
  | succ n ih =>
    unfold rounds at h
    split_ifs at h
    · obtain rfl := Except.ok.inj (Option.some.inj h)
      exact ⟨[], (List.append_nil _).symm⟩
    · cases hr : round index db w.wants w.wants { w with wants := [] } with
      | error e =>
        rw [hr] at h
        cases h
      | ok w₁ =>
        rw [hr] at h
        obtain ⟨more, hmore⟩ := round_grows hr
        obtain ⟨more', hmore'⟩ := ih h
        exact ⟨more ++ more', by rw [hmore', hmore, List.append_assoc]⟩

/-- **A turn** is a want come to. -/
theorem Level.turn {s : List Line × List Want} (h : Level index db w s.1 s.2)
    (ht : Turned index db now w x w') :
    Level index db w' (comeTo index db s x).1 (comeTo index db s x).2 := by
  obtain ⟨seen, next⟩ := s
  cases h with
  | amiss hplan hseen =>
    obtain ⟨more, hmore⟩ := ht.grows
    obtain ⟨more', hmore'⟩ := come_grows (leads index db) (lacks db) Line.name
      (seen, next) x
    exact .amiss (fun h => hplan (hmore ▸ h).left) (fun h => hseen (hmore' ▸ h).left)
  | same hseen hindex hdep hthin =>
    have hseen : lines w.plan = seen := hseen
    -- a want that plans nothing is spent
    have hstill : ∀ {w' : Work}, w'.plan = w.plan → w'.wants = w.wants → SpentOn index db seen x →
        Level index db w' (comeTo index db (seen, next) x).1 (comeTo index db (seen, next) x).2 :=
      fun {w'} hp hw hspent => by
        rw [show comeTo index db (seen, next) x = (seen, next) from come_spent hspent]
        exact .same (hp ▸ hseen) hindex (hw ▸ hdep) (hw ▸ hthin)
    have hleads : ∀ l, leads index db x = some l → choose index x = some l ∧ idle db x.kind l = false :=
      fun l hl => by
        obtain ⟨hc, hi⟩ := Option.filter_eq_some_iff.1 hl
        exact ⟨hc, Bool.not_eq_true' _ ▸ hi⟩
    cases ht with
    | upgrade hc =>
      refine hstill rfl rfl fun l hl => ?_
      rw [(hleads l hl).1] at hc
      exact nomatch hc
    | missing hc =>
      refine hstill rfl rfl fun l hl => ?_
      rw [(hleads l hl).1] at hc
      exact nomatch hc
    | there l hc hp =>
      refine hstill rfl rfl fun l' hl => ?_
      obtain ⟨hc', hi⟩ := hleads l' hl
      obtain rfl := Option.some.inj (hc'.symm.trans hc)
      rcases hp with hp | hi'
      · exact hseen ▸ planned_lines.1 hp
      · rw [hi] at hi'
        exact Bool.noConfusion hi'
    | plans l next' hc hp hi hroom hask =>
      have hlead : leads index db x = some l := Option.filter_eq_some_iff.2 ⟨hc, by rw [hi]; rfl⟩
      have hcome : comeTo index db (seen, next) x = (seen ++ [l], next ++ lacks db l) := by
        rcases come_cases (leads index db) (lacks db) Line.name (seen, next) x
          with ⟨-, hspent⟩ | ⟨l', hl', -, hcome⟩
        · obtain ⟨p, hin, hname⟩ := hspent l hlead
          rw [planned_lines.2 ⟨p, hseen ▸ hin, hname⟩] at hp
          exact Bool.noConfusion hp
        · obtain rfl := Option.some.inj (hlead.symm.trans hl')
          exact hcome
      have hlines : lines (w.plan ++ [⟨l, flag db x.kind l⟩]) = seen ++ [l] := by
        rw [← hseen]
        unfold lines
        rw [List.map_append, List.map_singleton]
      have hindex' : ∀ p ∈ seen ++ [l], p ∈ index := fun p hp' => by
        rcases List.mem_append.1 hp' with hp' | hp'
        · exact hindex p hp'
        · rw [List.mem_singleton.1 hp']
          exact (choose_answers hc).1
      rw [hcome]
      by_cases hgood : Leading (seen ++ [l])
      · obtain ⟨hthin', hdep'⟩ := ask_thin (SpentOn index db (seen ++ [l])) hask hdep
          (fun g hg hs hdb => by
            rw [← hlines]
            exact spent_of_satisfied (fun p hp' => hindex' p (hlines ▸ hp')) hlines (hlines.symm ▸ hgood) hg
              hs hdb)
          (hthin.mono fun y hy => hy.mono fun p hp' => List.mem_append_left _ hp')
        exact .same hlines hindex' hdep' hthin'
      · exact .amiss (fun h => hgood (hlines ▸ h)) hgood

/-- **A round** of wants comes to what all of them would with those that are spent. -/
theorem Level.round {xs ys : List Want} {s : List Line × List Want} (hthin : Thin (SpentOn index db s.1) xs ys)
    (h : Level index db w s.1 s.2) (hr : round index db now xs w = .ok w') :
    Level index db w' (ys.foldl (comeTo index db) s).1 (ys.foldl (comeTo index db) s).2 ∧
      ∀ x ∈ xs, SpentOn index db (ys.foldl (comeTo index db) s).1 x := by
  induction hthin generalizing w' with
  | nil =>
    obtain rfl := Except.ok.inj hr
    exact ⟨h, List.forall_mem_nil _⟩
  | @keep xs ys y _ ih =>
    rw [round_append] at hr
    cases hr' : Tuxpac.round index db now xs w with
    | error e =>
      rw [hr'] at hr
      cases hr
    | ok w₁ =>
      rw [hr'] at hr
      simp only [Tuxpac.round] at hr
      cases ht : Tuxpac.turn index db now w₁ y with
      | error e =>
        rw [ht] at hr
        cases hr
      | ok w₂ =>
        rw [ht] at hr
        obtain rfl := Except.ok.inj hr
        obtain ⟨hlevel, hspent⟩ := ih hr'
        rw [List.foldl_append, List.foldl_cons, List.foldl_nil]
        refine ⟨hlevel.turn (turn_spec ht), fun x hx => ?_⟩
        rcases List.mem_append.1 hx with hx | hx
        · obtain ⟨more, hmore⟩ := come_grows (leads index db) (lacks db) Line.name
            (ys.foldl (comeTo index db) s) y
          exact (hspent x hx).mono fun p hp => hmore ▸ List.mem_append_left _ hp
        · rw [List.mem_singleton.1 hx]
          exact spent_come _ y
  | @drop xs ys y _ hy ih =>
    obtain ⟨hlevel, hspent⟩ := ih hr
    obtain ⟨more, hmore⟩ := comes_grow (leads index db) (lacks db) Line.name ys s
    have hout : SpentOn index db (ys.foldl (comeTo index db) s).1 y := by
      rcases hy with hy | hy
      · exact hspent y hy
      · exact hy.mono fun p hp => hmore ▸ List.mem_append_left _ hp
    rw [List.foldl_append, List.foldl_cons, List.foldl_nil,
      show comeTo index db (ys.foldl (comeTo index db) s) y = _ from come_spent hout]
    exact ⟨hlevel, hspent⟩

/-- **Rounds** plan what wants come to, until nothing is wanted; or neither is in order. -/
theorem rounds_walk {n : ℕ} {seen : List (List ℕ × Line)} {queue : List (List ℕ × Want)}
    (hwalk : Walk (leads index db) (lacks db) Line.name wants seen queue)
    (hseen : lines w.plan = seen.map Prod.snd) (hindex : ∀ p ∈ seen.map Prod.snd, p ∈ index)
    (hthin : Thin (SpentOn index db (seen.map Prod.snd)) w.wants (queue.map Prod.snd))
    (hr : rounds index db n w = some (.ok w')) : ∃ seen' queue',
      Walk (leads index db) (lacks db) Line.name wants seen' queue' ∧
        (queue' = [] ∧ lines w'.plan = seen'.map Prod.snd ∨
          ¬Leading (lines w'.plan) ∧ ¬Leading (seen'.map Prod.snd)) := by
  have hdone : w.wants = [] → w = w' → ∃ seen' queue',
      Walk (leads index db) (lacks db) Line.name wants seen' queue' ∧
        (queue' = [] ∧ lines w'.plan = seen'.map Prod.snd ∨
          ¬Leading (lines w'.plan) ∧ ¬Leading (seen'.map Prod.snd)) := by
    rintro hnone rfl
    exact ⟨seen, [], hwalk.done fun q hq => hthin.all_out hnone q.2 (List.mem_map_of_mem hq),
      Or.inl ⟨rfl, hseen⟩⟩
  induction n generalizing w seen queue with
  | zero =>
    unfold rounds at hr
    split_ifs at hr with hnone
    exact hdone hnone (Except.ok.inj (Option.some.inj hr))
  | succ n ih =>
    unfold rounds at hr
    split_ifs at hr with hnone
    · exact hdone hnone (Except.ok.inj (Option.some.inj hr))
    · cases hr' : round index db w.wants w.wants { w with wants := [] } with
      | error e =>
        rw [hr'] at hr
        cases hr
      | ok w₁ =>
        rw [hr'] at hr
        have hstart : Level index db { w with wants := [] } (seen.map Prod.snd, ([] : List Want)).1
            (seen.map Prod.snd, ([] : List Want)).2 :=
          .same hseen hindex (List.forall_mem_nil _) .nil
        obtain ⟨hlevel, -⟩ := Level.round (s := (seen.map Prod.snd, [])) hthin hstart hr'
        have hwalk' : Walk (leads index db) (lacks db) Line.name wants seen (queue ++ []) := by
          rw [List.append_nil]
          exact hwalk
        obtain ⟨seen₁, queue₁, hwalk₁, heq⟩ := hwalk'.comes
        rw [List.map_nil] at heq
        rw [heq] at hlevel
        cases hlevel with
        | amiss hplan hamiss =>
          obtain ⟨more, hmore⟩ := rounds_grow hr
          exact ⟨seen₁, queue₁, hwalk₁, Or.inr ⟨fun h => hplan (hmore ▸ h).left, hamiss⟩⟩
        | same hseen₁ hindex₁ _ hthin₁ =>
          refine ih hwalk₁ hseen₁ hindex₁ hthin₁ hr fun hnone' hw => ?_
          subst hw
          exact ⟨seen₁, [], hwalk₁.done fun q hq => hthin₁.all_out hnone' q.2 (List.mem_map_of_mem hq),
            Or.inl ⟨rfl, hseen₁⟩⟩

/-! ### First ways -/

section Ways

variable {seen : List (List ℕ × Line)} {queue : List (List ℕ × Want)}

/-- Packages are seen in the order of their ways. -/
theorem leading_iff (h : Walk (leads index db) (lacks db) Line.name wants seen queue) :
    Leading (seen.map Prod.snd) ↔ ∀ s ∈ seen, ∀ t ∈ seen, DependsOn s.2 t.2 → Before s.1 t.1 := by
  have hordered := List.pairwise_iff_getElem.1 (List.pairwise_map.1 (List.pairwise_append.1 h.ordered).1)
  constructor
  · intro hlead s hs t ht hd
    obtain ⟨i, hi, rfl⟩ := List.getElem_of_mem hs
    obtain ⟨j, hj, rfl⟩ := List.getElem_of_mem ht
    exact hordered i j hi hj (hlead i j _ _ (by simp [hi]) (by simp [hj]) hd)
  · intro hbefore i j p q hp hq hd
    rw [List.getElem?_map, Option.map_eq_some_iff] at hp hq
    obtain ⟨s, hs, rfl⟩ := hp
    obtain ⟨t, ht, rfl⟩ := hq
    obtain ⟨hi, rfl⟩ := List.getElem?_eq_some_iff.1 hs
    obtain ⟨hj, rfl⟩ := List.getElem?_eq_some_iff.1 ht
    have hlt := hbefore _ (List.getElem_mem hi) _ (List.getElem_mem hj) hd
    rcases Nat.lt_trichotomy i j with hij | rfl | hji
    · exact hij
    · exact absurd hlt (Before.irrefl _)
    · exact absurd hlt (Std.Asymm.asymm _ _ (hordered j i hj hi hji))

theorem configures_length_le (len : ℕ) (ls : List Line) : (configures db len ls).length ≤ ls.length := by
  induction ls generalizing len with
  | nil => exact le_rfl
  | cons l ls ih =>
    unfold configures
    split_ifs
    · exact Nat.succ_le_succ (ih _)
    · exact (ih _).trans (Nat.le_succ _)

/-- All packages are configured exactly where each can be noted after those before it. -/
theorem configures_eq_iff {len : ℕ} {ls : List Line} : configures db len ls = ls ↔
    ∀ pre p post, ls = pre ++ p :: post →
      len + (pre.map (noted db)).sum + p.name.length + verRoom + 4 < unpackedRoom := by
  induction ls generalizing len with
  | nil => exact iff_of_true rfl fun pre p post h => absurd h (by simp)
  | cons l ls ih =>
    unfold configures
    constructor
    · intro h pre p post heq
      split_ifs at h with hfits
      · obtain ⟨-, h⟩ := List.cons.inj h
        cases pre with
        | nil =>
          obtain ⟨rfl, -⟩ := List.cons.inj heq
          exact hfits
        | cons m pre =>
          obtain ⟨rfl, htail⟩ := List.cons.inj heq
          have := ih.1 h pre p post htail
          rw [List.map_cons, List.sum_cons]
          omega
      · have hlen := congrArg List.length h
        have := @configures_length_le db len ls
        rw [List.length_cons] at hlen
        omega
    · intro h
      have hfits := h [] l ls rfl
      simp only [List.map_nil, List.sum_nil, Nat.add_zero] at hfits
      rw [if_pos hfits, ih.2]
      intro pre p post heq
      have := h (l :: pre) p post (by rw [heq]; rfl)
      rw [List.map_cons, List.sum_cons] at this
      omega

/-- The same of a plan, whose end goes in first. -/
theorem configures_unpacks_iff : configures db 0 (unpacks L) = unpacks L ↔
    ∀ pre p post, L = pre ++ p :: post →
      (post.map (noted db)).sum + p.name.length + verRoom + 4 < unpackedRoom := by
  unfold unpacks
  rw [configures_eq_iff]
  constructor
  · intro h pre p post heq
    have := h post.reverse p pre.reverse (by rw [heq]; simp)
    rwa [List.map_reverse, List.sum_reverse, Nat.zero_add] at this
  · intro h pre p post heq
    have := h post.reverse p pre.reverse (by rw [← List.reverse_reverse L, heq]; simp)
    rwa [List.map_reverse, List.sum_reverse, ← Nat.zero_add (List.sum _)] at this

theorem roomToNote_iff (h : Walk (leads index db) (lacks db) Line.name wants seen []) :
    RoomToNote index db wants ↔
      configures db 0 (unpacks (seen.map Prod.snd)) = unpacks (seen.map Prod.snd) := by
  have hordered := List.pairwise_map.1 (List.pairwise_append.1 h.ordered).1
  rw [configures_unpacks_iff]
  constructor
  · intro hroom pre p post heq
    obtain ⟨s₁, s₂, rfl, hpre, hpost⟩ := List.map_eq_append_iff.1 heq
    obtain ⟨s, s₃, rfl, rfl, rfl⟩ := List.map_eq_cons_iff.1 hpost
    have hpast := (List.pairwise_cons.1 (List.pairwise_append.1 hordered).2.1).1
    refine hroom s.1 s.2 (h.first (by simp)) _ ?_ fun l hl => ?_
    · have hkeys := h.keys
      rw [List.map_append, List.map_cons, List.nodup_append] at hkeys
      refine List.Nodup.of_map Line.name ?_
      rw [List.map_map]
      exact (List.nodup_cons.1 hkeys.2.1).2
    · obtain ⟨t, ht, rfl⟩ := List.mem_map.1 hl
      exact ⟨t.1, h.first (by simp [ht]), hpast t ht⟩
  · intro hfits v p hfirst ls hnodup hls
    obtain ⟨s₁, s₂, rfl⟩ := List.append_of_mem (h.first_iff.1 hfirst)
    have hroom := hfits (s₁.map Prod.snd) p (s₂.map Prod.snd) (by simp)
    have hsub : ls ⊆ s₂.map Prod.snd := by
      intro l hl
      obtain ⟨w, hw, hbefore⟩ := hls l hl
      rcases List.mem_append.1 (h.first_iff.1 hw) with hin | hin
      · have hback := (List.pairwise_append.1 hordered).2.2 _ hin _ List.mem_cons_self
        exact absurd hbefore (Std.Asymm.asymm _ _ hback)
      · rcases List.mem_cons.1 hin with heq | hin
        · obtain ⟨rfl, -⟩ := Prod.mk.inj heq
          exact absurd hbefore (Before.irrefl _)
        · exact List.mem_map_of_mem hin
    obtain ⟨ls', hperm, hsublist⟩ := hnodup.subperm hsub
    have hle := (hsublist.map (noted db)).sum_le_sum fun _ _ => Nat.zero_le _
    rw [(hperm.map (noted db)).sum_eq] at hle
    omega

end Ways

/-- **A plan is installed in order exactly when the first way to each package is before those to what it
depends on**, and what is to be configured can be noted. -/
theorem resolve_sorted_iff (h : resolve index db wants = some (.ok w)) :
    Sorted db (lines w.plan) ↔ Ordered index db wants ∧ RoomToNote index db wants := by
  unfold Sorted
  rw [follows_iff]
  obtain ⟨seen, queue, hwalk, hor⟩ := rounds_walk (w := ⟨[], wants, []⟩) (Walk.start wants) rfl
    (fun p hp => nomatch hp) (by rw [map_snd_numbered]; exact Thin.refl wants) h
  have hordered : Ordered index db wants → Leading (seen.map Prod.snd) := fun hall =>
    (leading_iff hwalk).2 fun s hs t ht => hall _ _ _ _ (hwalk.first hs) (hwalk.first ht)
  rcases hor with ⟨rfl, heq⟩ | ⟨hplan, hseen⟩
  · rw [heq, roomToNote_iff hwalk]
    refine and_congr_left fun _ => ⟨fun hlead v p w q hp hq hd => ?_, hordered⟩
    exact (leading_iff hwalk).1 hlead _ (hwalk.first_iff.1 hp) _ (hwalk.first_iff.1 hq) hd
  · exact ⟨fun hs => absurd hs.1 hplan, fun hs => absurd (hordered hs.1) hseen⟩

/-! ### A package come to too soon -/

/-- A package that depends on two, of which the second depends on the first. -/
def comeTooSoon : List Line :=
  [⟨text "a", text "1", text "c,b", []⟩, ⟨text "b", text "1", text "c", []⟩, ⟨text "c", text "1", [], []⟩]

/-- What is asked for is planned in order where it comes to packages one below the other. -/
theorem resolve_sorted_chain : ∃ w, resolve comeTooSoon [] [⟨text "b", .target⟩] = some (.ok w) ∧
    Ordered comeTooSoon [] [⟨text "b", .target⟩] ∧ RoomToNote comeTooSoon [] [⟨text "b", .target⟩] := by
  have h : resolve comeTooSoon [] [⟨text "b", .target⟩] =
      some (.ok ⟨[⟨⟨text "b", text "1", text "c", []⟩, true⟩, ⟨⟨text "c", text "1", [], []⟩, false⟩], [], []⟩) := by
    decide
  refine ⟨_, h, (resolve_sorted_iff h).1 ⟨follows_iff.2 fun i j p q hp hq hd => ?_, by decide⟩⟩
  have honly : ∀ p ∈ comeTooSoon.drop 1, ∀ q ∈ comeTooSoon.drop 1, DependsOn p q → p.deps ≠ [] ∧ q.deps = [] := by
    unfold DependsOn Answered
    decide
  obtain ⟨hneeds, hnone⟩ := honly p (List.mem_of_getElem? hp) q (List.mem_of_getElem? hq) hd
  have hi : i = 0 := by
    match i, hp with
    | 0, _ => rfl
    | 1, hp => exact absurd (congrArg Line.deps (Option.some.inj hp)).symm hneeds
  have hj : j ≠ 0 := by
    rintro rfl
    exact absurd ((congrArg Line.deps (Option.some.inj hq)).trans hnone) (by decide)
  omega

/-- No two packages depend on each other, and yet one is installed before what it depends on. -/
theorem exists_not_sorted : ∃ w, resolve comeTooSoon [] [⟨text "a", .target⟩] = some (.ok w) ∧
    (∃ rank : Line → ℕ, ∀ p ∈ lines w.plan, ∀ q ∈ lines w.plan, DependsOn p q → rank q < rank p) ∧
      ¬Sorted [] (lines w.plan) := by
  refine ⟨⟨[⟨⟨text "a", text "1", text "c,b", []⟩, true⟩, ⟨⟨text "c", text "1", [], []⟩, false⟩,
    ⟨⟨text "b", text "1", text "c", []⟩, false⟩], [], []⟩, by decide, ⟨fun p => p.deps.length, ?_⟩, ?_⟩
  · unfold DependsOn Answered
    decide
  · rintro ⟨hfollows, -⟩
    have hd : DependsOn ⟨text "b", text "1", text "c", []⟩ ⟨text "c", text "1", [], []⟩ := by
      unfold DependsOn Answered
      decide
    exact absurd (hfollows 0 1 _ _ rfl rfl hd) (by decide)

end BaxOS.Tuxpac
