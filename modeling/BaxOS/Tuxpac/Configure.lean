import BaxOS.Tuxpac.Match

/-!
# What is unpacked is configured

`install` notes each package it unpacks in `unpacked`, its name and the version it replaced, a line
each, as long as there is room; `configure` cuts the lines with zeros, runs each package's script, and
joins them again for the triggers. Every package is configured, with the version it replaced, exactly
where all of them fit, their names are no longer than `run_script` takes and their old versions are told
by the text noted of them (`configured_iff`).
-/

namespace BaxOS.Tuxpac

variable {db : List Inst} {plan : List Planned}

/-! ### Noting -/

/-- `PATH`. -/
def pathRoom : ℕ := 256

/-- A package unpacked, or a script run for one: its name, and the version there was before. -/
abbrev Change := Text × Option Text

/-- The version of the package of a name that is installed. -/
def replaced (db : List Inst) (name : Text) : Option Text :=
  (findInst db name).bind fun k => db[k]?.map Inst.ver

/-- `upgrading_from`, empty for none. -/
def upgradingFrom (old : Option Text) : Text :=
  match old with
  | some v => if v.length ≤ verRoom then v else []
  | none => []

/-- What is noted of the version there was before. -/
def told (old : Option Text) : Text := if upgradingFrom old ≠ [] then upgradingFrom old else [dash]

/-- `unpacked`, one package more noted in it. -/
def note (unpacked : Text) (c : Change) : Text :=
  if unpacked.length + c.1.length + verRoom + 4 < unpackedRoom then
    unpacked ++ (c.1 ++ [newline] ++ told c.2 ++ [newline])
  else unpacked

/-! ### Installing -/

/-- What becomes of a package: it cannot be downloaded or unpacked, the database cannot be written once
it is, or neither. -/
inductive Outcome
  | failed
  | unsaved
  | done
  deriving DecidableEq

/-- The database, `unpacked`, and the packages that have been unpacked. -/
structure Unpacking where
  db : List Inst
  unpacked : Text
  went : List Change

/-- `db_save` or `db_add`, and `db_load` after it: a package in the place of the one it replaces. -/
def saved (db : List Inst) (p : Planned) : List Inst :=
  let db := match findInst db p.line.name with
    | some k => db.eraseIdx k
    | none => db
  let new : Inst := ⟨p.line.name, p.line.ver, p.line.deps, p.line.prov, p.asked, false⟩
  ((db.filter fun i => !i.gone) ++ [new]).filter fun i => i.name ≠ []

/-- `install`: whether it succeeded, and what it leaves. -/
def install (s : Unpacking) (p : Planned) : Outcome → Bool × Unpacking
  | .failed => (false, s)
  | o =>
    let c : Change := (p.line.name, replaced s.db p.line.name)
    (o = .done, ⟨if o = .done then saved s.db p else s.db, note s.unpacked c, s.went ++ [c]⟩)

/-- The loop of `get` over a plan, from its end; the first package not installed ends it. -/
def installs (s : Unpacking) : List Planned → (ℕ → Outcome) → Unpacking
  | [], _ => s
  | p :: ps, out =>
    match install s p (out 0) with
    | (true, s) => installs s ps fun n => out (n + 1)
    | (false, s) => s

/-- What a plan's packages leave, from nothing unpacked. -/
def unpacking (db : List Inst) (plan : List Planned) (out : ℕ → Outcome) : Unpacking :=
  installs ⟨db, [], []⟩ plan.reverse out

/-! ### Configuring -/

/-- A text up to its line's end. -/
def lineAt (c : Text) : Text := c.takeWhile fun b => b ≠ 0 && b ≠ newline

/-- The loop of `configure`: the name and the old version of each package, and the text as it has been
cut with zeros. -/
def cutOn : ℕ → Text → List (Text × Text) × Text
  | 0, c => ([], c)
  | _ + 1, [] => ([], [])
  | n + 1, c =>
    let name := lineAt c
    let rest := c.drop (name.length + 1)
    let old := lineAt rest
    let (calls, cut) := cutOn n (rest.drop (old.length + 1))
    ((name, old) :: calls, name ++ [0] ++ old ++ [0] ++ cut)

/-- `run_script`, of a package's `postinst`: whether its path is not too long for it. -/
def runs (name : Text) : Bool := name.length + 32 ≤ pathRoom

/-- The script run for a package of `unpacked`, and its argument. -/
def heard (c : Text × Text) : Change := (c.1, if c.2 ≠ [dash] then some c.2 else none)

/-- The packages that `configure` runs `postinst configure` for, each with the argument it passes. -/
def configured (unpacked : Text) : List Change :=
  ((cutOn unpacked.length unpacked).1.filter fun c => runs c.1).map heard

/-- What `configure` leaves the triggers. -/
def joined (unpacked : Text) : Text :=
  (cutOn unpacked.length unpacked).2.map fun b => if b = 0 then newline else b

/-! ### What it takes -/

/-- A text on a line of its own. -/
def Clean (s : Text) : Prop := 0 ∉ s ∧ newline ∉ s

/-- The packages unpacked all fit in `unpacked`, so much of it being taken. -/
def FitsAt : ℕ → List Change → Prop
  | _, [] => True
  | len, c :: cs => len + c.1.length + verRoom + 4 < unpackedRoom ∧
      FitsAt (len + c.1.length + (c.2.getD [dash]).length + 2) cs

instance : ∀ len cs, Decidable (FitsAt len cs)
  | _, [] => isTrue trivial
  | len, c :: cs =>
    haveI : Decidable (FitsAt (len + c.1.length + (c.2.getD [dash]).length + 2) cs) := instDecidableFitsAt _ cs
    inferInstanceAs (Decidable (_ ∧ _))

/-- A script can be run for a package, and the version it replaced can be noted. -/
structure Told (c : Change) : Prop where
  name : c.1.length + 32 ≤ pathRoom
  old : ∀ v, c.2 = some v → v.length ≤ verRoom ∧ v ≠ [] ∧ v ≠ [dash]

/-- The packages of those unpacked that are noted, when so much of `unpacked` is taken. -/
def notes : ℕ → List Change → List (Text × Text)
  | _, [] => []
  | len, c :: cs =>
    if len + c.1.length + verRoom + 4 < unpackedRoom then
      (c.1, told c.2) :: notes (len + c.1.length + (told c.2).length + 2) cs
    else notes len cs

/-! ### The text read back -/

theorem lineAt_append {s : Text} (hs : Clean s) (t : Text) : lineAt (s ++ newline :: t) = s := by
  unfold lineAt
  rw [List.takeWhile_append_of_pos, List.takeWhile_cons_of_neg (by simp), List.append_nil]
  intro b hb
  have h0 : b ≠ 0 := fun h => hs.1 (h ▸ hb)
  have hn : b ≠ newline := fun h => hs.2 (h ▸ hb)
  simp [h0, hn]

/-- The lines of a package. -/
def linesOf (c : Text × Text) : Text := c.1 ++ [newline] ++ c.2 ++ [newline]

theorem cutOn_of_ne_nil {c : Text} (hc : c ≠ []) (n : ℕ) :
    cutOn (n + 1) c =
      ((lineAt c, lineAt (c.drop ((lineAt c).length + 1))) ::
        (cutOn n ((c.drop ((lineAt c).length + 1)).drop
          ((lineAt (c.drop ((lineAt c).length + 1))).length + 1))).1,
      lineAt c ++ [0] ++ lineAt (c.drop ((lineAt c).length + 1)) ++ [0] ++
        (cutOn n ((c.drop ((lineAt c).length + 1)).drop
          ((lineAt (c.drop ((lineAt c).length + 1))).length + 1))).2) := by
  cases c with
  | nil => exact absurd rfl hc
  | cons b c => rfl

/-- A package's lines are cut off as they were noted. -/
theorem cutOn_lines {c : Text × Text} (hname : Clean c.1) (hold : Clean c.2) (n : ℕ) (t : Text) :
    cutOn (n + 1) (linesOf c ++ t) =
      (c :: (cutOn n t).1, c.1 ++ [0] ++ c.2 ++ [0] ++ (cutOn n t).2) := by
  have hshape : linesOf c ++ t = c.1 ++ newline :: (c.2 ++ newline :: t) := by simp [linesOf]
  have hfirst := lineAt_append hname (c.2 ++ newline :: t)
  have hrest : (c.1 ++ newline :: (c.2 ++ newline :: t)).drop (c.1.length + 1) =
      c.2 ++ newline :: t := by
    rw [← List.drop_drop, List.drop_left]
    rfl
  have hsecond := lineAt_append hold t
  have hlast : (c.2 ++ newline :: t).drop (c.2.length + 1) = t := by
    rw [← List.drop_drop, List.drop_left]
    rfl
  rw [hshape, cutOn_of_ne_nil (by simp)]
  simp only [hfirst, hrest, hsecond, hlast]

/-- **The lines of packages are read back as they were noted**, and are as they were for the triggers. -/
theorem cutOn_flatMap {l : List (Text × Text)} (h : ∀ c ∈ l, Clean c.1 ∧ Clean c.2) {n : ℕ}
    (hn : l.length ≤ n) :
    (cutOn n (l.flatMap linesOf)).1 = l ∧
      (cutOn n (l.flatMap linesOf)).2.map (fun b => if b = 0 then newline else b) =
        l.flatMap linesOf := by
  induction l generalizing n with
  | nil => cases n <;> exact ⟨rfl, rfl⟩
  | cons c l ih =>
    obtain ⟨n, rfl⟩ : ∃ m, n = m + 1 := ⟨n - 1, by simp only [List.length_cons] at hn; omega⟩
    obtain ⟨hname, hold⟩ := h c List.mem_cons_self
    have hle : l.length ≤ n := by
      rw [List.length_cons] at hn
      omega
    obtain ⟨hl, hcut⟩ := ih (fun d hd => h d (List.mem_cons_of_mem c hd)) hle
    have hkeep : ∀ s : Text, Clean s → s.map (fun b => if b = 0 then newline else b) = s := by
      intro s hs
      refine (List.map_congr_left fun b hb => ?_).trans (List.map_id s)
      have h0 : b ≠ 0 := fun h => hs.1 (h ▸ hb)
      exact if_neg h0
    rw [List.flatMap_cons, cutOn_lines hname hold]
    refine ⟨by rw [hl], ?_⟩
    simp only [List.map_append, hkeep _ hname, hkeep _ hold, hcut]
    rfl

/-! ### The text noted -/

theorem notes_cons (len : ℕ) (c : Change) (cs : List Change) :
    notes len (c :: cs) =
      if len + c.1.length + verRoom + 4 < unpackedRoom then
        (c.1, told c.2) :: notes (len + c.1.length + (told c.2).length + 2) cs
      else notes len cs := rfl

theorem foldl_note (u : Text) (cs : List Change) :
    cs.foldl note u = u ++ (notes u.length cs).flatMap linesOf := by
  induction cs generalizing u with
  | nil => simp [notes]
  | cons c cs ih =>
    rw [List.foldl_cons, ih, notes_cons]
    unfold note
    by_cases hroom : u.length + c.1.length + verRoom + 4 < unpackedRoom
    · rw [if_pos hroom, if_pos hroom, List.flatMap_cons, List.append_assoc]
      have hlen : (u ++ (c.1 ++ [newline] ++ told c.2 ++ [newline])).length =
          u.length + c.1.length + (told c.2).length + 2 := by
        simp only [List.length_append, List.length_singleton]
        omega
      rw [hlen, linesOf]
    · rw [if_neg hroom, if_neg hroom]

theorem told_some (v : Text) :
    told (some v) = if v.length ≤ verRoom ∧ v ≠ [] then v else [dash] := by
  unfold told upgradingFrom
  simp only
  by_cases hlen : v.length ≤ verRoom
  · simp [hlen]
  · simp [hlen]

theorem told_clean {old : Option Text} (h : ∀ v, old = some v → Clean v) : Clean (told old) := by
  have hdash : Clean [dash] := by
    unfold Clean
    decide
  cases old with
  | none => exact hdash
  | some v =>
    rw [told_some]
    split_ifs
    · exact h v rfl
    · exact hdash

theorem mem_notes {len : ℕ} {cs : List Change} {d : Text × Text} (h : d ∈ notes len cs) :
    ∃ c ∈ cs, d = (c.1, told c.2) := by
  induction cs generalizing len with
  | nil => exact nomatch h
  | cons c cs ih =>
    rw [notes_cons] at h
    split_ifs at h
    · rcases List.mem_cons.1 h with rfl | h
      · exact ⟨c, List.mem_cons_self, rfl⟩
      · exact (ih h).imp fun b hb => ⟨List.mem_cons_of_mem c hb.1, hb.2⟩
    · exact (ih h).imp fun b hb => ⟨List.mem_cons_of_mem c hb.1, hb.2⟩

/-! ### What is configured -/

/-- What `configure` runs for packages unpacked when so much of `unpacked` is taken. -/
def hears (len : ℕ) (cs : List Change) : List Change :=
  ((notes len cs).filter fun c => runs c.1).map heard

theorem configured_foldl {cs : List Change}
    (h : ∀ c ∈ cs, Clean c.1 ∧ ∀ v, c.2 = some v → Clean v) :
    configured (cs.foldl note []) = hears 0 cs ∧ joined (cs.foldl note []) = cs.foldl note [] := by
  rw [foldl_note, List.nil_append, List.length_nil]
  have hclean : ∀ d ∈ notes 0 cs, Clean d.1 ∧ Clean d.2 := fun d hd => by
    obtain ⟨c, hc, rfl⟩ := mem_notes hd
    exact ⟨(h c hc).1, told_clean (h c hc).2⟩
  have hlen : ∀ l : List (Text × Text), l.length ≤ (l.flatMap linesOf).length := fun l => by
    induction l with
    | nil => exact le_rfl
    | cons c l ih =>
      simp only [List.flatMap_cons, List.length_append, List.length_cons, linesOf]
      omega
  obtain ⟨hcalls, hjoined⟩ := cutOn_flatMap hclean (hlen _)
  unfold configured hears
  rw [hcalls]
  exact ⟨rfl, hjoined⟩

theorem notes_length_le (len : ℕ) (cs : List Change) : (notes len cs).length ≤ cs.length := by
  induction cs generalizing len with
  | nil => exact le_rfl
  | cons c cs ih =>
    rw [notes_cons]
    split_ifs
    · exact Nat.succ_le_succ (ih _)
    · exact (ih len).trans (Nat.le_succ _)

theorem hears_length_le (len : ℕ) (cs : List Change) : (hears len cs).length ≤ cs.length := by
  unfold hears
  rw [List.length_map]
  exact (List.length_filter_le _ _).trans (notes_length_le len cs)

/-- An old version is passed on as it was where it can be told from none. -/
theorem heard_told (name : Text) (old : Option Text) :
    heard (name, told old) = (name, old) ↔
      ∀ v, old = some v → v.length ≤ verRoom ∧ v ≠ [] ∧ v ≠ [dash] := by
  cases old with
  | none => exact ⟨fun _ v hv => (nomatch hv), fun _ => rfl⟩
  | some v =>
    unfold heard
    rw [told_some]
    constructor
    · intro h w hw
      obtain rfl : v = w := Option.some.inj hw
      have h := (Prod.mk.inj h).2
      split_ifs at h with hv hd hd
      · exact ⟨hv.1, hv.2, hd⟩
      · exact absurd rfl hd
    · intro h
      obtain ⟨hlen, hne, hd⟩ := h v rfl
      rw [if_pos ⟨hlen, hne⟩, if_pos hd]

theorem told_eq {old : Option Text}
    (h : ∀ v, old = some v → v.length ≤ verRoom ∧ v ≠ [] ∧ v ≠ [dash]) :
    told old = old.getD [dash] := by
  cases old with
  | none => rfl
  | some v => rw [told_some, if_pos ⟨(h v rfl).1, (h v rfl).2.1⟩, Option.getD_some]

/-- **Every package unpacked is configured exactly where all of them fit and each can be told of.** -/
theorem hears_eq_iff (len : ℕ) (cs : List Change) :
    hears len cs = cs ↔ FitsAt len cs ∧ ∀ c ∈ cs, Told c := by
  induction cs generalizing len with
  | nil => exact ⟨fun _ => ⟨trivial, fun c hc => nomatch hc⟩, fun _ => rfl⟩
  | cons c cs ih =>
    have hshort := hears_length_le (len + c.1.length + (told c.2).length + 2) cs
    have hcons : hears len (c :: cs) =
        if len + c.1.length + verRoom + 4 < unpackedRoom then
          if runs c.1 then
            heard (c.1, told c.2) :: hears (len + c.1.length + (told c.2).length + 2) cs
          else hears (len + c.1.length + (told c.2).length + 2) cs
        else hears len cs := by
      unfold hears
      rw [notes_cons]
      split_ifs with hroom hrun
      · rw [List.filter_cons_of_pos (by exact hrun), List.map_cons]
      · rw [List.filter_cons_of_neg (by exact hrun)]
      · rfl
    rw [hcons]
    constructor
    · intro h
      have hlen := congrArg List.length h
      rw [List.length_cons] at hlen
      split_ifs at h with hroom hrun
      · obtain ⟨hc, hcs⟩ := List.cons.inj h
        have hold := (heard_told c.1 c.2).1 hc
        obtain ⟨hfits, htold⟩ := (ih _).1 hcs
        rw [told_eq hold] at hfits
        exact ⟨⟨hroom, hfits⟩, List.forall_mem_cons.2 ⟨⟨of_decide_eq_true hrun, hold⟩, htold⟩⟩
      · rw [if_pos hroom, if_neg hrun] at hlen
        omega
      · rw [if_neg hroom] at hlen
        have := hears_length_le len cs
        omega
    · rintro ⟨⟨hroom, hfits⟩, htold⟩
      obtain ⟨hc, hcs⟩ := List.forall_mem_cons.1 htold
      have hrun : runs c.1 = true := decide_eq_true hc.name
      rw [if_pos hroom, if_pos hrun, (heard_told c.1 c.2).2 hc.old,
        (ih _).2 ⟨by rwa [told_eq hc.old], hcs⟩]

/-! ### A plan -/

/-- What the packages and the versions of a plan and of the database are made of. -/
structure CleanPlan (db : List Inst) (plan : List Planned) : Prop where
  db : ∀ i ∈ db, Clean i.ver
  name : ∀ p ∈ plan, Clean p.line.name
  ver : ∀ p ∈ plan, Clean p.line.ver

theorem replaced_mem {name v : Text} (h : replaced db name = some v) :
    ∃ i ∈ db, v = i.ver := by
  obtain ⟨k, -, hk⟩ := Option.bind_eq_some_iff.1 h
  obtain ⟨i, hi, rfl⟩ := Option.map_eq_some_iff.1 hk
  exact ⟨i, List.mem_of_getElem? hi, rfl⟩

theorem mem_saved {p : Planned} {i : Inst} (h : i ∈ saved db p) :
    i ∈ db ∨ i.ver = p.line.ver := by
  unfold saved at h
  simp only at h
  rcases List.mem_append.1 (List.mem_of_mem_filter h) with h | h
  · refine .inl ?_
    have h := List.mem_of_mem_filter h
    split at h
    · exact List.mem_of_mem_eraseIdx h
    · exact h
  · rw [List.mem_singleton.1 h]
    exact .inr rfl

/-- What the packages installed leave in `unpacked` is what was noted of them. -/
theorem installs_spec {s : Unpacking} (out : ℕ → Outcome)
    (hdb : ∀ i ∈ s.db, Clean i.ver) (hplan : ∀ p ∈ plan, Clean p.line.name ∧ Clean p.line.ver) :
    ∃ cs, (installs s plan out).went = s.went ++ cs ∧
      (installs s plan out).unpacked = cs.foldl note s.unpacked ∧
      ∀ c ∈ cs, Clean c.1 ∧ ∀ v, c.2 = some v → Clean v := by
  induction plan generalizing s out with
  | nil => exact ⟨[], (List.append_nil _).symm, rfl, fun c hc => nomatch hc⟩
  | cons p ps ih =>
    obtain ⟨hp, hps⟩ := List.forall_mem_cons.1 hplan
    have hc : ∀ v, replaced s.db p.line.name = some v → Clean v := fun v hv => by
      obtain ⟨i, hi, rfl⟩ := replaced_mem hv
      exact hdb i hi
    unfold installs
    cases out 0 with
    | failed => exact ⟨[], (List.append_nil _).symm, rfl, fun c hc => nomatch hc⟩
    | unsaved =>
      refine ⟨[(p.line.name, replaced s.db p.line.name)], rfl, rfl, fun c hmem => ?_⟩
      rw [List.mem_singleton.1 hmem]
      exact ⟨hp.1, hc⟩
    | done =>
      have hdb' : ∀ i ∈ saved s.db p, Clean i.ver := fun i hi => by
        rcases mem_saved hi with hi | hi
        · exact hdb i hi
        · rw [hi]
          exact hp.2
      obtain ⟨cs, hwent, hnote, hclean⟩ := ih
        (s := ⟨saved s.db p, note s.unpacked (p.line.name, replaced s.db p.line.name),
          s.went ++ [(p.line.name, replaced s.db p.line.name)]⟩) (fun n => out (n + 1)) hdb' hps
      refine ⟨(p.line.name, replaced s.db p.line.name) :: cs, ?_, hnote, ?_⟩
      · exact hwent.trans (List.append_assoc _ _ _)
      · exact List.forall_mem_cons.2 ⟨⟨hp.1, hc⟩, hclean⟩

theorem configured_unpacking (h : CleanPlan db plan)
    (out : ℕ → Outcome) :
    configured (unpacking db plan out).unpacked = hears 0 (unpacking db plan out).went ∧
      joined (unpacking db plan out).unpacked = (unpacking db plan out).unpacked := by
  obtain ⟨cs, hwent, hnote, hclean⟩ := installs_spec (s := ⟨db, [], []⟩) out h.db
    fun p hp => ⟨h.name p (List.mem_reverse.1 hp), h.ver p (List.mem_reverse.1 hp)⟩
  unfold unpacking
  rw [hnote, hwent]
  exact configured_foldl hclean

theorem not_configured (h : CleanPlan db plan)
    {out : ℕ → Outcome} (hfits : ¬FitsAt 0 (unpacking db plan out).went) :
    configured (unpacking db plan out).unpacked ≠ (unpacking db plan out).went := by
  rw [(configured_unpacking h out).1]
  exact fun heq => hfits ((hears_eq_iff 0 _).1 heq).1

/-- **`configure` runs for exactly the packages that were unpacked, once each and in that order, with the
version each replaced, exactly where they all fit in `unpacked` and each can be told of**, whatever
becomes of the plan's packages. -/
theorem configured_iff {db : List Inst} {plan : List Planned} (h : CleanPlan db plan)
    (out : ℕ → Outcome) :
    configured (unpacking db plan out).unpacked = (unpacking db plan out).went ↔
      FitsAt 0 (unpacking db plan out).went ∧ ∀ c ∈ (unpacking db plan out).went, Told c := by
  rw [(configured_unpacking h out).1]
  exact hears_eq_iff 0 _

/-- One package upgraded and one new. -/
theorem configured_iff_upgrade :
    configured (unpacking [⟨text "a", text "1", [], [], true, false⟩]
      [⟨⟨text "a", text "2", text "b", []⟩, true⟩, ⟨⟨text "b", text "1", [], []⟩, false⟩]
      fun _ => .done).unpacked = [(text "b", none), (text "a", some (text "1"))] := by
  have hwent : (unpacking [⟨text "a", text "1", [], [], true, false⟩]
      [⟨⟨text "a", text "2", text "b", []⟩, true⟩, ⟨⟨text "b", text "1", [], []⟩, false⟩]
      fun _ => .done).went = [(text "b", none), (text "a", some (text "1"))] := by decide
  rw [← hwent]
  refine (configured_iff ⟨?_, ?_, ?_⟩ fun _ => .done).2 ?_
  · unfold Clean
    decide
  · unfold Clean
    decide
  · unfold Clean
    decide
  · rw [hwent]
    refine ⟨by decide, fun c hc => ?_⟩
    fin_cases hc
    · exact ⟨by decide, fun v hv => nomatch hv⟩
    · refine ⟨by decide, fun v hv => ?_⟩
      obtain rfl := Option.some.inj hv
      decide

/-- The `i`-th of packages with names of 127 characters. -/
def longNamed (i : ℕ) : Planned :=
  ⟨⟨UInt8.ofNat (97 + i / 16) :: UInt8.ofNat (97 + i % 16) :: List.replicate 125 97, text "1", [], []⟩,
    true⟩

theorem longNamed_inj {i j : ℕ} (hi : i < 126) (hj : j < 126)
    (h : (longNamed i).line.name = (longNamed j).line.name) : i = j := by
  obtain ⟨hfirst, hrest⟩ := List.cons.inj h
  obtain ⟨hsecond, -⟩ := List.cons.inj hrest
  have h1 := congrArg UInt8.toNat hfirst
  have h2 := congrArg UInt8.toNat hsecond
  simp only [UInt8.toNat_ofNat'] at h1 h2
  omega

/-- A plan of 126 packages whose names are as long as the index has room for: the last to be unpacked
is not configured. -/
theorem exists_not_configured : ∃ plan : List Planned, plan.length ≤ planRoom ∧
    (plan.map fun p => p.line.name).Nodup ∧ CleanPlan [] plan ∧
    configured (unpacking [] plan fun _ => .done).unpacked ≠ (unpacking [] plan fun _ => .done).went := by
  have hclean : CleanPlan [] ((List.range 126).map longNamed) := by
    refine ⟨fun i hi => (nomatch hi), ?_, ?_⟩
    · unfold Clean
      decide +kernel
    · unfold Clean
      decide +kernel
  have hfull : ¬FitsAt 0 (unpacking [] ((List.range 126).map longNamed) fun _ => .done).went := by
    decide +kernel
  have hnodup : (((List.range 126).map longNamed).map fun p => p.line.name).Nodup := by
    rw [List.map_map]
    exact List.nodup_range.map_on fun i hi j hj =>
      longNamed_inj (List.mem_range.1 hi) (List.mem_range.1 hj)
  exact ⟨_, by decide +kernel, hnodup, hclean, not_configured hclean hfull⟩

end BaxOS.Tuxpac
