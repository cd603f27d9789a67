import BaxOS.Fs.Names
import Mathlib.Logic.Relation

/-!
# Resolving a path

`resolve_any` walks a path a part at a time. A turn leaves less to walk or uses up one of 40 links, so the
walk ends (`walkOn_walks`); what it has made is a way of parts through folders (`Way`), and one whose every
part was looked up and found no link is walked again to the same name (`walks_way`).
-/

namespace BaxOS.Fs
open ByteStore

/-! ### A turn -/

/-- The part the walk is at. -/
def Walk.part (w : Walk) : Name := w.walk.takeWhile (· ≠ slash)

/-- What is left behind it: the rest of the path from the slash on, if there is one. -/
def Walk.rest (w : Walk) : Name := w.walk.drop w.part.length

/-- A part that is the name of something. -/
structure Part (p : Name) : Prop where
  ne : p ≠ []
  ne_dot : p ≠ [dot]
  ne_dots : p ≠ [dot, dot]
  slash : slash ∉ p
  nul : 0 ∉ p

/-- The link of a name, if it is one. -/
def linkNamed (s : State) (n : Name) : Option Slot := (find s n).filter (isLink ·.size)

/-- The link a part is taken for: the last one only where the caller asks. -/
def Walk.link (s : State) (follow : Bool) (w : Walk) : Option Slot :=
  if w.rest ≠ [] ∨ follow = true then linkNamed s (w.full ++ w.part) else none

/-- What is walked once a link is swapped for what it holds. -/
def Walk.swapped (s : State) (w : Walk) (l : Slot) : Name :=
  untilNul (sectorBytes s l.start (bytesOf l.size) ++ w.rest)

/-- What a turn of the loop makes of a walk. -/
inductive WalkTurn (s : State) (follow : Bool) (w : Walk) : Except Err Walk → Prop
  | skip (h : w.part = [] ∨ w.part = [dot]) : WalkTurn s follow w (.ok { w with walk := w.rest.drop 1 })
  | up (h : w.part = [dot, dot]) :
      WalkTurn s follow w (.ok { w with full := upOne w.full, walk := w.rest.drop 1 })
  | long (h : fsNameLen < w.full.length + w.part.length + 2) : WalkTurn s follow w (.error .einval)
  | loops (l : Slot) (hl : w.link s follow = some l) (h : fsLinks < w.links + 1) :
      WalkTurn s follow w (.error .eloop)
  | wide (l : Slot) (hl : w.link s follow = some l) (h : walkMax < bytesOf l.size + w.rest.length + 1) :
      WalkTurn s follow w (.error .einval)
  | link (l : Slot) (hfit : w.full.length + w.part.length + 2 ≤ fsNameLen) (hl : w.link s follow = some l)
      (hlinks : w.links + 1 ≤ fsLinks) (hroom : bytesOf l.size + w.rest.length + 1 ≤ walkMax) :
      WalkTurn s follow w (.ok ⟨w.links + 1, if (w.swapped s l).head? = some slash then [] else w.full,
        w.swapped s l⟩)
  | enter (h1 : w.part ≠ []) (h2 : w.part ≠ [dot]) (h3 : w.part ≠ [dot, dot])
      (hfit : w.full.length + w.part.length + 2 ≤ fsNameLen) (hl : w.link s follow = none) :
      WalkTurn s follow w (.ok { w with
        full := if w.rest = [] then w.full ++ w.part else w.full ++ w.part ++ [slash], walk := w.rest.drop 1 })

theorem walkPart_turn (s : State) (follow : Bool) (w : Walk) : WalkTurn s follow w (walkPart s follow w) := by
  unfold walkPart
  dsimp only
  rw [← Walk.part, ← Walk.rest]
  by_cases h1 : w.part = []
  · rw [if_pos h1]
    exact .skip (.inl h1)
  by_cases h2 : w.part = [dot]
  · rw [if_neg h1, if_pos h2]
    exact .skip (.inr h2)
  by_cases h3 : w.part = [dot, dot]
  · rw [if_neg h1, if_neg h2, if_pos h3]
    exact .up h3
  by_cases h4 : fsNameLen < w.full.length + w.part.length + 2
  · rw [if_neg h1, if_neg h2, if_neg h3, if_pos h4]
    exact .long h4
  rw [if_neg h1, if_neg h2, if_neg h3, if_neg h4]
  have hlink : (if !w.rest.isEmpty || follow then (find s (w.full ++ w.part)).filter (isLink ·.size) else none) =
      w.link s follow := by
    unfold Walk.link linkNamed
    exact if_congr (by simp) rfl rfl
  rw [hlink]
  cases hl : w.link s follow with
  | some l =>
    dsimp only
    by_cases h5 : fsLinks < w.links + 1
    · rw [if_pos h5]
      exact .loops l hl h5
    by_cases h6 : walkMax < bytesOf l.size + w.rest.length + 1
    · rw [if_neg h5, if_pos h6]
      exact .wide l hl h6
    rw [if_neg h5, if_neg h6]
    exact .link l (not_lt.1 h4) hl (not_lt.1 h5) (not_lt.1 h6)
  | none =>
    have henter := @WalkTurn.enter s follow w h1 h2 h3 (not_lt.1 h4) hl
    cases hrest : w.rest with
    | nil =>
      rw [hrest] at henter
      exact henter
    | cons c rest =>
      rw [hrest] at henter
      exact henter

/-! ### The walk ends -/

/-- A walk to its end, without a bound on its turns. -/
inductive Walks (s : State) (follow : Bool) : Walk → Except Err Name → Prop
  | done (w : Walk) (h : w.walk = []) : Walks s follow w (.ok w.full)
  | failed (w : Walk) (e : Err) (h : w.walk ≠ []) (ht : walkPart s follow w = .error e) :
      Walks s follow w (.error e)
  | turned (w w' : Walk) (r : Except Err Name) (h : w.walk ≠ []) (ht : walkPart s follow w = .ok w')
      (hw : Walks s follow w' r) : Walks s follow w r

/-- A walk comes to another after some turns. -/
def Reaches (s : State) (follow : Bool) : Walk → Walk → Prop :=
  Relation.ReflTransGen fun w w' => w.walk ≠ [] ∧ walkPart s follow w = .ok w'

/-- Turns a walk can take: a byte is walked in each, and each link left brings a walk of its own. -/
def Walk.left (w : Walk) : ℕ := (fsLinks - w.links) * (walkMax + 1) + w.walk.length

section Walking

variable {s : State} {follow : Bool} {w w' : Walk} {r r' : Except Err Name}

theorem Walk.rest_length (h : w.walk ≠ []) : (w.rest.drop 1).length < w.walk.length := by
  unfold Walk.rest
  rw [List.length_drop, List.length_drop]
  have := List.length_pos_iff.2 h
  omega

theorem WalkTurn.left_lt (ht : WalkTurn s follow w (.ok w')) (h : w.walk ≠ []) (hl : w.links ≤ fsLinks) :
    w'.left < w.left ∧ w'.links ≤ fsLinks := by
  have hrest := Walk.rest_length h
  cases ht with
  | skip => exact ⟨Nat.add_lt_add_left hrest _, hl⟩
  | up => exact ⟨Nat.add_lt_add_left hrest _, hl⟩
  | enter => exact ⟨Nat.add_lt_add_left hrest _, hl⟩
  | link l hfit hlink hlinks hroom =>
    refine ⟨?_, hlinks⟩
    have hlen : (w.swapped s l).length ≤ walkMax := by
      unfold Walk.swapped untilNul
      have hsub := (takeWhile_sublist (· ≠ 0) (sectorBytes s l.start (bytesOf l.size) ++ w.rest)).length_le
      have hsize : (sectorBytes s l.start (bytesOf l.size)).length = bytesOf l.size := by
        rw [sectorBytes, List.length_map, List.length_range]
      rw [List.length_append, hsize] at hsub
      omega
    unfold Walk.left
    have hsub : fsLinks - w.links = fsLinks - (w.links + 1) + 1 := by omega
    rw [hsub, Nat.succ_mul]
    dsimp only
    omega

/-- **A walk ends,** and well before the turns run out. -/
theorem walkOn_walks {fuel : ℕ} (hl : w.links ≤ fsLinks) (hf : w.left < fuel) :
    Walks s follow w (walkOn s follow fuel w) := by
  induction fuel generalizing w with
  | zero => exact absurd hf (Nat.not_lt_zero _)
  | succ fuel ih =>
    unfold walkOn
    by_cases h : w.walk = []
    · rw [if_pos h]
      exact .done w h
    · rw [if_neg h]
      cases ht : walkPart s follow w with
      | error e => exact .failed w e h ht
      | ok w' =>
        have hturn := walkPart_turn s follow w
        rw [ht] at hturn
        obtain ⟨hlt, hl'⟩ := hturn.left_lt h hl
        exact .turned w w' _ h ht (ih hl' (by omega))

theorem Walks.unique (h : Walks s follow w r) (h' : Walks s follow w r') : r = r' := by
  induction h with
  | done w h =>
    cases h' with
    | done => rfl
    | failed _ _ hne => exact absurd h hne
    | turned _ _ _ hne => exact absurd h hne
  | failed w e h ht =>
    cases h' with
    | done _ hnil => exact absurd hnil h
    | failed _ _ _ ht' => exact congrArg _ (Except.error.inj (ht.symm.trans ht'))
    | turned _ _ _ _ ht' => exact absurd (ht.symm.trans ht') (by simp)
  | turned w w1 r h ht hw ih =>
    cases h' with
    | done _ hnil => exact absurd hnil h
    | failed _ _ _ ht' => exact absurd (ht.symm.trans ht') (by simp)
    | turned _ w2 _ _ ht' hw' =>
      obtain rfl := Except.ok.inj (ht.symm.trans ht')
      exact ih hw'

/-- **At most 40 links are followed.** -/
theorem Reaches.links_le (h : Reaches s follow w w') (hl : w.links ≤ fsLinks) : w'.links ≤ fsLinks := by
  induction h with
  | refl => exact hl
  | @tail w1 w2 _ ht ih =>
    have hturn := walkPart_turn s follow w1
    rw [ht.2] at hturn
    exact (hturn.left_lt ht.1 ih).2

end Walking

/-- Where the walk of a path starts. -/
def startWalk (s : State) (path : Name) : Walk := ⟨0, if path.head? = some slash then [] else s.cwd, path⟩

/-- What `resolve_any` answers is where the walk ends. -/
theorem resolveAny_walks {s : State} {path : Name} {follow : Bool} (hne : path ≠ []) (hlen : path.length < walkMax) :
    Walks s follow (startWalk s path) (resolveAny s path follow) := by
  unfold resolveAny
  rw [if_neg (not_or_intro hne (Nat.not_le.2 hlen))]
  refine walkOn_walks (Nat.zero_le _) ?_
  simp only [Walk.left, startWalk, walkFuel, fsLinks, walkMax, fsNameLen, fsLinkLen] at *
  omega

/-! ### What a walk makes -/

/-- The name of the folder at the end of some parts, the last first. -/
def folderOf : List Name → Name
  | [] => []
  | p :: ps => folderOf ps ++ (p ++ [slash])

/-- Parts that each are one, and that were found to be so where they are. -/
def Way (P : List Name → Name → Prop) : List Name → Prop
  | [] => True
  | p :: ps => Way P ps ∧ Part p ∧ P ps p

/-- A walk's name is a way through folders, and perhaps something in the last of them. -/
inductive OnWay (P : List Name → Name → Prop) (w : Walk) : Prop
  | folder (ps : List Name) (h : Way P ps) (hfull : w.full = folderOf ps)
  | last (ps : List Name) (p : Name) (h : Way P ps) (hp : Part p) (hP : P ps p) (hwalk : w.walk = [])
      (hfull : w.full = folderOf ps ++ p) (hroom : w.full.length + 2 ≤ fsNameLen)

section Ways

variable {P : List Name → Name → Prop} {s : State} {follow : Bool} {w w' : Walk}

theorem upOne_folderOf {p : Name} (ps : List Name) (hp : slash ∉ p) : upOne (folderOf (p :: ps)) = folderOf ps := by
  have hrev : ∀ c ∈ p.reverse, (fun c => decide (c ≠ slash)) c = true := by
    intro c hc
    refine decide_eq_true ?_
    rintro rfl
    exact hp (List.mem_reverse.1 hc)
  have hfolder : (folderOf ps).reverse.dropWhile (· ≠ slash) = (folderOf ps).reverse := by
    cases ps with
    | nil => rfl
    | cons q ps =>
      rw [folderOf, ← List.append_assoc, List.reverse_append]
      exact List.dropWhile_cons_of_neg (p := fun c => decide (c ≠ slash)) (by simp)
  unfold upOne
  rw [folderOf, ← List.append_assoc, List.dropLast_concat, List.reverse_append,
    List.dropWhile_append_of_pos hrev, hfolder, List.reverse_reverse]

theorem Walk.part_part (hnul : 0 ∉ w.walk) (h1 : w.part ≠ []) (h2 : w.part ≠ [dot]) (h3 : w.part ≠ [dot, dot]) :
    Part w.part where
  ne := h1
  ne_dot := h2
  ne_dots := h3
  slash := fun h => absurd (List.mem_takeWhile_imp h) (by simp)
  nul := notMem_of_sublist (takeWhile_sublist _ _) hnul

/-- **A turn keeps to ways,** of parts for which what was looked up says so. -/
theorem WalkTurn.onWay (ht : WalkTurn s follow w (.ok w')) (hw : OnWay P w) (hne : w.walk ≠ []) (hnul : 0 ∉ w.walk)
    (hP : ∀ ps, Way P ps → w.full = folderOf ps → Part w.part → w.link s follow = none → P ps w.part) :
    OnWay P w' := by
  obtain ⟨ps, hps, hfull⟩ : ∃ ps, Way P ps ∧ w.full = folderOf ps := by
    cases hw with
    | folder ps h hfull => exact ⟨ps, h, hfull⟩
    | last _ _ _ _ _ hnil => exact absurd hnil hne
  cases ht with
  | skip => exact .folder ps hps hfull
  | up =>
    cases ps with
    | nil => exact .folder [] trivial (by rw [hfull]; rfl)
    | cons p ps => exact .folder ps hps.1 (by rw [hfull]; exact upOne_folderOf ps hps.2.1.slash)
  | link l =>
    by_cases hroot : (w.swapped s l).head? = some slash
    · exact .folder [] trivial (if_pos hroot)
    · exact .folder ps hps ((if_neg hroot).trans hfull)
  | enter h1 h2 h3 hfit hl =>
    have hpart := Walk.part_part hnul h1 h2 h3
    have hPp := hP ps hps hfull hpart hl
    by_cases hrest : w.rest = []
    · refine .last ps w.part hps hpart hPp (by simp [hrest]) (by simp [hrest, hfull]) ?_
      simpa [hrest, Nat.add_assoc] using hfit
    · refine .folder (w.part :: ps) ⟨hps, hpart, hPp⟩ ?_
      simp [hrest, hfull, folderOf]

/-- **Where a walk on a way ends, its name is one.** -/
theorem Walks.onWay {r : Except Err Name} (h : Walks s follow w r) (hw : OnWay P w) (hok : WalkOk w)
    (hP : ∀ w : Walk, ∀ ps, Way P ps → w.full = folderOf ps → Part w.part → w.link s follow = none → P ps w.part)
    {n : Name} (hr : r = .ok n) :
    n.length < fsNameLen ∧ ∃ ps, Way P ps ∧
      (n = folderOf ps ∨ ∃ p, Part p ∧ P ps p ∧ n = folderOf ps ++ p ∧ n.length + 2 ≤ fsNameLen) := by
  induction h with
  | done w hnil =>
    obtain rfl := Except.ok.inj hr
    refine ⟨hok.fits, ?_⟩
    cases hw with
    | folder ps h hfull => exact ⟨ps, h, .inl hfull⟩
    | last ps p h hp hPp _ hfull hroom => exact ⟨ps, h, .inr ⟨p, hp, hPp, hfull, hroom⟩⟩
  | failed => exact nomatch hr
  | turned w w' r hne ht _ ih =>
    have hturn := walkPart_turn s follow w
    rw [ht] at hturn
    exact ih (hturn.onWay hw hne hok.walk (hP w)) (walkPart_ok hok ht) hr

/-! ### A way walked again -/

/-- A part that is no link, where it is. -/
def NoLink (s : State) (ps : List Name) (p : Name) : Prop := linkNamed s (folderOf ps ++ p) = none

theorem part_append {p t : Name} (hp : slash ∉ p) (ht : t = [] ∨ t.head? = some slash) (links : ℕ) (full : Name) :
    (Walk.mk links full (p ++ t)).part = p ∧ (Walk.mk links full (p ++ t)).rest = t := by
  have hpart : (Walk.mk links full (p ++ t)).part = p := by
    have hall : ∀ c ∈ p, (fun c => decide (c ≠ slash)) c = true := by
      intro c hc
      refine decide_eq_true ?_
      rintro rfl
      exact hp hc
    have hstop : t.takeWhile (fun c => decide (c ≠ slash)) = [] := by
      cases t with
      | nil => rfl
      | cons c t =>
        obtain rfl : c = slash := by simpa using ht
        exact List.takeWhile_cons_of_neg (by simp)
    unfold Walk.part
    rw [List.takeWhile_append_of_pos hall, hstop, List.append_nil]
  refine ⟨hpart, ?_⟩
  unfold Walk.rest
  rw [hpart]
  exact List.drop_left

/-- The turn at a part that is no link. -/
theorem walkPart_enter {links : ℕ} {full p t : Name} (hp : Part p) (ht : t = [] ∨ t.head? = some slash)
    (hfit : full.length + p.length + 2 ≤ fsNameLen) (hl : linkNamed s (full ++ p) = none) :
    walkPart s follow ⟨links, full, p ++ t⟩ =
      .ok ⟨links, if t = [] then full ++ p else full ++ p ++ [slash], t.drop 1⟩ := by
  have hturn := walkPart_turn s follow ⟨links, full, p ++ t⟩
  obtain ⟨hpart, hrest⟩ := part_append hp.slash ht links full
  have hlink : (Walk.mk links full (p ++ t)).link s follow = none := by
    unfold Walk.link
    rw [hpart]
    split_ifs
    · exact hl
    · rfl
  generalize walkPart s follow ⟨links, full, p ++ t⟩ = r at hturn ⊢
  cases hturn with
  | skip h =>
    rw [hpart] at h
    exact absurd h (not_or_intro hp.ne hp.ne_dot)
  | up h => exact absurd (hpart.symm.trans h) hp.ne_dots
  | long h =>
    rw [hpart] at h
    exact absurd hfit (Nat.not_le.2 h)
  | loops l h => exact nomatch hlink.symm.trans h
  | wide l h => exact nomatch hlink.symm.trans h
  | link l _ h => exact nomatch hlink.symm.trans h
  | enter h1 h2 h3 hfit' hl' => rw [hpart, hrest]

theorem folderOf_length {p : Name} (ps : List Name) :
    (folderOf (p :: ps)).length = (folderOf ps).length + p.length + 1 := by
  rw [folderOf, List.length_append, List.length_append, List.length_singleton, Nat.add_assoc]

/-- A walk through the folders of a way comes to its end. -/
theorem walks_folders {ps : List Name} {t : Name} {r : Except Err Name} (hps : Way (NoLink s) ps)
    (hfit : (folderOf ps).length < fsNameLen) (h : Walks s follow ⟨0, folderOf ps, t⟩ r) :
    Walks s follow ⟨0, [], folderOf ps ++ t⟩ r := by
  induction ps generalizing t with
  | nil => exact h
  | cons p ps ih =>
    obtain ⟨hps, hp, hlink⟩ := hps
    rw [folderOf_length] at hfit
    have hstep := @walkPart_enter s follow 0 _ _ (slash :: t) hp (.inr rfl)
      (show (folderOf ps).length + p.length + 2 ≤ fsNameLen by omega) hlink
    have hne : p ++ slash :: t ≠ [] := by simp
    rw [folderOf, List.append_assoc, List.append_assoc]
    refine ih hps (by omega) (.turned _ _ _ hne hstep ?_)
    rw [folderOf, ← List.append_assoc] at h
    exact h

/-- **A way of no links is walked to its own name.** -/
theorem walks_way {ps : List Name} {n : Name} (hps : Way (NoLink s) ps) (hfit : n.length < fsNameLen)
    (hn : n = folderOf ps ∨
      ∃ p, Part p ∧ NoLink s ps p ∧ n = folderOf ps ++ p ∧ n.length + 2 ≤ fsNameLen) :
    Walks s follow ⟨0, [], n⟩ (.ok n) := by
  rcases hn with rfl | ⟨p, hp, hlink, rfl, hroom⟩
  · have := @walks_folders s follow _ _ _ hps hfit (.done ⟨0, folderOf ps, []⟩ rfl)
    rwa [List.append_nil] at this
  · rw [List.length_append] at hfit hroom
    refine walks_folders hps (by omega) ?_
    have hstep := @walkPart_enter s follow 0 _ _ _ hp (.inl rfl)
      (show (folderOf ps).length + p.length + 2 ≤ fsNameLen by omega) hlink
    rw [List.append_nil] at hstep
    exact .turned _ _ _ hp.ne hstep (.done _ rfl)

end Ways

/-! ### Names -/

/-- A whole path with nothing in it to be walked away: no slash in front, no part that is empty, `.` or `..`. -/
structure Canonical (n : Name) : Prop where
  fits : n.length < fsNameLen
  parts : ∃ ps, (∀ p ∈ ps, Part p) ∧ (n = folderOf ps ∨ ∃ p, Part p ∧ n = folderOf ps ++ p)

/-- The name of a folder with nothing in it to be walked away; that of the root is empty. -/
structure CanonicalFolder (n : Name) : Prop where
  fits : n.length < fsNameLen
  parts : ∃ ps, (∀ p ∈ ps, Part p) ∧ n = folderOf ps

/-- No folder on the way to one is named by a link. -/
def Unlinked (s : State) (n : Name) : Prop :=
  ∀ ps p qs, (∀ q ∈ qs ++ p :: ps, Part q) → n = folderOf (qs ++ p :: ps) → NoLink s ps p

theorem way_true {ps : List Name} : Way (fun _ _ => True) ps ↔ ∀ p ∈ ps, Part p := by
  induction ps with
  | nil => simp [Way]
  | cons p ps ih => simp [Way, ih, and_comm]

theorem way_of_unlinked {s : State} {ps : List Name} (hps : ∀ p ∈ ps, Part p)
    (h : Unlinked s (folderOf ps)) : Way (NoLink s) ps := by
  have hway : ∀ qs rs, ps = qs ++ rs → Way (NoLink s) rs := by
    intro qs rs
    induction rs generalizing qs with
    | nil => exact fun _ => trivial
    | cons p rs ih =>
      intro heq
      refine ⟨ih (qs ++ [p]) (by simp [heq]), hps p (by simp [heq]), ?_⟩
      exact h rs p qs (heq ▸ hps) (by rw [heq])
  exact hway [] ps rfl

theorem folderOf_nul {ps : List Name} (h : ∀ p ∈ ps, Part p) : 0 ∉ folderOf ps := by
  induction ps with
  | nil => exact List.not_mem_nil
  | cons p ps ih =>
    have hp := h p List.mem_cons_self
    have hps := ih fun q hq => h q (List.mem_cons_of_mem _ hq)
    simp only [folderOf, List.mem_append, List.mem_singleton, not_or]
    exact ⟨hps, hp.nul, slash_ne_zero.symm⟩

theorem CanonicalFolder.nul {n : Name} (h : CanonicalFolder n) : 0 ∉ n := by
  obtain ⟨ps, hps, rfl⟩ := h.parts
  exact folderOf_nul hps

theorem startWalk_ok {s : State} {path : Name} (hc : CanonicalFolder s.cwd) (hp : 0 ∉ path) :
    WalkOk (startWalk s path) := by
  unfold startWalk
  split_ifs
  · exact ⟨List.not_mem_nil, by norm_num [fsNameLen], hp⟩
  · exact ⟨hc.nul, hc.fits, hp⟩

/-- A walk starts on a way, if the working directory is one. -/
theorem startWalk_onWay {P : List Name → Name → Prop} {s : State} {path : Name}
    (h : path.head? = some slash ∨ ∃ ps, Way P ps ∧ s.cwd = folderOf ps) : OnWay P (startWalk s path) := by
  unfold startWalk
  by_cases hroot : path.head? = some slash
  · rw [if_pos hroot]
    exact .folder [] trivial rfl
  · obtain ⟨ps, hps, hcwd⟩ := h.resolve_left hroot
    rw [if_neg hroot]
    exact .folder ps hps hcwd

theorem resolveAny_ok_walks {s : State} {path n : Name} {follow : Bool} (h : resolveAny s path follow = .ok n) :
    Walks s follow (startWalk s path) (.ok n) := by
  have hpath : ¬ (path = [] ∨ walkMax ≤ path.length) := by
    intro hbad
    unfold resolveAny at h
    rw [if_pos hbad] at h
    exact nomatch h
  rw [not_or, not_le] at hpath
  rw [← h]
  exact resolveAny_walks hpath.1 hpath.2

/-- **Resolving is canonical**, for any working directory that is. -/
theorem resolveAny_canonical {s : State} {path n : Name} {follow : Bool} (hc : CanonicalFolder s.cwd)
    (hp : 0 ∉ path) (h : resolveAny s path follow = .ok n) : Canonical n := by
  obtain ⟨ps, hps, hcwd⟩ := hc.parts
  have hstart : OnWay (fun _ _ => True) (startWalk s path) :=
    startWalk_onWay (.inr ⟨ps, way_true.2 hps, hcwd⟩)
  obtain ⟨hfits, ps, hway, hn⟩ :=
    (resolveAny_ok_walks h).onWay hstart (startWalk_ok hc hp) (fun _ _ _ _ _ _ => trivial) rfl
  refine ⟨hfits, ps, way_true.1 hway, hn.imp id ?_⟩
  rintro ⟨p, hp, -, hn, -⟩
  exact ⟨p, hp, hn⟩

/-- **Resolving is stable** where links are followed, also those the working directory is in. -/
theorem resolveAny_stable {s : State} {path n : Name} (hc : CanonicalFolder s.cwd) (hp : 0 ∉ path)
    (hlinks : path.head? = some slash ∨ Unlinked s s.cwd) (h : resolveAny s path true = .ok n) :
    resolveAny s (slash :: n) true = .ok n := by
  have hstart : OnWay (NoLink s) (startWalk s path) := by
    refine startWalk_onWay (hlinks.imp id fun hcwd => ?_)
    obtain ⟨ps, hps, heq⟩ := hc.parts
    exact ⟨ps, way_of_unlinked hps (heq ▸ hcwd), heq⟩
  have hlook : ∀ w : Walk, ∀ ps, Way (NoLink s) ps → w.full = folderOf ps → Part w.part →
      w.link s true = none → NoLink s ps w.part := by
    intro w ps _ hfull _ hl
    unfold Walk.link at hl
    rw [if_pos (.inr rfl), hfull] at hl
    exact hl
  obtain ⟨hfits, ps, hway, hn⟩ := (resolveAny_ok_walks h).onWay hstart (startWalk_ok hc hp) hlook rfl
  have hskip : walkPart s true ⟨0, [], slash :: n⟩ = .ok ⟨0, [], n⟩ := by
    unfold walkPart
    rw [List.takeWhile_cons_of_neg (by simp), if_pos rfl]
    rfl
  have hwalk : Walks s true (startWalk s (slash :: n)) (.ok n) :=
    .turned _ _ _ (by simp [startWalk]) hskip (walks_way hway hfits hn)
  have hlen : (slash :: n).length < walkMax := by
    simp only [List.length_cons, walkMax, fsNameLen, fsLinkLen] at *
    omega
  exact (resolveAny_walks (List.cons_ne_nil _ _) hlen).unique hwalk

end BaxOS.Fs
