import Mathlib.Data.List.GetD
import BaxOS.Fs.Resolving
import BaxOS.Fs.Disjoint

/-!
# The buffers a path is walked in

`resolve_any` makes the name in `full` and walks the path in `walk`, which it writes anew at a link. Here the
two are as long as they are, and a write that does not fit gives nothing: what `resolve_any` does is the walk
of `walkPart`, and every write fits (`resolveIn_eq`).
-/

namespace BaxOS.Fs
open ByteStore

/-- An array with bytes copied into it, where they fit. -/
def copyTo (buf : List UInt8) (i : ℕ) (bytes : List UInt8) : Option (List UInt8) :=
  if i + bytes.length ≤ buf.length then some (buf.take i ++ (bytes ++ buf.drop (i + bytes.length))) else none

/-- The string at a place of an array. -/
def stringAt (buf : List UInt8) (i : ℕ) : Name := untilNul (buf.drop i)

/-- The locals of `resolve_any`, and its buffers. -/
structure Buffers where
  links : ℕ
  n : ℕ
  p : ℕ
  full : List UInt8
  walk : List UInt8

/-- Back from `n` to behind a slash, or to the start. -/
def backFrom (full : List UInt8) : ℕ → ℕ
  | 0 => 0
  | n + 1 => if full.getD n 0 = slash then n + 1 else backFrom full n

/-- One turn of the loop. -/
def bufferTurn (s : State) (follow : Bool) (b : Buffers) : Option (Except Err Buffers) :=
  let left := stringAt b.walk b.p
  let part := left.takeWhile (· ≠ slash)
  let rest := left.drop part.length
  let next := if rest ≠ [] then b.p + part.length + 1 else b.p + part.length
  if part = [] then some (.ok { b with p := b.p + 1 })
  else if part = [dot] then some (.ok { b with p := next })
  else if part = [dot, dot] then some (.ok { b with n := backFrom b.full (b.n - 1), p := next })
  else if fsNameLen < b.n + part.length + 2 then some (.error .einval)
  else do
    let full ← copyTo b.full b.n part
    let full ← copyTo full (b.n + part.length) [0]
    match (if rest ≠ [] ∨ follow = true then linkNamed s (stringAt full 0) else none) with
    | some l =>
      let size := bytesOf l.size
      if fsLinks < b.links + 1 then some (.error .eloop)
      else if walkMax < size + rest.length + 1 then some (.error .einval)
      else do
        let walk ← copyTo b.walk size (rest ++ [0])
        let walk ← copyTo walk 0 (sectorBytes s l.start size)
        some (.ok ⟨b.links + 1, if walk.head? = some slash then 0 else b.n, 0, full, walk⟩)
    | none =>
      if rest ≠ [] then do
        let full ← copyTo full (b.n + part.length) [slash]
        some (.ok { b with n := b.n + part.length + 1, p := next, full })
      else some (.ok { b with n := b.n + part.length, p := next, full })

/-- The loop, and the end of the name; nothing where the turns run out. -/
def bufferWalk (s : State) (follow : Bool) : ℕ → Buffers → Option (Except Err Name)
  | 0, _ => none
  | fuel + 1, b =>
    if stringAt b.walk b.p = [] then do
      let full ← copyTo b.full b.n [0]
      some (.ok (stringAt full 0))
    else do
      match ← bufferTurn s follow b with
      | .error e => some (.error e)
      | .ok b => bufferWalk s follow fuel b

/-- `resolve_any`, with what its buffers held before. -/
def resolveIn (full walk : List UInt8) (s : State) (path : Name) (follow : Bool) : Option (Except Err Name) :=
  if path = [] ∨ walkMax ≤ path.length then some (.error .einval)
  else do
    let walk ← copyTo walk 0 (path ++ [0])
    if path.head? = some slash then bufferWalk s follow walkFuel ⟨0, 0, 0, full, walk⟩
    else do
      let full ← copyTo full 0 s.cwd
      bufferWalk s follow walkFuel ⟨0, s.cwd.length, 0, full, walk⟩

/-- What is in the buffers is a walk. -/
structure Stands (b : Buffers) (w : Walk) : Prop where
  links : b.links = w.links
  n : b.n = w.full.length
  full : ∃ t, b.full = w.full ++ t
  walk : ∃ u v, b.walk = u ++ (w.walk ++ 0 :: v) ∧ b.p = u.length
  length_full : b.full.length = fsNameLen
  length_walk : b.walk.length = walkMax

/-! ### Arrays -/

theorem copyTo_append {a t bytes : List UInt8} (h : bytes.length ≤ t.length) :
    copyTo (a ++ t) a.length bytes = some (a ++ (bytes ++ t.drop bytes.length)) := by
  unfold copyTo
  rw [if_pos (by rw [List.length_append]; omega), List.take_left, List.drop_append, List.drop_eq_nil_of_le (by omega),
    Nat.add_sub_cancel_left, List.nil_append]

theorem untilNul_append {a : Name} (h : 0 ∉ a) (t : List UInt8) : untilNul (a ++ 0 :: t) = a := by
  have hall : ∀ c ∈ a, (fun c => decide (c ≠ 0)) c = true := by
    intro c hc
    refine decide_eq_true ?_
    rintro rfl
    exact h hc
  unfold untilNul
  rw [List.takeWhile_append_of_pos hall, List.takeWhile_cons_of_neg (p := fun c => decide (c ≠ 0)) (by simp),
    List.append_nil]

/-- A string is followed by its NUL. -/
theorem exists_untilNul (a t : List UInt8) : ∃ v, a ++ 0 :: t = untilNul a ++ 0 :: v := by
  induction a with
  | nil => exact ⟨t, rfl⟩
  | cons c a ih =>
    by_cases hc : c = 0
    · subst hc
      exact ⟨a ++ 0 :: t, by simp [untilNul]⟩
    · obtain ⟨v, hv⟩ := ih
      refine ⟨v, ?_⟩
      unfold untilNul at hv ⊢
      rw [List.takeWhile_cons_of_pos (p := fun c => decide (c ≠ 0)) (by simpa using hc), List.cons_append, hv]
      rfl

theorem backFrom_eq {full : List UInt8} (t : List UInt8) {n : ℕ} (h : n ≤ full.length) :
    full.take (backFrom (full ++ t) n) = ((full.take n).reverse.dropWhile (· ≠ slash)).reverse ∧
      backFrom (full ++ t) n ≤ n := by
  induction n with
  | zero => exact ⟨rfl, le_rfl⟩
  | succ n ih =>
    have hget : (full ++ t).getD n 0 = full.getD n 0 := List.getD_append _ _ _ _ h
    have htake : (full.take (n + 1)).reverse = full.getD n 0 :: (full.take n).reverse := by
      rw [List.take_add_one, List.reverse_append, List.getD_eq_getElem _ _ h, List.getElem?_eq_getElem h]
      rfl
    rw [backFrom, hget, htake]
    by_cases hc : full.getD n 0 = slash
    · rw [if_pos hc, List.dropWhile_cons_of_neg (by simpa using hc), ← htake, List.reverse_reverse]
      exact ⟨rfl, le_rfl⟩
    · rw [if_neg hc, List.dropWhile_cons_of_pos (by simpa using hc)]
      obtain ⟨h1, h2⟩ := ih (by omega)
      exact ⟨h1, by omega⟩

/-- A link swapped for what it holds, in front of what is behind it. -/
theorem copyTo_swapped (s : State) (lba : ℕ) {buf rest : List UInt8} {size : ℕ}
    (h : size + rest.length + 1 ≤ buf.length) :
    ∃ v, ((copyTo buf size (rest ++ [0])).bind fun walk => copyTo walk 0 (sectorBytes s lba size)) =
        some (untilNul (sectorBytes s lba size ++ rest) ++ 0 :: v) ∧
      (untilNul (sectorBytes s lba size ++ rest) ++ 0 :: v).length = buf.length := by
  have hsize : (sectorBytes s lba size).length = size := by
    rw [sectorBytes, List.length_map, List.length_range]
  have hrest : copyTo buf size (rest ++ [0]) =
      some ([] ++ (buf.take size ++ (rest ++ [0] ++ buf.drop (size + (rest ++ [0]).length)))) := by
    refine if_pos ?_
    rw [List.length_append, List.length_singleton]
    omega
  have htake : (buf.take size).length = size := by
    rw [List.length_take]
    omega
  obtain ⟨v, hv⟩ := exists_untilNul (sectorBytes s lba size ++ rest) (buf.drop (size + (rest ++ [0]).length))
  refine ⟨v, ?_, ?_⟩
  · rw [hrest, Option.bind_some]
    refine (copyTo_append (a := []) ?_).trans ?_
    · rw [hsize, List.length_append, htake]
      omega
    · rw [hsize, List.drop_left' htake, List.nil_append, List.append_assoc, ← List.append_assoc]
      exact congrArg some hv
  · rw [← hv]
    simp only [List.length_append, List.length_cons, List.length_drop, List.length_nil, hsize]
    omega

/-! ### The turn -/

/-- A turn over the buffers is one of the walk. -/
def SameTurn (x : Option (Except Err Buffers)) (y : Except Err Walk) : Prop :=
  (∃ e, x = some (.error e) ∧ y = .error e) ∨ ∃ b w, x = some (.ok b) ∧ y = .ok w ∧ Stands b w

section Turns

variable {s : State} {follow : Bool} {b : Buffers} {w : Walk}

theorem Stands.stringAt (h : Stands b w) (hok : WalkOk w) : stringAt b.walk b.p = w.walk := by
  obtain ⟨u, v, hwalk, hp⟩ := h.walk
  unfold Fs.stringAt
  rw [hwalk, hp, List.drop_left]
  exact untilNul_append hok.walk v

/-- The walk past its part, and past the slash behind it if there is one. -/
theorem Stands.next (h : Stands b w) {k : ℕ} (hk : k ≤ w.walk.length) {full : List UInt8} {n : ℕ} {name : Name}
    (hn : n = name.length) (hfull : ∃ t, full = name ++ t) (hlen : full.length = fsNameLen) :
    Stands { b with n, p := b.p + k, full } { w with full := name, walk := w.walk.drop k } := by
  obtain ⟨u, v, hwalk, hp⟩ := h.walk
  refine ⟨h.links, hn, hfull, ⟨u ++ w.walk.take k, v, ?_, ?_⟩, hlen, h.length_walk⟩
  · rw [hwalk, List.append_assoc, ← List.append_assoc (w.walk.take k), List.take_append_drop]
  · rw [List.length_append, List.length_take, min_eq_left hk, ← hp]

/-- Where a turn goes on in the path. -/
theorem next_eq (hne : w.walk ≠ []) (p : ℕ) : ∃ k, k ≤ w.walk.length ∧ w.rest.drop 1 = w.walk.drop k ∧
    (if w.rest ≠ [] then p + w.part.length + 1 else p + w.part.length) = p + k ∧
      (w.part = [] → k = 1) := by
  have hrest : w.rest = w.walk.drop w.part.length := rfl
  have hlen : w.rest.length = w.walk.length - w.part.length := by rw [hrest, List.length_drop]
  have hpart := (takeWhile_sublist (· ≠ slash) w.walk).length_le
  rw [← Walk.part] at hpart
  by_cases h : w.rest = []
  · refine ⟨w.part.length, hpart, ?_, if_neg (not_not_intro h), fun hp => ?_⟩
    · rw [← hrest, h, List.drop_nil]
    · rw [h, hp, List.length_nil] at hlen
      have := List.length_pos_iff.2 hne
      omega
  · have hpos := List.length_pos_iff.2 h
    refine ⟨w.part.length + 1, by omega, ?_, if_pos h, fun hp => by rw [hp]; rfl⟩
    rw [hrest, List.drop_drop]

theorem bufferTurn_eq (h : Stands b w) (hok : WalkOk w) (hne : w.walk ≠ []) :
    SameTurn (bufferTurn s follow b) (walkPart s follow w) := by
  obtain ⟨t, hfull⟩ := h.full
  obtain ⟨k, hk, hdrop, hnext, hk1⟩ := next_eq hne b.p
  have hstand : Stands { b with p := b.p + k } { w with walk := w.rest.drop 1 } := by
    rw [hdrop]
    exact h.next hk h.n h.full h.length_full
  unfold bufferTurn walkPart
  rw [h.stringAt hok]
  dsimp only
  rw [← Walk.part, ← Walk.rest, hnext]
  by_cases h1 : w.part = []
  · obtain rfl := hk1 h1
    rw [if_pos h1, if_pos h1]
    exact .inr ⟨_, _, rfl, rfl, hstand⟩
  by_cases h2 : w.part = [dot]
  · rw [if_neg h1, if_pos h2, if_neg h1, if_pos h2]
    exact .inr ⟨_, _, rfl, rfl, hstand⟩
  by_cases h3 : w.part = [dot, dot]
  · rw [if_neg h1, if_neg h2, if_pos h3, if_neg h1, if_neg h2, if_pos h3]
    refine .inr ⟨_, _, rfl, rfl, ?_⟩
    obtain ⟨hup, hle⟩ := backFrom_eq t (Nat.sub_le w.full.length 1)
    rw [← List.dropLast_eq_take, ← upOne] at hup
    rw [hfull, h.n, hdrop]
    refine h.next hk ?_ ⟨w.full.drop (backFrom (w.full ++ t) (w.full.length - 1)) ++ t, ?_⟩ (hfull ▸ h.length_full)
    · rw [← hup, List.length_take]
      omega
    · rw [← hup, ← List.append_assoc, List.take_append_drop]
  by_cases h4 : fsNameLen < w.full.length + w.part.length + 2
  · rw [if_neg h1, if_neg h2, if_neg h3, if_pos (h.n ▸ h4), if_neg h1, if_neg h2, if_neg h3, if_pos h4]
    exact .inl ⟨_, rfl, rfl⟩
  rw [if_neg h1, if_neg h2, if_neg h3, if_neg (h.n ▸ h4), if_neg h1, if_neg h2, if_neg h3, if_neg h4]
  have hlen := h.length_full
  rw [hfull, List.length_append] at hlen
  have hname : 0 ∉ w.full ++ w.part := by
    rw [List.mem_append, not_or]
    exact ⟨hok.nul, notMem_of_sublist (takeWhile_sublist _ _) hok.walk⟩
  have hcopy : copyTo b.full b.n w.part = some (w.full ++ w.part ++ t.drop w.part.length) := by
    rw [hfull, h.n, copyTo_append (by omega), List.append_assoc]
  have hat : b.n + w.part.length = (w.full ++ w.part).length := by rw [List.length_append, h.n]
  have hend : copyTo (w.full ++ w.part ++ t.drop w.part.length) (b.n + w.part.length) [0] =
      some (w.full ++ w.part ++ 0 :: (t.drop w.part.length).drop 1) := by
    rw [hat, copyTo_append (by simp only [List.length_singleton, List.length_drop]; omega)]
    rfl
  have hfullLen : (w.full ++ w.part ++ 0 :: (t.drop w.part.length).drop 1).length = fsNameLen := by
    simp only [List.length_append, List.length_cons, List.length_drop]
    omega
  have hstr : stringAt (w.full ++ w.part ++ 0 :: (t.drop w.part.length).drop 1) 0 = w.full ++ w.part :=
    untilNul_append hname _
  simp only [hcopy, hend, hstr, Option.bind_eq_bind, Option.bind_some]
  have hlink : (if !w.rest.isEmpty || follow then (find s (w.full ++ w.part)).filter (isLink ·.size) else none) =
      w.link s follow := if_congr (by simp) rfl rfl
  rw [hlink, ← Walk.link]
  generalize (t.drop w.part.length).drop 1 = t₂ at hfullLen ⊢
  cases hl : w.link s follow with
  | some l =>
    dsimp only
    rw [h.links]
    by_cases h5 : fsLinks < w.links + 1
    · rw [if_pos h5, if_pos h5]
      exact .inl ⟨_, rfl, rfl⟩
    by_cases h6 : walkMax < bytesOf l.size + w.rest.length + 1
    · rw [if_neg h5, if_pos h6, if_neg h5, if_pos h6]
      exact .inl ⟨_, rfl, rfl⟩
    rw [if_neg h5, if_neg h6, if_neg h5, if_neg h6]
    obtain ⟨v, hv, hvlen⟩ := copyTo_swapped s l.start (h.length_walk ▸ not_lt.1 h6)
    rw [← Walk.swapped] at hv hvlen ⊢
    rw [← Option.bind_assoc, hv, Option.bind_some]
    have hhead : (w.swapped s l ++ 0 :: v).head? = some slash ↔ (w.swapped s l).head? = some slash := by
      cases w.swapped s l with
      | nil => simp [slash_ne_zero.symm]
      | cons c l => rfl
    refine .inr ⟨_, _, rfl, rfl, rfl, ?_, ?_, ⟨[], v, rfl, rfl⟩, hfullLen, hvlen.trans h.length_walk⟩
    · simp only [hhead, h.n]
      split_ifs <;> rfl
    · dsimp only
      split_ifs
      · exact ⟨_, rfl⟩
      · exact ⟨w.part ++ 0 :: t₂, List.append_assoc _ _ _⟩
  | none =>
    dsimp only
    rw [hdrop]
    by_cases hrest : w.rest = []
    · have hempty : (!w.rest.isEmpty) = false := by rw [hrest]; rfl
      rw [if_neg (not_not_intro hrest), if_neg (by rw [hempty]; exact Bool.false_ne_true)]
      exact .inr ⟨_, _, rfl, rfl, h.next hk hat ⟨_, rfl⟩ hfullLen⟩
    · have hempty : (!w.rest.isEmpty) = true := by simp [hrest]
      have hslash : copyTo (w.full ++ w.part ++ 0 :: t₂) (b.n + w.part.length) [slash] =
          some (w.full ++ w.part ++ slash :: t₂) := by
        rw [hat, copyTo_append (by simp)]
        rfl
      rw [if_pos hrest, if_pos hempty, hslash, Option.bind_some]
      refine .inr ⟨_, _, rfl, rfl, h.next hk ?_ ⟨t₂, ?_⟩ ?_⟩
      · rw [List.length_append, List.length_singleton, ← hat]
      · exact (List.append_assoc (w.full ++ w.part) [slash] t₂).symm
      · simpa using hfullLen

/-! ### The walk -/

/-- **The loop over the buffers is the walk,** and no write of it is outside. -/
theorem bufferWalk_eq {fuel : ℕ} (h : Stands b w) (hok : WalkOk w) (hl : w.links ≤ fsLinks)
    (hf : w.left < fuel) : bufferWalk s follow fuel b = some (walkOn s follow fuel w) := by
  induction fuel generalizing b w with
  | zero => exact absurd hf (Nat.not_lt_zero _)
  | succ fuel ih =>
    unfold bufferWalk walkOn
    rw [h.stringAt hok]
    by_cases hne : w.walk = []
    · rw [if_pos hne, if_pos hne]
      obtain ⟨t, hfull⟩ := h.full
      have hlen := h.length_full
      rw [hfull, List.length_append] at hlen
      have hfits := hok.fits
      have hcopy : copyTo b.full b.n [0] = some (w.full ++ 0 :: t.drop 1) := by
        rw [hfull, h.n, copyTo_append (by rw [List.length_singleton]; omega)]
        rfl
      have hstr : stringAt (w.full ++ 0 :: t.drop 1) 0 = w.full := untilNul_append hok.nul _
      simp only [hcopy, hstr, Option.bind_eq_bind, Option.bind_some]
    · rw [if_neg hne, if_neg hne]
      have hturn := walkPart_turn s follow w
      obtain ⟨e, hb, hw⟩ | ⟨b', w', hb, hw, hstands⟩ := @bufferTurn_eq s follow b w h hok hne
      · simp only [hb, hw, Option.bind_eq_bind, Option.bind_some]
      · rw [hw] at hturn
        obtain ⟨hlt, hl'⟩ := hturn.left_lt hne hl
        simp only [hb, hw, Option.bind_eq_bind, Option.bind_some]
        exact ih hstands (walkPart_ok hok hw) hl' (by omega)

end Turns

/-- **`resolve_any` writes nothing past its buffers,** whatever was in them. -/
theorem resolveIn_eq {full walk : List UInt8} {s : State} {path : Name} {follow : Bool}
    (hfull : full.length = fsNameLen) (hwalk : walk.length = walkMax) (hc : CanonicalFolder s.cwd) (hp : 0 ∉ path) :
    resolveIn full walk s path follow = some (resolveAny s path follow) := by
  unfold resolveIn resolveAny
  by_cases hpath : path = [] ∨ walkMax ≤ path.length
  · rw [if_pos hpath, if_pos hpath]
  rw [if_neg hpath, if_neg hpath]
  rw [not_or, not_le] at hpath
  have hcopy : copyTo walk 0 (path ++ [0]) = some (path ++ 0 :: walk.drop (path.length + 1)) := by
    refine (copyTo_append (a := []) ?_).trans ?_
    · rw [List.length_append, List.length_singleton]
      omega
    · rw [List.length_append, List.length_singleton, List.nil_append, List.append_assoc]
      rfl
  have hlen : (path ++ 0 :: walk.drop (path.length + 1)).length = walkMax := by
    rw [List.length_append, List.length_cons, List.length_drop]
    omega
  have hleft : (startWalk s path).left < walkFuel := by
    simp only [Walk.left, startWalk, walkFuel, fsLinks, walkMax, fsNameLen, fsLinkLen] at *
    omega
  have hok := startWalk_ok hc hp
  simp only [hcopy, Option.bind_eq_bind, Option.bind_some]
  unfold startWalk at hleft hok
  by_cases hroot : path.head? = some slash
  · rw [if_pos hroot] at hleft hok
    rw [if_pos hroot, if_pos hroot]
    exact bufferWalk_eq ⟨rfl, rfl, ⟨full, rfl⟩, ⟨[], _, rfl, rfl⟩, hfull, hlen⟩ hok (Nat.zero_le _) hleft
  · have hcwd : copyTo full 0 s.cwd = some (s.cwd ++ full.drop s.cwd.length) :=
      copyTo_append (a := []) (by rw [hfull]; exact hc.fits.le)
    have hcwdLen : (s.cwd ++ full.drop s.cwd.length).length = fsNameLen := by
      have := hc.fits
      rw [List.length_append, List.length_drop]
      omega
    rw [if_neg hroot] at hleft hok
    rw [if_neg hroot, if_neg hroot, hcwd, Option.bind_some]
    exact bufferWalk_eq ⟨rfl, rfl, ⟨_, rfl⟩, ⟨[], _, rfl, rfl⟩, hcwdLen, hlen⟩ hok (Nat.zero_le _) hleft

/-- **Resolving a path:** the walk ends after at most 40 links, writes nothing past its buffers, makes a
canonical name, and following links makes the same of that name, unless the path is relative and the working
directory is in a folder named by a link. -/
theorem resolveAny_sound {s : State} (hc : CanonicalFolder s.cwd) {path : Name} (hp : 0 ∉ path) (follow : Bool) :
    (path ≠ [] → path.length < walkMax → Walks s follow (startWalk s path) (resolveAny s path follow)) ∧
      (∀ w, Reaches s follow (startWalk s path) w → w.links ≤ fsLinks) ∧
      (∀ full walk : List UInt8, full.length = fsNameLen → walk.length = walkMax →
        resolveIn full walk s path follow = some (resolveAny s path follow)) ∧
      ∀ n, resolveAny s path follow = .ok n → Canonical n ∧
        (follow = true → path.head? = some slash ∨ Unlinked s s.cwd →
          resolveAny s (slash :: n) follow = .ok n) := by
  refine ⟨fun hne hlen => resolveAny_walks hne hlen, fun w hw => hw.links_le (Nat.zero_le _),
    fun full walk hfull hwalk => resolveIn_eq hfull hwalk hc hp, fun n hn => ⟨resolveAny_canonical hc hp hn, ?_⟩⟩
  rintro rfl hlinks
  exact resolveAny_stable hc hp hlinks hn


/-- The path `/a`. -/
def rootA : CString := ⟨[slash, 0x61], by decide⟩

/-- The working directory is the folder `a`, which was removed, and a link to `/b` is in its place. -/
def relinked : State :=
  run (newDisk 64) [.mkdir rootA, .cwdSet ⟨[0x61, slash], by decide, by decide, by decide⟩, .remove rootA,
    .symlink ⟨[slash, 0x62], by decide⟩ rootA]

theorem relinked_cwd : CanonicalFolder relinked.cwd := by
  have hcwd : relinked.cwd = folderOf [[0x61]] := by decide
  refine ⟨by rw [hcwd]; decide, [[0x61]], ?_, hcwd⟩
  rintro p hp
  obtain rfl := List.mem_singleton.1 hp
  exact ⟨by decide, by decide, by decide, by decide, by decide⟩

theorem resolveAny_sound_relinked : Walks relinked true (startWalk relinked [slash, 0x61])
    (resolveAny relinked [slash, 0x61] true) :=
  (resolveAny_sound relinked_cwd (by decide) true).1 (by decide) (by decide)

/-- A name made from a working directory that a link took the place of is not resolved to itself. -/
theorem exists_not_stable : ¬ ∀ s : State, CanonicalFolder s.cwd → ∀ path : Name, 0 ∉ path → ∀ n,
    resolveAny s path true = .ok n → resolveAny s (slash :: n) true = .ok n := by
  intro h
  have hfirst : resolveAny relinked [0x78] true = .ok [0x61, slash, 0x78] := by decide
  have hagain : resolveAny relinked [slash, 0x61, slash, 0x78] true = .ok [0x62, slash, 0x78] := by decide
  have hsame := h relinked relinked_cwd [0x78] (by decide) _ hfirst
  exact absurd (hagain.symm.trans hsame) (by decide)

end BaxOS.Fs
