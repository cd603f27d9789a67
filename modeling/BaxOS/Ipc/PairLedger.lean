import BaxOS.Ipc.Pairs

/-!
# What is sent and received, kept in step

What a turn of a send puts comes last of what the sends report, what a turn of a receive takes comes
first of what is yet to be received (`Putting.streams`, `Streams.took`, `Packets.put`,
`Packets.took`).
-/

namespace BaxOS.Ipc.Pair
open Function

variable {D : Type} {s s' : Pair D} {side : Bool}

/-! ### Sends on a stream -/

/-- A turn of a send `c` on a stream: the call after it, and the descriptors and bytes it put. -/
structure Putting (s s' : Pair D) (side : Bool) (c : ℕ) (k' : Send D) (mk : List (Item D))
    (b : List UInt8) : Prop where
  receipts : s'.receipts side = s.receipts side
  sends : s'.sends = update s.sends c (some k')
  there : k'.side = side
  puts : s'.items side = s.items side ++ (mk ++ b.map Item.byte).map (Prod.mk c)
  pipe : (s'.pipes side).items = (s.pipes side).items ++ (mk ++ b.map Item.byte)
  items : k'.items = (s.sends c).elim [] Send.items ++ (mk ++ b.map Item.byte)
  before : ∀ k, s.sends c = some k → k.side = side ∧ k.iov = k'.iov
  fds : mk = [] ∨ ∃ l, mk = [.fds l] ∧ (b ≠ [] ∨ k'.iov.flatten = [] ∨ k'.Opening)
  opening : ∀ c' k, s.sends c' = some k → k.side = side → k.Opening →
    c' = c ∧ mk = [] ∧ (b ≠ [] ∨ k'.Opening)
  reports : (∀ n, k'.result = some (.ok n) → n = k'.moved) ∧ (failed k'.result = true → k'.moved = 0)

section Putting

variable {c : ℕ} {k' : Send D} {mk : List (Item D)} {b : List UInt8}

theorem Putting.self (p : Putting s s' side c k' mk b) : s'.sends c = some k' := by
  rw [p.sends, update_self]

theorem Putting.other (p : Putting s s' side c k' mk b) {c' : ℕ} (hne : c' ≠ c) :
    s'.sends c' = s.sends c' := by
  rw [p.sends, update_of_ne hne]

/-- Where an earlier item stands, it stays. -/
theorem Putting.item (p : Putting s s' side c k' mk b) {i : ℕ} {x : ℕ × Item D}
    (h : (s.items side)[i]? = some x) : (s'.items side)[i]? = some x := by
  rw [p.puts, List.getElem?_append_left (List.getElem?_eq_some_iff.1 h).1]
  exact h

/-- Of the items put, those of this send are all. -/
theorem filter_put {c : ℕ} (l : List (Item D)) (c' : ℕ) :
    ((l.map (Prod.mk c)).filter fun x => x.1 = c').map Prod.snd = if c' = c then l else [] := by
  split_ifs with hcc
  · rw [List.filter_eq_self.2 fun x hx => by
      obtain ⟨y, -, rfl⟩ := List.mem_map.1 hx
      exact decide_eq_true hcc.symm, List.map_map]
    exact List.map_id _
  · rw [List.filter_eq_nil_iff.2 fun x hx hxc => by
      obtain ⟨y, -, rfl⟩ := List.mem_map.1 hx
      exact hcc (of_decide_eq_true hxc).symm]
    rfl

theorem Putting.sent (p : Putting s s' side c k' mk b) (h : s.Streams side) (c' : ℕ) (k : Send D)
    (hc : s'.sends c' = some k) (hks : k.side = side) :
    ((s'.items side).filter fun x => x.1 = c').map Prod.snd = k.items := by
  rw [p.puts, List.filter_append, List.map_append, filter_put]
  by_cases hcc : c' = c
  · subst hcc
    obtain rfl := Option.some.inj (p.self.symm.trans hc)
    have hwas : ((s.items side).filter fun x => x.1 = c').map Prod.snd =
        (s.sends c').elim [] Send.items := by
      cases hs : s.sends c' with
      | none =>
        have hnil : ((s.items side).filter fun x => x.1 = c') = [] :=
          List.filter_eq_nil_iff.2 fun x hx hxc => by
            obtain ⟨k, hk, -⟩ := h.only x hx
            rw [of_decide_eq_true hxc, hs] at hk
            exact nomatch hk
        rw [hnil]
        rfl
      | some k => exact h.sent c' k hs (p.before k hs).1
    rw [hwas, if_pos rfl, p.items]
  · rw [if_neg hcc, List.append_nil]
    exact h.sent c' k ((p.other hcc).symm.trans hc) hks

/-- Nothing but bytes comes after the descriptors a turn puts. -/
theorem Putting.fds_first (p : Putting s s' side c k' mk b) {i c' : ℕ} {l : List D}
    (hi : ((mk ++ b.map Item.byte).map (Prod.mk c))[i]? = some (c', .fds l)) :
    i = 0 ∧ c' = c ∧ mk ≠ [] := by
  have hbyte : ∀ j, ((b.map Item.byte).map (Prod.mk c))[j]? ≠ some (c', Item.fds l) := fun j hj => by
    rw [List.map_map, List.getElem?_map] at hj
    obtain ⟨b', -, hb'⟩ := Option.map_eq_some_iff.1 hj
    exact nomatch (Prod.mk.inj hb').2
  rcases p.fds with rfl | ⟨l', rfl, -⟩
  · exact absurd hi (hbyte i)
  · cases i with
    | zero => exact ⟨rfl, (Prod.mk.inj (Option.some.inj hi)).1.symm, List.cons_ne_nil _ _⟩
    | succ j => exact absurd hi (hbyte j)

theorem Putting.first (p : Putting s s' side c k' mk b) (h : s.Streams side) (i c' : ℕ) (l : List D)
    (hi : (s'.items side)[i]? = some (c', .fds l)) :
    (∃ b, (s'.items side)[i + 1]? = some (c', .byte b)) ∨ ∃ k, s'.sends c' = some k ∧
      (k.iov.flatten = [] ∨ k.Opening ∧ i + 1 = (s'.items side).length) := by
  rcases Nat.lt_or_ge i (s.items side).length with hlt | hge
  · -- descriptors that were there
    have hi₀ : (s.items side)[i]? = some (c', .fds l) := by
      rw [p.puts, List.getElem?_append_left hlt] at hi
      exact hi
    rcases h.first i c' l hi₀ with ⟨b', hb⟩ | ⟨k, hk, hempty | ⟨hop, hlast⟩⟩
    · exact Or.inl ⟨b', p.item hb⟩
    · by_cases hcc : c' = c
      · subst hcc
        exact Or.inr ⟨k', p.self, Or.inl (by rw [← (p.before k hk).2]; exact hempty)⟩
      · exact Or.inr ⟨k, (p.other hcc).trans hk, Or.inl hempty⟩
    · obtain ⟨k₀, hk₀, hks⟩ := h.only _ (List.mem_of_getElem? hi₀)
      obtain rfl := Option.some.inj (hk₀.symm.trans hk)
      obtain ⟨rfl, rfl, hb⟩ := p.opening c' k₀ hk hks hop
      rw [p.puts, hlast]
      cases b with
      | nil =>
        refine Or.inr ⟨k', p.self, Or.inr ⟨hb.resolve_left fun hne => hne rfl, ?_⟩⟩
        simp
      | cons b₀ b =>
        refine Or.inl ⟨b₀, ?_⟩
        rw [List.getElem?_append_right (le_refl _), Nat.sub_self]
        rfl
  · -- the descriptors of this turn
    rw [p.puts, List.getElem?_append_right hge] at hi
    obtain ⟨hzero, rfl, hmk⟩ := p.fds_first hi
    obtain ⟨l', rfl, hcase⟩ := p.fds.resolve_left hmk
    have hi' : i = (s.items side).length := by omega
    rw [p.puts, hi']
    cases b with
    | nil =>
      refine Or.inr ⟨k', p.self, (hcase.resolve_left fun hne => hne rfl).imp_right fun hop => ⟨hop, ?_⟩⟩
      simp
    | cons b₀ b =>
      refine Or.inl ⟨b₀, ?_⟩
      rw [List.getElem?_append_right (Nat.le_succ _), Nat.succ_sub (le_refl _), Nat.sub_self]
      rfl

/-- **A turn of a send on a stream** puts what it puts last. -/
theorem Putting.streams (p : Putting s s' side c k' mk b) (h : s.Streams side) : s'.Streams side where
  order := by
    rw [p.receipts, p.pipe, ← List.append_assoc, h.order, p.puts, List.map_append, List.map_map]
    exact congrArg _ (List.map_id _).symm
  sent := p.sent h
  only x hx := by
    rw [p.puts] at hx
    rcases List.mem_append.1 hx with hx | hx
    · obtain ⟨k, hk, hks⟩ := h.only x hx
      by_cases hcc : x.1 = c
      · exact ⟨k', by rw [hcc, p.self], p.there⟩
      · exact ⟨k, (p.other hcc).trans hk, hks⟩
    · obtain ⟨y, -, rfl⟩ := List.mem_map.1 hx
      exact ⟨k', p.self, p.there⟩
  first := p.first h
  asked := by
    rw [p.receipts]
    exact h.asked
  empty l r l' hl hgot hroom := by
    rw [p.receipts] at hl
    refine (h.empty l r l' hl hgot hroom).imp_right fun ⟨c', k, hk, hb, hi⟩ => ?_
    by_cases hcc : c' = c
    · subst hcc
      exact ⟨c', k', p.self, by rw [← (p.before k hk).2]; exact hb, p.item hi⟩
    · exact ⟨c', k, (p.other hcc).trans hk, hb, p.item hi⟩
  reports c' k hc hks := by
    by_cases hcc : c' = c
    · subst hcc
      obtain rfl := Option.some.inj (p.self.symm.trans hc)
      exact p.reports
    · exact h.reports c' k ((p.other hcc).symm.trans hc) hks

end Putting

/-- A send of the other direction changed, none of this one is. -/
theorem sends_other {c : ℕ} {k' : Send D} (hsends : s'.sends = update s.sends c (some k'))
    (hside : k'.side ≠ side) (hold : ∀ k, s.sends c = some k → k.side ≠ side) (c' : ℕ) (k : Send D)
    (hks : k.side = side) : s'.sends c' = some k ↔ s.sends c' = some k := by
  rw [hsends]
  by_cases hcc : c' = c
  · subst hcc
    rw [update_self]
    exact ⟨fun hk => absurd (Option.some.inj hk ▸ hks) hside, fun hk => absurd hks (hold k hk)⟩
  · rw [update_of_ne hcc]

/-- A side that a send is not on. -/
theorem Streams.other {c : ℕ} {k' : Send D} (h : s.Streams side)
    (hrec : s'.receipts side = s.receipts side) (hitems : s'.items side = s.items side)
    (hpipe : s'.pipes side = s.pipes side) (hsends : s'.sends = update s.sends c (some k'))
    (hside : k'.side ≠ side) (hold : ∀ k, s.sends c = some k → k.side ≠ side) : s'.Streams side := by
  have hsub := sends_other hsends hside hold
  have hitem : ∀ i (x : ℕ × Item D), (s.items side)[i]? = some x → ∃ k, s.sends x.1 = some k ∧ k.side = side :=
    fun i x hi => h.only x (List.mem_of_getElem? hi)
  refine ⟨?_, fun c' k hc hks => ?_, fun x hx => ?_, fun i c' l hi => ?_, ?_, ?_, fun c' k hc hks => ?_⟩
  · rw [hrec, hitems, hpipe]
    exact h.order
  · rw [hitems]
    exact h.sent c' k ((hsub c' k hks).1 hc) hks
  · rw [hitems] at hx
    obtain ⟨k, hk, hks⟩ := h.only x hx
    exact ⟨k, (hsub _ k hks).2 hk, hks⟩
  · rw [hitems] at hi ⊢
    refine (h.first i c' l hi).imp_right fun ⟨k, hk, hcase⟩ => ?_
    obtain ⟨k₀, hk₀, hks⟩ := hitem i _ hi
    obtain rfl := Option.some.inj (hk₀.symm.trans hk)
    exact ⟨k₀, (hsub c' k₀ hks).2 hk, hcase⟩
  · rw [hrec]
    exact h.asked
  · intro l r l' hl hgot hroom
    rw [hrec] at hl
    rw [hitems]
    refine (h.empty l r l' hl hgot hroom).imp_right fun ⟨c', k, hk, hb, hi⟩ => ?_
    obtain ⟨k₀, hk₀, hks⟩ := hitem _ _ hi
    obtain rfl := Option.some.inj (hk₀.symm.trans hk)
    exact ⟨c', k₀, (hsub c' k₀ hks).2 hk, hb, hi⟩
  · exact h.reports c' k ((hsub c' k hks).1 hc) hks

/-! ### Receives of a stream -/

/-- **A turn of a receive of a stream** takes the first of what waits. -/
theorem Streams.took {r : Receipt D} (h : s.Streams side)
    (hrec : s'.receipts side = s.receipts side ++ [r]) (hitems : s'.items side = s.items side)
    (hsends : s'.sends = s.sends)
    (hpipe : (s.pipes side).items = r.taken.items ++ (s'.pipes side).items)
    (hasked : if r.asks then r.taken.dropped = [] else r.taken.fds = [])
    (hgot : r.taken.got = [] → 0 < r.room → r.alone = true ∨ ∃ l' rest,
      (s.pipes side).items = .fds (r.taken.fds ++ r.taken.dropped) :: .fds l' :: rest) :
    s'.Streams side := by
  refine ⟨?_, ?_, ?_, ?_, fun r' hr' => ?_, fun l r' l' hl hno hroom => ?_, ?_⟩
  · rw [hrec, List.flatMap_append, List.flatMap_singleton, List.append_assoc, ← hpipe, hitems]
    exact h.order
  · rw [hitems, hsends]
    exact h.sent
  · rw [hitems, hsends]
    exact h.only
  · rw [hitems, hsends]
    exact h.first
  · rw [hrec] at hr'
    rcases List.mem_append.1 hr' with hr' | hr'
    · exact h.asked r' hr'
    · rw [List.mem_singleton.1 hr']
      exact hasked
  · rw [hrec] at hl
    rw [hitems, hsends]
    rcases List.eq_nil_or_concat l' with rfl | ⟨l'', r'', rfl⟩
    · obtain ⟨rfl, hr⟩ := List.append_inj' hl rfl
      obtain rfl := (List.cons.inj hr).1
      refine (hgot hno hroom).imp_right fun ⟨f, rest, hp⟩ => ?_
      -- the descriptors stand at the end of what was received before, with more after them
      have horder := h.order
      rw [hp] at horder
      have hat : ∀ j, ((s.items side)[((s.receipts side).flatMap fun r => r.taken.items).length + j]?).map
          Prod.snd = (Item.fds (r.taken.fds ++ r.taken.dropped) :: .fds f :: rest)[j]? := fun j => by
        rw [← List.getElem?_map, ← horder, List.getElem?_append_right (Nat.le_add_right _ _),
          Nat.add_sub_cancel_left]
      obtain ⟨⟨c, x⟩, hx, hx'⟩ := Option.map_eq_some_iff.1 (hat 0)
      obtain rfl : x = _ := hx'
      obtain ⟨⟨c₁, y⟩, hy, hy'⟩ := Option.map_eq_some_iff.1 (hat 1)
      obtain rfl : y = _ := hy'
      rcases h.first _ _ _ hx with ⟨b, hb⟩ | ⟨k, hk, hempty | ⟨-, hlast⟩⟩
      · rw [Nat.add_zero, hy] at hb
        exact nomatch (Prod.mk.inj (Option.some.inj hb)).2
      · exact ⟨c, k, hk, hempty, hx⟩
      · have hlt := (List.getElem?_eq_some_iff.1 hy).1
        omega
    · refine h.empty l r' l'' ?_ hno hroom
      rw [List.concat_eq_append, ← List.cons_append, ← List.append_assoc] at hl
      exact (List.append_inj' hl rfl).1
  · rw [hsends]
    exact h.reports

theorem Streams.congr (h : s.Streams side) (hrec : s'.receipts side = s.receipts side)
    (hitems : s'.items side = s.items side) (hsends : s'.sends = s.sends)
    (hpipe : (s'.pipes side).items = (s.pipes side).items) : s'.Streams side := by
  refine ⟨?_, ?_, ?_, ?_, ?_, ?_, ?_⟩
  · rw [hrec, hitems, hpipe]
    exact h.order
  · rw [hitems, hsends]
    exact h.sent
  · rw [hitems, hsends]
    exact h.only
  · rw [hitems, hsends]
    exact h.first
  · rw [hrec]
    exact h.asked
  · rw [hrec, hitems, hsends]
    exact h.empty
  · rw [hsends]
    exact h.reports

/-! ### Packets -/

/-- **A turn of a send of a packet** puts it last, or does not. -/
theorem Packets.put {c : ℕ} (k' : Send D) (h : s.Packets side)
    (hrec : s'.receipts side = s.receipts side) (hsends : s'.sends = update s.sends c (some k'))
    (hside : k'.side = side)
    (hputs : s'.packets side = s.packets side ++ k'.packets.map (Prod.mk c))
    (hpipe : (s'.pipes side).messages = (s.pipes side).messages ++ k'.packets)
    (hold : ∀ k, s.sends c = some k → k.side = side ∧ k.packets = [])
    (hreports : ∀ n, k'.result = some (.ok n) → n = k'.iov.flatten.length) : s'.Packets side := by
  have hself : s'.sends c = some k' := by
    rw [hsends, update_self]
  have hother : ∀ c', c' ≠ c → s'.sends c' = s.sends c' := fun c' hne => by
    rw [hsends, update_of_ne hne]
  have hmine : ((k'.packets.map (Prod.mk c)).filter fun x => x.1 = c).map Prod.snd = k'.packets := by
    rw [List.filter_eq_self.2 fun x hx => by
      obtain ⟨y, -, rfl⟩ := List.mem_map.1 hx
      exact decide_eq_true rfl, List.map_map]
    exact List.map_id _
  have htheirs : ∀ c', c' ≠ c → ((k'.packets.map (Prod.mk c)).filter fun x => x.1 = c') = [] :=
    fun c' hne => List.filter_eq_nil_iff.2 fun x hx hxc => by
      obtain ⟨y, -, rfl⟩ := List.mem_map.1 hx
      exact hne (of_decide_eq_true hxc).symm
  refine ⟨?_, fun c' k hc hks => ?_, fun x hx => ?_, fun c' k n hc hks hr => ?_⟩
  · obtain ⟨l, l', hl, hmsgs, hhanded⟩ := h.order
    refine ⟨l, l' ++ k'.packets.map (Prod.mk c), ?_, ?_, ?_⟩
    · rw [hputs, hl, List.append_assoc]
    · rw [List.map_append, hmsgs, hpipe, List.map_map]
      exact congrArg _ (List.map_id _)
    · rw [hrec]
      exact hhanded
  · rw [hputs, List.filter_append, List.map_append]
    by_cases hcc : c' = c
    · subst hcc
      obtain rfl := Option.some.inj (hself.symm.trans hc)
      have hwas : ((s.packets side).filter fun x => x.1 = c').map Prod.snd = [] := by
        cases hs : s.sends c' with
        | none =>
          have hnil : ((s.packets side).filter fun x => x.1 = c') = [] :=
            List.filter_eq_nil_iff.2 fun x hx hxc => by
              obtain ⟨k, hk, -⟩ := h.only x hx
              rw [of_decide_eq_true hxc, hs] at hk
              exact nomatch hk
          rw [hnil]
          rfl
        | some k => exact (h.sent c' k hs (hold k hs).1).trans (hold k hs).2
      rw [hwas, hmine, List.nil_append]
    · rw [htheirs c' hcc, List.map_nil, List.append_nil]
      exact h.sent c' k ((hother c' hcc).symm.trans hc) hks
  · rw [hputs] at hx
    rcases List.mem_append.1 hx with hx | hx
    · obtain ⟨k, hk, hks⟩ := h.only x hx
      by_cases hcc : x.1 = c
      · exact ⟨k', by rw [hcc, hself], hside⟩
      · exact ⟨k, (hother _ hcc).trans hk, hks⟩
    · obtain ⟨y, -, rfl⟩ := List.mem_map.1 hx
      exact ⟨k', hself, hside⟩
  · by_cases hcc : c' = c
    · subst hcc
      obtain rfl := Option.some.inj (hself.symm.trans hc)
      exact hreports n hr
    · exact h.reports c' k n ((hother c' hcc).symm.trans hc) hks hr

/-- A side that a send is not on. -/
theorem Packets.other {c : ℕ} {k' : Send D} (h : s.Packets side)
    (hrec : s'.receipts side = s.receipts side) (hputs : s'.packets side = s.packets side)
    (hpipe : s'.pipes side = s.pipes side) (hsends : s'.sends = update s.sends c (some k'))
    (hside : k'.side ≠ side) (hold : ∀ k, s.sends c = some k → k.side ≠ side) : s'.Packets side := by
  have hsub := sends_other hsends hside hold
  refine ⟨?_, fun c' k hc hks => ?_, fun x hx => ?_, fun c' k n hc hks => ?_⟩
  · rw [hrec, hputs, hpipe]
    exact h.order
  · rw [hputs]
    exact h.sent c' k ((hsub c' k hks).1 hc) hks
  · rw [hputs] at hx
    obtain ⟨k, hk, hks⟩ := h.only x hx
    exact ⟨k, (hsub _ k hks).2 hk, hks⟩
  · exact h.reports c' k n ((hsub c' k hks).1 hc) hks

/-- **A turn of a receive of a packet** takes the first, or finds none. -/
theorem Packets.took {r : Receipt D} (h : s.Packets side)
    (hrec : s'.receipts side = s.receipts side ++ [r]) (hputs : s'.packets side = s.packets side)
    (hsends : s'.sends = s.sends)
    (hcase : r.alone = true ∧ (s'.pipes side).messages = (s.pipes side).messages ∧
        r.taken = ⟨[], [], [], false⟩ ∨
      ∃ b l, (s.pipes side).messages = (b, l) :: (s'.pipes side).messages ∧
        r.taken = ⟨b.take r.room, if r.asks then l else [], if r.asks then [] else l,
          decide (r.room < b.length)⟩) : s'.Packets side := by
  obtain ⟨l, l', hl, hmsgs, hhanded⟩ := h.order
  refine ⟨?_, ?_, ?_, ?_⟩
  · rcases hcase with ⟨ha, hp, ht⟩ | ⟨b, f, hp, ht⟩
    · refine ⟨l, l', hputs.trans hl, hmsgs.trans hp.symm, ?_⟩
      rw [hrec]
      exact .alone hhanded r ha ht
    · rw [hp] at hmsgs
      cases l' with
      | nil => exact nomatch hmsgs
      | cons x l' =>
        obtain ⟨hx, hmsgs⟩ := List.cons.inj hmsgs
        refine ⟨l ++ [x], l', ?_, hmsgs, ?_⟩
        · rw [hputs, hl, List.append_assoc]
          rfl
        · rw [hrec, List.map_append, List.map_singleton, hx]
          exact .took hhanded r b f ht
  · rw [hputs, hsends]
    exact h.sent
  · rw [hputs, hsends]
    exact h.only
  · rw [hsends]
    exact h.reports

theorem Packets.congr (h : s.Packets side) (hrec : s'.receipts side = s.receipts side)
    (hputs : s'.packets side = s.packets side) (hsends : s'.sends = s.sends)
    (hpipe : (s'.pipes side).messages = (s.pipes side).messages) : s'.Packets side := by
  refine ⟨?_, ?_, ?_, ?_⟩
  · rw [hrec, hputs, hpipe]
    exact h.order
  · rw [hputs, hsends]
    exact h.sent
  · rw [hputs, hsends]
    exact h.only
  · rw [hsends]
    exact h.reports

end BaxOS.Ipc.Pair
