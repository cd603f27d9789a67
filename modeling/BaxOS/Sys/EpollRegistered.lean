import BaxOS.Lib.Runs
import BaxOS.Sys.Epoll

/-!
# An epoll set reports only what was registered

In every run in which no open file is closed for good while a set has it, and no descriptor that is
in a set is given to another open file, a set's entries are the descriptors asked for, each once and
of an open file, and every event told carries the data given for the open file that is ready
(`run_registered`). A program that closes a descriptor without taking it out of the set first is
told of another file (`exists_not_registered`).
-/

namespace BaxOS.Epoll
open Function

/-! ### The entries of a set -/

section Entries

variable {set : List Entry} {op : Ctl} {fd : ℕ} {event : Option (UInt32 × UInt64)} {e : Entry}

/-- Where a descriptor's entry is, if there is one. -/
theorem findIdx_lt_iff : (set.findIdx fun e => e.fd = fd) < set.length ↔ ∃ e ∈ set, e.fd = fd := by
  rw [List.findIdx_lt_length]
  simp only [decide_eq_true_eq]

theorem findIdx_fd (h : (set.findIdx fun e => e.fd = fd) < set.length) :
    (set[set.findIdx fun e => e.fd = fd]).fd = fd := by
  have := @List.findIdx_getElem _ (fun e : Entry => decide (e.fd = fd)) set h
  exact of_decide_eq_true this

/-- The last entry moved into a gap: the entries without the one that was there. -/
theorem moved_perm {i : ℕ} (hi : i < set.length) (d : Entry) :
    ((set.set i (set.getLastD d)).dropLast).Perm (set.eraseIdx i) := by
  obtain ⟨front, last, rfl⟩ : ∃ front last, set = front ++ [last] := by
    rcases List.eq_nil_or_concat set with rfl | ⟨front, last, h⟩
    · exact absurd hi (Nat.not_lt_zero i)
    · exact ⟨front, last, by rw [h, List.concat_eq_append]⟩
  rw [List.getLastD_concat]
  by_cases hfront : i < front.length
  · rw [List.set_append_left _ _ hfront, List.dropLast_concat,
      List.eraseIdx_append_of_lt_length hfront]
    exact (List.set_perm_cons_eraseIdx hfront last).trans (List.perm_append_singleton _ _).symm
  · obtain rfl : i = front.length := by
      rw [List.length_append, List.length_singleton] at hi
      omega
    rw [List.set_append_right _ _ (le_refl _), Nat.sub_self, List.set_cons_zero,
      List.dropLast_concat, List.eraseIdx_append_of_length_le (le_refl _), Nat.sub_self]
    simp

/-- What is left where an entry is taken out. -/
theorem mem_moved_iff (hn : (set.map Entry.fd).Nodup) {i : ℕ} (hi : i < set.length) (d : Entry) :
    e ∈ (set.set i (set.getLastD d)).dropLast ↔ e ∈ set ∧ e.fd ≠ set[i].fd := by
  have hp := List.getElem_cons_eraseIdx_perm hi
  have hn' := (hp.map Entry.fd).nodup_iff.2 hn
  rw [List.map_cons, List.nodup_cons, List.mem_map] at hn'
  rw [(moved_perm hi d).mem_iff, ← hp.mem_iff (a := e), List.mem_cons]
  constructor
  · intro he
    exact ⟨Or.inr he, fun heq => hn'.1 ⟨e, he, heq⟩⟩
  · rintro ⟨rfl | he, hne⟩
    · exact absurd rfl hne
    · exact he

theorem nodup_moved (hn : (set.map Entry.fd).Nodup) {i : ℕ} (hi : i < set.length) (d : Entry) :
    (((set.set i (set.getLastD d)).dropLast).map Entry.fd).Nodup := by
  have hp := List.getElem_cons_eraseIdx_perm hi
  have hn' := (hp.map Entry.fd).nodup_iff.2 hn
  rw [List.map_cons, List.nodup_cons] at hn'
  exact ((moved_perm hi d).map Entry.fd).nodup_iff.2 hn'.2

/-- **What `epoll_ctl` leaves in a set**: the descriptor's entry is as given, or there is none, and
the others stay. -/
theorem ctlSet_spec (hn : (set.map Entry.fd).Nodup) :
    ((ctlSet set op fd event).2.map Entry.fd).Nodup ∧
    ((ctlSet set op fd event).1 ≠ .ok → (ctlSet set op fd event).2 = set) ∧
    ((ctlSet set op fd event).1 = .ok →
      (∀ e, e.fd ≠ fd → (e ∈ (ctlSet set op fd event).2 ↔ e ∈ set)) ∧
      (op = .del → ∀ e ∈ (ctlSet set op fd event).2, e.fd ≠ fd) ∧
      (op ≠ .del → ∃ events data, event = some (events, data) ∧
        (⟨fd, events, data⟩ : Entry) ∈ (ctlSet set op fd event).2)) := by
  obtain ⟨i, hi⟩ : ∃ i, i = set.findIdx fun e => e.fd = fd := ⟨_, rfl⟩
  have hle : i ≤ set.length := by
    rw [hi]
    exact List.findIdx_le_length
  unfold ctlSet
  rw [← hi]
  cases op with
  | del =>
    simp only
    by_cases hend : i = set.length
    · rw [if_pos hend]
      exact ⟨hn, fun _ => rfl, fun h => nomatch h⟩
    · rw [if_neg hend]
      have hlt : i < set.length := by omega
      have hfd : set[i].fd = fd := by
        subst hi
        exact findIdx_fd hlt
      refine ⟨nodup_moved hn hlt _, fun h => absurd rfl h, fun _ => ⟨fun e he => ?_, fun _ e he => ?_,
        fun h => absurd rfl h⟩⟩
      · rw [mem_moved_iff hn hlt, hfd]
        exact ⟨fun h => h.1, fun h => ⟨h, he⟩⟩
      · rw [mem_moved_iff hn hlt, hfd] at he
        exact he.2
  | add =>
    cases event with
    | none => exact ⟨hn, fun _ => rfl, fun h => nomatch h⟩
    | some event =>
      obtain ⟨events, data⟩ := event
      simp only
      by_cases hlt : i < set.length
      · rw [if_pos hlt]
        exact ⟨hn, fun _ => rfl, fun h => nomatch h⟩
      · rw [if_neg hlt]
        split_ifs with hfull
        · exact ⟨hn, fun _ => rfl, fun h => nomatch h⟩
        · have hnone : ¬ ∃ e ∈ set, e.fd = fd := by
            rw [← findIdx_lt_iff, ← hi]
            exact hlt
          refine ⟨?_, fun h => absurd rfl h, fun _ => ⟨fun e he => ?_, (fun h => nomatch h), fun _ =>
            ⟨events, data, rfl, List.mem_append_right _ (List.mem_singleton_self _)⟩⟩⟩
          · rw [List.map_append, List.map_singleton, List.nodup_append]
            refine ⟨hn, List.nodup_singleton _, fun a ha b hb => ?_⟩
            obtain ⟨e, he, rfl⟩ := List.mem_map.1 ha
            rw [List.mem_singleton.1 hb]
            exact fun heq => hnone ⟨e, he, heq⟩
          · rw [List.mem_append, List.mem_singleton]
            constructor
            · rintro (h | rfl)
              · exact h
              · exact absurd rfl he
            · exact Or.inl
  | mod =>
    cases event with
    | none => exact ⟨hn, fun _ => rfl, fun h => nomatch h⟩
    | some event =>
      obtain ⟨events, data⟩ := event
      simp only
      by_cases hend : i = set.length
      · rw [if_pos hend]
        exact ⟨hn, fun _ => rfl, fun h => nomatch h⟩
      · rw [if_neg hend]
        have hlt : i < set.length := by omega
        have hfd : set[i].fd = fd := by
          subst hi
          exact findIdx_fd hlt
        have hmap : (set.set i ⟨fd, events, data⟩).map Entry.fd = set.map Entry.fd := by
          rw [List.map_set]
          show (set.map Entry.fd).set i fd = _
          refine List.ext_getElem (by rw [List.length_set]) fun n h1 h2 => ?_
          rw [List.getElem_set]
          split_ifs with hni
          · subst hni
            rw [List.getElem_map, hfd]
          · rfl
        have hp := List.set_perm_cons_eraseIdx hlt (⟨fd, events, data⟩ : Entry)
        have hq := List.getElem_cons_eraseIdx_perm hlt
        refine ⟨by rw [hmap]; exact hn, fun h => absurd rfl h, fun _ => ⟨fun e he => ?_,
          (fun h => nomatch h), fun _ => ⟨events, data, rfl, ?_⟩⟩⟩
        · rw [hp.mem_iff, ← hq.mem_iff (a := e), List.mem_cons, List.mem_cons]
          constructor
          · rintro (rfl | h)
            · exact absurd rfl he
            · exact Or.inr h
          · rintro (rfl | h)
            · exact absurd hfd he
            · exact Or.inr h
        · exact hp.mem_iff.2 List.mem_cons_self

/-- What is told is of entries there are; the entries stay, but for what is watched for. -/
theorem epollOnce_spec (look : ℕ → UInt32 → UInt32) (most : ℕ) :
    (∀ ev ∈ (epollOnce look most set).1, ∃ e ∈ set, ev.2 = e.data ∧
      ∃ asked, ev.1 = look e.fd asked ∧ ev.1 ≠ 0) ∧
    (epollOnce look most set).2.map (fun e => (e.fd, e.data)) = set.map fun e => (e.fd, e.data) := by
  induction set generalizing most with
  | nil =>
    have hnil : epollOnce look most [] = ([], []) := by cases most <;> rfl
    rw [hnil]
    exact ⟨fun ev hev => absurd hev List.not_mem_nil, rfl⟩
  | cons e set ih =>
    cases most with
    | zero => exact ⟨fun ev hev => absurd hev List.not_mem_nil, rfl⟩
    | succ most =>
      have hcons : ∀ {l : List Event}, (∀ ev ∈ l, ∃ e ∈ set, ev.2 = e.data ∧
          ∃ asked, ev.1 = look e.fd asked ∧ ev.1 ≠ 0) →
          ∀ ev ∈ l, ∃ e' ∈ e :: set, ev.2 = e'.data ∧ ∃ asked, ev.1 = look e'.fd asked ∧ ev.1 ≠ 0 := by
        intro l h ev hev
        obtain ⟨e', he', h1⟩ := h ev hev
        exact ⟨e', List.mem_cons_of_mem _ he', h1⟩
      unfold epollOnce
      simp only
      by_cases hgot : (if e.events &&& epollEvents = 0 then 0
          else look e.fd (e.events &&& epollEvents)) = 0
      · rw [if_pos hgot]
        obtain ⟨h1, h2⟩ := ih (most + 1)
        exact ⟨hcons h1, by rw [List.map_cons, List.map_cons, h2]⟩
      · rw [if_neg hgot]
        obtain ⟨h1, h2⟩ := ih most
        have hasked : ¬ e.events &&& epollEvents = 0 := fun h0 => hgot (by rw [if_pos h0])
        rw [if_neg hasked] at hgot ⊢
        refine ⟨fun ev hev => ?_, ?_⟩
        · rcases List.mem_cons.1 hev with rfl | hev
          · exact ⟨e, List.mem_cons_self, rfl, _, rfl, hgot⟩
          · exact hcons h1 ev hev
        · rw [List.map_cons, List.map_cons, h2]
          split_ifs <;> rfl

end Entries

/-! ### Descriptors -/

section Descriptors

variable {s s' : State} {h : Handle} {i fd need : ℕ}

/-- The table has room for what is in it, and no more than there may be. -/
structure Roomy (s : State) : Prop where
  room : s.room ≤ programFiles
  past : ∀ fd, s.room ≤ fd → s.handles fd = none

theorem handleOf_eq (hs : Roomy s) (fd : ℕ) : handleOf s fd = s.handles (low32 fd) := by
  unfold handleOf
  split_ifs with h
  · rfl
  · exact (hs.past (low32 fd) (by omega)).symm

theorem epollOf_eq_some (hs : Roomy s) {k : ℕ} :
    epollOf s fd = some k ↔ s.handles (low32 fd) = some ⟨k, true⟩ := by
  unfold epollOf
  rw [handleOf_eq hs]
  cases s.handles (low32 fd) with
  | none => simp
  | some h =>
    obtain ⟨file, isSet⟩ := h
    cases isSet with
    | false => simp
    | true => simp

theorem le_doubled (fuel room : ℕ) : room ≤ doubled need fuel room := by
  induction fuel generalizing room with
  | zero => exact le_rfl
  | succ fuel ih =>
    unfold doubled
    split_ifs
    · exact le_trans (by omega) (ih (room * 2))
    · exact le_rfl

theorem filesGrow_spec {b : Bool} (hs : Roomy s) (hr : filesGrow s need = (b, s')) :
    Roomy s' ∧ s'.handles = s.handles ∧ s'.sets = s.sets ∧ s'.next = s.next ∧
      (b = true → need < s'.room) := by
  unfold filesGrow at hr
  simp only at hr
  obtain ⟨room, hroom⟩ : ∃ room, room = min (doubled need programFiles s.room) programFiles := ⟨_, rfl⟩
  have hle : s.room ≤ room := by
    rw [hroom]
    exact le_min (le_doubled _ _) hs.room
  have hmax : room ≤ programFiles := by
    rw [hroom]
    exact min_le_right _ _
  rw [← hroom] at hr
  split_ifs at hr with h1 h2
  · obtain ⟨rfl, rfl⟩ := Prod.mk.inj hr
    exact ⟨hs, rfl, rfl, rfl, fun h => Bool.noConfusion h⟩
  · obtain ⟨rfl, rfl⟩ := Prod.mk.inj hr
    exact ⟨⟨hmax, fun fd hfd => hs.past fd (le_trans hle hfd)⟩, rfl, rfl, rfl, fun _ => by
      show need < room
      omega⟩
  · obtain ⟨rfl, rfl⟩ := Prod.mk.inj hr
    exact ⟨⟨hs.room, hs.past⟩, rfl, rfl, rfl, fun h => Bool.noConfusion h⟩

theorem lowest_spec (hs : Roomy s) : lowest s ≤ s.room ∧ s.handles (lowest s) = none := by
  unfold lowest
  cases hf : (List.range s.room).find? fun i => (s.handles i).isNone with
  | none => exact ⟨le_rfl, hs.past _ le_rfl⟩
  | some i =>
    have hmem := List.mem_of_find?_eq_some hf
    have hp := List.find?_some hf
    rw [Option.isNone_iff_eq_none] at hp
    exact ⟨(List.mem_range.1 hmem).le, hp⟩

theorem giveHandle_spec {r : Option ℕ} (hs : Roomy s) (hr : giveHandle s h = (r, s')) :
    Roomy s' ∧ s'.sets = s.sets ∧ s'.next = s.next ∧
      match r with
      | none => s'.handles = s.handles
      | some i => i = lowest s ∧ s.handles i = none ∧ s'.handles = update s.handles i (some h) := by
  obtain ⟨hle, hnone⟩ := lowest_spec hs
  unfold giveHandle at hr
  simp only at hr
  split_ifs at hr with hlt
  · obtain ⟨rfl, rfl⟩ := Prod.mk.inj hr
    refine ⟨⟨hs.room, fun fd hfd => ?_⟩, rfl, rfl, rfl, hnone, rfl⟩
    show update s.handles (lowest s) (some h) fd = none
    have hfd : s.room ≤ fd := hfd
    rw [update_of_ne (by omega)]
    exact hs.past fd hfd
  · cases hg : filesGrow s (lowest s) with
    | mk b s1 =>
      rw [hg] at hr
      obtain ⟨h1, h2, h3, h4, h5⟩ := filesGrow_spec hs hg
      cases b with
      | false =>
        obtain ⟨rfl, rfl⟩ := Prod.mk.inj hr
        exact ⟨h1, h3, h4, h2⟩
      | true =>
        obtain ⟨rfl, rfl⟩ := Prod.mk.inj hr
        refine ⟨⟨h1.room, fun fd hfd => ?_⟩, h3, h4, rfl, hnone, by rw [← h2]⟩
        show update s1.handles (lowest s) (some h) fd = none
        have hfd : s1.room ≤ fd := hfd
        have := h5 rfl
        rw [update_of_ne (by omega)]
        exact h1.past fd hfd

end Descriptors

/-! ### What has been asked for -/

/-- What the run keeps: open files are known by their numbers, and a live set's entries are the
descriptors asked for, each once and of an open file that is meant. -/
structure Inv (w : World) : Prop extends Roomy w.state where
  fresh : ∀ fd h, w.state.handles fd = some h → h.file < w.state.next
  kind : ∀ fd fd' h h', w.state.handles fd = some h → w.state.handles fd' = some h' →
    h.file = h'.file → h = h'
  unasked : ∀ k, w.state.next ≤ k → ∀ fd, w.asked k fd = none
  short : ∀ k fd p, w.asked k fd = some p → low32 fd = fd
  nodup : ∀ k, IsSet w.state k → ((w.state.sets k).map Entry.fd).Nodup
  entry : ∀ k, IsSet w.state k → ∀ e ∈ w.state.sets k, ∃ file, w.asked k e.fd = some (file, e.data)
  there : ∀ k, IsSet w.state k → ∀ fd p, w.asked k fd = some p →
    ∃ e ∈ w.state.sets k, e.fd = fd
  meant : ∀ k, IsSet w.state k → ∀ fd file data, w.asked k fd = some (file, data) →
    IsOpen w.state file ∧ ∀ h, w.state.handles fd = some h → h.file = file

/-- A descriptor that may be closed: its file has another, or is in no set. -/
def Spared (w : World) (fd : ℕ) : Prop :=
  ∀ h, w.state.handles fd = some h →
    (∃ fd' h', fd' ≠ fd ∧ w.state.handles fd' = some h' ∧ h'.file = h.file) ∨
      ∀ k, IsSet w.state k → ∀ fd' data, w.asked k fd' ≠ some (h.file, data)

/-- A descriptor that may be given to a file: no set has it for another. -/
def Given (w : World) (fd file : ℕ) : Prop :=
  ∀ k, IsSet w.state k → ∀ file' data, w.asked k fd = some (file', data) → file' = file

section Steps

variable {w : World} {s' : State} {h : Handle} {fd : ℕ}

theorem IsSet.congr {s s' : State} (hh : s'.handles = s.handles) {k : ℕ} : IsSet s' k ↔ IsSet s k := by
  unfold IsSet
  rw [hh]

theorem IsOpen.congr {s s' : State} (hh : s'.handles = s.handles) {k : ℕ} :
    IsOpen s' k ↔ IsOpen s k := by
  unfold IsOpen
  rw [hh]

/-- Room made, or not. -/
theorem Inv.congr (hw : Inv w) (hroomy : Roomy s') (hh : s'.handles = w.state.handles)
    (hsets : s'.sets = w.state.sets) (hnext : s'.next = w.state.next) : Inv ⟨s', w.asked⟩ := by
  refine ⟨hroomy, ?_, ?_, ?_, hw.short, ?_, ?_, ?_, ?_⟩
  · simpa only [hh, hnext] using hw.fresh
  · simpa only [hh] using hw.kind
  · simpa only [hnext] using hw.unasked
  · simpa only [IsSet.congr hh, hsets] using hw.nodup
  · simpa only [IsSet.congr hh, hsets] using hw.entry
  · simpa only [IsSet.congr hh, hsets] using hw.there
  · simpa only [IsSet.congr hh, IsOpen.congr hh, hh] using hw.meant

/-- A number of a new open file. -/
theorem Inv.next (hw : Inv w) : Inv ⟨{ w.state with
    next := w.state.next + 1, sets := update w.state.sets w.state.next [] }, w.asked⟩ := by
  have hne : ∀ k, IsSet w.state k → k ≠ w.state.next := by
    rintro k ⟨fd, hfd⟩ rfl
    exact absurd (hw.fresh fd _ hfd) (Nat.lt_irrefl _)
  have hsame : ∀ k, IsSet w.state k →
      update w.state.sets w.state.next [] k = w.state.sets k := fun k hk => update_of_ne (hne k hk) _ _
  refine ⟨⟨hw.room, hw.past⟩, fun fd h hfd => Nat.lt_succ_of_lt (hw.fresh fd h hfd), hw.kind,
    fun k hk => hw.unasked k (le_trans (Nat.le_succ _) hk), hw.short, fun k hk => ?_, fun k hk => ?_,
    fun k hk => ?_, hw.meant⟩
  · show ((update w.state.sets w.state.next [] k).map Entry.fd).Nodup
    rw [hsame k hk]
    exact hw.nodup k hk
  · show ∀ e ∈ update w.state.sets w.state.next [] k, _
    rw [hsame k hk]
    exact hw.entry k hk
  · show ∀ fd p, _ → ∃ e ∈ update w.state.sets w.state.next [] k, _
    rw [hsame k hk]
    exact hw.there k hk

/-- **A descriptor given to an open file**: to a new one, or to one that has another. -/
theorem Inv.give (hw : Inv w) (hroomy : Roomy s') (hnone : w.state.handles fd = none)
    (hh : s'.handles = update w.state.handles fd (some h)) (hsets : s'.sets = w.state.sets)
    (hnext : s'.next = w.state.next) (hlt : h.file < w.state.next)
    (hfile : (∃ fd', w.state.handles fd' = some h) ∨
      ¬ IsOpen w.state h.file ∧ (h.isSet = true → w.state.sets h.file = [] ∧
        ∀ fd, w.asked h.file fd = none)) (hgiven : Given w fd h.file) : Inv ⟨s', w.asked⟩ := by
  have hold : ∀ fd' h', s'.handles fd' = some h' → fd' = fd ∧ h' = h ∨
      fd' ≠ fd ∧ w.state.handles fd' = some h' := by
    intro fd' h' h1
    rw [hh] at h1
    rcases eq_or_ne fd' fd with rfl | hne
    · rw [update_self] at h1
      exact Or.inl ⟨rfl, (Option.some.inj h1).symm⟩
    · rw [update_of_ne hne] at h1
      exact Or.inr ⟨hne, h1⟩
  have hkeep : ∀ fd' h', w.state.handles fd' = some h' → s'.handles fd' = some h' := by
    intro fd' h' h1
    rw [hh, update_of_ne, h1]
    rintro rfl
    rw [hnone] at h1
    cases h1
  have hset : ∀ k, IsSet s' k → IsSet w.state k ∨
      w.state.sets k = [] ∧ ∀ fd, w.asked k fd = none := by
    rintro k ⟨fd', h1⟩
    rcases hold fd' _ h1 with ⟨-, rfl⟩ | ⟨-, h1⟩
    · rcases hfile with ⟨fd', h2⟩ | ⟨-, h2⟩
      · exact Or.inl ⟨fd', h2⟩
      · exact Or.inr (h2 rfl)
    · exact Or.inl ⟨fd', h1⟩
  have hsame : ∀ fd' h', w.state.handles fd' = some h' → h'.file = h.file → h' = h := by
    intro fd' h' h1 h2
    rcases hfile with ⟨fd'', h3⟩ | ⟨h3, -⟩
    · exact hw.kind fd' fd'' h' h h1 h3 h2
    · exact absurd ⟨fd', h', h1, h2⟩ h3
  refine ⟨hroomy, fun fd' h' h1 => ?_, fun fd1 fd2 h1 h2 hfd1 hfd2 heq => ?_, fun k hk => ?_, hw.short,
    fun k hk => ?_, fun k hk => ?_, fun k hk => ?_, fun k hk fd' file data hd => ?_⟩
  · show h'.file < s'.next
    rw [hnext]
    rcases hold fd' h' h1 with ⟨-, rfl⟩ | ⟨-, h1⟩
    · exact hlt
    · exact hw.fresh fd' h' h1
  · rcases hold fd1 h1 hfd1 with ⟨-, rfl⟩ | ⟨-, k1⟩
    · rcases hold fd2 h2 hfd2 with ⟨-, rfl⟩ | ⟨-, k2⟩
      · rfl
      · exact (hsame fd2 h2 k2 heq.symm).symm
    · rcases hold fd2 h2 hfd2 with ⟨-, rfl⟩ | ⟨-, k2⟩
      · exact hsame fd1 h1 k1 heq
      · exact hw.kind fd1 fd2 h1 h2 k1 k2 heq
  · exact hw.unasked k (by rw [← hnext]; exact hk)
  · show ((s'.sets k).map Entry.fd).Nodup
    rw [hsets]
    rcases hset k hk with hk | ⟨hk, -⟩
    · exact hw.nodup k hk
    · rw [hk]
      exact List.nodup_nil
  · show ∀ e ∈ s'.sets k, _
    rw [hsets]
    rcases hset k hk with hk | ⟨hk, -⟩
    · exact hw.entry k hk
    · rw [hk]
      exact fun e he => absurd he List.not_mem_nil
  · show ∀ fd p, _ → ∃ e ∈ s'.sets k, _
    rw [hsets]
    rcases hset k hk with hk | ⟨-, hk⟩
    · exact hw.there k hk
    · intro fd' p hp
      have hp : w.asked k fd' = some p := hp
      rw [hk] at hp
      cases hp
  · have hd : w.asked k fd' = some (file, data) := hd
    rcases hset k hk with hk | ⟨-, hk⟩
    swap
    · rw [hk] at hd
      cases hd
    obtain ⟨⟨fd1, h1, h2, h3⟩, h4⟩ := hw.meant k hk fd' file data hd
    refine ⟨⟨fd1, h1, hkeep fd1 h1 h2, h3⟩, fun h' hh' => ?_⟩
    rcases hold fd' h' hh' with ⟨rfl, rfl⟩ | ⟨-, hh'⟩
    · exact (hgiven k hk file data hd).symm
    · exact h4 h' hh'

/-- **A descriptor closed.** -/
theorem Inv.close (hw : Inv w) (hroomy : Roomy s')
    (hh : s'.handles = update w.state.handles fd none) (hsets : s'.sets = w.state.sets)
    (hnext : s'.next = w.state.next) (hspared : Spared w fd) : Inv ⟨s', w.asked⟩ := by
  have hold : ∀ fd' h', s'.handles fd' = some h' → w.state.handles fd' = some h' := by
    intro fd' h' h1
    rw [hh] at h1
    rcases eq_or_ne fd' fd with rfl | hne
    · rw [update_self] at h1
      cases h1
    · rwa [update_of_ne hne] at h1
  have hset : ∀ k, IsSet s' k → IsSet w.state k := fun k ⟨fd', h1⟩ => ⟨fd', hold fd' _ h1⟩
  refine ⟨hroomy, fun fd' h' h1 => ?_, fun fd1 fd2 h1 h2 hfd1 hfd2 =>
    hw.kind fd1 fd2 h1 h2 (hold _ _ hfd1) (hold _ _ hfd2), fun k hk => ?_, hw.short, fun k hk => ?_,
    fun k hk => ?_, fun k hk => ?_, fun k hk fd' file data hd => ?_⟩
  · show h'.file < s'.next
    rw [hnext]
    exact hw.fresh fd' h' (hold fd' h' h1)
  · exact hw.unasked k (by rw [← hnext]; exact hk)
  · show ((s'.sets k).map Entry.fd).Nodup
    rw [hsets]
    exact hw.nodup k (hset k hk)
  · show ∀ e ∈ s'.sets k, _
    rw [hsets]
    exact hw.entry k (hset k hk)
  · show ∀ fd p, _ → ∃ e ∈ s'.sets k, _
    rw [hsets]
    exact hw.there k (hset k hk)
  · obtain ⟨⟨fd1, h1, h2, h3⟩, h4⟩ := hw.meant k (hset k hk) fd' file data hd
    refine ⟨?_, fun h' hh' => h4 h' (hold fd' h' hh')⟩
    rcases eq_or_ne fd1 fd with rfl | hne
    · rcases hspared h1 h2 with ⟨fd2, h5, hne, h6, h7⟩ | hno
      · exact ⟨fd2, h5, by rw [hh, update_of_ne hne, h6], h7.trans h3⟩
      · exact absurd hd (by rw [← h3]; exact hno k (hset k hk) fd' data)
    · exact ⟨fd1, h1, by rw [hh, update_of_ne hne, h2], h3⟩

/-- The entries of a set changed in what they are watched for. -/
theorem Inv.watched (hw : Inv w) {k : ℕ} {set : List Entry} (hk : IsSet w.state k)
    (hmap : set.map (fun e => (e.fd, e.data)) = (w.state.sets k).map fun e => (e.fd, e.data)) :
    Inv ⟨{ w.state with sets := update w.state.sets k set }, w.asked⟩ := by
  have hmem : ∀ {l l' : List Entry}, l.map (fun e => (e.fd, e.data)) = l'.map (fun e => (e.fd, e.data)) →
      ∀ e ∈ l, ∃ e' ∈ l', e'.fd = e.fd ∧ e'.data = e.data := by
    intro l l' hl e he
    have h1 : (e.fd, e.data) ∈ l'.map fun e => (e.fd, e.data) := by
      rw [← hl]
      exact List.mem_map_of_mem he
    obtain ⟨e', he', heq⟩ := List.mem_map.1 h1
    exact ⟨e', he', (Prod.mk.inj heq).1, (Prod.mk.inj heq).2⟩
  refine ⟨⟨hw.room, hw.past⟩, hw.fresh, hw.kind, hw.unasked, hw.short, fun j hj => ?_, fun j hj => ?_,
    fun j hj => ?_, hw.meant⟩
  · show ((update w.state.sets k set j).map Entry.fd).Nodup
    rcases eq_or_ne j k with rfl | hne
    · have hfd : set.map Entry.fd = (w.state.sets j).map Entry.fd := by
        have := congrArg (List.map Prod.fst) hmap
        rw [List.map_map, List.map_map] at this
        exact this
      rw [update_self, hfd]
      exact hw.nodup j hj
    · rw [update_of_ne hne]
      exact hw.nodup j hj
  · show ∀ e ∈ update w.state.sets k set j, _
    rcases eq_or_ne j k with rfl | hne
    · rw [update_self]
      intro e he
      obtain ⟨e', he', h1, h2⟩ := hmem hmap e he
      obtain ⟨file, h3⟩ := hw.entry j hj e' he'
      exact ⟨file, by rw [← h1, ← h2]; exact h3⟩
    · rw [update_of_ne hne]
      exact hw.entry j hj
  · show ∀ fd p, _ → ∃ e ∈ update w.state.sets k set j, _
    rcases eq_or_ne j k with rfl | hne
    · rw [update_self]
      intro fd' p hp
      obtain ⟨e, he, h1⟩ := hw.there j hj fd' p hp
      obtain ⟨e', he', h2, -⟩ := hmem hmap.symm e he
      exact ⟨e', he', h2.trans h1⟩
    · rw [update_of_ne hne]
      exact hw.there j hj

/-- **A set changed by `epoll_ctl`.** -/
theorem Inv.ctl (hw : Inv w) {k : ℕ} {op : Ctl} {event : Option (UInt32 × UInt64)}
    (hk : IsSet w.state k) (hfd : w.state.handles fd = some h)
    (hok : (ctlSet (w.state.sets k) op fd event).1 = .ok) {given : Option (ℕ × UInt64)}
    (hdel : op = .del → given = none)
    (hset : op ≠ .del → ∀ events data, event = some (events, data) → given = some (h.file, data))
    (hshort : low32 fd = fd) : Inv ⟨{ w.state with
      sets := update w.state.sets k (ctlSet (w.state.sets k) op fd event).2 },
      update w.asked k (update (w.asked k) fd given)⟩ := by
  obtain ⟨h1, -, h3⟩ := @ctlSet_spec _ op fd event (hw.nodup k hk)
  obtain ⟨h4, h5, h6⟩ := h3 hok
  obtain ⟨set, hset'⟩ : ∃ set, set = (ctlSet (w.state.sets k) op fd event).2 := ⟨_, rfl⟩
  rw [← hset'] at h1 h4 h5 h6 ⊢
  have hlt : k < w.state.next := by
    obtain ⟨fd', hk⟩ := hk
    exact hw.fresh fd' _ hk
  -- the one entry for the descriptor is as given
  have hself : ∀ e ∈ set, e.fd = fd → given = some (h.file, e.data) := by
    intro e he hefd
    by_cases hop : op = .del
    · exact absurd hefd (h5 hop e he)
    · obtain ⟨events, data, hev, hmem⟩ := h6 hop
      have heq : e = ⟨fd, events, data⟩ :=
        List.inj_on_of_nodup_map h1 he hmem hefd
      rw [heq]
      exact hset hop events data hev
  refine ⟨⟨hw.room, hw.past⟩, hw.fresh, hw.kind, fun j hj fd' => ?_, fun j fd' p hp => ?_, fun j hj => ?_,
    fun j hj => ?_, fun j hj => ?_, fun j hj fd' file data hd => ?_⟩
  · have hj : w.state.next ≤ j := hj
    show update w.asked k (update (w.asked k) fd given) j fd' = none
    rw [update_of_ne (by omega)]
    exact hw.unasked j hj fd'
  · have hp : update w.asked k (update (w.asked k) fd given) j fd' = some p := hp
    rcases eq_or_ne fd' fd with rfl | hfd'
    · exact hshort
    · rcases eq_or_ne j k with rfl | hj
      · rw [update_self, update_of_ne hfd'] at hp
        exact hw.short j fd' p hp
      · rw [update_of_ne hj] at hp
        exact hw.short j fd' p hp
  · show ((update w.state.sets k set j).map Entry.fd).Nodup
    rcases eq_or_ne j k with rfl | hne
    · rwa [update_self]
    · rw [update_of_ne hne]
      exact hw.nodup j hj
  · show ∀ e ∈ update w.state.sets k set j,
      ∃ file, update w.asked k (update (w.asked k) fd given) j e.fd = some (file, e.data)
    rcases eq_or_ne j k with rfl | hne
    · rw [update_self, update_self]
      intro e he
      by_cases hefd : e.fd = fd
      · exact ⟨h.file, by rw [hefd, update_self]; exact hself e he hefd⟩
      · rw [update_of_ne hefd]
        exact hw.entry j hj e ((h4 e hefd).1 he)
    · rw [update_of_ne hne, update_of_ne hne]
      exact hw.entry j hj
  · show ∀ fd' p, update w.asked k (update (w.asked k) fd given) j fd' = some p →
      ∃ e ∈ update w.state.sets k set j, e.fd = fd'
    rcases eq_or_ne j k with rfl | hne
    · rw [update_self, update_self]
      intro fd' p hp
      rcases eq_or_ne fd' fd with rfl | hne
      · rw [update_self] at hp
        by_cases hop : op = .del
        · rw [hdel hop] at hp
          cases hp
        · obtain ⟨events, data, -, hmem⟩ := h6 hop
          exact ⟨_, hmem, rfl⟩
      · rw [update_of_ne hne] at hp
        obtain ⟨e, he, hefd⟩ := hw.there j hj fd' p hp
        exact ⟨e, (h4 e (by rw [hefd]; exact hne)).2 he, hefd⟩
    · rw [update_of_ne hne, update_of_ne hne]
      exact hw.there j hj
  · have hd : update w.asked k (update (w.asked k) fd given) j fd' = some (file, data) := hd
    rcases eq_or_ne j k with rfl | hne
    · rw [update_self] at hd
      rcases eq_or_ne fd' fd with rfl | hne
      · rw [update_self] at hd
        by_cases hop : op = .del
        · rw [hdel hop] at hd
          cases hd
        · obtain ⟨events, data', hev, -⟩ := h6 hop
          rw [hset hop events data' hev] at hd
          obtain ⟨rfl, -⟩ := Prod.mk.inj (Option.some.inj hd)
          refine ⟨⟨fd', h, hfd, rfl⟩, fun h' hh' => ?_⟩
          have hh' : w.state.handles fd' = some h' := hh'
          rw [hfd] at hh'
          rw [Option.some.inj hh']
      · rw [update_of_ne hne] at hd
        exact hw.meant j hj fd' file data hd
    · rw [update_of_ne hne] at hd
      exact hw.meant j hj fd' file data hd

theorem Inv.opened (hw : Inv w) {isSet : Bool} {r : Option ℕ}
    (hr : opened w.state isSet = (r, s'))
    (hgiven : Given w (lowest w.state) w.state.next) : Inv ⟨s', w.asked⟩ ∧
      s'.next = w.state.next + 1 ∧
      match r with
      | none => s'.handles = w.state.handles
      | some i => s'.handles = update w.state.handles i (some ⟨w.state.next, isSet⟩) := by
  have hnext := hw.next
  obtain ⟨h1, h2, h3, h4⟩ := giveHandle_spec hnext.toRoomy hr
  cases r with
  | none => exact ⟨hnext.congr h1 h4 h2 h3, h3, h4⟩
  | some i =>
    obtain ⟨rfl, hnone, hh⟩ := h4
    refine ⟨hnext.give h1 hnone hh h2 h3 (Nat.lt_succ_self _) (Or.inr ⟨?_, fun _ => ⟨?_, ?_⟩⟩)
      hgiven, h3, hh⟩
    · rintro ⟨fd', h', h5, h6⟩
      have := hw.fresh fd' h' h5
      have h6 : h'.file = w.state.next := h6
      omega
    · exact update_self _ _ _
    · exact hw.unasked _ le_rfl

end Steps

/-! ### Runs -/

/-- **The condition**: no open file is closed for good while a set has it, no descriptor a set has is
given to another open file, and none is made of itself, given by another number. -/
def Tidy (w : World) : Op → Prop
  | .epollCreate => Given w (lowest w.state) w.state.next
  | .open_ => Given w (lowest w.state) w.state.next
  | .pipe => Given w (lowest w.state) w.state.next ∧
      Given w (lowest (opened w.state false).2) (w.state.next + 1)
  | .dup fd => ∀ h, w.state.handles (low32 fd) = some h → Given w (lowest w.state) h.file
  | .dup2 fd to_ => low32 to_ ≠ fd → ∀ h, w.state.handles (low32 fd) = some h →
      low32 to_ ≠ low32 fd ∧ Spared w (low32 to_) ∧ Given w (low32 to_) h.file
  | .close fd => Spared w (low32 fd)
  | _ => True

/-- **What an epoll set is for.** Its entries are descriptors asked for, each once, with the data
given and of a file that is open; what is told is of an open file that is ready, with the data given
for it; and what has not been asked for may be added, while there is room. -/
structure Registered (w : World) : Prop where
  once : ∀ k, IsSet w.state k → ((w.state.sets k).map Entry.fd).Nodup
  entries : ∀ k, IsSet w.state k → ∀ e ∈ w.state.sets k, ∃ file,
    w.asked k e.fd = some (file, e.data) ∧ IsOpen w.state file
  told : ∀ epfd most ready evs, (epollWait w.state epfd most ready).1 = some evs → ∀ ev ∈ evs,
    ∃ k fd file what, epollOf w.state epfd = some k ∧ w.asked k fd = some (file, ev.2) ∧
      IsOpen w.state file ∧ ev.1 = ready file what ∧ ev.1 ≠ 0
  added : ∀ epfd k fd h event, epollOf w.state epfd = some k → handleOf w.state fd = some h →
    (∀ data, w.asked k (low32 fd) ≠ some (h.file, data)) → (w.state.sets k).length < epollEntries →
    (sysEpollCtl w.state epfd .add fd (some event)).1 = .ok

section Runs

variable {w : World} {op : Op}

theorem Inv.registered (hw : Inv w) : Registered w := by
  refine ⟨hw.nodup, fun k hk e he => ?_, fun epfd most ready evs hevs ev hev => ?_,
    fun epfd k fd h event hep hfd hno hroom => ?_⟩
  · obtain ⟨file, hfile⟩ := hw.entry k hk e he
    exact ⟨file, hfile, (hw.meant k hk e.fd file e.data hfile).1⟩
  · unfold epollWait at hevs
    cases hep : epollOf w.state epfd with
    | none =>
      rw [hep] at hevs
      cases hevs
    | some k =>
      rw [hep] at hevs
      obtain rfl := Option.some.inj hevs
      have hk : IsSet w.state k := ⟨low32 epfd, (epollOf_eq_some hw.toRoomy).1 hep⟩
      obtain ⟨e, he, hdata, what, hwhat, hne⟩ := (epollOnce_spec (pollOnce w.state ready) most).1 ev hev
      obtain ⟨file, hfile⟩ := hw.entry k hk e he
      obtain ⟨hopen, hmeant⟩ := hw.meant k hk e.fd file e.data hfile
      refine ⟨k, e.fd, file, what, rfl, by rw [hdata]; exact hfile, hopen, ?_, hne⟩
      -- what was looked at is the file that was meant
      unfold pollOnce at hwhat
      rw [handleOf_eq hw.toRoomy, hw.short k e.fd _ hfile] at hwhat
      cases hh : w.state.handles e.fd with
      | none =>
        rw [hh] at hwhat
        exact absurd hwhat hne
      | some h =>
        rw [hh] at hwhat
        rw [← hmeant h hh]
        exact hwhat
  · have hk : IsSet w.state k := ⟨low32 epfd, (epollOf_eq_some hw.toRoomy).1 hep⟩
    rw [handleOf_eq hw.toRoomy] at hfd
    unfold sysEpollCtl
    rw [hep, handleOf_eq hw.toRoomy, hfd]
    obtain ⟨events, data⟩ := event
    show (ctlSet (w.state.sets k) .add (low32 fd) (some (events, data))).1 = .ok
    unfold ctlSet
    simp only
    rw [if_neg, if_neg (by omega)]
    rw [findIdx_lt_iff]
    rintro ⟨e, he, hefd⟩
    obtain ⟨file, hfile⟩ := hw.entry k hk e he
    rw [hefd] at hfile
    have hmeant := (hw.meant k hk (low32 fd) file e.data hfile).2 h hfd
    exact hno e.data (by rw [hmeant]; exact hfile)

theorem step_inv (hw : Inv w) (hop : Tidy w op) : Inv (step w op) := by
  cases op with
  | epollCreate =>
    cases hr : opened w.state true with
    | mk r s' =>
      have := (hw.opened hr hop).1
      show Inv ⟨(opened w.state true).2, w.asked⟩
      rwa [hr]
  | open_ =>
    cases hr : opened w.state false with
    | mk r s' =>
      have := (hw.opened hr hop).1
      show Inv ⟨(opened w.state false).2, w.asked⟩
      rwa [hr]
  | pipe =>
    show Inv ⟨(sysPipe w.state).2, w.asked⟩
    unfold sysPipe
    obtain ⟨hop1, hop2⟩ := hop
    cases hr : opened w.state false with
    | mk r s1 =>
      rw [hr] at hop2
      obtain ⟨h1, hnext, h2⟩ := hw.opened hr hop1
      have hset : ∀ k, IsSet s1 k → IsSet w.state k := by
        rintro k ⟨fd, hfd⟩
        cases r with
        | none => exact ⟨fd, h2 ▸ hfd⟩
        | some i =>
          rw [h2] at hfd
          rcases eq_or_ne fd i with rfl | hne
          · rw [update_self] at hfd
            cases hfd
          · rw [update_of_ne hne] at hfd
            exact ⟨fd, hfd⟩
      have hgiven : Given ⟨s1, w.asked⟩ (lowest s1) s1.next := by
        intro k hk file data hd
        rw [hnext]
        exact hop2 k (hset k hk) file data hd
      cases r with
      | none =>
        cases hr2 : opened s1 false with
        | mk r2 s2 =>
          have h3 := (h1.opened hr2 hgiven).1
          show Inv ⟨(opened s1 false).2, w.asked⟩
          rwa [hr2]
      | some i =>
        simp only at h2 ⊢
        cases hr2 : opened s1 false with
        | mk r2 s2 =>
          obtain ⟨h3, hnext2, h4⟩ := h1.opened hr2 hgiven
          cases r2 with
          | some j => exact h3
          | none =>
            have hroomy : Roomy { s2 with handles := update s2.handles i none } := by
              refine ⟨h3.room, fun fd hfd => ?_⟩
              show update s2.handles i none fd = none
              rcases eq_or_ne fd i with rfl | hne
              · exact update_self _ _ _
              · rw [update_of_ne hne]
                exact h3.past fd hfd
            refine h3.close hroomy rfl rfl rfl fun h hh => Or.inr fun k hk fd' data hd => ?_
            have hh : s2.handles i = some h := hh
            rw [h4, h2, update_self] at hh
            obtain rfl := Option.some.inj hh
            -- the end's number was never asked for
            have hk : IsSet s2 k := hk
            rw [IsSet.congr h4] at hk
            obtain ⟨⟨fd1, h5, h6, h7⟩, -⟩ := hw.meant k (hset k hk) fd' _ _ hd
            have := hw.fresh fd1 h5 h6
            have h7 : h5.file = w.state.next := h7
            omega
  | dup fd =>
    show Inv ⟨(sysDup w.state fd).2, w.asked⟩
    unfold sysDup
    rw [handleOf_eq hw.toRoomy]
    cases hfd : w.state.handles (low32 fd) with
    | none => exact hw
    | some h =>
      simp only
      cases hr : giveHandle w.state h with
      | mk r s1 =>
        obtain ⟨h1, h2, h3, h4⟩ := giveHandle_spec hw.toRoomy hr
        cases r with
        | none => exact hw.congr h1 h4 h2 h3
        | some i =>
          obtain ⟨rfl, hnone, hh⟩ := h4
          exact hw.give h1 hnone hh h2 h3 (hw.fresh _ h hfd) (Or.inl ⟨_, hfd⟩) (hop h hfd)
  | dup2 fd to_ =>
    show Inv ⟨(dupTo w.state fd to_).2, w.asked⟩
    unfold dupTo
    rw [handleOf_eq hw.toRoomy]
    have hop : low32 to_ ≠ fd → _ := hop
    have hcut : low32 (low32 to_) = low32 to_ := Nat.mod_mod _ _
    generalize low32 to_ = to_ at hop hcut ⊢
    cases hfd : w.state.handles (low32 fd) with
    | none => exact hw
    | some h =>
      simp only
      by_cases hto : to_ < programFiles
      swap
      · rw [if_neg hto]
        exact hw
      rw [if_pos hto]
      cases hg : (if w.state.room ≤ to_ then filesGrow w.state to_ else (true, w.state)) with
      | mk b s1 =>
        have hgrown : Roomy s1 ∧ s1.handles = w.state.handles ∧ s1.sets = w.state.sets ∧
            s1.next = w.state.next ∧ (b = true → to_ < s1.room) := by
          split_ifs at hg with hroom
          · exact filesGrow_spec hw.toRoomy hg
          · obtain ⟨rfl, rfl⟩ := Prod.mk.inj hg
            exact ⟨hw.toRoomy, rfl, rfl, rfl, fun _ => by omega⟩
        obtain ⟨h1, h2, h3, h4, h5⟩ := hgrown
        have hw1 := hw.congr h1 h2 h3 h4
        cases b with
        | false => exact hw1
        | true =>
          simp only
          by_cases hne : to_ = fd
          · rw [if_pos hne]
            exact hw1
          · rw [if_neg hne]
            obtain ⟨hother, hspared, hgiven⟩ := hop hne h hfd
            have hroomy : Roomy (sysClose s1 to_).2 ∧
                (sysClose s1 to_).2.handles = update s1.handles to_ none ∧
                (sysClose s1 to_).2.sets = s1.sets ∧ (sysClose s1 to_).2.next = s1.next ∧
                (sysClose s1 to_).2.room = s1.room := by
              unfold sysClose
              rw [handleOf_eq h1, hcut]
              cases hto : s1.handles to_ with
              | none => exact ⟨h1, by rw [← hto, update_eq_self, hto], rfl, rfl, rfl⟩
              | some h' =>
                refine ⟨⟨h1.room, fun x hx => ?_⟩, rfl, rfl, rfl, rfl⟩
                show update s1.handles to_ none x = none
                have hx : s1.room ≤ x := hx
                have := h5 rfl
                rw [update_of_ne (by omega)]
                exact h1.past x hx
            obtain ⟨k1, k2, k3, k4, k5⟩ := hroomy
            generalize (sysClose s1 to_).2 = s2 at k1 k2 k3 k4 k5 ⊢
            have hspared1 : Spared ⟨s1, w.asked⟩ to_ := by
              unfold Spared at hspared ⊢
              simpa only [h2, IsSet.congr h2] using hspared
            have hw2 := hw1.close k1 k2 k3 k4 hspared1
            have hfd2 : s2.handles (low32 fd) = some h := by
              rw [k2, update_of_ne (Ne.symm hother), h2, hfd]
            refine hw2.give ⟨k1.room, fun x hx => ?_⟩ (by rw [k2, update_self]) rfl rfl rfl
              (hw2.fresh _ h hfd2) (Or.inl ⟨_, hfd2⟩) fun k hk file data hd => ?_
            · show update s2.handles to_ (some h) x = none
              have hx : s2.room ≤ x := hx
              have := h5 rfl
              rw [update_of_ne (by omega)]
              exact k1.past x hx
            · refine hgiven k ?_ file data hd
              obtain ⟨x, hx⟩ := hk
              have hx : s2.handles x = some ⟨k, true⟩ := hx
              rw [k2] at hx
              rcases eq_or_ne x to_ with rfl | hxt
              · rw [update_self] at hx
                cases hx
              · rw [update_of_ne hxt, h2] at hx
                exact ⟨x, hx⟩
  | close fd =>
    show Inv ⟨(sysClose w.state fd).2, w.asked⟩
    unfold sysClose
    rw [handleOf_eq hw.toRoomy]
    have hop : Spared w (low32 fd) := hop
    generalize low32 fd = fd at hop ⊢
    cases hfd : w.state.handles fd with
    | none => exact hw
    | some h =>
      refine hw.close ⟨hw.room, fun x hx => ?_⟩ rfl rfl rfl hop
      show update w.state.handles fd none x = none
      rcases eq_or_ne x fd with rfl | hne
      · exact update_self _ _ _
      · rw [update_of_ne hne]
        exact hw.past x hx
  | ctl epfd op fd event =>
    show Inv ⟨(sysEpollCtl w.state epfd op fd event).2, asks w.state w.asked (.ctl epfd op fd event)⟩
    cases hep : epollOf w.state epfd with
    | none =>
      have hbad : sysEpollCtl w.state epfd op fd event = (.badf, w.state) := by
        unfold sysEpollCtl
        rw [hep]
      have hasks : asks w.state w.asked (.ctl epfd op fd event) = w.asked := by
        unfold asks
        simp only [hep]
      rw [hbad, hasks]
      exact hw
    | some k =>
      have hk : IsSet w.state k := ⟨low32 epfd, (epollOf_eq_some hw.toRoomy).1 hep⟩
      cases hfd : handleOf w.state fd with
      | none =>
        have hbad : sysEpollCtl w.state epfd op fd event = (.badf, w.state) := by
          unfold sysEpollCtl
          rw [hep, hfd]
        have hasks : asks w.state w.asked (.ctl epfd op fd event) = w.asked := by
          unfold asks
          simp only [hep, hfd]
        rw [hbad, hasks]
        exact hw
      | some h =>
        have hctl : sysEpollCtl w.state epfd op fd event =
            ((ctlSet (w.state.sets k) op (low32 fd) event).1, { w.state with
              sets := update w.state.sets k (ctlSet (w.state.sets k) op (low32 fd) event).2 }) := by
          unfold sysEpollCtl
          rw [hep, hfd]
        have hasks : asks w.state w.asked (.ctl epfd op fd event) =
            if (ctlSet (w.state.sets k) op (low32 fd) event).1 = .ok then
              update w.asked k (update (w.asked k) (low32 fd)
                (if op = .del then none else event.map fun e => (h.file, e.2)))
            else w.asked := by
          unfold asks
          simp only [hep, hfd, hctl]
        rw [hctl, hasks]
        simp only
        obtain ⟨-, hsame, hspec⟩ := @ctlSet_spec _ op (low32 fd) event (hw.nodup k hk)
        by_cases hok : (ctlSet (w.state.sets k) op (low32 fd) event).1 = .ok
        · rw [if_pos hok]
          rw [handleOf_eq hw.toRoomy] at hfd
          refine hw.ctl hk hfd hok (fun hop => if_pos hop) (fun hop events data hev => ?_) (Nat.mod_mod _ _)
          rw [if_neg hop, hev]
          rfl
        · rw [if_neg hok, hsame hok, update_eq_self]
          exact hw
  | wait epfd most ready =>
    show Inv ⟨(epollWait w.state epfd most ready).2, w.asked⟩
    unfold epollWait
    cases hep : epollOf w.state epfd with
    | none => exact hw
    | some k =>
      have hk : IsSet w.state k := ⟨low32 epfd, (epollOf_eq_some hw.toRoomy).1 hep⟩
      exact hw.watched hk (epollOnce_spec _ most).2

theorem started_inv (hw : Started w) : Inv w := by
  have hset : ∀ k, ¬ IsSet w.state k := by
    rintro k ⟨fd, hfd⟩
    exact Bool.noConfusion (hw.files fd _ hfd).2
  refine ⟨⟨?_, fun fd hfd => hw.past fd (by rw [← hw.room]; exact hfd)⟩,
    fun fd h hfd => (hw.files fd h hfd).1, fun fd fd' h h' hfd hfd' heq => ?_,
    fun k _ fd => hw.asked k fd, (fun k fd p hp => nomatch (hw.asked k fd).symm.trans hp),
    fun k hk => absurd hk (hset k), fun k hk => absurd hk (hset k),
    fun k hk => absurd hk (hset k), fun k hk => absurd hk (hset k)⟩
  · rw [hw.room]
    decide
  · obtain ⟨file, isSet⟩ := h
    obtain ⟨file', isSet'⟩ := h'
    obtain rfl : isSet = false := (hw.files fd _ hfd).2
    obtain rfl : isSet' = false := (hw.files fd' _ hfd').2
    obtain rfl : file = file' := heq
    rfl

/-- **An epoll set reports only what was registered**, in every run in which no open file is closed
for good while a set has it and no descriptor a set has is given to another. -/
theorem run_registered (w : World) (ops : List Op) (hw : Started w)
    (hops : Runs.Along Tidy step w ops) : Registered (run w ops) :=
  (Runs.Along.invariant (fun _ _ => step_inv) (started_inv hw) hops).registered

end Runs

/-- A process with nothing open. -/
def atStart : World := ⟨⟨fun _ => none, firstFiles, fun _ => [], 0, fun _ => true⟩, fun _ _ => none⟩

theorem atStart_started : Started atStart :=
  ⟨rfl, fun _ _ => rfl, (fun _ _ h => nomatch h), fun _ _ => rfl⟩

/-- What has been asked for, taken back. -/
theorem taken_back : (run atStart [.epollCreate, .open_, .ctl 0 .add 1 (some (1, 7)),
    .ctl 0 .del 1 none]).asked = fun _ _ => none := by
  have h : (run atStart [.epollCreate, .open_, .ctl 0 .add 1 (some (1, 7)),
      .ctl 0 .del 1 none]).asked =
      update (update (fun _ _ => none : Registry) 0
        (update (fun _ => none : ℕ → Option (ℕ × UInt64)) 1 (some (1, 7)))) 0
        (update (update (fun _ => none : ℕ → Option (ℕ × UInt64)) 1 (some (1, 7))) 1 none) := rfl
  rw [h, update_idem, update_idem]
  funext k fd
  rcases eq_or_ne k 0 with rfl | hk
  · rw [update_self]
    exact congrFun (update_eq_self 1 (fun _ => none : ℕ → Option (ℕ × UInt64))) fd
  · rw [update_of_ne hk]

theorem run_registered_closed : Registered (run atStart [.epollCreate, .open_,
    .ctl 0 .add 1 (some (1, 7)), .ctl 0 .del 1 none, .close 1, .open_]) := by
  have hnone : ∀ k fd, (run atStart [.epollCreate, .open_, .ctl 0 .add 1 (some (1, 7)),
      .ctl 0 .del 1 none]).asked k fd = none := fun k fd => by rw [taken_back]
  apply run_registered _ _ atStart_started
  refine ⟨(fun k _ file data hd => nomatch hd), (fun k _ file data hd => nomatch hd), trivial, trivial,
    fun h _ => Or.inr fun k _ fd data hd => ?_, fun k _ file data hd => ?_, trivial⟩
  · exact nomatch (hnone k fd).symm.trans hd
  · exact nomatch (hnone k _).symm.trans hd

/-- **A descriptor closed without being taken out of its set**, and given to the next file opened:
what is told is of that file, with the data of the one that is gone, and adding it is refused. -/
theorem exists_not_registered : ∃ w ops, Started w ∧
    (epollWait (run w ops).state 0 1 fun _ _ => 1).1 = some [(1, 7)] ∧
    (sysEpollCtl (run w ops).state 0 .add 1 (some (1, 8))).1 = .exist ∧
    (∀ fd file, (run w ops).asked 0 fd = some (file, 7) → ¬ IsOpen (run w ops).state file) ∧
    ¬ Registered (run w ops) := by
  obtain ⟨ops, hops⟩ : ∃ ops, ops =
      [Op.epollCreate, .open_, .ctl 0 .add 1 (some (1, 7)), .close 1, .open_] := ⟨_, rfl⟩
  have hasked : (run atStart ops).asked = update (fun _ _ => none : Registry) 0
      (update (fun _ => none : ℕ → Option (ℕ × UInt64)) 1 (some (1, 7))) := by
    rw [hops]
    rfl
  have hhandles : (run atStart ops).state.handles = update (update (update (update
      (fun _ => none) 0 (some ⟨0, true⟩)) 1 (some ⟨1, false⟩)) 1 none) 1 (some ⟨2, false⟩) := by
    rw [hops]
    rfl
  have hclosed : ∀ fd file, (run atStart ops).asked 0 fd = some (file, 7) →
      ¬ IsOpen (run atStart ops).state file := by
    rintro fd file hfd ⟨fd', h, hh, rfl⟩
    rw [hasked, update_self] at hfd
    rw [hhandles, update_idem, update_idem] at hh
    have hfile : h.file = 1 := by
      rcases eq_or_ne fd 1 with rfl | hne
      · rw [update_self] at hfd
        exact (Prod.mk.inj (Option.some.inj hfd)).1.symm
      · rw [update_of_ne hne] at hfd
        cases hfd
    rcases eq_or_ne fd' 1 with rfl | h1
    · rw [update_self] at hh
      rw [← Option.some.inj hh] at hfile
      cases hfile
    · rw [update_of_ne h1] at hh
      rcases eq_or_ne fd' 0 with rfl | h0
      · rw [update_self] at hh
        rw [← Option.some.inj hh] at hfile
        cases hfile
      · rw [update_of_ne h0] at hh
        cases hh
  have htold : (epollWait (run atStart ops).state 0 1 fun _ _ => 1).1 = some [(1, 7)] := by
    rw [hops]
    decide
  refine ⟨atStart, ops, atStart_started, htold, ?_, hclosed, fun h => ?_⟩
  · rw [hops]
    decide
  · obtain ⟨k, fd, file, what, hk, hfd, hopen, -⟩ :=
      h.told 0 1 (fun _ _ => 1) _ htold (1, 7) (List.mem_singleton_self _)
    have hk0 : epollOf (run atStart ops).state 0 = some 0 := by
      rw [hops]
      decide
    obtain rfl : 0 = k := Option.some.inj (hk0.symm.trans hk)
    exact hclosed fd file hfd hopen

end BaxOS.Epoll
