import BaxOS.Lib.Chain
import Mathlib.Data.Nat.PSub

/-!
# Hash chains through one array

Nodes are numbered; a link is a node's number plus one, `0` at the end. `heads` has the first link
of each bucket's chain and `next` the link that follows each node. `Hashed heads next bucket mem`
says that each bucket's chain holds exactly the members that belong to it.

`seekLink` follows a chain to the first node that is wanted and gives the link it came by, so that
the node can be taken out (`Hashed.unlink`). A node is put in at the front (`Hashed.push`).
-/

namespace Buckets
open Chains Function

/-- Where a link is kept: at the head of a bucket's chain, or in a node. -/
inductive Link
  | head
  | next (a : ℕ)
  deriving DecidableEq

/-- Follows a chain until the node is wanted: the place of the link to it, and the link. -/
def seekLink (next : ℕ → ℕ) (wanted : ℕ → Bool) : ℕ → Link → ℕ → Link × ℕ
  | 0, at_, v => (at_, v)
  | _ + 1, at_, 0 => (at_, 0)
  | fuel + 1, at_, v + 1 =>
    if wanted v then (at_, v + 1) else seekLink next wanted fuel (.next v) (next v)

/-- The heads once a link of bucket `b` is set. -/
def setHead (heads : ℕ → ℕ) (b : ℕ) (at_ : Link) (v : ℕ) : ℕ → ℕ :=
  match at_ with
  | .head => update heads b v
  | .next _ => heads

/-- The nodes' links once a link is set. -/
def setNext (next : ℕ → ℕ) (at_ : Link) (v : ℕ) : ℕ → ℕ :=
  match at_ with
  | .head => next
  | .next a => update next a v

/-- The chain from a link on. -/
abbrev Reads (next : ℕ → ℕ) (v : ℕ) (l : List ℕ) : Prop :=
  Chain (fun a => (next a).ppred) v.ppred l

/-- Each bucket's chain holds exactly the members that belong there. -/
def Hashed (heads next bucket : ℕ → ℕ) (mem : ℕ → Prop) : Prop :=
  ∀ b, ∃ l, Reads next (heads b) l ∧ ∀ i, i ∈ l ↔ mem i ∧ bucket i = b

/-! ### One chain -/

section Reads

variable {next next' : ℕ → ℕ} {v : ℕ} {l : List ℕ}

theorem Reads.nil_iff : Reads next v [] ↔ v = 0 := Nat.ppred_eq_none

theorem Reads.cons_iff {a : ℕ} : Reads next v (a :: l) ↔ v = a + 1 ∧ Reads next (next a) l := by
  show v.ppred = some a ∧ _ ↔ _
  rw [Nat.ppred_eq_some, Nat.succ_eq_add_one, eq_comm]

theorem Reads.congr (h : Reads next v l) (hn : ∀ a ∈ l, next' a = next a) : Reads next' v l :=
  Chain.congr h fun a ha => by rw [hn a ha]

/-- What following a chain finds: the first node that is wanted, or that none is. -/
theorem seekLink_spec {w : ℕ → Bool} (h : Reads next v l) {fuel : ℕ} (hf : l.length ≤ fuel)
    (at_ : Link) :
    ((seekLink next w fuel at_ v).2 = 0 ∧ ∀ a ∈ l, w a = false) ∨
    ∃ l1 a l2, l = l1 ++ a :: l2 ∧ w a = true ∧ (∀ b ∈ l1, w b = false) ∧
      seekLink next w fuel at_ v =
        ((l1.getLast?.map Link.next).getD at_, a + 1) := by
  induction l generalizing v fuel at_ with
  | nil =>
    left
    obtain rfl := Reads.nil_iff.1 h
    exact ⟨by cases fuel <;> rfl, fun a ha => absurd ha List.not_mem_nil⟩
  | cons a l ih =>
    obtain ⟨rfl, hrest⟩ := Reads.cons_iff.1 h
    rw [List.length_cons] at hf
    cases fuel with
    | zero => omega
    | succ fuel =>
      unfold seekLink
      by_cases hw : w a = true
      · right
        exact ⟨[], a, l, rfl, hw, fun b hb => absurd hb List.not_mem_nil, by rw [if_pos hw]; rfl⟩
      · rw [if_neg hw]
        have hw := Bool.eq_false_of_not_eq_true hw
        have hfuel : l.length ≤ fuel := by omega
        rcases ih hrest hfuel (.next a) with ⟨h1, h2⟩ | ⟨l1, c, l2, rfl, h2, h3, h4⟩
        · left
          refine ⟨h1, fun b hb => ?_⟩
          rcases List.mem_cons.1 hb with rfl | hb
          · exact hw
          · exact h2 b hb
        · right
          refine ⟨a :: l1, c, l2, rfl, h2, fun b hb => ?_, ?_⟩
          · rcases List.mem_cons.1 hb with rfl | hb
            · exact hw
            · exact h3 b hb
          · rw [h4]
            cases l1 with
            | nil => rfl
            | cons b l1 => simp [List.getLast?_cons]

/-- The link to a node set to what follows it: the chain without the node. -/
theorem Reads.skip {l1 l2 : List ℕ} {a : ℕ} (h : Reads next v (l1 ++ a :: l2)) :
    match l1.getLast? with
    | none => Reads next (next a) l2
    | some c => Reads (update next c (next a)) v (l1 ++ l2) := by
  have hnd := Chain.nodup h
  induction l1 generalizing v with
  | nil => exact (Reads.cons_iff.1 h).2
  | cons b l1 ih =>
    obtain ⟨rfl, hrest⟩ := Reads.cons_iff.1 h
    rw [List.cons_append, List.nodup_cons] at hnd
    have ih := ih hrest hnd.2
    cases l1 with
    | nil =>
      show Reads (update next b (next a)) (b + 1) (b :: l2)
      refine Reads.cons_iff.2 ⟨rfl, ?_⟩
      rw [update_self]
      refine Reads.congr ih fun c hc => update_of_ne ?_ _ _
      rintro rfl
      exact hnd.1 (List.mem_cons_of_mem _ hc)
    | cons c l1 =>
      rw [List.getLast?_cons_cons]
      obtain ⟨e, he⟩ : ∃ e, (c :: l1).getLast? = some e := ⟨_, List.getLast?_cons⟩
      rw [he] at ih ⊢
      refine Reads.cons_iff.2 ⟨rfl, ?_⟩
      have hbe : b ≠ e := by
        rintro rfl
        exact hnd.1 (List.mem_append_left _ (List.mem_of_getLast? he))
      rw [update_of_ne hbe]
      exact ih

end Reads

/-! ### All of them -/

namespace Hashed

variable {heads next next' bucket bucket' : ℕ → ℕ} {mem mem' : ℕ → Prop} {n b : ℕ}

theorem empty (next bucket : ℕ → ℕ) : Hashed (fun _ => 0) next bucket fun _ => False :=
  fun _ => ⟨[], rfl, by simp⟩

theorem congr (h : Hashed heads next bucket mem) (hm : ∀ i, mem' i ↔ mem i)
    (hb : ∀ i, mem i → bucket' i = bucket i) (hn : ∀ i, mem i → next' i = next i) :
    Hashed heads next' bucket' mem' := by
  intro b
  obtain ⟨l, hl, hmem⟩ := h b
  refine ⟨l, hl.congr fun a ha => hn a ((hmem a).1 ha).1, fun i => ?_⟩
  rw [hmem i, hm i]
  exact and_congr_right fun hi => by rw [hb i hi]

/-- A chain is no longer than there are nodes. -/
theorem length_le {l : List ℕ} (hl : l.Nodup) (hlt : ∀ i ∈ l, i < n) : l.length ≤ n := by
  have := (List.subperm_of_subset hl fun i hi => List.mem_range.2 (hlt i hi)).length_le
  rwa [List.length_range] at this

/-- **Following a bucket's chain finds a member that is wanted, or that there is none.** -/
theorem seek (h : Hashed heads next bucket mem) (hlt : ∀ i, mem i → i < n) (wanted : ℕ → Bool) :
    ((seekLink next wanted n .head (heads b)).2 = 0 ∧
      ∀ a, mem a → bucket a = b → wanted a = false) ∨
    ∃ a, (seekLink next wanted n .head (heads b)).2 = a + 1 ∧ mem a ∧ bucket a = b ∧
      wanted a = true := by
  obtain ⟨l, hl, hmem⟩ := h b
  have hf := length_le (Chain.nodup hl) fun i hi => hlt i ((hmem i).1 hi).1
  rcases seekLink_spec hl hf .head with ⟨h1, h2⟩ | ⟨l1, a, l2, rfl, h2, h3, h4⟩
  · exact Or.inl ⟨h1, fun a ha hb => h2 a ((hmem a).2 ⟨ha, hb⟩)⟩
  · obtain ⟨h5, h6⟩ := (hmem a).1 (by simp)
    exact Or.inr ⟨a, by rw [h4], h5, h6, h2⟩

/-- **The node found taken out of its chain.** -/
theorem unlink (h : Hashed heads next bucket mem) (hlt : ∀ i, mem i → i < n)
    {wanted : ℕ → Bool} {a : ℕ}
    (ha : (seekLink next wanted n .head (heads b)).2 = a + 1) :
    Hashed (setHead heads b (seekLink next wanted n .head (heads b)).1 (next a))
      (setNext next (seekLink next wanted n .head (heads b)).1 (next a)) bucket
      (fun i => mem i ∧ i ≠ a) ∧
    ∀ i, ¬ mem i → setNext next (seekLink next wanted n .head (heads b)).1 (next a) i = next i := by
  obtain ⟨l, hl, hmem⟩ := h b
  have hf := length_le (Chain.nodup hl) fun i hi => hlt i ((hmem i).1 hi).1
  have hnd := Chain.nodup hl
  rcases seekLink_spec (w := wanted) hl hf .head with ⟨h1, -⟩ | ⟨l1, a', l2, rfl, -, -, h4⟩
  · omega
  rw [h4] at ha ⊢
  obtain rfl : a' = a := by simpa using ha
  have hskip := hl.skip
  have hb := ((hmem a').1 (by simp)).2
  -- the members of the bucket are those of its chain but the one taken out
  have hrest : ∀ i, i ∈ l1 ++ l2 ↔ (mem i ∧ i ≠ a') ∧ bucket i = b := by
    intro i
    have hi := hmem i
    have hne : i ∈ l1 ++ l2 → i ≠ a' := by
      rintro hi' rfl
      rw [List.nodup_append] at hnd
      rcases List.mem_append.1 hi' with hi' | hi'
      · exact hnd.2.2 i hi' i List.mem_cons_self rfl
      · exact (List.nodup_cons.1 hnd.2.1).1 hi'
    constructor
    · intro hl'
      have := hi.1 (by
        rcases List.mem_append.1 hl' with h | h
        · exact List.mem_append_left _ h
        · exact List.mem_append_right _ (List.mem_cons_of_mem _ h))
      exact ⟨⟨this.1, hne hl'⟩, this.2⟩
    · rintro ⟨⟨h1, h2⟩, h3⟩
      rcases List.mem_append.1 (hi.2 ⟨h1, h3⟩) with h | h
      · exact List.mem_append_left _ h
      · exact List.mem_append_right _ ((List.mem_cons.1 h).resolve_left h2)
  cases hlast : l1.getLast? with
  | none =>
    rw [hlast] at hskip
    obtain rfl := List.getLast?_eq_none_iff.1 hlast
    refine ⟨fun c => ?_, fun _ _ => rfl⟩
    simp only [Option.map_none, Option.getD_none, setHead, setNext]
    rcases eq_or_ne c b with rfl | hc
    · exact ⟨l2, by rw [update_self]; exact hskip, hrest⟩
    · obtain ⟨l', hl', hmem'⟩ := h c
      rw [update_of_ne hc]
      refine ⟨l', hl', fun i => ?_⟩
      rw [hmem' i]
      refine ⟨fun ⟨h1, h2⟩ => ⟨⟨h1, ?_⟩, h2⟩, fun ⟨⟨h1, _⟩, h2⟩ => ⟨h1, h2⟩⟩
      rintro rfl
      exact hc (h2.symm.trans hb)
  | some e =>
    rw [hlast] at hskip
    have he := (hmem e).1 (List.mem_append_left _ (List.mem_of_getLast? hlast))
    refine ⟨fun c => ?_, fun i hi => ?_⟩
    · simp only [Option.map_some, Option.getD_some, setHead, setNext]
      rcases eq_or_ne c b with rfl | hc
      · exact ⟨l1 ++ l2, hskip, hrest⟩
      · obtain ⟨l', hl', hmem'⟩ := h c
        refine ⟨l', hl'.congr fun j hj => update_of_ne ?_ _ _, fun i => ?_⟩
        · rintro rfl
          exact hc (((hmem' j).1 hj).2.symm.trans he.2)
        · rw [hmem' i]
          refine ⟨fun ⟨h1, h2⟩ => ⟨⟨h1, ?_⟩, h2⟩, fun ⟨⟨h1, _⟩, h2⟩ => ⟨h1, h2⟩⟩
          rintro rfl
          exact hc (h2.symm.trans hb)
    · simp only [Option.map_some, Option.getD_some, setNext]
      refine update_of_ne ?_ _ _
      rintro rfl
      exact hi he.1

/-- **A node put in front of its cs chain.** -/
theorem push {c : ℕ → ℕ} (h : Hashed heads next bucket mem) {a : ℕ} (ha : ¬ mem a)
    (hb : ∀ i, mem i → c i = bucket i) :
    Hashed (update heads (c a) (a + 1)) (update next a (heads (c a))) c
      (fun i => mem i ∨ i = a) := by
  intro d
  obtain ⟨l, hl, hmem⟩ := h d
  have hna : a ∉ l := fun h => ha ((hmem a).1 h).1
  have hl' : Reads (update next a (heads (c a))) (heads d) l := hl.congr fun j hj =>
    update_of_ne (by rintro rfl; exact hna hj) _ _
  rcases eq_or_ne d (c a) with rfl | hc
  · refine ⟨a :: l, ?_, fun i => ?_⟩
    · rw [update_self]
      refine Reads.cons_iff.2 ⟨rfl, ?_⟩
      rw [update_self]
      exact hl'
    · rw [List.mem_cons, hmem i]
      constructor
      · rintro (rfl | ⟨h1, h2⟩)
        · exact ⟨Or.inr rfl, rfl⟩
        · exact ⟨Or.inl h1, (hb i h1).trans h2⟩
      · rintro ⟨h1 | rfl, h2⟩
        · exact Or.inr ⟨h1, (hb i h1).symm.trans h2⟩
        · exact Or.inl rfl
  · refine ⟨l, by rw [update_of_ne hc]; exact hl', fun i => ?_⟩
    rw [hmem i]
    constructor
    · rintro ⟨h1, h2⟩
      exact ⟨Or.inl h1, (hb i h1).trans h2⟩
    · rintro ⟨h1 | rfl, h2⟩
      · exact ⟨h1, (hb i h1).symm.trans h2⟩
      · exact absurd h2.symm hc

end Hashed

end Buckets
