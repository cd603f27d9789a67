import BaxOS.Lib.BitStream
import BaxOS.Tuxpac.Inflate
import BaxOS.Tuxpac.Supply

/-!
# What is read, where the bits to come are known

`Bits.Comes b l` says that the bits to come are `l`, of which fewer than eight have been taken from the
source already. Each step of `gunzip` that reads takes what they begin with: a number (`bitsOf_reads`), a
code's symbol (`decodeBy_reads`), and past a byte's end a byte (`byte_reads`).
-/

namespace BaxOS.Unpack
open Function Programs BitStream

variable {σ τ : Type}

/-! ### Bytes -/

/-- A source that has a byte to give has it in hand, or is filled. -/
theorem Source.more_of_comes {s : Source σ} {c : UInt8} {l : List UInt8} (h : s.Comes (c :: l))
    (hbad : s.bad = false) : ¬ (s.ahead = [] ∧ (s.bad = true ∨ (s.fill s.more).1 = [])) := by
  rintro ⟨hahead, hstop⟩
  obtain ⟨m, hm, hl⟩ := h
  rw [hahead, List.nil_append] at hl
  subst hl
  cases hm with
  | more hfill =>
    rcases hstop with hs | hnone
    · exact absurd (hs.symm.trans hbad) (by decide)
    · rw [hfill] at hnone
      exact absurd hnone (by simp)

/-- **A run of bytes is read** where they come. -/
theorem Source.srcRead_comes {s : Source σ} {cs bs : List UInt8} (h : s.Comes (cs ++ bs))
    (hbad : s.bad = false) :
    (srcRead cs.length s).1 = (true, cs) ∧ (srcRead cs.length s).2.Comes bs ∧
      (srcRead cs.length s).2.bad = false := by
  induction cs generalizing s with
  | nil => exact ⟨rfl, h, hbad⟩
  | cons c cs ih =>
    obtain ⟨hc, hbad', hrest⟩ := srcByte_cons h hbad
    obtain ⟨hall, hmore⟩ := ih hrest hbad'
    rw [List.length_cons, srcRead, if_neg (more_of_comes h hbad)]
    simp only [hc, hall]
    exact ⟨trivial, hmore⟩

/-! ### Bits -/

namespace Bits

variable {b : Bits σ} {l w : List ℕ} {bs : List UInt8} {need n x : ℕ}

/-- The bits to come, the input not having run out. -/
def Holds (b : Bits σ) (l : List ℕ) : Prop :=
  b.src.bad = false ∧ ∃ bs, b.src.Comes bs ∧ l = lsb b.bitcnt b.bitbuf ++ BitStream.bitsOf bs

/-- And fewer than eight of them were taken already. -/
def Comes (b : Bits σ) (l : List ℕ) : Prop := b.Holds l ∧ b.bitcnt < 8

/-- Where no bits are in hand, those to come are those of the bytes to come. -/
theorem comes_of_bytes (h : b.src.Comes bs) (hbad : b.src.bad = false) (hnone : b.bitcnt = 0) :
    b.Comes (BitStream.bitsOf bs) := by
  refine ⟨⟨hbad, bs, h, ?_⟩, by omega⟩
  rw [hnone]
  rfl

theorem refill_holds (h : b.Holds l) (hneed : need ≤ l.length) (n : ℕ) : (refill n need b).Holds l := by
  induction n generalizing b with
  | zero => exact h
  | succ n ih =>
    rw [refill]
    split_ifs with hlt
    swap
    · exact h
    apply ih
    obtain ⟨hbad, bs, hbs, rfl⟩ := h
    cases bs with
    | nil =>
      rw [bitsOf_nil, List.append_nil, length_lsb] at hneed
      omega
    | cons c bs =>
      obtain ⟨hc, hbad', hrest⟩ := Source.srcByte_cons hbs hbad
      have hor : b.bitbuf ||| c.toNat <<< b.bitcnt = b.bitbuf + 2 ^ b.bitcnt * c.toNat := by
        rw [Nat.or_comm, ← Nat.shiftLeft_add_eq_or_of_lt b.holds, Nat.shiftLeft_eq, Nat.mul_comm,
          Nat.add_comm]
      refine ⟨hbad', bs, hrest, ?_⟩
      simp only [hc, hor]
      rw [lsb_add_mul b.holds, bitsOf_cons, List.append_assoc]

theorem refill_small (hb : b.bitcnt < need + 8) (n : ℕ) : (refill n need b).bitcnt < need + 8 := by
  induction n generalizing b with
  | zero => exact hb
  | succ n ih =>
    rw [refill]
    split_ifs with hlt
    · exact ih (by simp only; omega)
    · exact hb

/-- **Bits are taken from the front.** -/
theorem bits_comes (h : b.Comes (w ++ l)) :
    (bits w.length b).1 = Nat.ofDigits 2 w ∧ (bits w.length b).2.Comes l := by
  have hmany : w.length ≤ (w ++ l).length := by simp
  obtain ⟨hbad, bs, hbs, hl⟩ := refill_holds h.1 hmany w.length
  have hcnt := refill_bitcnt w.length w.length b (by omega)
  have hsmall : (refill w.length w.length b).bitcnt < w.length + 8 := refill_small (by have := h.2; omega) _
  generalize hb' : refill w.length w.length b = b' at hbad hbs hl hcnt hsmall
  -- What is in hand is the bits asked for and those left over.
  have hsplit : lsb b'.bitcnt b'.bitbuf =
      lsb w.length b'.bitbuf ++ lsb (b'.bitcnt - w.length) (b'.bitbuf / 2 ^ w.length) := by
    rw [← lsb_add, Nat.add_sub_cancel' hcnt]
  rw [hsplit, List.append_assoc] at hl
  obtain ⟨hw, hrest⟩ := List.append_inj hl (by rw [length_lsb])
  simp only [bits, hb']
  refine ⟨?_, ⟨hbad, bs, hbs, ?_⟩, by simp only; omega⟩
  · rw [Nat.one_shiftLeft, Nat.and_two_pow_sub_one_eq_mod, ← ofDigits_lsb, ← hw]
  · simp only [Nat.shiftRight_eq_div_pow]
    exact hrest

/-- One at a time they are the same bits. -/
theorem take_comes (hw : ∀ d ∈ w, d < 2) (h : b.Comes (w ++ l)) :
    b.take w.length = w ∧ (b.drop w.length).Comes l := by
  induction w using List.reverseRecOn generalizing l with
  | nil => exact ⟨rfl, h⟩
  | append_singleton w x ih =>
    rw [List.append_assoc] at h
    obtain ⟨htake, hdrop⟩ := ih (fun d hd => hw d (List.mem_append_left _ hd)) h
    obtain ⟨hx, hrest⟩ := bits_comes (w := [x]) hdrop
    rw [List.length_singleton, Nat.ofDigits_singleton] at hx
    rw [List.length_append, List.length_singleton, take_succ, drop_succ, htake, hx]
    exact ⟨rfl, hrest⟩

end Bits

/-! ### Symbols -/

section codes

variable {h : Huff} {lengths : List ℕ} {b : Bits σ} {l : List ℕ} {s : ℕ}

theorem Huff.Tables.length_codeWord (t : h.Tables lengths) (hs : 0 < lengthOf lengths s) :
    (codeWord lengths s).length = lengthOf lengths s := by
  rw [codeWord, Canonical.word, List.length_reverse]
  exact Nat.length_digitsAppend one_lt_two _ (t.code_lt (codeOf_mem hs (t.short s)))

theorem codeWord_lt : ∀ d ∈ codeWord lengths s, d < 2 := by
  intro d hd
  rw [codeWord, Canonical.word, List.mem_reverse] at hd
  exact Nat.lt_of_mem_digitsAppend one_lt_two _ _ hd

/-- **The symbol whose code comes.** -/
theorem Huff.Tables.decode_comes (t : h.Tables lengths) (hs : 0 < lengthOf lengths s)
    (hb : b.Comes (codeWord lengths s ++ l)) :
    ∃ c, decode h b = some ((s : ℤ), c) ∧ c.Comes l := by
  obtain ⟨htake, hdrop⟩ := Bits.take_comes codeWord_lt hb
  rw [t.length_codeWord hs] at htake hdrop
  have hmem := codeOf_mem hs (t.short s)
  rw [← (t.take_eq_iff hs).1 htake] at hmem
  obtain ⟨⟨hpos, hlong⟩, hle, hget⟩ := mem_codes.1 hmem
  exact ⟨_, t.decode_hit hpos hlong hle hget, hdrop⟩

end codes

/-! ### The steps of `gunzip` -/

namespace Gzip

variable {g : Gzip σ τ} {l w : List ℕ} {bs : List UInt8} {need n s : ℕ}

theorem bitsOf_reads (h : g.bits.Comes (lsb need n ++ l)) (hn : n < 2 ^ need) :
    Gives (bitsOf need) g fun v g' => v = n ∧ ∃ b, b.Comes l ∧ g' = { g with bits := b } := by
  obtain ⟨hv, hrest⟩ := Bits.bits_comes h
  rw [length_lsb] at hv hrest
  simp only [bitsOf, gives_bind, gives_get, gives_set, gives_pure]
  exact ⟨hv.trans (ofDigits_lsb_of_lt hn), _, hrest, rfl⟩

theorem decodeBy_reads {code : Gzip σ τ → Huff} {lengths : List ℕ} (t : (code g).Tables lengths)
    (hs : 0 < lengthOf lengths s) (h : g.bits.Comes (codeWord lengths s ++ l)) :
    Gives (decodeBy code) g fun sym g' => sym = s ∧ ∃ b, b.Comes l ∧ g' = { g with bits := b } := by
  obtain ⟨c, hrun, hrest⟩ := t.decode_comes hs h
  rw [decodeBy, gives_bind, gives_get]
  simp only [hrun, gives_bind, gives_set, gives_pure]
  exact ⟨trivial, c, hrest, rfl⟩

theorem byte_reads {c : UInt8} (h : g.bits.src.Comes (c :: bs)) (hbad : g.bits.src.bad = false) :
    Gives byte g fun v g' => v = c.toNat ∧ ∃ s : Source σ, s.Comes bs ∧ s.bad = false ∧
      g' = { g with bits := { g.bits with src := s } } := by
  obtain ⟨hc, hbad', hrest⟩ := Source.srcByte_cons h hbad
  simp only [byte, gives_bind, gives_get, gives_set, gives_pure, hc]
  exact ⟨trivial, _, hrest, hbad', rfl⟩

theorem read_reads {cs : List UInt8} (h : g.bits.src.Comes (cs ++ bs)) (hbad : g.bits.src.bad = false)
    (hn : cs.length = n) :
    Gives (read n) g fun v g' => v = (true, cs) ∧ ∃ s : Source σ, s.Comes bs ∧ s.bad = false ∧
      g' = { g with bits := { g.bits with src := s } } := by
  obtain ⟨hall, hrest, hbad'⟩ := Source.srcRead_comes h hbad
  rw [hn] at hall hrest hbad'
  simp only [read, gives_bind, gives_get, gives_set, gives_pure]
  exact ⟨hall, _, hrest, hbad', rfl⟩

/-- **The bits up to the next byte are dropped**, and what is left comes in bytes. -/
theorem noBits_reads (h : g.bits.Comes (w ++ l)) (hw : w.length < 8) (hl : 8 ∣ l.length) :
    Gives noBits g fun _ g' => ∃ bs, l = BitStream.bitsOf bs ∧ g.bits.src.Comes bs ∧
      g' = { g with bits := ⟨g.bits.src, 0, 0, Nat.one_pos⟩ } := by
  obtain ⟨⟨-, bs, hbs, heq⟩, hcnt⟩ := h
  -- Fewer than eight bits are in hand, and fewer than eight are to go: they are as many.
  have hlen := congrArg List.length heq
  rw [List.length_append, List.length_append, length_lsb, length_bitsOf] at hlen
  obtain ⟨-, hrest⟩ := List.append_inj heq (by rw [length_lsb]; omega)
  exact gives_modify.2 ⟨bs, hrest, hbs, rfl⟩

end Gzip

end BaxOS.Unpack
