import BaxOS.Tuxpac.InflateSafe
import BaxOS.Tuxpac.Reading
import BaxOS.Tuxpac.WindowExact

/-!
# `gunzip` undoes deflate

Whatever a compressor chose, `gunzip` gives back what the blocks it wrote stand for: each step that reads
takes what it is for from the front of the bits to come, each block adds to what was written what the block
is worth, and the sink is given all of it in order.
-/

namespace BaxOS.Unpack
open Function (update update_self update_of_ne)
open Programs BitStream Lz77 Deflate Window

variable {σ τ : Type}
variable {items : List Item} {p : ℕ} {rs : List Run}

/-! ### Codes that may be used -/

section usable

variable {lengths : List ℕ} {old h : Huff} {left : ℤ} {k n : ℕ}

theorem leftOver_eq {c : ℕ → UInt16} {x : ℤ}
    (hfits : ∑ m ∈ Finset.Ico n (n + k), ((c m).toNat : ℤ) * 2 ^ (n + k - 1 - m) ≤ x * 2 ^ k) :
    leftOver c (List.range' n k) x =
      x * 2 ^ k - ∑ m ∈ Finset.Ico n (n + k), ((c m).toNat : ℤ) * 2 ^ (n + k - 1 - m) := by
  induction k generalizing n x with
  | zero => simp [leftOver]
  | succ k ih =>
    have hsum : ∑ m ∈ Finset.Ico n (n + (k + 1)), ((c m).toNat : ℤ) * 2 ^ (n + (k + 1) - 1 - m) =
        (c n).toNat * 2 ^ k +
          ∑ m ∈ Finset.Ico (n + 1) (n + 1 + k), ((c m).toNat : ℤ) * 2 ^ (n + 1 + k - 1 - m) := by
      rw [Finset.sum_eq_sum_Ico_succ_bot (by omega), show n + (k + 1) - 1 - n = k by omega,
        show n + (k + 1) = n + 1 + k by omega]
    have hleft : x * 2 ^ (k + 1) = (2 * x) * 2 ^ k := by ring
    rw [hsum, hleft] at hfits
    have hrest := ih (n := n + 1) (x := 2 * x - (c n).toNat) (by rw [sub_mul]; omega)
    have hnonneg : 0 ≤ ∑ m ∈ Finset.Ico (n + 1) (n + 1 + k),
        ((c m).toNat : ℤ) * 2 ^ (n + 1 + k - 1 - m) := Finset.sum_nonneg fun m _ => by positivity
    have hpos : 0 ≤ 2 * x - (c n).toNat := by
      refine nonneg_of_mul_nonneg_left (b := (2 : ℤ) ^ k) ?_ (by positivity)
      rw [sub_mul]
      omega
    rw [List.range'_succ, leftOver, if_neg (not_lt.2 hpos), hrest, hsum, hleft]
    ring

/-- What `construct` returns is what no code begins, of the words of the longest length. -/
theorem construct_left (hc : construct old lengths = some (left, h)) (hsize : lengths.length ≤ symbolRoom)
    (hk : kraft lengths ≤ 2 ^ 15) :
    (h.count 0).toNat = lengths.count 0 ∧
      left = if lengths.count 0 = lengths.length then 0 else 2 ^ 15 - (kraft lengths : ℤ) := by
  rw [construct] at hc
  cases htally : tally lengths fun _ => 0 with
  | none => simp [htally] at hc
  | some count =>
    have hcount : ∀ n, (count n).toNat = lengths.count n := by
      intro n
      rw [(tally_spec htally).2 n, UInt16.zero_add, UInt16.toNat_ofNat', Nat.mod_eq_of_lt]
      exact (List.count_le_length.trans hsize).trans_lt (by decide)
    have hsum : ∑ m ∈ Finset.Ico 1 (1 + longest), ((count m).toNat : ℤ) * 2 ^ (1 + longest - 1 - m) =
        kraft lengths := by
      simp only [hcount, kraft]
      push_cast
      rfl
    have hleft := leftOver_eq (c := count) (n := 1) (k := longest) (x := 1)
      (by rw [hsum, one_mul]; exact_mod_cast hk)
    rw [hsum, one_mul] at hleft
    simp only [htally, hleft, hcount] at hc
    split_ifs at hc with hall hneg
    · obtain ⟨rfl, rfl⟩ := Prod.mk.inj (Option.some.inj hc)
      exact ⟨hcount 0, (if_pos hall).symm⟩
    · obtain ⟨rfl, rfl⟩ := Prod.mk.inj (Option.some.inj hc)
      exact ⟨hcount 0, (if_neg hall).symm⟩
    · obtain ⟨symbol, -, heq⟩ := Option.map_eq_some_iff.1 hc
      obtain ⟨rfl, rfl⟩ := Prod.mk.inj heq
      exact ⟨hcount 0, (if_neg hall).symm⟩

/-- One code at most leaves half the words, or more. -/
theorem kraft_le_of_single (hshort : ∀ l ∈ lengths, l ≤ longest)
    (hone : lengths.length ≤ lengths.count 0 + 1) : kraft lengths ≤ 2 ^ 14 := by
  have hall : ∑ m ∈ Finset.range (longest + 1), (lengths : Multiset ℕ).count m = lengths.length :=
    Multiset.sum_count_eq_card fun l hl => Finset.mem_range_succ_iff.2 (hshort l hl)
  simp only [Multiset.coe_count] at hall
  rw [Finset.range_eq_Ico, Finset.sum_eq_sum_Ico_succ_bot (by decide)] at hall
  have hle : kraft lengths ≤ ∑ n ∈ Finset.Ico 1 16, lengths.count n * 2 ^ 14 := by
    refine Finset.sum_le_sum fun n hn => Nat.mul_le_mul_left _ (Nat.pow_le_pow_right two_pos ?_)
    rw [Finset.mem_Ico] at hn
    omega
  rw [← Finset.sum_mul] at hle
  have hfew : ∑ n ∈ Finset.Ico 1 16, lengths.count n ≤ 1 := by
    have hall : lengths.count 0 + ∑ n ∈ Finset.Ico 1 16, lengths.count n = lengths.length := hall
    omega
  exact hle.trans (Nat.mul_le_mul_right _ hfew)

theorem kraft_le_of_usable (hshort : ∀ l ∈ lengths, l ≤ longest) (hu : Usable lengths) :
    kraft lengths ≤ 2 ^ 15 := by
  rcases hu with hfull | hone
  · exact hfull.le
  · exact (kraft_le_of_single hshort hone).trans (by decide)

/-- **Lengths that may be used are taken**, and the tables are those of their code. -/
theorem complete_of_usable (hu : Usable lengths) (hshort : ∀ l ∈ lengths, l ≤ longest)
    (hsize : lengths.length ≤ symbolRoom) (hc : construct old lengths = some (left, h)) :
    Gzip.incomplete left h lengths.length = false ∧ h.Tables lengths := by
  have hk := kraft_le_of_usable hshort hu
  obtain ⟨hzero, hleft⟩ := construct_left hc hsize hk
  have hcount : lengths.count 0 ≤ lengths.length := List.count_le_length
  have hnonneg : 0 ≤ left := by
    rw [hleft]
    split_ifs
    · exact le_rfl
    · exact sub_nonneg.2 (by exact_mod_cast hk)
  refine ⟨decide_eq_false ?_, construct_tables hc hnonneg (hsize.trans (by decide))⟩
  rw [hzero]
  rintro (hneg | ⟨hpos, hmany⟩)
  · omega
  · rw [hleft] at hpos
    split_ifs at hpos with hall
    · exact absurd hpos (lt_irrefl 0)
    · rcases hu with hfull | hone
      · rw [show kraft lengths = 2 ^ 15 from hfull] at hpos
        norm_num at hpos
      · omega

/-- No word is left over by a full code. -/
theorem left_of_full (hf : Full lengths) (hsize : lengths.length ≤ symbolRoom)
    (hc : construct old lengths = some (left, h)) : left = 0 ∧ h.Tables lengths := by
  obtain ⟨-, hleft⟩ := construct_left hc hsize hf.le
  have hzero : left = 0 := by
    rw [hleft, show kraft lengths = 2 ^ 15 from hf]
    norm_num
  exact ⟨hzero, construct_tables hc hzero.ge (hsize.trans (by decide))⟩

end usable

namespace Gzip

variable {g g' : Gzip σ τ} {sink : List UInt8 → τ → Bool × τ} {o : τ} {h : List UInt8}
  {l lits dists : List ℕ} {n turns : ℕ}

/-! ### Letters and back references -/

/-- What has been written, and what is to come. -/
structure Stands (g : Gzip σ τ) (sink : List UInt8 → τ → Bool × τ) (o : τ) (h : List UInt8) (l : List ℕ) :
    Prop where
  comes : g.bits.Comes l
  shows : g.window.Shows o h h.length
  wsize : g.window.wsize = 32768
  wsink : g.window.wsink = sink

namespace Stands

theorem of_bits {b : Bits σ} (hg : g.Stands sink o h l) {l' : List ℕ} (hb : b.Comes l') :
    Stands { g with bits := b } sink o h l' := ⟨hb, hg.shows, hg.wsize, hg.wsink⟩

theorem of_codes (hg : g.Stands sink o h l) (hbits : g'.bits = g.bits) (hwindow : g'.window = g.window) :
    g'.Stands sink o h l :=
  ⟨hbits ▸ hg.comes, hwindow ▸ hg.shows, hwindow ▸ hg.wsize, hwindow ▸ hg.wsink⟩

theorem of_window {w : Window τ} {h' : List UInt8} (hg : g.Stands sink o h l) (hsame : Same g.window w)
    (hw : w.Shows o h' h'.length) : Stands { g with window := w } sink o h' l :=
  ⟨hg.comes, hw, hsame.wsize.trans hg.wsize, hsame.wsink.trans hg.wsink⟩

/-- A byte is put. -/
theorem put (hg : g.Stands sink o h l) (b : UInt8) :
    Gives (windowed (Window.put b)) g fun _ g' =>
      g'.Stands sink o (h ++ [b]) l ∧ g'.lencode = g.lencode ∧ g'.distcode = g.distcode := by
  rw [windowed, gives_onPart]
  refine (put_shows hg.shows b).mono ?_
  rintro _ w ⟨hsame, hw⟩
  refine ⟨hg.of_window hsame ?_, rfl, rfl⟩
  rwa [List.length_append, List.length_singleton]

end Stands

/-- A back reference, once its length's symbol has been read. -/
theorem backReference_reads {len extra dist more : ℕ}
    (hg : g.Stands sink o h (lsb (lext.getD len 0) extra ++
      (codeWord dists dist ++ lsb (dext.getD dist 0) more ++ l)))
    (td : g.distcode.Tables dists) (hfine : (Item.ref len extra dist more).Fine lits dists)
    (hwithin : (Item.ref len extra dist more).token.Within 32768 h) (hlen : h.length < 2 ^ 64) :
    Gives (backReference len) g fun r g' =>
      r.Ends (fun _ => g'.Stands sink o ((Item.ref len extra dist more).token.apply h) l ∧
        g'.lencode = g.lencode ∧ g'.distcode = g.distcode) fun _ => False := by
  obtain ⟨⟨hsym, hextra, -⟩, hdist, hmore, hcode⟩ := hfine
  obtain ⟨hpos, hle, hwin⟩ := hwithin
  have hentry : ∀ {table : List ℕ} {i : ℕ} (g : Gzip σ τ), i < table.length →
      Gives (entry table i) g fun x g' => x = table.getD i 0 ∧ g' = g := by
    intro table i g hi
    rw [entry, List.getElem?_eq_getElem hi, List.getD_eq_getElem _ _ hi]
    exact gives_pure.2 ⟨rfl, rfl⟩
  rw [backReference, if_neg (not_le.2 hsym), gives_bind]
  refine (hentry g hsym).mono ?_
  rintro _ _ ⟨rfl, rfl⟩
  rw [gives_bind]
  refine (hentry _ hsym).mono ?_
  rintro _ g ⟨rfl, rfl⟩
  rw [gives_bind]
  refine (bitsOf_reads hg.comes hextra).mono ?_
  rintro extra _ ⟨rfl, b1, hb1, rfl⟩
  rw [List.append_assoc] at hb1
  rw [gives_bind]
  refine Gives.mono (decodeBy_reads td hcode hb1) ?_
  rintro _ _ ⟨rfl, b2, hb2, rfl⟩
  rw [if_neg (by omega), Int.toNat_natCast, gives_bind]
  refine (hentry _ hdist).mono ?_
  rintro _ _ ⟨rfl, rfl⟩
  rw [gives_bind]
  refine (hentry _ hdist).mono ?_
  rintro _ _ ⟨rfl, rfl⟩
  rw [gives_bind]
  refine (bitsOf_reads (hg.of_bits hb2).comes hmore).mono ?_
  rintro more _ ⟨rfl, b3, hb3, rfl⟩
  have hd : (UInt32.ofNat (dbase.getD dist 0 + more)).toNat = dbase.getD dist 0 + more :=
    UInt32.toNat_ofNat_of_lt' (lt_of_le_of_lt hwin (by decide))
  rw [gives_bind, windowed, gives_onPart]
  refine (copy_shows hg.shows hlen (by rwa [hd]) (by rwa [hd]) (by rw [hd, hg.wsize]; exact hwin) _).mono ?_
  rintro _ w ⟨rfl, hsame, hw⟩
  rw [if_pos rfl]
  refine gives_pure.2 ⟨(hg.of_bits hb3).of_window hsame ?_, rfl, rfl⟩
  rw [hd] at hw
  rwa [Item.token, Token.apply, length_extend hpos hle]

/-- **An item is read**, and what it stands for is written. -/
theorem codesTurn_reads {i : Item} (hg : g.Stands sink o h (i.bits lits dists ++ l))
    (tl : g.lencode.Tables lits) (td : g.distcode.Tables dists) (hfine : i.Fine lits dists)
    (hwithin : i.token.Within 32768 h) (hlen : h.length < 2 ^ 64) :
    Gives (codesTurn ()) g fun r g' =>
      r.Ends (fun _ => g'.Stands sink o (i.token.apply h) l ∧ g'.lencode = g.lencode ∧
        g'.distcode = g.distcode) fun _ => False := by
  -- A symbol comes, the input has not run out, and the sink has not refused.
  have hread : ∀ {s : ℕ} {l' : List ℕ}, g.bits.Comes (codeWord lits s ++ l') → 0 < lengthOf lits s →
      Gives (decodeBy lencode) g fun sym g' => sym = (s : ℤ) ∧
        ¬ (sym < 0 ∨ g'.bits.src.bad = true ∨ g'.window.wstop = true) ∧
          ∃ b, b.Comes l' ∧ g' = { g with bits := b } := by
    intro s l' hcomes hs
    refine (decodeBy_reads tl hs hcomes).mono ?_
    rintro _ _ ⟨rfl, b, hb, rfl⟩
    refine ⟨rfl, ?_, b, hb, rfl⟩
    rw [hb.1.1, hg.shows.going]
    simp
  rw [codesTurn, gives_bind]
  cases i with
  | lit b =>
    refine (hread hg.comes hfine).mono ?_
    rintro _ _ ⟨rfl, hgo, c, hc, rfl⟩
    have hlt := b.toNat_lt
    rw [gives_bind, gives_get, if_neg hgo, if_pos (by omega), Int.toNat_natCast, UInt8.ofNat_toNat, gives_bind]
    exact ((hg.of_bits hc).put b).mono fun _ _ hput => gives_pure.2 hput
  | ref len extra dist more =>
    have hcomes := hg.comes
    rw [Item.bits, List.append_assoc, List.append_assoc] at hcomes
    refine (hread hcomes hfine.1.2.2).mono ?_
    rintro _ _ ⟨rfl, hgo, c, hc, rfl⟩
    rw [gives_bind, gives_get, if_neg hgo, if_neg (by omega), if_neg (by omega),
      show ((257 + len : ℕ) - 257 : ℤ).toNat = len by omega]
    exact backReference_reads (hg.of_bits hc) td hfine hwithin hlen

/-- **`codes` reads items and the symbol that ends them**, and writes what they stand for. -/
theorem codes_reads (hg : g.Stands sink o h (itemsBits lits dists items ++ l))
    (tl : g.lencode.Tables lits) (td : g.distcode.Tables dists) (hitems : ItemsFine lits dists h items)
    (hlen : (expand h (items.map Item.token)).length < 2 ^ 64) (hn : items.length < turns) :
    Gives (codes turns) g fun ok g' => ok = true ∧ g'.Stands sink o (expand h (items.map Item.token)) l := by
  let I : List Item → Unit → Gzip σ τ → Prop := fun is _ g' => ∃ h', g'.lencode.Tables lits ∧
    g'.distcode.Tables dists ∧ ItemsFine lits dists h' is ∧
      expand h' (is.map Item.token) = expand h (items.map Item.token) ∧
        g'.Stands sink o h' (itemsBits lits dists is ++ l)
  refine Gives.loop_list (I := I) ?_ ?_ hn ⟨h, tl, td, hitems, rfl, hg⟩
  · rintro i is u g' ⟨h', tl, td, hitems, heq, hg'⟩
    have hshort : h'.length < 2 ^ 64 := by
      refine lt_of_le_of_lt ?_ hlen
      rw [← heq]
      exact (prefix_expand h' _).length_le
    rw [itemsBits, List.flatMap_cons, List.append_assoc, List.append_assoc, ← List.append_assoc (is.flatMap _)]
      at hg'
    obtain ⟨hnow, hlater⟩ := hitems.within
    refine (codesTurn_reads hg' tl td (hitems.fine i (List.mem_cons_self ..)) hnow hshort).mono ?_
    rintro (u | ok) g2 hr
    · obtain ⟨hg2, hl2, hd2⟩ := hr
      exact ⟨_, hl2 ▸ tl, hd2 ▸ td, ⟨fun j hj => hitems.fine j (List.mem_cons_of_mem _ hj), hitems.stop,
        hlater⟩, heq, hg2⟩
    · exact hr.elim
  · rintro u g' ⟨h', tl, td, hitems, rfl, hg'⟩
    have hcomes := hg'.comes
    rw [itemsBits, List.flatMap_nil, List.nil_append] at hcomes
    rw [codesTurn, gives_bind]
    refine (decodeBy_reads tl hitems.stop hcomes).mono ?_
    rintro _ _ ⟨rfl, b, hb, rfl⟩
    rw [gives_bind, gives_get, if_neg (by rw [hb.1.1, hg'.shows.going]; simp), if_neg (by omega),
      if_pos Nat.cast_ofNat]
    exact gives_pure.2 ⟨rfl, hg'.of_bits hb⟩

/-! ### Bytes as they are -/

theorem xor_low (n : ℕ) (hn : n < 2 ^ 16) : (0xFFFF - n) ^^^ 0xFFFF = n := by
  have hmax : 0xFFFF = 2 ^ 16 - 1 := rfl
  apply Nat.eq_of_testBit_eq
  intro i
  rw [Nat.testBit_xor, hmax, Nat.sub_sub, Nat.add_comm 1 n, Nat.testBit_two_pow_sub_succ hn,
    Nat.testBit_two_pow_sub_one]
  by_cases hi : i < 16
  · simp [hi]
  · have hbit : n.testBit i = false :=
      Nat.testBit_lt_two_pow (hn.trans_le (Nat.pow_le_pow_right two_pos (by omega)))
    simp [hi, hbit]

/-- The bytes to come, no bits being in hand. -/
structure Bytes (g : Gzip σ τ) (sink : List UInt8 → τ → Bool × τ) (o : τ) (h : List UInt8)
    (bs : List UInt8) : Prop where
  comes : g.bits.src.Comes bs
  good : g.bits.src.bad = false
  none : g.bits.bitcnt = 0
  shows : g.window.Shows o h h.length
  wsize : g.window.wsize = 32768
  wsink : g.window.wsink = sink

/-- A number that comes as two bytes, the low one first. -/
theorem two_bytes (hn : n < 2 ^ 16) :
    (UInt8.ofNat n).toNat ||| (UInt8.ofNat (n / 256)).toNat <<< 8 = n := by
  rw [Nat.or_comm, ← Nat.shiftLeft_add_eq_or_of_lt (UInt8.ofNat n).toNat_lt, Nat.shiftLeft_eq,
    UInt8.toNat_ofNat', UInt8.toNat_ofNat']
  omega

namespace Bytes

variable {bs : List UInt8} {c : UInt8}

theorem stands (hg : g.Bytes sink o h bs) : g.Stands sink o h (BitStream.bitsOf bs) :=
  ⟨Bits.comes_of_bytes hg.comes hg.good hg.none, hg.shows, hg.wsize, hg.wsink⟩

theorem byte (hg : g.Bytes sink o h (c :: bs)) :
    Gives byte g fun v g' => v = c.toNat ∧ g'.Bytes sink o h bs := by
  refine (byte_reads hg.comes hg.good).mono ?_
  rintro _ _ ⟨rfl, s, hs, hbad, rfl⟩
  exact ⟨rfl, hs, hbad, hg.none, hg.shows, hg.wsize, hg.wsink⟩

theorem two (hg : g.Bytes sink o h (UInt8.ofNat n :: UInt8.ofNat (n / 256) :: bs)) (hn : n < 2 ^ 16) :
    Gives Gzip.byte g fun low g' => Gives Gzip.byte g' (fun high g'' =>
      low ||| high <<< 8 = n ∧ g''.Bytes sink o h bs) := by
  refine hg.byte.mono ?_
  rintro _ g1 ⟨rfl, hg1⟩
  refine hg1.byte.mono ?_
  rintro _ g2 ⟨rfl, hg2⟩
  exact ⟨two_bytes hn, hg2⟩

end Bytes

theorem storedOn_reads {data bs : List UInt8} (hg : g.Bytes sink o h (data ++ bs)) :
    Gives (storedOn data.length) g fun _ g' => g'.Bytes sink o (h ++ data) bs := by
  induction data generalizing g h with
  | nil =>
    rw [List.append_nil]
    exact gives_pure.2 hg
  | cons c data ih =>
    rw [List.length_cons, storedOn, gives_bind, gives_get, if_neg (by rw [hg.good]; simp), gives_bind]
    refine hg.byte.mono ?_
    rintro _ g1 ⟨rfl, hg1⟩
    rw [UInt8.ofNat_toNat, gives_bind, windowed, gives_onPart]
    refine (put_shows hg1.shows c).mono ?_
    rintro _ w ⟨hsame, hw⟩
    have hg2 : Bytes { g1 with window := w } sink o (h ++ [c]) (data ++ bs) := by
      refine ⟨hg1.comes, hg1.good, hg1.none, ?_, hsame.wsize.trans hg1.wsize, hsame.wsink.trans hg1.wsink⟩
      rwa [List.length_append, List.length_singleton]
    refine (ih hg2).mono ?_
    intro _ g3 hg3
    rwa [List.append_assoc] at hg3

/-- **A stored block is read**, its padding being dropped. -/
theorem stored_reads {padding : ℕ} {data : List UInt8} {l : List ℕ}
    (hg : g.Stands sink o h (lsb (pad p) padding ++
      (lsb 16 data.length ++ (lsb 16 (0xFFFF - data.length) ++ BitStream.bitsOf data)) ++ l))
    (hl : 8 ∣ l.length) (hdata : data.length < 2 ^ 16) :
    Gives stored g fun ok g' => ok = true ∧ g'.Stands sink o (h ++ data) l := by
  have hcomes := hg.comes
  rw [List.append_assoc] at hcomes
  have hpad : (lsb (pad p) padding).length < 8 := by
    rw [length_lsb, pad]
    omega
  rw [stored, gives_bind]
  refine (noBits_reads hcomes hpad ?_).mono ?_
  · simp only [List.length_append, length_lsb, length_bitsOf]
    omega
  rintro _ _ ⟨bs, hbits, hbs, rfl⟩
  rw [lsb_two_bytes, lsb_two_bytes, List.append_assoc, List.append_assoc, ← List.append_assoc,
    ← bitsOf_append, ← List.append_assoc, ← bitsOf_append] at hbits
  obtain ⟨cs, rfl, rfl⟩ := exists_of_bitsOf hbits.symm
  have hg1 : Bytes { g with bits := ⟨g.bits.src, 0, 0, Nat.one_pos⟩ } sink o h _ :=
    ⟨hbs, hg.comes.1.1, rfl, hg.shows, hg.wsize, hg.wsink⟩
  rw [gives_bind]
  refine (hg1.two hdata).mono ?_
  intro low g2 hg2
  rw [gives_bind]
  refine hg2.mono ?_
  rintro high g3 ⟨hlen, hg3⟩
  rw [gives_bind]
  refine (hg3.two (by omega)).mono ?_
  intro low' g4 hg4
  rw [gives_bind]
  refine hg4.mono ?_
  rintro high' g5 ⟨hnlen, hg5⟩
  simp only [hlen, hnlen, xor_low _ hdata]
  rw [if_neg (not_not.2 rfl), gives_bind]
  refine (storedOn_reads hg5).mono ?_
  intro _ g6 hg6
  simp only [gives_bind, gives_get, gives_pure]
  exact ⟨by rw [hg6.good]; rfl, hg6.stands⟩

/-! ### Blocks of the fixed codes, and of their own -/

theorem fixed_reads (hg : g.Stands sink o h (itemsBits fixedLits fixedDists items ++ l))
    (hitems : ItemsFine fixedLits fixedDists h items)
    (hlen : (expand h (items.map Item.token)).length < 2 ^ 64) (hn : items.length < turns) :
    Gives (fixed turns) g fun ok g' => ok = true ∧ g'.Stands sink o (expand h (items.map Item.token)) l := by
  refine fixed_set ?_
  intro g' hbits hwindow hlit hdist
  exact codes_reads (hg.of_codes hbits hwindow) hlit hdist hitems hlen hn

/-- The lengths of the code of lengths, in the order they come in. -/
theorem orderOn_reads {os cl : List ℕ} {ncode : ℕ} (hos : ∀ i ∈ os, i < lengthsRoom)
    (hg : g.Stands sink o h ((os.take ncode).flatMap (fun i => lsb 3 (cl.getD i 0)) ++ l))
    (hcl : ∀ i, cl.getD i 0 < 8) (hnone : ∀ i ∈ os.drop ncode, cl.getD i 0 = 0) :
    Gives (orderOn os ncode) g fun _ g' => g'.Stands sink o h l ∧
      ∀ i, i ∈ os ∨ g.lengths i = cl.getD i 0 → g'.lengths i = cl.getD i 0 := by
  -- A length is set, and later ones are set to what they are.
  have hset : ∀ {i : ℕ} {os : List ℕ} {lengths : ℕ → ℕ} {g' : Gzip σ τ},
      (∀ j, j ∈ os ∨ update lengths i (cl.getD i 0) j = cl.getD j 0 → g'.lengths j = cl.getD j 0) →
        ∀ j, j ∈ i :: os ∨ lengths j = cl.getD j 0 → g'.lengths j = cl.getD j 0 := by
    intro i os lengths g' hrest j hj
    apply hrest
    rcases eq_or_ne j i with rfl | hne
    · right
      rw [update_self]
    · rw [update_of_ne hne]
      simpa [hne] using hj
  induction os generalizing g ncode with
  | nil =>
    rw [List.take_nil, List.flatMap_nil, List.nil_append] at hg
    rw [orderOn]
    exact gives_pure.2 ⟨hg, by simp⟩
  | cons i os ih =>
    rw [List.forall_mem_cons] at hos
    cases ncode with
    | zero =>
      rw [List.drop_zero, List.forall_mem_cons] at hnone
      rw [orderOn, gives_bind, setLength, if_pos hos.1, gives_modify]
      refine Gives.mono (ih hos.2 (hg.of_codes rfl rfl) hnone.2) ?_
      rintro _ g' ⟨hg', hrest⟩
      exact ⟨hg', hset (by simpa only [hnone.1] using hrest)⟩
    | succ ncode =>
      rw [List.take_succ_cons, List.flatMap_cons, List.append_assoc] at hg
      rw [orderOn, gives_bind]
      refine (bitsOf_reads hg.comes (hcl i)).mono ?_
      rintro v _ ⟨rfl, b, hb, rfl⟩
      rw [gives_bind, setLength, if_pos hos.1, gives_modify]
      refine Gives.mono (ih hos.2 ((hg.of_bits hb).of_codes rfl rfl) hnone) ?_
      rintro _ g' ⟨hg', hrest⟩
      exact ⟨hg', hset hrest⟩

/-- The lengths that have been read, in the code of lengths `cl`. -/
structure Lengths (g : Gzip σ τ) (sink : List UInt8 → τ → Bool × τ) (o : τ) (h : List UInt8) (cl ls l : List ℕ)
    : Prop extends g.Stands sink o h l where
  table : g.lencode.Tables cl
  read : (List.range ls.length).map g.lengths = ls

variable {cl ls : List ℕ} {all : ℕ}

theorem Lengths.get (hg : g.Lengths sink o h cl ls l) {i : ℕ} (hi : i < ls.length) : g.lengths i = ls[i] := by
  have heq := List.getElem_of_eq hg.read.symm hi
  rw [heq, List.getElem_map, List.getElem_range]

theorem Lengths.of_bits (hg : g.Lengths sink o h cl ls l) {b : Bits σ} {l' : List ℕ} (hb : b.Comes l') :
    Lengths { g with bits := b } sink o h cl ls l' := ⟨hg.toStands.of_bits hb, hg.table, hg.read⟩

theorem Lengths.snoc (hg : g.Lengths sink o h cl ls l) (n : ℕ) :
    Lengths { g with lengths := update g.lengths ls.length n } sink o h cl (ls ++ [n]) l := by
  refine ⟨hg.toStands.of_codes rfl rfl, hg.table, ?_⟩
  have hbefore : (List.range ls.length).map (update g.lengths ls.length n) = ls := by
    rw [List.map_congr_left fun i hi => update_of_ne (List.mem_range.1 hi).ne _ _]
    exact hg.read
  rw [List.length_append, List.length_singleton, List.range_succ, List.map_append, List.map_singleton]
  simp only [hbefore, update_self]

theorem repeated_reads (hg : g.Lengths sink o h cl ls l) {n v : ℕ} (hroom : ls.length + n ≤ all)
    (hall : all ≤ lengthsRoom) :
    Gives (repeated all ls.length v n) g fun r g' =>
      r.Ends (fun j => j = (ls ++ List.replicate n v).length ∧
        g'.Lengths sink o h cl (ls ++ List.replicate n v) l) fun _ => False := by
  rw [repeated, if_neg (not_lt.2 hroom), gives_bind]
  refine (setLengths_gives (hroom.trans hall)).mono ?_
  rintro _ _ rfl
  have hlength : (ls ++ List.replicate n v).length = ls.length + n := by
    rw [List.length_append, List.length_replicate]
  refine gives_pure.2 ⟨hlength.symm, hg.toStands.of_codes rfl rfl, hg.table, ?_⟩
  rw [hlength, List.range_eq_range', ← List.range'_append_1, List.map_append, Nat.zero_add]
  congr 1
  · rw [← List.range_eq_range', ← hg.read]
    simp only [List.length_map, List.length_range]
    refine List.map_congr_left fun i hi => ?_
    rw [List.mem_range] at hi
    rw [if_neg (by omega)]
  · exact map_range'_const fun j hj hlt => if_pos ⟨hj, hlt⟩

/-- **A run of lengths is read.** -/
theorem lengthsTurn_reads {r : Run} (hg : g.Lengths sink o h cl ls (r.bits cl ++ l)) (hr : r.Fine cl ls)
    (hmany : (r.apply ls).length ≤ all) (hall : all ≤ lengthsRoom) :
    Gives (lengthsTurn all ls.length) g fun t g' =>
      t.Ends (fun j => j = (r.apply ls).length ∧ g'.Lengths sink o h cl (r.apply ls) l) fun _ => False := by
  obtain ⟨hsym, hfine⟩ := hr
  -- There is room for one more, since a run is never of none.
  have hlonger : ls.length < all := by
    refine lt_of_lt_of_le ?_ hmany
    cases r <;> simp [Run.apply]
  have hcomes := hg.comes
  rw [lengthsTurn, if_pos hlonger, gives_bind]
  cases r with
  | len n =>
    refine (decodeBy_reads (s := n) hg.table hsym hcomes).mono ?_
    rintro _ _ ⟨rfl, b, hb, rfl⟩
    have hn : n < 16 := hfine
    rw [gives_bind, gives_get, if_neg (by simp [hb.1.1]), if_pos (by omega), gives_bind, setLength,
      if_pos (by omega), gives_modify, Int.toNat_natCast]
    exact gives_pure.2 ⟨by rw [Run.apply, List.length_append, List.length_singleton], (hg.of_bits hb).snoc n⟩
  | again n =>
    rw [Run.bits, List.append_assoc] at hcomes
    refine (decodeBy_reads (s := 16) hg.table hsym hcomes).mono ?_
    rintro _ _ ⟨rfl, b, hb, rfl⟩
    obtain ⟨hn, hne⟩ := hfine
    have hpos := List.length_pos_of_ne_nil hne
    rw [gives_bind, gives_get, if_neg (by simp [hb.1.1]), if_neg (by decide), if_pos (by decide), repeatLast,
      if_neg hpos.ne', gives_bind, gives_get, gives_bind]
    refine (bitsOf_reads (hg.of_bits hb).comes hn).mono ?_
    rintro n _ ⟨rfl, b', hb', rfl⟩
    have hlast : g.lengths (ls.length - 1) = ls.getLastD 0 := by
      rw [hg.get (by omega), List.getLastD_eq_getLast?, List.getLast?_eq_getElem?,
        List.getElem?_eq_getElem (by omega), Option.getD_some]
    simp only [hlast]
    refine repeated_reads (hg.of_bits hb') ?_ hall
    simpa [Run.apply] using hmany
  | zeros n =>
    rw [Run.bits, List.append_assoc] at hcomes
    refine (decodeBy_reads (s := 17) hg.table hsym hcomes).mono ?_
    rintro _ _ ⟨rfl, b, hb, rfl⟩
    rw [gives_bind, gives_get, if_neg (by simp [hb.1.1]), if_neg (by decide), if_neg (by decide),
      if_pos (by decide), repeatZero, gives_bind]
    refine (bitsOf_reads (hg.of_bits hb).comes hfine).mono ?_
    rintro n _ ⟨rfl, b', hb', rfl⟩
    refine repeated_reads (hg.of_bits hb') ?_ hall
    simpa [Run.apply] using hmany
  | manyZeros n =>
    rw [Run.bits, List.append_assoc] at hcomes
    refine (decodeBy_reads (s := 18) hg.table hsym hcomes).mono ?_
    rintro _ _ ⟨rfl, b, hb, rfl⟩
    rw [gives_bind, gives_get, if_neg (by simp [hb.1.1]), if_neg (by decide), if_neg (by decide),
      if_neg (by decide), repeatZero, gives_bind]
    refine (bitsOf_reads (hg.of_bits hb).comes hfine).mono ?_
    rintro n _ ⟨rfl, b', hb', rfl⟩
    refine repeated_reads (hg.of_bits hb') ?_ hall
    simpa [Run.apply] using hmany

theorem length_le_runs (rs : List Run) (ls : List ℕ) : ls.length ≤ (rs.foldl Run.apply ls).length := by
  induction rs generalizing ls with
  | nil => exact le_rfl
  | cons r rs ih =>
    refine le_trans ?_ (ih _)
    cases r <;> simp [Run.apply]

/-- No length is more than the longest that a code may be. -/
theorem short_of_runs (hrs : RunsFine cl ls rs) (hls : ∀ l ∈ ls, l ≤ longest) :
    ∀ l ∈ rs.foldl Run.apply ls, l ≤ longest := by
  induction rs generalizing ls with
  | nil => exact hls
  | cons r rs ih =>
    obtain ⟨⟨-, hr⟩, hrs⟩ := hrs
    refine ih hrs ?_
    have hadd : ∀ {m : ℕ} {new : List ℕ}, (∀ l ∈ new, l = m) → m ≤ longest →
        ∀ l ∈ ls ++ new, l ≤ longest := by
      intro m new hnew hm l hl
      rcases List.mem_append.1 hl with hl | hl
      · exact hls l hl
      · exact hnew l hl ▸ hm
    cases r with
    | len n => exact hadd (by simp) (Nat.le_of_lt_succ hr)
    | again n =>
      refine hadd (fun l hl => List.eq_of_mem_replicate hl) ?_
      rw [List.getLastD_eq_getLast?, List.getLast?_eq_some_getLast hr.2]
      exact hls _ (List.getLast_mem hr.2)
    | zeros n => exact hadd (fun l hl => List.eq_of_mem_replicate hl) (Nat.zero_le _)
    | manyZeros n => exact hadd (fun l hl => List.eq_of_mem_replicate hl) (Nat.zero_le _)

/-- **The lengths are read**, run by run. -/
theorem runs_reads (hg : g.Lengths sink o h cl [] (rs.flatMap (Run.bits cl) ++ l))
    (hrs : RunsFine cl [] rs) (hls : rs.foldl Run.apply [] = ls) (hroom : ls.length ≤ lengthsRoom)
    (hn : rs.length < turns) :
    Gives (loop (lengthsTurn ls.length) turns 0) g fun ok g' =>
      ok = true ∧ g'.Lengths sink o h cl ls l := by
  let I : List Run → ℕ → Gzip σ τ → Prop := fun rs i g' => ∃ now, i = now.length ∧ RunsFine cl now rs ∧
    rs.foldl Run.apply now = ls ∧ g'.Lengths sink o h cl now (rs.flatMap (Run.bits cl) ++ l)
  refine Gives.loop_list (I := I) ?_ ?_ hn ⟨[], rfl, hrs, hls, hg⟩
  · rintro r rs _ g' ⟨now, rfl, ⟨hr, hrs⟩, hls, hg'⟩
    rw [List.flatMap_cons, List.append_assoc] at hg'
    have hmany : (r.apply now).length ≤ ls.length := by
      rw [← hls]
      exact length_le_runs rs _
    refine (lengthsTurn_reads hg' hr hmany hroom).mono ?_
    rintro (j | ok) g2 hr
    · exact ⟨_, hr.1, hrs, hls, hr.2⟩
    · exact hr.elim
  · rintro _ g' ⟨now, rfl, -, hnow, hg'⟩
    obtain rfl : now = ls := hnow
    rw [lengthsTurn, if_neg (lt_irrefl _)]
    exact gives_pure.2 ⟨rfl, hg'⟩

/-- **A block's own codes are made**, and its items read by them. -/
theorem codesOf_reads
    (hg : g.Lengths sink o h cl (lits ++ dists) (itemsBits lits dists items ++ l))
    (hshort : ∀ l ∈ lits ++ dists, l ≤ longest) (hlit : Usable lits) (hdist : Usable dists)
    (hlits : lits.length ≤ symbolRoom) (hdists : dists.length ≤ symbolRoom)
    (hitems : ItemsFine lits dists h items) (hlen : (expand h (items.map Item.token)).length < 2 ^ 64)
    (hn : items.length < turns) :
    Gives (codesOf turns lits.length dists.length) g fun ok g' =>
      ok = true ∧ g'.Stands sink o (expand h (items.map Item.token)) l := by
  have hread := hg.read
  have hall : (lits ++ dists).length = lits.length + dists.length := List.length_append
  rw [hall, List.range_eq_range', ← List.range'_append_1, List.map_append, Nat.zero_add,
    ← List.range_eq_range'] at hread
  obtain ⟨hlread, hdread⟩ := List.append_inj hread (by rw [List.length_map, List.length_range])
  have hle : g.Short (lits.length + dists.length) := by
    intro i hi
    rw [hg.get (hall ▸ hi)]
    exact hshort _ (List.getElem_mem _)
  have hstop : g.lengths 256 ≠ 0 := by
    have hstop := hitems.stop
    have hlt : 256 < lits.length := by
      by_contra hge
      rw [lengthOf, List.getD_eq_default _ _ (not_lt.1 hge)] at hstop
      exact lt_irrefl 0 hstop
    rw [hg.get (by omega), List.getElem_append_left hlt]
    rw [lengthOf, List.getD_eq_getElem _ _ hlt] at hstop
    exact hstop.ne'
  rw [codesOf, gives_bind, gives_get, if_neg hstop, gives_bind]
  refine (constructLen_gives (fun i hi => hle i (by omega)) hlits).mono ?_
  rintro left _ ⟨code, hc, rfl⟩
  rw [hlread] at hc
  obtain ⟨hin, tl⟩ := complete_of_usable hlit (fun l hl => hshort l (List.mem_append_left _ hl)) hlits hc
  rw [gives_bind, gives_get, hin, if_neg Bool.false_ne_true, gives_bind]
  refine Gives.mono (constructDist_gives hle hdists) ?_
  rintro left _ ⟨code', hc', rfl⟩
  rw [hdread] at hc'
  obtain ⟨hin', td⟩ := complete_of_usable hdist (fun l hl => hshort l (List.mem_append_right _ hl)) hdists hc'
  rw [gives_bind, gives_get, hin', if_neg Bool.false_ne_true]
  exact codes_reads (hg.toStands.of_codes rfl rfl) tl td hitems hlen hn

/-- **A block of its own codes is read.** -/
theorem dynamic_reads {codes : Codes}
    (hg : g.Stands sink o h (codes.bits ++ itemsBits codes.lits codes.dists items ++ l)) (hcodes : codes.Fine)
    (hitems : ItemsFine codes.lits codes.dists h items)
    (hlen : (expand h (items.map Item.token)).length < 2 ^ 64) (hruns : codes.runs.length < turns)
    (hn : items.length < turns) :
    Gives (dynamic turns) g fun ok g' =>
      ok = true ∧ g'.Stands sink o (expand h (items.map Item.token)) l := by
  have hlits := hcodes.someLits
  have hlits' := hcodes.manyLits
  have hdists := hcodes.someDists
  have hdists' := hcodes.manyDists
  have hleast := hcodes.least
  have hmost := hcodes.most
  have hsymbols : symbolRoom = 288 := rfl
  have hroom : lengthsRoom = 320 := rfl
  have hcomes := hg.comes
  rw [Codes.bits] at hcomes
  simp only [List.append_assoc] at hcomes
  rw [dynamic, gives_bind]
  refine (bitsOf_reads hcomes (by omega)).mono ?_
  rintro v1 _ ⟨hv1, b1, hb1, rfl⟩
  rw [gives_bind]
  refine (bitsOf_reads (hg.of_bits hb1).comes (by omega)).mono ?_
  rintro v2 _ ⟨hv2, b2, hb2, rfl⟩
  rw [gives_bind]
  refine (bitsOf_reads (hg.of_bits hb2).comes (by omega)).mono ?_
  rintro v3 _ ⟨hv3, b3, hb3, rfl⟩
  rw [hv1, hv2, hv3, Nat.sub_add_cancel hlits, Nat.sub_add_cancel hdists, Nat.sub_add_cancel hleast, if_neg (by omega),
    gives_bind]
  have hcl : ∀ i, codes.cl.getD i 0 < 8 := by
    intro i
    rcases lt_or_ge i codes.cl.length with hi | hi
    · rw [List.getD_eq_getElem _ _ hi]
      exact hcodes.short _ (List.getElem_mem hi)
    · rw [List.getD_eq_default _ _ hi]
      decide
  refine (orderOn_reads (by decide) (hg.of_bits hb3) hcl hcodes.given).mono ?_
  rintro _ g4 ⟨hg4, hread⟩
  have hset : (List.range 19).map g4.lengths = codes.cl := by
    apply List.ext_getElem
    · rw [List.length_map, List.length_range, hcodes.cl]
    · intro i hi hi'
      rw [List.length_map, List.length_range] at hi
      have hmem : i ∈ order := by
        interval_cases i <;> decide
      rw [List.getElem_map, List.getElem_range, hread i (.inl hmem), List.getD_eq_getElem _ _ hi']
  rw [gives_bind]
  refine (constructLen_gives (n := 19) ?_ (by decide)).mono ?_
  · intro i hi
    have hlt := hcl i
    have hmem : i ∈ order := by
      interval_cases i <;> decide
    rw [hread i (.inl hmem), show longest = 15 from rfl]
    omega
  rintro left _ ⟨code, hc, rfl⟩
  rw [hset] at hc
  obtain ⟨rfl, table⟩ := left_of_full hcodes.full (by rw [hcodes.cl]; decide) hc
  rw [if_neg (not_not.2 rfl), gives_bind]
  have hall : (codes.lits ++ codes.dists).length = codes.lits.length + codes.dists.length :=
    List.length_append
  have hshort : ∀ l ∈ codes.lits ++ codes.dists, l ≤ longest := by
    rw [← hcodes.all]
    exact short_of_runs hcodes.runs (by simp)
  rw [← hall]
  have hg5 : Lengths { g4 with lencode := code } sink o h codes.cl [] _ :=
    ⟨hg4.of_codes rfl rfl, table, rfl⟩
  refine (runs_reads hg5 hcodes.runs hcodes.all (by omega) hruns).mono ?_
  rintro _ g6 ⟨rfl, hg6⟩
  rw [if_pos rfl]
  exact codesOf_reads hg6 hshort hcodes.lits hcodes.dists (by omega) (by omega) hitems hlen hn

/-! ### Blocks -/

theorem le_length_codeWord (lengths : List ℕ) (s : ℕ) : lengthOf lengths s ≤ (codeWord lengths s).length := by
  rw [codeWord, Canonical.word, List.length_reverse, Nat.digitsAppend, List.length_append,
    List.length_replicate]
  omega

/-- Where each is of a bit or more, there are no more than bits. -/
theorem length_le_flatMap {α : Type} {f : α → List ℕ} {as : List α} (h : ∀ a ∈ as, 0 < (f a).length) :
    as.length ≤ (as.flatMap f).length := by
  have hone : ∀ n ∈ as.map fun a => (f a).length, 1 ≤ n := by
    intro n hn
    obtain ⟨a, ha, rfl⟩ := List.mem_map.1 hn
    exact h a ha
  calc as.length = (as.map fun a => (f a).length).length := (List.length_map _).symm
    _ ≤ (as.map fun a => (f a).length).sum := List.length_le_sum_of_one_le _ hone
    _ = (as.flatMap f).length := List.length_flatMap.symm

theorem length_items_le (hitems : ∀ i ∈ items, i.Fine lits dists) :
    items.length ≤ (itemsBits lits dists items).length := by
  rw [itemsBits, List.length_append]
  refine (length_le_flatMap (f := Item.bits lits dists) ?_).trans (Nat.le_add_right _ _)
  intro i hi
  have hfine := hitems i hi
  cases i with
  | lit b => exact lt_of_lt_of_le hfine (le_length_codeWord lits b.toNat)
  | ref len extra dist more =>
    rw [Item.bits, List.length_append, List.length_append]
    have hlen := lt_of_lt_of_le hfine.1.2.2 (le_length_codeWord lits (257 + len))
    omega

theorem length_runs_le (hrs : RunsFine cl ls rs) :
    rs.length ≤ (rs.flatMap (Run.bits cl)).length := by
  induction rs generalizing ls with
  | nil => exact le_rfl
  | cons r rs ih =>
    obtain ⟨⟨hsym, -⟩, hrs⟩ := hrs
    have hpos : 0 < (r.bits cl).length := by
      refine lt_of_lt_of_le (lt_of_lt_of_le hsym (le_length_codeWord cl r.symbol)) ?_
      cases r <;> simp [Run.bits, Run.symbol]
    have hrest := ih hrs
    rw [List.flatMap_cons, List.length_append, List.length_cons]
    omega

/-- **A block is read**, of whichever kind. -/
theorem block_reads {b : Block} {w : List ℕ} {kind : ℕ} (hkind : b.bits p = lsb 2 kind ++ w)
    (hg : g.Stands sink o h (w ++ l)) (hb : b.Fine h) (hpos : 8 ∣ p + 1 + (b.bits p).length + l.length)
    (hlen : (b.apply h).length < 2 ^ 64) (hk : kind < 4) (hn : (b.bits p).length < turns) :
    Gives (block turns kind) g fun ok g' => ok = true ∧ g'.Stands sink o (b.apply h) l := by
  have hsame : ∀ {k : ℕ} {w' : List ℕ}, k < 4 → b.bits p = lsb 2 k ++ w' → kind = k ∧ w = w' := by
    intro k w' hk' heq
    obtain ⟨hnum, hrest⟩ := List.append_inj (hkind.symm.trans heq) (by rw [length_lsb, length_lsb])
    exact ⟨(lsb_inj hk hk').1 hnum, hrest⟩
  rw [block]
  cases b with
  | stored padding data =>
    obtain ⟨rfl, rfl⟩ := hsame (by decide) rfl
    rw [if_pos rfl]
    refine stored_reads hg ?_ hb
    simp only [Block.bits, List.length_append, length_lsb, length_bitsOf, pad] at hpos
    omega
  | fixed items =>
    obtain ⟨rfl, rfl⟩ := hsame (by decide) rfl
    have hitems := length_items_le hb.fine
    rw [if_neg (by decide), if_pos rfl]
    refine fixed_reads hg hb hlen ?_
    rw [Block.bits, List.length_append] at hn
    omega
  | dynamic codes items =>
    obtain ⟨rfl, rfl⟩ := hsame (by decide) rfl
    have hitems := length_items_le hb.2.fine
    have hruns := length_runs_le hb.1.runs
    rw [if_neg (by decide), if_neg (by decide), if_pos rfl]
    simp only [Block.bits, Codes.bits, List.length_append] at hn
    exact dynamic_reads hg hb.1 hb.2 hlen (by omega) (by omega)

/-- Every block adds to what was written. -/
theorem Block.prefix_apply (h : List UInt8) (b : Block) : h <+: b.apply h := by
  cases b with
  | stored padding data => exact List.prefix_append h data
  | fixed items => exact prefix_expand h _
  | dynamic codes items => exact prefix_expand h _

theorem prefix_blocks (h : List UInt8) (bs : List Block) : h <+: bs.foldl Block.apply h := by
  induction bs generalizing h with
  | nil => exact List.prefix_rfl
  | cons b bs ih => exact (Block.prefix_apply h b).trans (ih _)

/-- A block, after the bit that says whether it is the last. -/
theorem blockTurn_reads {b : Block} {last : ℕ}
    (hg : g.Stands sink o h (lsb 1 last ++ (b.bits p ++ l))) (hb : b.Fine h) (hlast : last < 2)
    (hpos : 8 ∣ p + 1 + (b.bits p).length + l.length) (hlen : (b.apply h).length < 2 ^ 64)
    (hn : (b.bits p).length < turns) :
    Gives (blockTurn turns ()) g fun r g' => g'.Stands sink o (b.apply h) l ∧
      r.Ends (fun _ => last = 0) fun ok => last ≠ 0 ∧ ok = true := by
  obtain ⟨kind, w, hk, hkind⟩ : ∃ kind w, kind < 4 ∧ b.bits p = lsb 2 kind ++ w := by
    cases b with
    | stored padding data => exact ⟨0, _, by decide, rfl⟩
    | fixed items => exact ⟨1, _, by decide, rfl⟩
    | dynamic codes items => exact ⟨2, _, by decide, rfl⟩
  rw [blockTurn, gives_bind]
  refine (bitsOf_reads hg.comes (by omega)).mono ?_
  rintro _ _ ⟨rfl, b1, hb1, rfl⟩
  rw [hkind, List.append_assoc] at hb1
  rw [gives_bind]
  refine (bitsOf_reads (hg.of_bits hb1).comes (by omega)).mono ?_
  rintro _ _ ⟨rfl, b2, hb2, rfl⟩
  rw [gives_bind]
  refine (block_reads hkind (hg.of_bits hb2) hb hpos hlen hk hn).mono ?_
  rintro _ g' ⟨rfl, hg'⟩
  split_ifs with hmore
  · exact gives_pure.2 ⟨hg', hmore.2⟩
  · exact gives_pure.2 ⟨hg', by simpa using hmore, rfl⟩

/-- **Blocks are read**, up to the last. -/
theorem blocks_reads {bs : List Block} (hg : g.Stands sink o h (blocksBits p bs ++ l)) (hne : bs ≠ [])
    (hbs : BlocksFine h bs) (hpos : 8 ∣ p + (blocksBits p bs).length + l.length)
    (hlen : (bs.foldl Block.apply h).length < 2 ^ 64) (hn : (blocksBits p bs).length < turns) :
    Gives (loop (blockTurn turns) turns ()) g fun ok g' =>
      ok = true ∧ g'.Stands sink o (bs.foldl Block.apply h) l := by
  let I : List Block → Unit → Gzip σ τ → Prop := fun now _ g' => now ≠ [] ∧ ∃ p h', BlocksFine h' now ∧
    now.foldl Block.apply h' = bs.foldl Block.apply h ∧ 8 ∣ p + (blocksBits p now).length + l.length ∧
      (blocksBits p now).length < turns ∧ g'.Stands sink o h' (blocksBits p now ++ l)
  have hcount : bs.length ≤ (blocksBits p bs).length := by
    clear hg hne hbs hpos hlen hn
    induction bs generalizing p with
    | nil => exact le_rfl
    | cons b bs ih =>
      have hrest := @ih (p + 1 + (b.bits p).length)
      rw [blocksBits, List.length_append, List.length_append, length_lsb, List.length_cons]
      omega
  refine Gives.loop_list (I := I) ?_ (fun _ _ hI => absurd rfl hI.1) (by omega)
    ⟨hne, p, h, hbs, rfl, hpos, hn, hg⟩
  rintro b now _ g' ⟨-, p, h', ⟨hb, hnow⟩, heq, hpos, hn, hg'⟩
  rw [blocksBits, List.length_append, List.length_append, length_lsb] at hpos hn
  rw [blocksBits, List.append_assoc, List.append_assoc] at hg'
  have hshort : (b.apply h').length < 2 ^ 64 := by
    refine lt_of_le_of_lt ?_ hlen
    rw [← heq]
    exact (prefix_blocks _ now).length_le
  refine (blockTurn_reads hg' hb (by split_ifs <;> decide) ?_ hshort (by omega)).mono ?_
  · rw [List.length_append]
    omega
  rintro (u | ok) g2 ⟨hg2, hr⟩
  · have hmore : now ≠ [] := by
      rintro rfl
      exact absurd hr (by simp [Turn.Ends])
    exact ⟨hmore, _, _, hnow, heq, by omega, by omega, hg2⟩
  · obtain ⟨hlast, rfl⟩ := hr
    obtain rfl : now = [] := by
      by_contra hmore
      exact hlast (if_neg hmore)
    rw [← heq]
    exact ⟨rfl, hg2⟩

/-! ### The header, and `gunzip` -/

/-- Bytes have been read from the source, and there are some to come. -/
def Past (g : Gzip σ τ) (bs : List UInt8) (g' : Gzip σ τ) : Prop :=
  ∃ s : Source σ, s.Comes bs ∧ s.bad = false ∧ g' = { g with bits := { g.bits with src := s } }

variable {bs cs : List UInt8}

theorem text_reads (h : g.bits.src.Comes (cs ++ 0 :: bs)) (hbad : g.bits.src.bad = false) (hcs : 0 ∉ cs)
    (hn : cs.length < turns) : Gives (loop textTurn turns ()) g fun _ g' => g.Past bs g' := by
  let I : List UInt8 → Unit → Gzip σ τ → Prop := fun cs _ g' => 0 ∉ cs ∧ g.Past (cs ++ 0 :: bs) g'
  refine Gives.loop_list (I := I) ?_ ?_ hn ⟨hcs, _, h, hbad, rfl⟩
  · rintro c cs _ _ ⟨hcs, s, hs, hgood, rfl⟩
    rw [List.mem_cons, not_or] at hcs
    rw [textTurn, gives_bind]
    refine Gives.mono (byte_reads hs hgood) ?_
    rintro _ _ ⟨rfl, s', hs', hgood', rfl⟩
    have hne : c.toNat ≠ 0 := fun hzero => hcs.1 (UInt8.toNat_inj.1 hzero.symm)
    rw [if_neg hne, gives_bind, gives_get, if_neg (by simp [hgood'])]
    exact gives_pure.2 ⟨hcs.2, s', hs', hgood', rfl⟩
  · rintro _ _ ⟨-, s, hs, hgood, rfl⟩
    rw [textTurn, gives_bind]
    refine Gives.mono (byte_reads hs hgood) ?_
    rintro _ _ ⟨rfl, s', hs', hgood', rfl⟩
    rw [if_pos (c := UInt8.toNat 0 = 0) rfl]
    exact gives_pure.2 ⟨s', hs', hgood', rfl⟩

theorem extra_reads
    (h : g.bits.src.Comes ([UInt8.ofNat cs.length, UInt8.ofNat (cs.length / 256)] ++ cs ++ bs))
    (hbad : g.bits.src.bad = false) (hcs : cs.length < 2 ^ 16) :
    Gives extra g fun _ g' => g.Past bs g' := by
  rw [extra, gives_bind]
  refine (byte_reads h hbad).mono ?_
  rintro _ _ ⟨rfl, s1, hs1, hbad1, rfl⟩
  rw [gives_bind]
  refine Gives.mono (byte_reads hs1 hbad1) ?_
  rintro _ _ ⟨rfl, s2, hs2, hbad2, rfl⟩
  rw [gives_bind, two_bytes hcs]
  refine Gives.mono (read_reads hs2 hbad2 rfl) ?_
  rintro _ _ ⟨-, s3, hs3, hbad3, rfl⟩
  exact gives_pure.2 ⟨s3, hs3, hbad3, rfl⟩

/-- A field is read if its flag is set. -/
theorem given_reads {c : Prop} [Decidable c] {m : Prog (Gzip σ τ) Unit}
    (hm : c → g.bits.src.Comes (cs ++ bs) → Gives m g fun _ g' => g.Past bs g')
    (h : g.bits.src.Comes ((if c then cs else []) ++ bs)) (hbad : g.bits.src.bad = false) :
    Gives (given c m) g fun _ g' => g.Past bs g' := by
  rw [gives_given]
  constructor
  · intro hc
    rw [if_pos hc] at h
    exact hm hc h
  · intro hc
    rw [if_neg hc] at h
    exact ⟨_, h, hbad, rfl⟩

theorem optional_reads {head : Header} (hhead : head.Fine) (h : g.bits.src.Comes (head.fields ++ bs))
    (hbad : g.bits.src.bad = false) (hn : head.fields.length < turns) :
    Gives (optional turns head.flags) g fun _ g' => g.Past bs g' := by
  rw [Header.fields, List.append_assoc, List.append_assoc, List.append_assoc] at h
  rw [Header.fields] at hn
  simp only [List.length_append] at hn
  have htext : ∀ {flag : UInt8} {l cs : List UInt8} (g : Gzip σ τ), g.bits.src.bad = false → 0 ∉ l →
      (head.field flag (l ++ [0])).length < turns → head.flags &&& flag ≠ 0 →
        g.bits.src.Comes (l ++ [0] ++ cs) → Gives (loop textTurn turns ()) g fun _ g' => g.Past cs g' := by
    intro flag l cs g hbad hl hlen hset hcomes
    rw [Header.field, if_pos hset, List.length_append, List.length_singleton] at hlen
    exact text_reads (by simpa using hcomes) hbad hl (by omega)
  rw [optional, gives_bind]
  refine (given_reads (fun _ h => extra_reads h hbad hhead.extra) h hbad).mono ?_
  rintro _ _ ⟨s1, hs1, hbad1, rfl⟩
  rw [gives_bind]
  refine Gives.mono (given_reads (htext _ hbad1 hhead.name (by omega)) hs1 hbad1) ?_
  rintro _ _ ⟨s2, hs2, hbad2, rfl⟩
  rw [gives_bind]
  refine Gives.mono (given_reads (htext _ hbad2 hhead.comment (by omega)) hs2 hbad2) ?_
  rintro _ _ ⟨s3, hs3, hbad3, rfl⟩
  refine Gives.mono (given_reads (fun _ h => gives_map.2 (Gives.mono (read_reads h hbad3 hhead.crc) ?_)) hs3
    hbad3) ?_
  · rintro _ _ ⟨-, s4, hs4, hbad4, rfl⟩
    exact ⟨s4, hs4, hbad4, rfl⟩
  · rintro _ _ ⟨s4, hs4, hbad4, rfl⟩
    exact ⟨s4, hs4, hbad4, rfl⟩

/-- **`gunzip` undoes deflate**: whatever blocks the input is made of, the sink is given what they stand
for, in order, and the decoder says that all went well. -/
theorem gunzip_inflates {input data : List UInt8} (hin : Gzipped input data) (hlen : data.length < 2 ^ 64)
    (hsink : Accepts sink) (m : ℕ → UInt8) (hcomes : g.bits.src.Comes input)
    (hbad : g.bits.src.bad = false) (hturns : 8 * input.length < turns) :
    Gives (gunzip turns (some m) sink) g fun ok g' =>
      ok = true ∧ ∃ pieces, pieces.flatten = data ∧ g'.window.out = sent sink g.window.out pieces := by
  obtain ⟨head, blocks, body, rest, padding, ⟨hhead, hne, hblocks⟩, hbody, rfl, rfl⟩ := hin
  have hbytes : head.bytes.length = 10 + head.fields.length := by
    simp only [Header.bytes, List.length_append, hhead.rest]
    rfl
  simp only [List.length_append, hbytes] at hturns
  have hbits : (blocksBits 0 blocks).length + padding.length = 8 * body.length := by
    rw [← List.length_append, ← hbody, length_bitsOf]
  rw [Header.bytes, List.append_assoc] at hcomes
  rw [gunzip, gives_bind]
  refine (read_reads hcomes hbad (by rw [List.length_append, hhead.rest]; rfl)).mono ?_
  rintro _ _ ⟨rfl, s1, hs1, hbad1, rfl⟩
  rw [if_neg (by simp), gives_bind]
  refine Gives.mono (optional_reads hhead hs1 hbad1 (by omega)) ?_
  rintro _ _ ⟨s2, hs2, hbad2, rfl⟩
  rw [gives_bind, windowed, gives_onPart]
  refine (windowOpen_shows g.window m hsink (by decide) (by decide)).mono ?_
  rintro _ w ⟨rfl, hsize, hwsink, hw⟩
  rw [if_pos rfl, gives_bind, noBits, gives_modify]
  have hstart : Stands ⟨⟨s2, 0, 0, Nat.one_pos⟩, w, g.lencode, g.distcode, g.lengths⟩ sink g.window.out []
      (blocksBits 0 blocks ++ (padding ++ BitStream.bitsOf rest)) := by
    refine ⟨?_, hw, hsize, hwsink⟩
    rw [← List.append_assoc, ← hbody, ← bitsOf_append]
    exact Bits.comes_of_bytes hs2 hbad2 rfl
  rw [gives_bind]
  refine Gives.mono (blocks_reads hstart hne hblocks ?_ hlen (by omega)) ?_
  · rw [List.length_append, length_bitsOf]
    omega
  rintro _ g3 ⟨rfl, hg3⟩
  rw [gives_bind, windowed, gives_onPart]
  refine (windowClose_shows hg3.shows).mono ?_
  rintro _ w ⟨rfl, pieces, hflat, hout⟩
  simp only [gives_bind, gives_get, gives_pure]
  refine ⟨?_, pieces, hflat, hg3.wsink ▸ hout⟩
  rw [hg3.comes.1.1]
  rfl

/-- A header without fields, and a block of the fixed codes: an `a`, and three more by a back reference. -/
theorem gunzip_inflates_four :
    Gives (gunzip 200 (some fun _ => 0) fun l out => (true, out ++ l))
      (atFirst (Bits.ofBytes
        [0x1F, 0x8B, 8, 0, 0, 0, 0, 0, 0, 3, 0x4B, 0x04, 0x02, 0x00, 0x45, 0xE5, 0x98, 0xAD, 4, 0, 0, 0]).src [])
      fun ok g' => ok = true ∧ ∃ pieces, pieces.flatten = [97, 97, 97, 97] ∧
        g'.window.out = sent (fun l out => (true, out ++ l)) [] pieces := by
  have hitems : ItemsFine fixedLits fixedDists [] [.lit 97, .ref 0 0 0 0] := by
    refine ⟨?_, by decide, trivial, ⟨by decide, by decide, by decide⟩, trivial⟩
    simp only [List.mem_cons, List.not_mem_nil, or_false, forall_eq_or_imp, forall_eq]
    exact ⟨show 0 < lengthOf fixedLits 97 by decide,
      ⟨by decide, by decide, by decide⟩, by decide, by decide, by decide⟩
  have hbody : BitStream.bitsOf [0x4B, 0x04, 0x02, 0x00] =
      blocksBits 0 [.fixed [.lit 97, .ref 0 0 0 0]] ++ [0, 0] := by
    decide +kernel
  refine gunzip_inflates ⟨⟨0, [0, 0, 0, 0, 0, 3], [], [], [], [0, 0]⟩, [.fixed [.lit 97, .ref 0 0 0 0]], _, _, _,
    ⟨⟨rfl, by decide, by decide, by decide, rfl⟩, by simp, hitems, trivial⟩, hbody, rfl, ?_⟩ (by decide)
    (fun _ _ => rfl) _ ⟨_, .stop rfl, rfl⟩ rfl (by decide)
  decide

end Gzip

end BaxOS.Unpack
