import BaxOS.Tuxpac.HttpHead

/-!
# A body is read exactly

What `http_open` finds of a head does not depend on how it arrives, and the source it fills in is read to
where the body ends. A length with a tab before it is taken for 0 and one from `2 ^ 64` on is cut, what
comes after a wait that finds nothing is not read, and where more than the body came with the head the
connection is kept all the same: the body is read exactly, and the connection kept only after it, where
none of that is so (`httpOpen_exact_iff`).
-/

namespace BaxOS.Tuxpac

variable {cap e i n : ℕ} {s : List UInt8} {x : Request} {h : Head} {b : Source} {w : Web}

/-! ### What a response says -/

/-- All that arrives. -/
def bytesOf : List (Option Piece) → List UInt8
  | [] => []
  | none :: as => bytesOf as
  | some a :: as => a.bytes ++ bytesOf as

/-- What arrives before a wait that finds nothing. -/
def promptOf : List (Option Piece) → List UInt8
  | some a :: as => a.bytes ++ promptOf as
  | _ => []

def Conn.bytes (c : Conn) : List UInt8 := bytesOf c.arrivals

def Conn.prompt (c : Conn) : List UInt8 := promptOf c.arrivals

/-- A request is answered with a body: a head arrives, in time and within the buffer, its status is 200,
and it says how long the body is, where that is asked for. -/
structure Request.Answered (x : Request) (h : Head) (n : ℕ) : Prop where
  takes : x.conn.takes = true
  head : h.text <+: x.conn.prompt
  fits : h.text.length ≤ netRoom - 1
  status : Numeral h.code 200
  measured : x.old = true ∨ h.Says n

/-- What arrives after the head. -/
def Request.rest (x : Request) (h : Head) : List UInt8 := x.conn.bytes.drop h.text.length

/-- The body: its first bytes after the blank line, or all to the close. -/
def Request.body (x : Request) (h : Head) (n : ℕ) : List UInt8 :=
  if x.old then x.rest h else (x.rest h).take n

/-- However often it is filled, no more than the body is read of a source, and all of it once it has been
filled often enough. -/
def ReadsBody (body : List UInt8) (src : Source) : Prop :=
  (∀ n, (fills n src).1 <+: body) ∧ ∃ n, (fills n src).1 = body

/-- However far it has been read, the connection is kept only where the whole body and nothing else has
been received on it after the head. -/
def KeepsAfterBody (x : Request) (h : Head) (n : ℕ) (w : Web) (src : Source) : Prop :=
  ∀ m c d, (httpClose w (fills m src).2).kept = some (c, d) →
    x.old = false ∧ n ≤ (x.rest h).length ∧ c.bytes = (x.rest h).drop n

/-- The last request that was sent, where it is answered with a body, has its body read exactly. -/
def Fetch.Exact (f : Fetch) : Prop :=
  ∀ x h n, f.asked.getLast? = some x → x.Answered h n →
    ∃ src, f.source = some src ∧ ReadsBody (x.body h n) src ∧ KeepsAfterBody x h n f.web src

/-- How many bytes have arrived once `e` have: pieces are taken whole. -/
def reach : List (Option Piece) → ℕ → ℕ
  | some a :: as, e =>
    if e ≤ a.bytes.length then a.bytes.length else a.bytes.length + reach as (e - a.bytes.length)
  | _, _ => 0

/-- How much arrives together with the last of the head, as far as the buffer has room for it. -/
def Request.came (x : Request) (h : Head) : ℕ :=
  min (reach x.conn.arrivals h.text.length) (netRoom - 1) - h.text.length

/-- How much arrives after the head before a wait that finds nothing. -/
def Request.prompt (x : Request) (h : Head) : ℕ := x.conn.prompt.length - h.text.length

/-- Whether the connection may be kept. -/
def Request.keeps (x : Request) (h : Head) : Bool := !x.old && Tuxpac.keeps h.init

/-- What a length is taken for. -/
def Head.taken (h : Head) (n : ℕ) : ℕ := (if h.tabbed then 0 else n) % 2 ^ 64

/-- The length is taken for what it is, or the connection ends before what it is taken for; the body
arrives without a wait that finds nothing; and no more than the body came with the head, or the connection
is not to be kept. The length that is taken for none is one of its own. -/
def Request.Held (x : Request) (h : Head) (n : ℕ) : Prop :=
  let all := (x.rest h).length
  if x.old then x.prompt h = all
  else if h.taken n < x.came h then n = h.taken n ∧ x.keeps h = false
  else if h.taken n = toClose ∧ x.came h = 0 then min n all = x.prompt h
  else n = h.taken n ∧ (n ≤ x.prompt h ∨ x.prompt h = all) ∨
    x.prompt h = all ∧ (all < h.taken n ∨ all = h.taken n ∧ x.keeps h = false)

/-! ### Receiving -/

theorem prompt_prefix (c : Conn) : c.prompt <+: c.bytes := by
  unfold Conn.prompt Conn.bytes
  generalize c.arrivals = as
  induction as with
  | nil => exact List.prefix_rfl
  | cons a as ih =>
    cases a with
    | none => exact List.nil_prefix
    | some a => exact (List.prefix_append_right_inj _).2 ih

/-- What is received is what is next, if it is there in time. -/
theorem receive_spec (c : Conn) (hcap : 0 < cap) :
    (c.receive cap).1 ++ (c.receive cap).2.bytes = c.bytes ∧ (c.receive cap).1.length ≤ cap ∧
      (c.receive cap).2.takes = c.takes ∧
      if (c.receive cap).1 = [] then c.prompt = []
      else (c.receive cap).1 ++ (c.receive cap).2.prompt = c.prompt := by
  unfold Conn.receive Conn.bytes Conn.prompt
  rcases harr : c.arrivals with _ | ⟨_ | a, as⟩
  · simp [harr, bytesOf, promptOf]
  · simp [bytesOf, promptOf]
  · have hpos := List.length_pos_iff.2 a.ne
    simp only
    split_ifs with h hnil hnil
    · rw [List.take_eq_nil_iff] at hnil
      exact hnil.elim (fun h0 => absurd h0 hcap.ne') fun h0 => absurd h0 a.ne
    · exact ⟨by simp [bytesOf, ← List.append_assoc], List.length_take_le _ _, rfl,
        by simp [promptOf, ← List.append_assoc]⟩
    · exact absurd hnil a.ne
    · exact ⟨rfl, not_lt.1 h, rfl, rfl⟩

/-- Something is received where something is there in time. -/
theorem receive_ne (c : Conn) (hcap : 0 < cap) (h : c.prompt ≠ []) :
    (c.receive cap).1 ≠ [] ∧ (c.receive cap).1 ++ (c.receive cap).2.prompt = c.prompt := by
  obtain ⟨-, -, -, hprompt⟩ := receive_spec c hcap
  split_ifs at hprompt with hnil
  · exact absurd hprompt h
  · exact ⟨hnil, hprompt⟩

/-- What is received together with the byte before `e`. -/
theorem receive_reach (c : Conn) (hcap : e ≤ cap) (hne : c.prompt ≠ []) :
    if e ≤ (c.receive cap).1.length then (c.receive cap).1.length = min (reach c.arrivals e) cap
    else reach c.arrivals e = (c.receive cap).1.length +
      reach (c.receive cap).2.arrivals (e - (c.receive cap).1.length) := by
  unfold Conn.receive
  unfold Conn.prompt at hne
  rcases harr : c.arrivals with _ | ⟨_ | a, as⟩
  · simp [harr, promptOf] at hne
  · simp [harr, promptOf] at hne
  · have hcons : reach (some a :: as) e =
        if e ≤ a.bytes.length then a.bytes.length else a.bytes.length + reach as (e - a.bytes.length) := rfl
    by_cases h : cap < a.bytes.length
    · have htake : (a.bytes.take cap).length = cap := List.length_take_of_le h.le
      simp only [dif_pos h, htake]
      rw [if_pos hcap, hcons, if_pos (hcap.trans h.le), min_eq_right h.le]
    · simp only [dif_neg h]
      by_cases hle : e ≤ a.bytes.length
      · rw [if_pos hle, hcons, if_pos hle, min_eq_left (not_lt.1 h)]
      · rw [if_neg hle, hcons, if_neg hle]

/-! ### The head -/

theorem blankAt_length (h : blankAt s i = true) : i + 4 ≤ s.length := by
  have hlen := congrArg List.length (of_decide_eq_true h)
  rw [List.length_take, List.length_drop] at hlen
  unfold blankLine at hlen
  simp only [List.length_cons, List.length_nil] at hlen
  omega

/-- Where the first blank line ends. -/
def headEnd (s : List UInt8) : Option ℕ := ((List.range s.length).find? (blankAt s ·)).map (· + 4)

/-- Whether a blank line is somewhere depends on what is there. -/
theorem blankAt_append (t : List UInt8) (h : i + 4 ≤ s.length) :
    blankAt (s ++ t) i = blankAt s i := by
  unfold blankAt
  rw [List.drop_append_of_le_length (by omega), List.take_append_of_le_length (by rw [List.length_drop]; omega)]

/-- The first blank line of a text. -/
theorem headEnd_iff :
    headEnd s = some (i + 4) ↔ blankAt s i = true ∧ ∀ j < i, blankAt s j = false := by
  unfold headEnd
  rw [Option.map_eq_some_iff]
  constructor
  · rintro ⟨j, hj, heq⟩
    obtain rfl : j = i := by omega
    rw [List.find?_range_eq_some] at hj
    exact ⟨hj.1, fun k hk => by simpa using hj.2.2 k hk⟩
  · rintro ⟨hi, hbefore⟩
    refine ⟨i, List.find?_range_eq_some.2 ⟨hi, ?_, fun j hj => by simpa using hbefore j hj⟩, rfl⟩
    have := blankAt_length hi
    rw [List.mem_range]
    omega

theorem headEnd_pos (h : headEnd s = some e) : ∃ i, e = i + 4 := by
  unfold headEnd at h
  obtain ⟨i, -, rfl⟩ := Option.map_eq_some_iff.1 h
  exact ⟨i, rfl⟩

/-- The loop finds the end of a head that the buffer has room for, wherever it is cut. -/
theorem headOn_spec (he : e ≤ netRoom - 1) : ∀ (n : ℕ) (c : Conn) (buf : List UInt8),
    netRoom ≤ n + buf.length → (∀ j, blankAt buf j = false) → headEnd (buf ++ c.prompt) = some e →
      (headOn n c buf).2.1 = e ∧ e ≤ (headOn n c buf).1.length ∧
        (headOn n c buf).1.length = min (buf.length + reach c.arrivals (e - buf.length)) (netRoom - 1) ∧
        (headOn n c buf).1 ++ (headOn n c buf).2.2.bytes = buf ++ c.bytes ∧
        (headOn n c buf).1 ++ (headOn n c buf).2.2.prompt = buf ++ c.prompt := by
  intro n
  induction n with
  | zero =>
    intro c buf hfuel hnone hend
    obtain ⟨i, rfl⟩ := headEnd_pos hend
    have hi := (headEnd_iff.1 hend).1
    rw [blankAt_append _ (by unfold netRoom at he hfuel; omega), hnone] at hi
    exact absurd hi Bool.false_ne_true
  | succ n ih =>
    intro c buf hfuel hnone hend
    obtain ⟨i, rfl⟩ := headEnd_pos hend
    obtain ⟨hi, hbefore⟩ := headEnd_iff.1 hend
    -- no blank line has been received yet, so that there is room, and something to come
    have hlong : buf.length < i + 4 := by
      by_contra hle
      rw [blankAt_append _ (by omega), hnone] at hi
      exact Bool.false_ne_true hi
    have hroom : buf.length < netRoom - 1 := lt_of_lt_of_le hlong he
    have hcome : c.prompt ≠ [] := by
      intro hnil
      have := blankAt_length hi
      rw [hnil, List.append_nil] at this
      omega
    have hcap : 0 < netRoom - 1 - buf.length := by omega
    obtain ⟨hsame, hle, -, -⟩ := receive_spec c hcap
    obtain ⟨hne, hnext⟩ := receive_ne c hcap hcome
    have hreach := receive_reach c (by omega : i + 4 - buf.length ≤ netRoom - 1 - buf.length) hcome
    unfold headOn
    rw [if_pos hroom]
    generalize c.receive (netRoom - 1 - buf.length) = r at hsame hle hne hnext hreach ⊢
    obtain ⟨d, c'⟩ := r
    simp only at hsame hle hne hnext hreach ⊢
    rw [if_neg hne]
    have hbytes : (buf ++ d) ++ c'.bytes = buf ++ c.bytes := by rw [List.append_assoc, hsame]
    have hall : (buf ++ d) ++ c'.prompt = buf ++ c.prompt := by rw [List.append_assoc, hnext]
    have hpos := List.length_pos_iff.2 hne
    have hlen := @List.length_append _ buf d
    rcases Nat.lt_or_ge (buf ++ d).length (i + 4) with hshort | hlongs
    · -- not yet
      have hnot : ∀ j, blankAt (buf ++ d) j = false := by
        intro j
        by_contra hj
        have hj := Bool.of_not_eq_false hj
        have hjle := blankAt_length hj
        rw [← blankAt_append c'.prompt hjle, hall, hbefore j (by omega)] at hj
        exact Bool.false_ne_true hj
      rw [List.find?_range'_eq_none.2 fun j _ _ => by rw [hnot]; rfl]
      obtain ⟨hstop, hin, hthen, hrest, hlater⟩ := ih c' (buf ++ d) (by omega) hnot (by rw [hall]; exact hend)
      rw [if_neg (by omega)] at hreach
      rw [Nat.sub_sub, ← hlen] at hreach
      exact ⟨hstop, hin, by rw [hthen, hreach]; omega, hrest.trans hbytes, hlater.trans hall⟩
    · have hfound : (List.range' (buf.length - 3) ((buf ++ d).length - 3 - (buf.length - 3))).find?
          (blankAt (buf ++ d) ·) = some i := by
        rw [List.find?_range'_eq_some]
        refine ⟨?_, ?_, fun j _ hj => ?_⟩
        · rw [← blankAt_append c'.prompt hlongs, hall]
          exact hi
        · rw [List.mem_range'_1]
          omega
        · rw [← blankAt_append c'.prompt (by omega), hall, hbefore j hj]
          rfl
      rw [hfound]
      rw [if_pos (by omega)] at hreach
      exact ⟨rfl, hlongs, by simp only; omega, hbytes, hall⟩

/-- A head that is written by the grammar ends at the first blank line. -/
theorem headEnd_text (h : Head) (t : List UInt8) : headEnd (h.text ++ t) = some h.text.length := by
  obtain ⟨i, hi, hat, hbefore⟩ :=
    blank_first (s := t) h.plain fun l hl => h.lines l (List.mem_cons_of_mem _ hl)
  have hlen : h.text.length = i + 4 := by
    unfold Head.text
    rw [ended_length, ← hi]
    rfl
  rw [hlen, headEnd_iff]
  unfold Head.text
  rw [ended_append]
  exact ⟨hat, hbefore⟩

theorem Request.Answered.readHead (hx : x.Answered h n) :
    (Tuxpac.readHead x.conn).2.1 = h.text.length ∧ h.text <+: (Tuxpac.readHead x.conn).1 ∧
      (Tuxpac.readHead x.conn).1.length - h.text.length = x.came h ∧
      (Tuxpac.readHead x.conn).1 ++ (Tuxpac.readHead x.conn).2.2.bytes = x.conn.bytes ∧
      (Tuxpac.readHead x.conn).1 ++ (Tuxpac.readHead x.conn).2.2.prompt = x.conn.prompt := by
  unfold Tuxpac.readHead
  rw [if_pos hx.takes]
  obtain ⟨t, ht⟩ := hx.head
  obtain ⟨hstop, hin, hlen, hsame, hprompt⟩ := headOn_spec hx.fits netRoom x.conn [] (by simp)
    (fun j => by simp [blankAt, blankLine]) (by rw [List.nil_append, ← ht]; exact headEnd_text h t)
  refine ⟨hstop, ?_, ?_, hsame, hprompt⟩
  · exact List.prefix_of_prefix_length_le hx.head ⟨_, hprompt⟩ hin
  · rw [hlen, List.length_nil, Nat.zero_add, Nat.sub_zero]
    rfl

/-! ### Filling -/

/-- How far a source is read at most. -/
def Source.limit (b : Source) : ℕ := if b.left = toClose then b.conn.prompt.length else b.left

/-- One fill receives what is next, and something while the limit has not been reached and there is
something in time. -/
theorem sockFill_spec (b : Source) :
    (sockFill b).pos = 0 ∧ (sockFill b).buf ++ (sockFill b).conn.bytes = b.conn.bytes ∧
      (if (sockFill b).buf = [] then b.left = 0 ∨ b.conn.prompt = []
        else (sockFill b).buf ++ (sockFill b).conn.prompt = b.conn.prompt) ∧
      if b.left = toClose then (sockFill b).left = toClose
      else (sockFill b).buf.length ≤ b.left ∧ (sockFill b).left = b.left - (sockFill b).buf.length := by
  unfold sockFill
  rcases Nat.eq_zero_or_pos b.left with h0 | hpos
  · simp [h0, toClose]
  · have hcap : 0 < if b.left < netRoom then b.left else netRoom := by
      split_ifs
      · exact hpos
      · exact by decide
    obtain ⟨hsame, hcaps, -, hprompt⟩ := receive_spec b.conn hcap
    simp only [if_neg hpos.ne']
    refine ⟨trivial, hsame, ?_, ?_⟩
    · by_cases hnil : (b.conn.receive (if b.left < netRoom then b.left else netRoom)).1 = []
      · rw [if_pos hnil] at hprompt ⊢
        exact Or.inr hprompt
      · rw [if_neg hnil] at hprompt ⊢
        exact hprompt
    · by_cases hclose : b.left = toClose
      · simp only [hclose, ne_eq, not_true_eq_false, if_true, if_false]
      · simp only [ne_eq, hclose, not_false_eq_true, if_true, if_false, and_true]
        refine hcaps.trans ?_
        split_ifs <;> omega

/-- What `n` fills read. -/
theorem fills_spec : ∀ (n : ℕ) (b : Source), b.left ≤ toClose →
    ∃ k, (fills n b).1 = b.buf.drop b.pos ++ b.conn.prompt.take k ∧
      (fills n b).2.conn.bytes = b.conn.bytes.drop k ∧ k ≤ b.conn.prompt.length ∧ k ≤ b.limit ∧
      min n (min b.limit b.conn.prompt.length) ≤ k ∧
      (fills n b).2.left = if b.left = toClose then toClose else b.left - k := by
  intro n
  induction n with
  | zero =>
    intro b hle
    refine ⟨0, by simp [fills], rfl, by omega, by omega, by omega, ?_⟩
    split_ifs with h
    · exact h
    · rfl
  | succ n ih =>
    intro b hle
    obtain ⟨hpos, hsame, hprompt, hleft⟩ := sockFill_spec b
    unfold fills
    generalize sockFill b = b' at hpos hsame hprompt hleft ⊢
    by_cases hnil : b'.buf = []
    · -- the end, or a wait that finds nothing
      rw [if_pos hnil] at hprompt
      rw [hnil, List.nil_append] at hsame
      rw [hnil, List.length_nil] at hleft
      simp only [if_pos hnil]
      refine ⟨0, by simp, hsame, Nat.zero_le _, Nat.zero_le _, ?_, ?_⟩
      · unfold Source.limit
        rcases hprompt with h0 | h0
        · rw [if_neg (by rw [h0]; decide), h0]
          simp
        · simp [h0]
      · split_ifs at hleft ⊢
        · exact hleft
        · exact hleft.2
    · rw [if_neg hnil] at hprompt
      simp only [if_neg hnil]
      have hlen := congrArg List.length hprompt
      rw [List.length_append] at hlen
      have hsome := List.length_pos_iff.2 hnil
      have hle' : b'.left ≤ toClose := by
        split_ifs at hleft with h
        · exact hleft.le
        · omega
      obtain ⟨k, hread, hconn, hk, hlimit, hmin, hthen⟩ := ih b' hle'
      refine ⟨b'.buf.length + k, ?_, ?_, by omega, ?_⟩
      · rw [hread, hpos, List.drop_zero, ← hprompt, List.take_length_add_append]
      · rw [hconn, ← hsame, List.drop_length_add_append]
      · by_cases h : b.left = toClose
        · have hclose : 0 < toClose := by decide
          rw [if_pos h] at hleft
          have hlim : b.limit = b.conn.prompt.length := if_pos h
          have hlim' : b'.limit = b'.conn.prompt.length := if_pos hleft
          exact ⟨by omega, by omega, by rw [if_pos h]; rw [if_pos hleft] at hthen; exact hthen⟩
        · rw [if_neg h] at hleft
          have hnot : b'.left ≠ toClose := by omega
          have hlim : b.limit = b.left := if_neg h
          have hlim' : b'.limit = b'.left := if_neg hnot
          refine ⟨by omega, by omega, ?_⟩
          rw [if_neg h]
          rw [if_neg hnot] at hthen
          omega

/-- However it is cut, no more than up to its limit is read of a source, and all of that once it has been
filled often enough. -/
theorem fills_within (hle : b.left ≤ toClose) (n : ℕ) :
    (fills n b).1 <+: b.buf.drop b.pos ++ b.conn.prompt.take b.limit := by
  obtain ⟨k, hread, -, -, hlimit, -, -⟩ := fills_spec n b hle
  rw [hread]
  exact (List.prefix_append_right_inj _).2 (List.take_prefix_take_left hlimit)

theorem fills_all (hle : b.left ≤ toClose) :
    (fills b.conn.prompt.length b).1 = b.buf.drop b.pos ++ b.conn.prompt.take b.limit := by
  obtain ⟨k, hread, -, hk, hlimit, hmin, -⟩ := fills_spec b.conn.prompt.length b hle
  rw [hread, List.take_eq_take_iff.2]
  omega

/-- It has been read to its end where its limit is known and has been received. -/
theorem fills_ends (hle : b.left ≤ toClose) (h : (fills n b).2.left = 0) :
    b.left ≠ toClose ∧ b.left ≤ b.conn.prompt.length ∧
      (fills n b).2.conn.bytes = b.conn.bytes.drop b.left := by
  obtain ⟨k, -, hconn, hk, hlimit, -, hleft⟩ := fills_spec n b hle
  rw [h] at hleft
  have hclose : 0 < toClose := by decide
  by_cases ht : b.left = toClose
  · rw [if_pos ht] at hleft
    omega
  · rw [if_neg ht] at hleft
    have hlim : b.limit = b.left := if_neg ht
    obtain rfl : k = b.left := by omega
    exact ⟨ht, hk, hconn⟩

theorem fills_end (ht : b.left ≠ toClose) (hle : b.left ≤ toClose)
    (h : b.left ≤ b.conn.prompt.length) : (fills b.conn.prompt.length b).2.left = 0 := by
  obtain ⟨k, -, -, -, -, hmin, hleft⟩ := fills_spec b.conn.prompt.length b hle
  have hlim : b.limit = b.left := if_neg ht
  rw [hleft, if_neg ht]
  omega

/-- All that can be read of a source. -/
def Source.total (b : Source) : List UInt8 := b.buf.drop b.pos ++ b.conn.prompt.take b.limit

theorem readsBody_iff {body : List UInt8} (hle : b.left ≤ toClose) :
    ReadsBody body b ↔ b.total = body := by
  constructor
  · rintro ⟨hwithin, n, hn⟩
    have hall := hwithin b.conn.prompt.length
    rw [fills_all hle] at hall
    have hmost := fills_within hle n
    rw [hn] at hmost
    exact hall.eq_of_length (le_antisymm hall.length_le hmost.length_le)
  · intro htotal
    unfold ReadsBody
    rw [← htotal]
    exact ⟨fills_within hle, _, fills_all hle⟩

theorem keepsAfterBody_iff (hle : b.left ≤ toClose)
    (hkept : w.kept = none) :
    KeepsAfterBody x h n w b ↔ (w.keepOpen ≠ none → b.left ≠ toClose → b.left ≤ b.conn.prompt.length →
      x.old = false ∧ n ≤ (x.rest h).length ∧ b.conn.bytes.drop b.left = (x.rest h).drop n) := by
  constructor
  · intro hkeeps hopen ht hlen
    obtain ⟨d, hd⟩ := Option.ne_none_iff_exists'.1 hopen
    have h0 := fills_end ht hle hlen
    obtain ⟨hold, hbody, hconn⟩ :=
      hkeeps b.conn.prompt.length (fills b.conn.prompt.length b).2.conn d
        (by simp only [httpClose, hd, h0, if_true])
    rw [(fills_ends hle h0).2.2] at hconn
    exact ⟨hold, hbody, hconn⟩
  · intro hends m c d hc
    unfold httpClose at hc
    cases hopen : w.keepOpen with
    | none => simp [hopen, hkept] at hc
    | some d' =>
      by_cases h0 : (fills m b).2.left = 0
      · obtain ⟨ht, hlen, hconn⟩ := fills_ends hle h0
        simp only [hopen, h0, if_true, Option.some.injEq, Prod.mk.injEq] at hc
        rw [← hc.1, hconn]
        exact hends (by simp [hopen]) ht hlen
      · simp [hopen, h0, hkept] at hc

/-! ### One answer -/

/-- The source of a request that is answered with a body. -/
def Request.source (x : Request) (h : Head) (n : ℕ) : Source :=
  let (buf, _, conn) := readHead x.conn
  if x.old then ⟨buf, h.text.length, toClose, conn⟩
  else if h.taken n < x.came h then ⟨buf.take (h.text.length + h.taken n), h.text.length, 0, conn⟩
  else ⟨buf, h.text.length, h.taken n - x.came h, conn⟩

theorem reply_answered (hx : x.Answered h n) :
    reply x.old x.conn = .body (x.source h n) (x.keeps h) := by
  obtain ⟨hstop, hpre, hcame, -⟩ := hx.readHead
  have hstatus := statusOf_init hx.status (by decide)
  have hpos : h.text.length ≠ 0 := by
    rw [ne_eq, List.length_eq_zero_iff]
    exact fun hnil => (h.lines h.statusLine List.mem_cons_self).1 (by
      unfold Head.text at hnil
      rw [ended_cons] at hnil
      exact (List.append_eq_nil_iff.1 (List.append_eq_nil_iff.1 hnil).1).1)
  unfold reply Request.source Request.keeps
  rw [← hcame]
  generalize readHead x.conn = r at hstop hpre ⊢
  obtain ⟨buf, stop, conn⟩ := r
  simp only at hstop hpre ⊢
  subst hstop
  rw [if_neg hpos, cstr_init hpre]
  have hmeasured : ¬((!x.old && (decide (lengthOf h.init = none) || chunked h.init)) = true) := by
    rcases hx.measured with hold | hmeant
    · simp [hold]
    · simp [lengthOf_init hmeant, chunked_init hmeant]
  have hbody : reply.bodyReply x.old buf h.text.length conn h.init (statusOf h.init)
      ((lengthOf h.init).getD 0) =
      .body (if x.old then ⟨buf, h.text.length, toClose, conn⟩
        else if h.taken n < buf.length - h.text.length then
          ⟨buf.take (h.text.length + h.taken n), h.text.length, 0, conn⟩
        else ⟨buf, h.text.length, h.taken n - (buf.length - h.text.length), conn⟩)
        (!x.old && Tuxpac.keeps h.init) := by
    unfold reply.bodyReply
    rw [if_neg (by simp [hstatus])]
    cases hold : x.old with
    | true => simp
    | false =>
      have hmeant := hx.measured.resolve_left (by simp [hold])
      have htaken : (lengthOf h.init).getD 0 % 2 ^ 64 = h.taken n := by
        rw [lengthOf_init hmeant]
        rfl
      simp only [Bool.false_eq_true, if_false, Bool.not_false, Bool.true_and, htaken]
      split_ifs <;> rfl
  simp only [if_neg hmeasured]
  cases header h.init "location:" with
  | none => exact hbody
  | some loc =>
    simp only
    rw [if_neg (by rw [hstatus]; omega)]
    exact hbody

theorem Head.taken_lt (h : Head) (n : ℕ) : h.taken n < 2 ^ 64 := Nat.mod_lt _ (by decide)

theorem Head.taken_le (h : Head) (n : ℕ) : h.taken n ≤ n := by
  unfold Head.taken
  split_ifs
  · exact Nat.zero_le n
  · exact Nat.mod_le _ _

theorem Request.source_le (x : Request) (h : Head) (n : ℕ) : (x.source h n).left ≤ toClose := by
  have hlt := h.taken_lt n
  unfold Request.source toClose
  simp only
  split_ifs
  · exact le_rfl
  · exact Nat.zero_le _
  · simp only
    omega

/-- What arrives after the head is what came with it and then what is still to be received. -/
theorem Request.Answered.rest (hx : x.Answered h n) :
    x.rest h = (Tuxpac.readHead x.conn).1.drop h.text.length ++ (Tuxpac.readHead x.conn).2.2.bytes := by
  obtain ⟨-, hpre, -, hsame, -⟩ := hx.readHead
  unfold Request.rest
  rw [← hsame, List.drop_append_of_le_length hpre.length_le]

theorem Request.Answered.prompt (hx : x.Answered h n) :
    x.prompt h = ((Tuxpac.readHead x.conn).1.drop h.text.length).length +
      (Tuxpac.readHead x.conn).2.2.prompt.length := by
  obtain ⟨-, hpre, -, -, hprompt⟩ := hx.readHead
  have hle := hpre.length_le
  unfold Request.prompt
  rw [← hprompt, List.length_append, List.length_drop]
  omega

/-- Where more than the body came with the head, what is cut off of it is lost to the connection. -/
theorem cut_exact_iff {ahead tail : List UInt8} {cut len : ℕ} (keep : Bool) (hcut : cut < ahead.length)
    (hle : cut ≤ len) :
    (ahead.take cut = (ahead ++ tail).take len ∧
      (keep = true → len ≤ (ahead ++ tail).length ∧ tail = (ahead ++ tail).drop len)) ↔
      len = cut ∧ keep = false := by
  constructor
  · rintro ⟨hread, hkeep⟩
    have hlens := congrArg List.length hread
    simp only [List.length_take, List.length_append] at hlens
    refine ⟨by omega, ?_⟩
    by_contra htrue
    obtain ⟨-, htail⟩ := hkeep (Bool.of_not_eq_false htrue)
    have hdrop := congrArg List.length htail
    simp only [List.length_drop, List.length_append] at hdrop
    omega
  · rintro ⟨rfl, rfl⟩
    exact ⟨(List.take_append_of_le_length hcut.le).symm, fun h => absurd h Bool.false_ne_true⟩

/-- Where all that came with the head is of the body, the rest of it is received up to its length, as far as
it comes in time. -/
theorem left_exact_iff {ahead soon tail : List UInt8} {cut len : ℕ} (keep : Bool) (hcame : ahead.length ≤ cut)
    (hle : cut ≤ len) (hsoon : soon <+: tail) :
    (ahead ++ soon.take (cut - ahead.length) = (ahead ++ tail).take len ∧
      (keep = true → cut - ahead.length ≤ soon.length →
        len ≤ (ahead ++ tail).length ∧ tail.drop (cut - ahead.length) = (ahead ++ tail).drop len)) ↔
      len = cut ∧ (len ≤ ahead.length + soon.length ∨ ahead.length + soon.length = (ahead ++ tail).length) ∨
        ahead.length + soon.length = (ahead ++ tail).length ∧
          ((ahead ++ tail).length < cut ∨ (ahead ++ tail).length = cut ∧ keep = false) := by
  have htake : ahead ++ soon.take (cut - ahead.length) =
      (ahead ++ tail).take (min cut (ahead.length + soon.length)) := by
    obtain ⟨later, rfl⟩ := hsoon
    have hall : min cut (ahead.length + soon.length) ≤ (ahead ++ soon).length := by
      rw [List.length_append]
      exact min_le_right _ _
    have hmin : ahead.length ≤ min cut (ahead.length + soon.length) := by omega
    rw [← List.append_assoc, List.take_append_of_le_length hall, List.take_append,
      List.take_of_length_le hmin, List.append_right_inj, List.take_eq_take_iff]
    omega
  have hdrop : tail.drop (cut - ahead.length) = (ahead ++ tail).drop cut := by
    rw [List.drop_append, List.drop_eq_nil_of_le hcame, List.nil_append]
  have hlen := @List.length_append _ ahead tail
  have hlater := hsoon.length_le
  rw [htake, hdrop, List.take_eq_take_iff]
  constructor
  · rintro ⟨hread, hkeep⟩
    by_cases heq : len = cut
    · exact Or.inl ⟨heq, by omega⟩
    · refine Or.inr ⟨by omega, ?_⟩
      rcases Nat.lt_or_ge (ahead ++ tail).length cut with hlt | hge
      · exact Or.inl hlt
      · refine Or.inr ⟨by omega, Bool.eq_false_iff.2 fun htrue => ?_⟩
        obtain ⟨hmore, -⟩ := hkeep htrue (by omega)
        omega
  · rintro (⟨rfl, hin⟩ | ⟨hall, hshort | ⟨heq, rfl⟩⟩)
    · exact ⟨by omega, fun _ h => ⟨by omega, rfl⟩⟩
    · exact ⟨by omega, fun _ h => by omega⟩
    · exact ⟨by omega, fun h => absurd h Bool.false_ne_true⟩

/-- The source of an answer is read exactly, and kept only then, where the answer is held to. -/
theorem source_exact_iff (hx : x.Answered h n)
    (hkept : w.kept = none) (hopen : w.keepOpen ≠ none ↔ x.keeps h = true) :
    ReadsBody (x.body h n) (x.source h n) ∧ KeepsAfterBody x h n w (x.source h n) ↔ x.Held h n := by
  rw [readsBody_iff (x.source_le h n), keepsAfterBody_iff (x.source_le h n) hkept, hopen]
  have hrest := hx.rest
  have hprompt := hx.prompt
  have hcame : x.came h = ((readHead x.conn).1.drop h.text.length).length := by
    rw [List.length_drop, hx.readHead.2.2.1]
  have hsoon := prompt_prefix (readHead x.conn).2.2
  have hle := h.taken_le n
  unfold Source.total Source.limit Request.body Request.Held Request.source
  generalize hrd : (readHead x.conn).1.drop h.text.length = ahead at hrest hprompt hcame
  generalize (readHead x.conn) = r at hrest hprompt hsoon hrd ⊢
  obtain ⟨buf, stop, conn⟩ := r
  simp only at hrest hprompt hsoon hrd ⊢
  have hlater := hsoon.length_le
  have hall := congrArg List.length hrest
  rw [List.length_append] at hall
  cases hold : x.old with
  | true =>
    -- what comes in time is read to the close, and the connection is closed
    have hkeeps : x.keeps h = false := by simp [Request.keeps, hold]
    simp only [if_true, hrd, hkeeps, List.take_length, Bool.false_eq_true, false_implies, and_true]
    rw [hrest, List.append_right_inj, hprompt]
    constructor
    · intro heq
      rw [heq, List.length_append]
    · intro heq
      exact hsoon.eq_of_length (by rw [List.length_append] at heq; omega)
  | false =>
    simp only [Bool.false_eq_true, if_false, true_and]
    by_cases hless : h.taken n < x.came h
    · have hread : (buf.take (h.text.length + h.taken n)).drop h.text.length = ahead.take (h.taken n) := by
        rw [List.drop_take, hrd, Nat.add_sub_cancel_left]
      have hclose : 0 ≠ toClose := by decide
      simp only [if_pos hless, hread, hclose, if_false, List.take_zero, List.append_nil, List.drop_zero,
        Nat.zero_le, ne_eq, not_false_eq_true, forall_const]
      rw [hrest, cut_exact_iff (x.keeps h) (by omega) hle]
    · simp only [if_neg hless, hrd]
      by_cases hwhole : h.taken n = toClose ∧ x.came h = 0
      · -- the length that is taken for none
        have hleft : h.taken n - x.came h = toClose := by rw [hwhole.1, hwhole.2, Nat.sub_zero]
        have hnil : ahead = [] := List.length_eq_zero_iff.1 (hcame.symm.trans hwhole.2)
        simp only [if_pos hwhole, hleft, if_true, List.take_length, ne_eq, not_true_eq_false, false_implies,
          implies_true, and_true]
        rw [hrest, hprompt, hnil, List.nil_append, List.nil_append, List.length_nil, Nat.zero_add]
        constructor
        · intro heq
          rw [← List.length_take, ← heq]
        · intro heq
          rw [List.prefix_iff_eq_take.1 hsoon, List.take_eq_take_iff]
          omega
      · have hclose : h.taken n - x.came h ≠ toClose := by
          have := h.taken_lt n
          unfold toClose at hwhole ⊢
          omega
        simp only [if_neg hwhole, hclose, if_false, ne_eq, not_false_eq_true, forall_const]
        rw [hrest, hcame, hprompt, left_exact_iff (x.keeps h) (by omega) hle hsoon]

/-! ### All requests -/

/-- The request that was sent last is the one that is answered. -/
theorem again_last : ∀ (n : ℕ) (w : Web) (d : Dest) (old : Bool) {x : Request} {h : Head} {m : ℕ},
    (again n w d old).2.2.getLast? = some x → x.Answered h m →
      (again n w d old).1 = .body (x.source h m) (x.keeps h) ∧ (again n w d old).2.1.kept = none := by
  intro n
  induction n with
  | zero =>
    intro w d old x h m hlast
    simp [again] at hlast
  | succ n ih =>
    intro w d old x h m hlast hx
    have hreply := reply_answered hx
    unfold again at hlast ⊢
    -- what was sent before is not the last, and the last is not sent where there was no answer
    have hmore : ∀ (y : Request) (w : Web) (old : Bool), reply y.old y.conn ≠ .body (x.source h m) (x.keeps h) →
        (y :: (again n w d old).2.2).getLast? = some x →
          (again n w d old).1 = .body (x.source h m) (x.keeps h) ∧ (again n w d old).2.1.kept = none := by
      intro y w old hne hy
      rw [List.getLast?_cons] at hy
      cases hend : (again n w d old).2.2.getLast? with
      | none =>
        rw [hend] at hy
        obtain rfl : y = x := by simpa using hy
        exact absurd hreply hne
      | some z =>
        rw [hend] at hy
        obtain rfl : z = x := by simpa using hy
        exact ih w d old hend hx
    have hkept : ∀ {c b w'}, connectTo w d old = (some (c, b), w') → w'.kept = none := by
      intro c b w' hc
      unfold connectTo at hc
      grind
    cases hc : connectTo w d old with
    | mk o w' =>
      cases o with
      | none => simp [hc] at hlast
      | some cr =>
        obtain ⟨c, reused⟩ := cr
        simp only [hc] at hlast ⊢
        cases hr : reply old c with
        | none =>
          simp only [hr] at hlast ⊢
          cases reused with
          | true => exact hmore ⟨old, c⟩ w' old (by simp [hr]) hlast
          | false =>
            obtain rfl : (⟨old, c⟩ : Request) = x := by simpa using hlast
            rw [hr] at hreply
            exact absurd hreply (by simp)
        | unmeasured =>
          simp only [hr] at hlast ⊢
          exact hmore ⟨old, c⟩ w' true (by simp [hr]) hlast
        | moved | refused | body =>
          simp only [hr] at hlast ⊢
          obtain rfl : (⟨old, c⟩ : Request) = x := by simpa using hlast
          rw [hr] at hreply
          exact ⟨hreply, hkept hc⟩

theorem destOf_host {url : Text} {d : Dest} (h : destOf url = some d) : d.host.length < hostRoom := by
  unfold destOf at h
  split_ifs at h with hurl
  rw [← Option.some.inj h]
  exact lt_of_le_of_lt (List.length_take_le _ _) (by decide)

theorem hops_last : ∀ (n : ℕ) (w : Web) (url : Text) {x : Request} {h : Head} {m : ℕ},
    (hops n w url).asked.getLast? = some x → x.Answered h m →
      (hops n w url).source = some (x.source h m) ∧ (hops n w url).web.kept = none ∧
        ((hops n w url).web.keepOpen ≠ none ↔ x.keeps h = true) := by
  intro n
  induction n with
  | zero =>
    intro w url x h m hlast
    simp [hops] at hlast
  | succ n ih =>
    intro w url x h m hlast hx
    unfold hops at hlast ⊢
    cases hd : destOf url with
    | none => simp [hd] at hlast
    | some d =>
      simp only [hd] at hlast ⊢
      have hlasts := fun hsent => again_last 3 w d false (x := x) (h := h) (m := m) hsent hx
      generalize again 3 w d false = a at hlast hlasts ⊢
      obtain ⟨r, w', asked⟩ := a
      simp only at hlast hlasts ⊢
      cases r with
      | body src keep =>
        obtain ⟨hbody, hkept⟩ := hlasts hlast
        obtain ⟨rfl, rfl⟩ := Reply.body.inj hbody
        refine ⟨rfl, hkept, ?_⟩
        simp [destOf_host hd]
      | moved loc =>
        simp only at hlast ⊢
        rw [List.getLast?_append] at hlast
        cases hend : (hops n w' (moveTo d loc)).asked.getLast? with
        | none =>
          rw [hend] at hlast
          exact absurd (hlasts (by simpa using hlast)).1 (by simp)
        | some z =>
          rw [hend] at hlast
          obtain rfl : z = x := by simpa using hlast
          exact ih w' (moveTo d loc) hend hx
      | none | unmeasured | refused => exact absurd (hlasts hlast).1 (by simp)

/-- What is made of the request that was sent last, where it is answered with a body. -/
theorem httpOpen_last {url : Text}
    (hlast : (httpOpen w url).asked.getLast? = some x) (hx : x.Answered h n) :
    (∃ src, (httpOpen w url).source = some src ∧ ReadsBody (x.body h n) src ∧
      KeepsAfterBody x h n (httpOpen w url).web src) ↔ x.Held h n := by
  unfold httpOpen at hlast ⊢
  split_ifs at hlast ⊢ with hlong
  · simp at hlast
  · obtain ⟨hsource, hkept, hopen⟩ := hops_last 5 w url hlast hx
    rw [hsource, ← source_exact_iff hx hkept hopen]
    simp

/-- A body is read exactly where the answer is held to, and there only. -/
theorem httpOpen_exact_iff (w : Web) (url : Text) :
    (httpOpen w url).Exact ↔
      ∀ x h n, (httpOpen w url).asked.getLast? = some x → x.Answered h n → x.Held h n :=
  forall_congr' fun _ => forall_congr' fun _ => forall_congr' fun _ => forall_congr' fun hlast =>
    forall_congr' fun hx => httpOpen_last hlast hx

/-- The head of an answer of five bytes. -/
def five : Head where
  minor := 49
  code := text "200"
  reason := text "OK"
  fields := [⟨text "Content-Length", [space], text "5", [], ⟨by decide, forall_of_all (by decide)⟩,
    forall_of_all (by decide), forall_of_all (by decide)⟩]
  digits := ⟨by decide, forall_of_all (by decide)⟩
  printed := forall_of_all (by decide)

/-- A server that sends more than it said, in one piece, and keeps the connection. -/
def eager : Conn :=
  ⟨[some ⟨text "HTTP/1.1 200 OK\r\nContent-Length: 5\r\n\r\nhello, and", by decide⟩], true⟩

/-- What came with the body of it is gone, and the connection kept. -/
theorem exists_not_readExactly : ∃ w url, ¬(httpOpen w url).Exact := by
  refine ⟨⟨none, none, [some eager], fun _ => true⟩, text "http://h/", fun h => ?_⟩
  have hfive : Numeral (text "5") 5 := ⟨by decide, forall_of_all (by decide), by decide⟩
  have hx : Request.Answered ⟨false, eager⟩ five 5 :=
    ⟨rfl, by decide, by decide, ⟨by decide, forall_of_all (by decide), by decide⟩,
      .inr ⟨by decide, fun f hf _ => List.mem_singleton.1 hf ▸ hfive, by decide⟩⟩
  have hlast : (httpOpen ⟨none, none, [some eager], fun _ => true⟩ (text "http://h/")).asked.getLast? =
      some ⟨false, eager⟩ := rfl
  have hheld := (httpOpen_last hlast hx).1 (h _ _ _ hlast hx)
  unfold Request.Held at hheld
  revert hheld
  decide

end BaxOS.Tuxpac
