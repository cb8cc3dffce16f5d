import Manticore.Base.Numeral
import Manticore.Kernel.PrintfCursor

/-!
# The numbers of a format

`format_number` fills its buffer from the end: the NUL first, then the digits from the last one on,
then the sign.  The position is a `size_t` that is decremented before each write, so a number that
needed more than the buffer would wrap it around.  `formatNumber` is the string it returns; here
the buffer is there, with the positions that were written.
-/

namespace Manticore

namespace Printf

/-- The buffer of `format_number`, the position in it, and the positions written so far. -/
structure NumberBuffer where
  buf : ℕ → UInt8
  pos : ℕ
  writes : List ℕ := []

/-- `buf[--pos] = c`. -/
def NumberBuffer.put (b : NumberBuffer) (c : UInt8) : NumberBuffer where
  buf := Function.update b.buf (sub64 b.pos 1) c
  pos := sub64 b.pos 1
  writes := sub64 b.pos 1 :: b.writes

/-- The loop over the digits, and the `n` it ends with. -/
def formatNumberLoop (chars : List UInt8) (base : ℕ) :
    ℕ → ℕ → NumberBuffer → Option (ℕ × NumberBuffer)
  | 0, _, _ => none
  | fuel + 1, n, b =>
      if base ≤ n then
        formatNumberLoop chars base fuel (n / base) (b.put (chars.getD (n % base) 0))
      else some (n, b)

/-- `format_number`; the pointer it returns is the position in the buffer. -/
def formatNumberAt (buf : ℕ → UInt8) (n len : ℕ) (chars : List UInt8) (base : ℕ) (sign : Bool)
    (fuel : ℕ) : Option NumberBuffer :=
  let negative := decide (2 ^ 63 ≤ n)
  let m := if sign && negative then sub64 0 n else n
  let b : NumberBuffer := { buf := buf, pos := len }
  (formatNumberLoop chars base fuel m (b.put 0)).map fun r =>
    let b := r.2.put (chars.getD r.1 0)
    if sign && negative then b.put (byte '-') else b

/-! ## Reading a numeral -/

/-- The value of a digit, of either case. -/
def digitValue (c : UInt8) : Option ℕ :=
  if byte '0' ≤ c ∧ c ≤ byte '9' then some (c - byte '0').toNat
  else if byte 'a' ≤ c ∧ c ≤ byte 'f' then some ((c - byte 'a').toNat + 10)
  else if byte 'A' ≤ c ∧ c ≤ byte 'F' then some ((c - byte 'A').toNat + 10)
  else none

/-- The numeral without its sign. -/
def unsignedPart (s : List UInt8) : List UInt8 := if s.head? = some (byte '-') then s.tail else s

/-- The number a numeral denotes, with an optional minus sign. -/
def readNumber (base : ℕ) (s : List UInt8) : Option ℤ :=
  if unsignedPart s = [] then none
  else (readDigits digitValue base (unsignedPart s) 0).map fun v : ℕ =>
    if s.head? = some (byte '-') then -(v : ℤ) else (v : ℤ)

def NoSuperfluousZero (s : List UInt8) : Prop :=
  (unsignedPart s).head? = some (byte '0') → unsignedPart s = [byte '0']

/-- The base is ten or sixteen, with one of the two digit tables. -/
structure DigitTable (chars : List UInt8) (base : ℕ) : Prop where
  chars : chars = numberChars ∨ chars = numberCharsUpcase
  base : base = 10 ∨ base = 16

/-- The character of a digit. -/
def digitChar (chars : List UInt8) (d : ℕ) : UInt8 := chars.getD d 0

variable {chars : List UInt8} {base n : ℕ} {sign : Bool}

namespace DigitTable

variable (h : DigitTable chars base)

include h

theorem one_lt : 1 < base := by
  obtain h | h := h.base <;> omega

theorem le_sixteen : base ≤ 16 := by
  obtain h | h := h.base <;> omega

theorem digitValue_char {d : ℕ} (hd : d < base) : digitValue (digitChar chars d) = some d := by
  have hlow : ∀ d < 16, digitValue (digitChar numberChars d) = some d := by decide
  have hup : ∀ d < 16, digitValue (digitChar numberCharsUpcase d) = some d := by decide
  obtain h' | h' := h.chars
  · rw [h']
    exact hlow d (hd.trans_le h.le_sixteen)
  · rw [h']
    exact hup d (hd.trans_le h.le_sixteen)

theorem char_ne {d : ℕ} (hd : d < base) {c : UInt8} (hc : digitValue c = none) :
    digitChar chars d ≠ c := by
  intro heq
  have hval := h.digitValue_char hd
  rw [heq, hc] at hval
  cases hval

theorem char_zero_iff {d : ℕ} (hd : d < base) : digitChar chars d = byte '0' ↔ d = 0 := by
  have hzero : digitChar chars 0 = byte '0' := by
    obtain h | h := h.chars <;> (rw [h]; rfl)
  refine ⟨fun heq => ?_, fun heq => heq ▸ hzero⟩
  have hval := h.digitValue_char hd
  rw [heq] at hval
  exact (Option.some.inj hval).symm

end DigitTable

/-! ## The digits are the numeral -/

/-- The characters of the numeral. -/
def numeralText (chars : List UInt8) (base n : ℕ) : List UInt8 :=
  (numeral base n).map (digitChar chars)

theorem formatDigits_eq (hbase : 1 < base) {room : ℕ} (hroom : (numeral base n).length ≤ room)
    (acc : List UInt8) : formatDigits chars base room n acc = numeralText chars base n ++ acc := by
  induction room generalizing n acc with
  | zero => exact absurd (List.length_eq_zero_iff.mp (Nat.le_zero.mp hroom)) (numeral_ne_nil _ _)
  | succ room ih =>
      unfold formatDigits numeralText
      split
      · next hle =>
          rw [numeral_of_le hbase hle, List.length_append] at hroom
          rw [ih (Nat.le_of_succ_le_succ hroom), numeral_of_le hbase hle, List.map_append,
            List.append_assoc]
          rfl
      · next hlt =>
          rw [numeral_of_lt (not_le.mp hlt)]
          rfl

theorem length_numeral_le_of_lt (hbase : 10 ≤ base) (hn : n < 2 ^ 64) :
    (numeral base n).length ≤ 20 := by
  refine length_numeral_le (by omega) (by norm_num) ?_
  calc n < 2 ^ 64 := hn
    _ ≤ 10 ^ 20 := by norm_num
    _ ≤ base ^ 20 := Nat.pow_le_pow_left hbase 20

/-- **The text of a number**: the sign, and the numeral of the absolute value. -/
theorem formatNumber_eq (hbase : 10 ≤ base) (hn : n < 2 ^ 64) :
    formatNumber n chars base sign =
      if sign ∧ 2 ^ 63 ≤ n then byte '-' :: numeralText chars base (2 ^ 64 - n)
      else numeralText chars base n := by
  have hdigits {k : ℕ} (hk : k < 2 ^ 64) :
      formatDigits chars base 32 k [] = numeralText chars base k := by
    rw [formatDigits_eq (by omega) ((length_numeral_le_of_lt hbase hk).trans (by norm_num)),
      List.append_nil]
  unfold formatNumber
  split
  · rw [hdigits (by omega)]
  · rw [hdigits hn]

/-! ## The buffer -/

/-- The characters are put from the last one on. -/
def NumberBuffer.puts (b : NumberBuffer) (cs : List UInt8) : NumberBuffer :=
  cs.foldr (fun c b => b.put c) b

theorem puts_append (b : NumberBuffer) (cs ds : List UInt8) :
    b.puts (cs ++ ds) = (b.puts ds).puts cs :=
  List.foldr_append

theorem formatNumberLoop_eq (chars : List UInt8) (hbase : 1 < base) {fuel : ℕ} (b : NumberBuffer)
    (hfuel : (numeral base n).length ≤ fuel) :
    (formatNumberLoop chars base fuel n b).map (fun r => r.2.put (chars.getD r.1 0)) =
      some (b.puts (numeralText chars base n)) := by
  induction fuel generalizing n b with
  | zero => exact absurd (List.length_eq_zero_iff.mp (Nat.le_zero.mp hfuel)) (numeral_ne_nil _ _)
  | succ fuel ih =>
      unfold formatNumberLoop numeralText
      split
      · next hle =>
          rw [numeral_of_le hbase hle, List.length_append] at hfuel
          rw [ih _ (Nat.le_of_succ_le_succ hfuel), numeral_of_le hbase hle, List.map_append,
            puts_append]
          rfl
      · next hlt =>
          rw [numeral_of_lt (not_le.mp hlt)]
          rfl

theorem formatNumberAt_eq (hbase : 10 ≤ base) (hn : n < 2 ^ 64) (buf : ℕ → UInt8) (len : ℕ)
    {fuel : ℕ} (hfuel : 20 ≤ fuel) : formatNumberAt buf n len chars base sign fuel =
      some (({ buf := buf, pos := len } : NumberBuffer).puts
        (formatNumber n chars base sign ++ [0])) := by
  obtain ⟨b, hb⟩ : ∃ b : NumberBuffer, b = { buf := buf, pos := len } := ⟨_, rfl⟩
  have hloop {k : ℕ} (hk : k < 2 ^ 64) :=
    formatNumberLoop_eq chars (by omega : 1 < base) (b.put 0)
      ((length_numeral_le_of_lt hbase hk).trans hfuel)
  rw [← hb, puts_append, formatNumber_eq hbase hn]
  unfold formatNumberAt
  simp only [← hb, Bool.and_eq_true, decide_eq_true_eq]
  by_cases hneg : sign = true ∧ 2 ^ 63 ≤ n
  · have hsub : sub64 0 n = 2 ^ 64 - n := by
      unfold sub64
      omega
    simp only [if_pos hneg, hsub]
    have hmap := congrArg (Option.map fun b => b.put (byte '-')) (hloop (by omega : 2 ^ 64 - n < _))
    rw [Option.map_map] at hmap
    exact hmap
  · simp only [if_neg hneg]
    exact hloop hn

/-- What putting characters does to the buffer. -/
structure Filled (b : NumberBuffer) (cs : List UInt8) (b' : NumberBuffer) : Prop where
  pos : b'.pos + cs.length = b.pos
  holds : Holds b'.buf b'.pos cs
  frame : ∀ i, i < b'.pos ∨ b.pos ≤ i → b'.buf i = b.buf i
  writes : ∀ i ∈ b'.writes, i ∈ b.writes ∨ b'.pos ≤ i ∧ i < b.pos

theorem filled_puts {b : NumberBuffer} (hpos : b.pos < 2 ^ 64) :
    ∀ cs : List UInt8, cs.length ≤ b.pos → Filled b cs (b.puts cs)
  | [], _ => ⟨rfl, trivial, fun _ _ => rfl, fun _ => .inl⟩
  | c :: cs, hlen => by
      rw [List.length_cons] at hlen
      have h := filled_puts hpos cs (Nat.le_of_succ_le hlen)
      obtain ⟨b', hb'⟩ : ∃ b', b.puts cs = b' := ⟨_, rfl⟩
      have hput : b.puts (c :: cs) = b'.put c := congrArg (NumberBuffer.put · c) hb'
      rw [hb'] at h
      have hadd := h.pos
      have hsub : sub64 b'.pos 1 = b'.pos - 1 := sub64_of_le (by omega) (by omega)
      have hnew : (b'.put c).pos = b'.pos - 1 := hsub
      have hbuf (i : ℕ) : (b'.put c).buf i = if i = b'.pos - 1 then c else b'.buf i := by
        show Function.update b'.buf (sub64 b'.pos 1) c i = _
        rw [hsub, Function.update_apply]
      rw [hput]
      refine ⟨?_, ?_, ?_, ?_⟩
      · rw [hnew, List.length_cons]
        omega
      · rw [hnew]
        refine ⟨by rw [hbuf, if_pos rfl], ?_⟩
        rw [Nat.sub_add_cancel (by omega)]
        exact holds_congr (fun i hi => by rw [hbuf, if_neg (by omega)]) h.holds
      · intro i hi
        rw [hnew] at hi
        rw [hbuf, if_neg (by omega)]
        exact h.frame i (by omega)
      · intro i hi
        rw [hnew]
        obtain hi | hi := List.mem_cons.mp hi
        · rw [hsub] at hi
          exact .inr ⟨hi.ge, by omega⟩
        · exact (h.writes i hi).imp_right fun hlt => ⟨by omega, hlt.2⟩

/-! ## The round trip -/

theorem length_formatNumber_le (chars : List UInt8) (sign : Bool) (hbase : 10 ≤ base)
    (hn : n < 2 ^ 64) : (formatNumber n chars base sign).length ≤ 21 := by
  rw [formatNumber_eq hbase hn]
  unfold numeralText
  split
  · rw [List.length_cons, List.length_map]
    exact Nat.succ_le_succ (length_numeral_le_of_lt hbase (by omega))
  · rw [List.length_map]
    exact (length_numeral_le_of_lt hbase hn).trans (by norm_num)

namespace DigitTable

variable (h : DigitTable chars base)

include h

theorem ten_le : 10 ≤ base := by
  obtain h | h := h.base <;> omega

theorem numeralText_ne {c : UInt8} (hc : digitValue c = none) (n : ℕ) :
    ∀ d ∈ numeralText chars base n, d ≠ c := by
  intro d hd
  obtain ⟨k, hk, rfl⟩ := List.mem_map.mp hd
  exact h.char_ne (lt_of_mem_numeral h.one_lt hk) hc

theorem head?_numeralText_ne (n : ℕ) :
    (numeralText chars base n).head? ≠ some (byte '-') := by
  intro heq
  exact h.numeralText_ne (by decide) n _ (List.mem_of_mem_head? heq) rfl

theorem exists_formatNumber (sign : Bool) (hn : n < 2 ^ 64) : ∃ m : ℕ,
    unsignedPart (formatNumber n chars base sign) = numeralText chars base m ∧
      (if (formatNumber n chars base sign).head? = some (byte '-') then -(m : ℤ) else m) =
        if sign then Int.bmod n (2 ^ 64) else n := by
  rw [formatNumber_eq h.ten_le hn]
  by_cases hneg : sign = true ∧ 2 ^ 63 ≤ n
  · refine ⟨2 ^ 64 - n, by rw [if_pos hneg]; rfl, ?_⟩
    rw [if_pos hneg, if_pos hneg.1, if_pos (List.head?_cons ..), Int.bmod_def]
    omega
  · have hhead := h.head?_numeralText_ne n
    refine ⟨n, by rw [if_neg hneg, unsignedPart, if_neg hhead], ?_⟩
    rw [if_neg hneg, if_neg hhead]
    split
    · next hs =>
        rw [Int.bmod_def]
        have hlt : n < 2 ^ 63 := not_le.mp fun hle => hneg ⟨hs, hle⟩
        omega
    · rfl

theorem readNumber_formatNumber (hn : n < 2 ^ 64) :
    readNumber base (formatNumber n chars base sign) =
      some (if sign then Int.bmod n (2 ^ 64) else n) := by
  obtain ⟨m, hpart, hval⟩ := h.exists_formatNumber sign hn
  have hne : numeralText chars base m ≠ [] := by
    rw [numeralText, ne_eq, List.map_eq_nil_iff]
    exact numeral_ne_nil base m
  rw [readNumber, hpart, if_neg hne, numeralText,
    readDigits_numeral h.one_lt fun d hd => h.digitValue_char hd, Option.map_some, hval]

theorem noSuperfluousZero_formatNumber (hn : n < 2 ^ 64) :
    NoSuperfluousZero (formatNumber n chars base sign) := by
  obtain ⟨m, hpart, -⟩ := h.exists_formatNumber sign hn
  intro hhead
  rw [hpart] at hhead ⊢
  rw [numeralText, List.head?_map, Option.map_eq_some_iff] at hhead
  obtain ⟨d, hd, hchar⟩ := hhead
  have hlt : d < base := lt_of_mem_numeral h.one_lt (List.mem_of_mem_head? hd)
  obtain rfl := (h.char_zero_iff hlt).mp hchar
  rw [numeralText, numeral_eq_of_head?_eq_zero hd, List.map_singleton, hchar]

theorem formatNumber_ne_zero (hn : n < 2 ^ 64) :
    ∀ c ∈ formatNumber n chars base sign, c ≠ 0 := by
  rw [formatNumber_eq h.ten_le hn]
  have hnum (k : ℕ) : ∀ c ∈ numeralText chars base k, c ≠ 0 := h.numeralText_ne (by decide) k
  split
  · exact List.forall_mem_cons.mpr ⟨by decide, hnum _⟩
  · exact hnum n

end DigitTable

/-- **Numbers are rendered within the 32 bytes of the buffer and read back as themselves.** -/
theorem formatNumberAt_round_trip (h : DigitTable chars base) (hn : n < 2 ^ 64) (sign : Bool)
    (buf : ℕ → UInt8) : ∃ r : NumberBuffer,
      (∀ fuel, 20 ≤ fuel → formatNumberAt buf n 32 chars base sign fuel = some r) ∧
      (∀ i ∈ r.writes, i < 32) ∧ (∀ i, 32 ≤ i → r.buf i = buf i) ∧
      ∃ s : List UInt8, CString r.buf r.pos s ∧ r.pos + s.length < 32 ∧ NoSuperfluousZero s ∧
        readNumber base s = some (if sign then Int.bmod n (2 ^ 64) else n) := by
  have hlen := length_formatNumber_le chars sign h.ten_le hn
  have hall : (formatNumber n chars base sign ++ [0]).length ≤ 32 := by
    rw [List.length_append, List.length_singleton]
    omega
  have hfill : Filled { buf := buf, pos := 32 } (formatNumber n chars base sign ++ [0]) _ :=
    filled_puts (by norm_num) _ hall
  refine ⟨_, fun fuel hfuel => formatNumberAt_eq h.ten_le hn buf 32 hfuel, ?_, ?_,
    formatNumber n chars base sign, ⟨hfill.holds, h.formatNumber_ne_zero hn⟩, ?_,
    h.noSuperfluousZero_formatNumber hn, h.readNumber_formatNumber hn⟩
  · intro i hi
    obtain hi | hi := hfill.writes i hi
    · cases hi
    · exact hi.2
  · exact fun i hi => hfill.frame i (.inr hi)
  · have hpos : _ = 32 := hfill.pos
    rw [List.length_append, List.length_singleton] at hpos
    omega

/-- The most negative number has no positive counterpart, and twenty characters. -/
theorem formatNumberAt_most_negative : ∃ r : NumberBuffer,
    (∀ fuel, 20 ≤ fuel →
      formatNumberAt (fun _ => 0) (2 ^ 63) 32 numberChars 10 true fuel = some r) ∧
    (∀ i ∈ r.writes, i < 32) ∧ (∀ i, 32 ≤ i → r.buf i = 0) ∧
    ∃ s : List UInt8, CString r.buf r.pos s ∧ r.pos + s.length < 32 ∧ NoSuperfluousZero s ∧
      readNumber 10 s = some (-2 ^ 63) :=
  formatNumberAt_round_trip ⟨.inl rfl, .inl rfl⟩ (by norm_num) true _

end Printf

end Manticore
