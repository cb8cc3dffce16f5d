import Mathlib.Data.List.TakeWhile
import Manticore.Kernel.PrintfNumber

/-!
# Conversions and the C standard

A conversion specification without a precision: flags, a width, a length modifier and the
conversion character.  `Conversion.standard` is what C prescribes for it, in terms of the value of
the argument; the width is a minimum there.  In `format_str` it is the exact length, and its
padding stands in front of the sign and is `0` for strings too.
-/

namespace Manticore

namespace Printf

inductive Flag
  | left
  | zero
deriving DecidableEq, Repr

def Flag.char : Flag → UInt8
  | .left => byte '-'
  | .zero => byte '0'

inductive LengthModifier
  | int
  | long
  | longLong
deriving DecidableEq, Repr

def LengthModifier.text : LengthModifier → List UInt8
  | .int => []
  | .long => [byte 'l']
  | .longLong => [byte 'l', byte 'l']

/-- The bits of the argument type. -/
def LengthModifier.bits : LengthModifier → ℕ
  | .int => 32
  | .long => 64
  | .longLong => 64

inductive Specifier
  | d
  | u
  | x
  | upperX
  | s
deriving DecidableEq, Repr

def Specifier.char : Specifier → UInt8
  | .d => byte 'd'
  | .u => byte 'u'
  | .x => byte 'x'
  | .upperX => byte 'X'
  | .s => byte 's'

/-- A conversion specification without a precision; the width 0 stands for none. -/
structure Conversion where
  flags : List Flag := []
  width : ℕ := 0
  length : LengthModifier := .int
  specifier : Specifier
deriving DecidableEq, Repr

/-- The decimal width; a zero in front of it would be a flag. -/
def widthText (width : ℕ) : List UInt8 := if width = 0 then [] else numeralText numberChars 10 width

namespace Conversion

/-- The characters between the `%` and the specifier. -/
def modifiersText (conv : Conversion) : List UInt8 :=
  conv.flags.map Flag.char ++ (widthText conv.width ++ conv.length.text)

/-- The characters after the `%`. -/
def text (conv : Conversion) : List UInt8 := conv.modifiersText ++ [conv.specifier.char]

/-! ## What C prescribes -/

section standard

variable (conv : Conversion) (cstr : ℕ → List UInt8) (arg : ℕ)

/-- The value of a number argument in the slot `arg`, of its type. -/
def value : ℤ :=
  if conv.specifier = .d then Int.bmod arg (2 ^ conv.length.bits)
  else ((arg % 2 ^ conv.length.bits : ℕ) : ℤ)

def sign : List UInt8 :=
  if conv.specifier ≠ .s ∧ conv.value arg < 0 then [byte '-'] else []

/-- The digits or the string. -/
def body : List UInt8 :=
  match conv.specifier with
  | .d => numeralText numberChars 10 (conv.value arg).natAbs
  | .u => numeralText numberChars 10 (conv.value arg).natAbs
  | .x => numeralText numberChars 16 (conv.value arg).natAbs
  | .upperX => numeralText numberCharsUpcase 16 (conv.value arg).natAbs
  | .s => cstr arg

/-- The characters before padding. -/
def full : List UInt8 := conv.sign arg ++ conv.body cstr arg

/-- **The characters C prescribes.** A length modifier before `s` is ignored. -/
def standard : List UInt8 :=
  let padding := conv.width - (conv.full cstr arg).length
  if .left ∈ conv.flags then conv.full cstr arg ++ List.replicate padding (byte ' ')
  else if .zero ∈ conv.flags ∧ conv.specifier ≠ .s then
    conv.sign arg ++ (List.replicate padding (byte '0') ++ conv.body cstr arg)
  else List.replicate padding (byte ' ') ++ conv.full cstr arg

/-- The argument of `s` is a string. -/
def ArgumentMatches : Prop := conv.specifier = .s → arg ≠ 0 ∧ ∀ c ∈ cstr arg, c ≠ 0

/-- The conversions for which the width is not exceeded, and the padding is not zeros in a wrong
place. -/
def Agrees : Prop :=
  (.zero ∉ conv.flags ∧ conv.width = 0) ∨
    conv.width < 2 ^ 64 ∧ (conv.full cstr arg).length ≤ conv.width ∧
      (.left ∈ conv.flags ∨ .zero ∉ conv.flags ∨ (conv.full cstr arg).length = conv.width ∨
        conv.specifier ≠ .s ∧ 0 ≤ conv.value arg)

end standard

end Conversion

/-- `format` hands the characters `out` to its callback, takes one argument, and goes on with
`rest`. -/
def Emits (charConv : Bool) (cstr : ℕ → List UInt8) (args : ℕ → ℕ) (fmt : List UInt8) (ap : ℕ)
    (out rest : List UInt8) : Prop :=
  ∀ st : VsprintfState, st.ap = ap →
    format charConv cstr args fmt st = some (rest, (st.outputs out).withAp (ap + 1))

/-! ## The state at the specifier -/

/-- The state after characters that only change it. -/
def modifiers (l : List UInt8) (state : FormatState) : Option FormatState :=
  l.foldlM (fun state c => modifier c state) state

@[simp] theorem modifiers_nil (state : FormatState) : modifiers [] state = some state := rfl

theorem modifiers_cons {c : UInt8} {l : List UInt8} {state state' : FormatState}
    (h : modifier c state = some state') : modifiers (c :: l) state = modifiers l state' := by
  unfold modifiers
  rw [List.foldlM_cons, h]
  rfl

theorem modifiers_append {l l' : List UInt8} {state state' : FormatState}
    (h : modifiers l state = some state') :
    modifiers (l ++ l') state = modifiers l' state' := by
  unfold modifiers at h ⊢
  rw [List.foldlM_append, h]
  rfl

theorem scan_of_modifiers {c : UInt8} {rest : List UInt8} {state' : FormatState} :
    ∀ {l : List UInt8} {state : FormatState}, modifiers l state = some state' →
      modifier c state' = none → scan (l ++ c :: rest) state = some (c, state', rest)
  | [], state, h, hc => by
      obtain rfl := Option.some.inj h
      rw [List.nil_append, scan, hc]
  | d :: l, state, h, hc => by
      unfold modifiers at h
      rw [List.foldlM_cons] at h
      obtain ⟨state₁, hmod, h⟩ := Option.bind_eq_some_iff.mp h
      rw [List.cons_append, scan, hmod]
      exact scan_of_modifiers h hc

theorem modifier_digit {d : ℕ} (hd : d < 10) {state : FormatState} (hp : state.precision = false) :
    modifier (digitChar numberChars d) state = some { state with
      hasWidth := true
      zeroPad := state.zeroPad || (state.width == 0 && d == 0)
      width := (state.width * 10 + d) % 2 ^ 64 } := by
  have hrange : ∀ d < 10, (byte '0' ≤ digitChar numberChars d ∧
      digitChar numberChars d ≤ byte '9') ∧
      (digitChar numberChars d - byte '0').toNat = d ∧
      (digitChar numberChars d == byte '0') = (d == 0) := by decide
  obtain ⟨hdigit, hval, hzero⟩ := hrange d hd
  rw [modifier, if_pos hdigit, hp, hval, hzero]
  rfl

theorem modifiers_flags (flags : List Flag) {state : FormatState} (hp : state.precision = false)
    (hw : state.width = 0) : modifiers (flags.map Flag.char) state = some { state with
      left := state.left || decide (.left ∈ flags)
      zeroPad := state.zeroPad || decide (.zero ∈ flags)
      hasWidth := state.hasWidth || decide (.zero ∈ flags) } := by
  induction flags generalizing state with
  | nil => simp
  | cons f flags ih =>
      rw [List.map_cons]
      cases f with
      | left =>
          have hstep : modifier (byte '-') state = some { state with left := true } := rfl
          refine (modifiers_cons hstep).trans ?_
          rw [ih]
          · simp
          · exact hp
          · exact hw
      | zero =>
          have hstep := modifier_digit (by norm_num : 0 < 10) hp
          refine (modifiers_cons hstep).trans ?_
          rw [ih]
          · simp [hw]
          · exact hp
          · simp [hw]

/-- The state after the flags. -/
def flagState (flags : List Flag) : FormatState where
  left := decide (.left ∈ flags)
  zeroPad := decide (.zero ∈ flags)
  hasWidth := decide (.zero ∈ flags)

theorem modifiers_flags_start (flags : List Flag) :
    modifiers (flags.map Flag.char) {} = some (flagState flags) := by
  rw [modifiers_flags flags rfl rfl]
  simp [flagState]

theorem modifiers_width (state : FormatState) (hp : state.precision = false)
    (hw : state.width = 0) (width : ℕ) (hpos : 0 < width) :
    ∃ zeroPad, (width < 2 ^ 64 → zeroPad = state.zeroPad) ∧
      modifiers (numeralText numberChars 10 width) state = some { state with
        hasWidth := true
        zeroPad := zeroPad
        width := width % 2 ^ 64 } := by
  induction width using Nat.strongRecOn with
  | _ width ih =>
      by_cases hlt : width < 10
      · refine ⟨state.zeroPad, fun _ => rfl, ?_⟩
        have hne : (width == 0) = false := beq_eq_false_iff_ne.mpr hpos.ne'
        rw [numeralText, numeral_of_lt hlt, List.map_singleton]
        rw [modifiers_cons (modifier_digit hlt hp), modifiers_nil, hw, hne, Nat.zero_mul,
          Nat.zero_add, Bool.and_false, Bool.or_false]
      · have hdiv : 0 < width / 10 := by omega
        obtain ⟨zeroPad, hzero, hmods⟩ := ih (width / 10) (by omega) hdiv
        refine ⟨zeroPad || (width / 10 % 2 ^ 64 == 0 && width % 10 == 0), ?_, ?_⟩
        · intro hsmall
          have hne : (width / 10 % 2 ^ 64 == 0) = false := beq_eq_false_iff_ne.mpr (by omega)
          rw [hne, Bool.false_and, Bool.or_false]
          exact hzero (by omega)
        · rw [numeralText, numeral_of_le (by norm_num) (not_lt.mp hlt), List.map_append,
            List.map_singleton]
          have hval : (width / 10 % 2 ^ 64 * 10 + width % 10) % 2 ^ 64 = width % 2 ^ 64 := by omega
          refine (modifiers_append hmods).trans ?_
          refine (modifiers_cons (modifier_digit (Nat.mod_lt width (by norm_num)) ?_)).trans ?_
          · exact hp
          · rw [hval, modifiers_nil]

theorem modifiers_length (length : LengthModifier) {state : FormatState}
    (hl : state.long = false) (hll : state.longLong = false) :
    modifiers length.text state = some { state with
      long := decide (length ≠ .int)
      longLong := decide (length = .longLong) } := by
  cases length with
  | int =>
      cases state
      cases hl
      cases hll
      rfl
  | long =>
      have hstep : modifiers [byte 'l'] state =
          some { state with longLong := state.longLong || state.long, long := true } := rfl
      rw [LengthModifier.text, hstep, hl, hll]
      rfl
  | longLong =>
      have hstep : modifiers [byte 'l', byte 'l'] state =
          some { state with longLong := state.longLong || state.long || true, long := true } := rfl
      rw [LengthModifier.text, hstep, hl, hll]
      rfl

namespace Conversion

/-- The state that `format` reads from the text of a conversion. -/
structure ReadAs (conv : Conversion) (state : FormatState) : Prop where
  unsigned : state.unsigned = false
  long : state.long = decide (conv.length ≠ .int)
  longLong : state.longLong = decide (conv.length = .longLong)
  left : state.left = decide (.left ∈ conv.flags)
  hasWidth : state.hasWidth = decide (.zero ∈ conv.flags ∨ conv.width ≠ 0)
  width : state.width = conv.width % 2 ^ 64
  zeroPad : conv.width < 2 ^ 64 → state.zeroPad = decide (.zero ∈ conv.flags)

theorem exists_readAs (conv : Conversion) :
    ∃ state, modifiers conv.modifiersText {} = some state ∧ conv.ReadAs state := by
  unfold modifiersText
  rw [modifiers_append (modifiers_flags_start conv.flags)]
  by_cases hw : conv.width = 0
  · rw [widthText, if_pos hw, List.nil_append, modifiers_length conv.length rfl rfl]
    exact ⟨_, rfl, rfl, rfl, rfl, rfl, by simp [flagState, hw], by simp [flagState, hw],
      fun _ => rfl⟩
  · obtain ⟨zeroPad, hzero, hmods⟩ := modifiers_width (flagState conv.flags) rfl rfl
      conv.width (Nat.pos_of_ne_zero hw)
    rw [widthText, if_neg hw, modifiers_append hmods, modifiers_length conv.length rfl rfl]
    exact ⟨_, rfl, rfl, rfl, rfl, rfl, by simp [hw], rfl, hzero⟩

/-! ## The text of a number -/

variable {conv : Conversion} {state : FormatState} {arg : ℕ} {cstr : ℕ → List UInt8}

theorem ReadAs.bits (h : conv.ReadAs state) :
    (state.longLong = true ∨ state.long = true) ∧ conv.length.bits = 64 ∨
      ¬ (state.longLong = true ∨ state.long = true) ∧ conv.length.bits = 32 := by
  rw [h.long, h.longLong]
  cases conv.length <;> decide

theorem ReadAs.popInt_signed (h : conv.ReadAs state) (hd : conv.specifier = .d) (arg : ℕ) :
    popInt state arg < 2 ^ 64 ∧ Int.bmod (popInt state arg) (2 ^ 64) = conv.value arg := by
  unfold popInt value
  rw [if_pos hd, h.unsigned]
  obtain ⟨hlong, hbits⟩ | ⟨hlong, hbits⟩ := h.bits
  · rw [if_pos hlong, hbits]
    exact ⟨Nat.mod_lt _ (by norm_num), by rw [Int.bmod_def, Int.bmod_def]; omega⟩
  · rw [if_neg hlong, hbits, Int.bmod_def, Int.bmod_def]
    simp only [Bool.false_eq_true, false_or]
    split <;> omega

theorem ReadAs.popInt_unsigned (h : conv.ReadAs state) (hd : conv.specifier ≠ .d) (arg : ℕ) :
    popInt { state with unsigned := true } arg < 2 ^ 64 ∧
      (popInt { state with unsigned := true } arg : ℤ) = conv.value arg := by
  unfold popInt value
  rw [if_neg hd]
  obtain ⟨hlong, hbits⟩ | ⟨hlong, hbits⟩ := h.bits
  · rw [if_pos hlong, hbits]
    exact ⟨Nat.mod_lt _ (by norm_num), rfl⟩
  · rw [if_neg hlong, hbits, if_pos (.inl rfl)]
    exact ⟨(Nat.mod_lt _ (by norm_num)).trans (by norm_num), rfl⟩

theorem ReadAs.formatNumber_signed (h : conv.ReadAs state) (hd : conv.specifier = .d) :
    formatNumber (popInt state arg) numberChars 10 true = conv.full cstr arg := by
  obtain ⟨hlt, hval⟩ := h.popInt_signed hd arg
  have hne : conv.specifier ≠ .s := by rw [hd]; decide
  obtain ⟨n, hn⟩ : ∃ n, popInt state arg = n := ⟨_, rfl⟩
  rw [hn] at hlt hval ⊢
  rw [Int.bmod_def] at hval
  rw [formatNumber_eq le_rfl hlt, full, sign, body, hd]
  by_cases hneg : 2 ^ 63 ≤ n
  · rw [if_pos ⟨rfl, hneg⟩, if_pos ⟨hd ▸ hne, by omega⟩,
      show (conv.value arg).natAbs = 2 ^ 64 - n by omega]
    rfl
  · rw [if_neg fun hneg' => hneg hneg'.2, if_neg fun hlt => by omega,
      show (conv.value arg).natAbs = n by omega]
    rfl

theorem ReadAs.formatNumber_unsigned (h : conv.ReadAs state) (hd : conv.specifier ≠ .d)
    (cstr : ℕ → List UInt8) {chars : List UInt8} {base : ℕ} (hbase : 10 ≤ base)
    (hbody : conv.body cstr arg = numeralText chars base (conv.value arg).natAbs) :
    formatNumber (popInt { state with unsigned := true } arg) chars base false =
      conv.full cstr arg := by
  obtain ⟨hlt, hval⟩ := h.popInt_unsigned hd arg
  rw [formatNumber_eq hbase hlt, if_neg (fun hsign => nomatch hsign.1), full, sign, hbody,
    if_neg (fun hneg => by omega), ← hval]
  rfl

/-- **One text for all the specifiers**: what is padded or cut is the full text. -/
theorem ReadAs.convertText_eq (h : conv.ReadAs state) {args : ℕ → ℕ} {ap : ℕ} (charConv : Bool)
    (harg : conv.ArgumentMatches cstr (args ap)) :
    convertText charConv cstr args conv.specifier.char state ap =
      strText (conv.full cstr (args ap)) state := by
  unfold convertText intText
  -- the chain of tests on the specifier
  cases hspec : conv.specifier with
  | d =>
      refine (if_pos rfl).trans ?_
      rw [h.formatNumber_signed hspec]
  | u =>
      refine (if_neg (by decide)).trans ((if_pos rfl).trans ?_)
      rw [h.formatNumber_unsigned (by rw [hspec]; decide) cstr le_rfl (by rw [body, hspec])]
      rfl
  | x =>
      refine (if_neg (by decide)).trans ((if_neg (by decide)).trans ((if_pos rfl).trans ?_))
      rw [h.formatNumber_unsigned (by rw [hspec]; decide) cstr (by norm_num) (by rw [body, hspec])]
      rfl
  | upperX =>
      refine (if_neg (by decide)).trans ((if_neg (by decide)).trans ((if_neg (by decide)).trans
        ((if_pos rfl).trans ?_)))
      rw [h.formatNumber_unsigned (by rw [hspec]; decide) cstr (by norm_num) (by rw [body, hspec])]
      rfl
  | s =>
      have hfull : conv.full cstr (args ap) = cstr (args ap) := by
        rw [full, sign, if_neg fun hs => hs.1 hspec, body, hspec]
        rfl
      refine (if_neg (by decide)).trans ((if_neg (by decide)).trans ((if_neg (by decide)).trans
        ((if_neg (by decide)).trans ((if_neg fun hc => absurd hc.2 (by decide)).trans
          ((if_pos rfl).trans ?_)))))
      rw [if_neg (harg hspec).1, hfull]

theorem full_ne_zero (harg : conv.ArgumentMatches cstr arg) :
    ∀ c ∈ conv.full cstr arg, c ≠ 0 := by
  have hsign : ∀ c ∈ conv.sign arg, c ≠ 0 := by
    unfold sign
    split
    · exact List.forall_mem_cons.mpr ⟨by decide, fun _ hc => nomatch hc⟩
    · exact fun _ hc => nomatch hc
  have hbody : ∀ c ∈ conv.body cstr arg, c ≠ 0 := by
    unfold body
    split
    · exact DigitTable.numeralText_ne ⟨.inl rfl, .inl rfl⟩ (by decide) _
    · exact DigitTable.numeralText_ne ⟨.inl rfl, .inl rfl⟩ (by decide) _
    · exact DigitTable.numeralText_ne ⟨.inl rfl, .inr rfl⟩ (by decide) _
    · exact DigitTable.numeralText_ne ⟨.inr rfl, .inr rfl⟩ (by decide) _
    · next hs => exact (harg hs).2
  intro c hc
  exact (List.mem_append.mp hc).elim (hsign c) (hbody c)

end Conversion

/-! ## Padding -/

theorem takeWhile_ne_zero {s : List UInt8} (hs : ∀ c ∈ s, c ≠ 0) : s.takeWhile (· ≠ 0) = s :=
  List.takeWhile_eq_self_iff.mpr fun c hc => decide_eq_true (hs c hc)

theorem strText_of_not_hasWidth {s : List UInt8} {state : FormatState} (hs : ∀ c ∈ s, c ≠ 0)
    (hw : state.hasWidth = false) : strText s state = s := by
  simp only [strText, hw, Bool.false_eq_true, false_and, reduceIte, List.take_length,
    takeWhile_ne_zero hs, List.replicate_zero, List.append_nil, List.nil_append, ite_self]

theorem strText_of_hasWidth {s : List UInt8} {state : FormatState} (hs : ∀ c ∈ s, c ≠ 0)
    (hw : state.hasWidth = true) : strText s state =
      if state.left then s.take state.width ++ List.replicate (state.width - s.length) (byte ' ')
      else List.replicate (state.width - s.length) (if state.zeroPad then byte '0' else byte ' ') ++
        s.take state.width := by
  obtain ⟨length, hlength⟩ : ∃ length, (if state.width < s.length then state.width
      else s.length) = length := ⟨_, rfl⟩
  have htake : s.take length = s.take state.width := by
    rw [← hlength]
    split
    · rfl
    · next hlt => rw [List.take_length, List.take_of_length_le (not_lt.mp hlt)]
  have hpad : state.width - length = state.width - s.length := by
    rw [← hlength]
    split <;> omega
  have hwhile : (s.take state.width).takeWhile (· ≠ 0) = s.take state.width :=
    takeWhile_ne_zero fun c hc => hs c (List.mem_of_mem_take hc)
  simp only [strText, hw, true_and, reduceIte, hlength, htake, hpad, hwhile]

theorem length_strText_of_hasWidth {s : List UInt8} {state : FormatState} (hs : ∀ c ∈ s, c ≠ 0)
    (hw : state.hasWidth = true) : (strText s state).length = state.width := by
  rw [strText_of_hasWidth hs hw]
  split <;> rw [List.length_append, List.length_replicate, List.length_take] <;> omega

namespace Conversion

variable {conv : Conversion} {state : FormatState} {arg : ℕ} {cstr : ℕ → List UInt8}

theorem length_standard (conv : Conversion) (cstr : ℕ → List UInt8) (arg : ℕ) :
    (conv.standard cstr arg).length = max conv.width (conv.full cstr arg).length := by
  have hfull : (conv.full cstr arg).length =
      (conv.sign arg).length + (conv.body cstr arg).length := List.length_append
  unfold standard
  dsimp only
  split_ifs <;> simp only [List.length_append, List.length_replicate] <;> omega

theorem zeros_append_iff (conv : Conversion) (arg k : ℕ) (l : List UInt8) :
    List.replicate k (byte '0') ++ (conv.sign arg ++ l) =
        conv.sign arg ++ (List.replicate k (byte '0') ++ l) ↔ k = 0 ∨ conv.sign arg = [] := by
  cases k with
  | zero => simp
  | succ k =>
      rw [sign]
      split
      · simp [List.replicate_succ, show byte '0' ≠ byte '-' by decide]
      · simp

theorem sign_eq_nil_iff (hs : conv.specifier ≠ .s) : conv.sign arg = [] ↔ 0 ≤ conv.value arg := by
  rw [sign]
  split
  · next h => exact ⟨fun hnil => (List.cons_ne_nil _ _ hnil).elim, fun hle => by omega⟩
  · next h => exact ⟨fun _ => not_lt.mp fun hlt => h ⟨hs, hlt⟩, fun _ => rfl⟩

theorem ReadAs.strText_eq_iff_of_fits (h : conv.ReadAs state)
    (hne : ∀ c ∈ conv.full cstr arg, c ≠ 0) (hw : state.hasWidth = true)
    (hlt : conv.width < 2 ^ 64) (hle : (conv.full cstr arg).length ≤ conv.width) :
    strText (conv.full cstr arg) state = conv.standard cstr arg ↔
      (.left ∈ conv.flags ∨ .zero ∉ conv.flags ∨ (conv.full cstr arg).length = conv.width ∨
        conv.specifier ≠ .s ∧ 0 ≤ conv.value arg) := by
  have hwidth : state.width = conv.width := by rw [h.width, Nat.mod_eq_of_lt hlt]
  have hpad : conv.width - (conv.full cstr arg).length = 0 ↔
      (conv.full cstr arg).length = conv.width := by omega
  rw [strText_of_hasWidth hne hw, h.left, h.zeroPad hlt, hwidth, List.take_of_length_le hle,
    standard]
  simp only [decide_eq_true_eq]
  by_cases hleft : Flag.left ∈ conv.flags
  · simp only [hleft, reduceIte, true_or]
  by_cases hzero : Flag.zero ∈ conv.flags
  · simp only [hleft, hzero, reduceIte, true_and, not_true_eq_false, false_or]
    by_cases hs : conv.specifier = .s
    · have hblank : byte '0' ≠ byte ' ' := by decide
      rw [if_neg (not_not.mpr hs), List.append_cancel_right_eq, ← hpad]
      simp [hs, List.replicate_inj, hblank]
    · rw [if_pos hs, full, zeros_append_iff, ← full, hpad, sign_eq_nil_iff hs]
      simp only [ne_eq, hs, not_false_eq_true, true_and]
  · simp only [hleft, hzero, false_and, reduceIte, not_false_eq_true, true_or, or_true]

theorem ReadAs.strText_eq_iff (h : conv.ReadAs state)
    (hne : ∀ c ∈ conv.full cstr arg, c ≠ 0) :
    strText (conv.full cstr arg) state = conv.standard cstr arg ↔ conv.Agrees cstr arg := by
  unfold Agrees
  by_cases hno : Flag.zero ∉ conv.flags ∧ conv.width = 0
  · have hw : state.hasWidth = false := by
      rw [h.hasWidth]
      simpa using hno
    have hstd : conv.standard cstr arg = conv.full cstr arg := by
      simp [standard, hno.1, hno.2]
    simp only [strText_of_not_hasWidth hne hw, hstd, hno, not_false_eq_true, and_self, true_or]
  · have hw : state.hasWidth = true := by
      rw [h.hasWidth, decide_eq_true_eq]
      tauto
    rw [or_iff_right hno]
    by_cases hfit : conv.width < 2 ^ 64 ∧ (conv.full cstr arg).length ≤ conv.width
    · rw [h.strText_eq_iff_of_fits hne hw hfit.1 hfit.2, ← and_assoc, and_iff_right hfit]
    · refine iff_of_false (fun heq => hfit ?_) fun hag => hfit ⟨hag.1, hag.2.1⟩
      -- a width that is cut off or exceeded changes the length
      have hlen := congrArg List.length heq
      rw [length_strText_of_hasWidth hne hw, length_standard, h.width] at hlen
      have hmod := Nat.mod_lt conv.width (Nat.two_pow_pos 64)
      omega

theorem ReadAs.modifier_char (conv : Conversion) (state : FormatState) :
    modifier conv.specifier.char state = none := by
  cases conv.specifier <;> rfl

end Conversion

theorem emits_of_convertText {charConv : Bool} {cstr : ℕ → List UInt8} {args : ℕ → ℕ}
    {fmt rest : List UInt8} {c : UInt8} {state : FormatState}
    (hscan : scan fmt {} = some (c, state, rest)) (hc : takesArg charConv c = true) (ap : ℕ) :
    Emits charConv cstr args fmt ap (convertText charConv cstr args c state ap) rest := by
  rintro st rfl
  obtain ⟨ap', hconv⟩ : ∃ ap', convert charConv cstr args c state st =
      (st.outputs (convertText charConv cstr args c state st.ap)).withAp ap' :=
    exists_convert_eq c state st
  have hap : (convert charConv cstr args c state st).ap = st.ap + 1 := by
    rw [ap_convert, if_pos hc]
  rw [hconv] at hap
  obtain rfl : ap' = st.ap + 1 := hap
  rw [format, hscan, ← hconv]
  rfl

/-- **Conversions and the C standard.** `format` hands on characters that are the ones C prescribes
just for the conversions whose width is not exceeded, with zeros only where C has them. -/
theorem format_conversion_agrees_iff (charConv : Bool) (cstr : ℕ → List UInt8) (args : ℕ → ℕ)
    (conv : Conversion) (ap : ℕ) (harg : conv.ArgumentMatches cstr (args ap)) (rest : List UInt8) :
    ∃ out, Emits charConv cstr args (conv.text ++ rest) ap out rest ∧
      (out = conv.standard cstr (args ap) ↔ conv.Agrees cstr (args ap)) := by
  obtain ⟨state, hmods, hread⟩ := conv.exists_readAs
  have hscan : scan (conv.text ++ rest) {} = some (conv.specifier.char, state, rest) := by
    rw [Conversion.text, List.append_assoc]
    exact scan_of_modifiers hmods (Conversion.ReadAs.modifier_char conv state)
  have htakes : takesArg charConv conv.specifier.char = true := by
    cases conv.specifier <;> cases charConv <;> decide
  refine ⟨_, emits_of_convertText hscan htakes ap, ?_⟩
  rw [hread.convertText_eq charConv harg]
  exact hread.strText_eq_iff (Conversion.full_ne_zero harg)

/-- `%-5d` of 42. -/
theorem format_conversion_left : ∃ out,
    Emits true (fun _ => []) (fun _ => 42) [byte '-', byte '5', byte 'd'] 0 out [] ∧
      out = [byte '4', byte '2', byte ' ', byte ' ', byte ' '] := by
  let conv : Conversion := { flags := [.left], width := 5, specifier := .d }
  obtain ⟨out, hemits, hiff⟩ := format_conversion_agrees_iff true (fun _ => []) (fun _ => 42) conv 0
    (fun hs => nomatch hs) []
  have hagrees : conv.Agrees (fun _ => []) 42 := by
    unfold Conversion.Agrees
    decide
  exact ⟨out, hemits, (hiff.mpr hagrees).trans (by decide)⟩

/-- `%2d` of 123 loses a digit, and `%04d` of -5 has its zeros in front of the sign. -/
theorem format_conversion_truncates :
    (Emits true (fun _ => []) (fun _ => 123) [byte '2', byte 'd'] 0 [byte '1', byte '2'] [] ∧
      Conversion.standard { width := 2, specifier := .d } (fun _ => []) 123 =
        [byte '1', byte '2', byte '3']) ∧
    Emits true (fun _ => []) (fun _ => 2 ^ 32 - 5) [byte '0', byte '4', byte 'd'] 0
        [byte '0', byte '0', byte '-', byte '5'] [] ∧
      Conversion.standard { flags := [.zero], width := 4, specifier := .d } (fun _ => [])
          (2 ^ 32 - 5) = [byte '-', byte '0', byte '0', byte '5'] := by
  refine ⟨⟨?_, by decide⟩, ?_, by decide⟩
  · have hscan : scan [byte '2', byte 'd'] {} =
        some (byte 'd', { hasWidth := true, width := 2 }, []) := by decide
    exact emits_of_convertText hscan rfl 0
  · have hscan : scan [byte '0', byte '4', byte 'd'] {} =
        some (byte 'd', { hasWidth := true, zeroPad := true, width := 4 }, []) := by decide
    exact emits_of_convertText hscan rfl 0

end Printf

end Manticore
