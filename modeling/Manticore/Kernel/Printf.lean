import Mathlib.Logic.Function.Basic
import Mathlib.Tactic
import Manticore.Base.Word

/-!
# Formatted output

`kernel/printf.c` and liblinux's `stdio.c` hold two copies of one formatter.  The texts of
`format_number`, `format_str`, `pop_int`, `vsprintf_output` and `vsnprintf` are the same in both,
and so is `format` but for one case: `%c` is in the kernel's only.  `charConv` says whether the
case is there.

A format is the bytes before its NUL.  The arguments are the 8-byte slots of the `va_list`, and
`ap` is the index of the next one; `cstr p` is the string that the pointer `p` leads to.
-/

namespace Manticore

namespace Printf

def byte (c : Char) : UInt8 := c.toNat.toUInt8

/-- `enum format_flags` and the width. -/
structure FormatState where
  long : Bool := false
  longLong : Bool := false
  zeroPad : Bool := false
  left : Bool := false
  unsigned : Bool := false
  precision : Bool := false
  hasWidth : Bool := false
  width : ℕ := 0
deriving DecidableEq, Repr

/-- The buffer with the number of bytes put out so far, and the `va_list`. -/
structure VsprintfState where
  str : ℕ → UInt8
  pos : ℕ
  size : ℕ
  ap : ℕ

def numberCharsUpcase : List UInt8 := List.map byte
  ['0', '1', '2', '3', '4', '5', '6', '7', '8', '9', 'A', 'B', 'C', 'D', 'E', 'F']

def numberChars : List UInt8 := List.map byte
  ['0', '1', '2', '3', '4', '5', '6', '7', '8', '9', 'a', 'b', 'c', 'd', 'e', 'f']

def nullString : List UInt8 := List.map byte ['<', 'n', 'u', 'l', 'l', '>']

/-- The digits of `n` in front of `acc`; the buffer has 32 bytes. -/
def formatDigits (chars : List UInt8) (base : ℕ) : ℕ → ℕ → List UInt8 → List UInt8
  | 0, _, acc => acc
  | room + 1, n, acc =>
      if base ≤ n then formatDigits chars base room (n / base) (chars.getD (n % base) 0 :: acc)
      else chars.getD n 0 :: acc

def formatNumber (n : ℕ) (chars : List UInt8) (base : ℕ) (sign : Bool) : List UInt8 :=
  if sign ∧ 2 ^ 63 ≤ n then byte '-' :: formatDigits chars base 32 (2 ^ 64 - n) []
  else formatDigits chars base 32 n []

/-- `vsprintf_output`. -/
def VsprintfState.output (st : VsprintfState) (c : UInt8) : VsprintfState :=
  { st with
    str := if st.pos < st.size then Function.update st.str st.pos c else st.str
    pos := add64 st.pos 1 }

def VsprintfState.outputs (st : VsprintfState) (cs : List UInt8) : VsprintfState :=
  cs.foldl VsprintfState.output st

def formatStr (s : List UInt8) (fmt : FormatState) (st : VsprintfState) : VsprintfState :=
  let length := if fmt.hasWidth ∧ fmt.width < s.length then fmt.width else s.length
  let padding := if fmt.hasWidth then fmt.width - length else 0
  let text := (s.take length).takeWhile (· ≠ 0)
  if fmt.left then st.outputs (text ++ List.replicate padding (byte ' '))
  else st.outputs
    (List.replicate padding (if fmt.zeroPad then byte '0' else byte ' ') ++ text)

/-- `pop_int` of the slot `w`: 64 bits, or 32 bits extended. -/
def popInt (fmt : FormatState) (w : ℕ) : ℕ :=
  let low := w % 2 ^ 32
  if fmt.longLong ∨ fmt.long then w % 2 ^ 64
  else if fmt.unsigned ∨ low < 2 ^ 31 then low
  else low + (2 ^ 64 - 2 ^ 32)

variable (charConv : Bool) (cstr : ℕ → List UInt8) (args : ℕ → ℕ)

/-- The cases of `d`, `u`, `x` and `X`. -/
def convertInt (chars : List UInt8) (base : ℕ) (sign : Bool) (fmt : FormatState)
    (st : VsprintfState) : VsprintfState :=
  let d := popInt fmt (args st.ap)
  formatStr (formatNumber d chars base sign) fmt { st with ap := st.ap + 1 }

/-- The cases of `format` that end it. -/
def convert (c : UInt8) (fmt : FormatState) (st : VsprintfState) : VsprintfState :=
  if c = byte 'd' then convertInt args numberChars 10 true fmt st
  else if c = byte 'u' then convertInt args numberChars 10 false { fmt with unsigned := true } st
  else if c = byte 'x' then convertInt args numberChars 16 false { fmt with unsigned := true } st
  else if c = byte 'X' then
    convertInt args numberCharsUpcase 16 false { fmt with unsigned := true } st
  else if charConv ∧ c = byte 'c' then
    { st with ap := st.ap + 1 }.output (args st.ap).toUInt8
  else if c = byte 's' then
    let p := args st.ap
    let s := if p = 0 then nullString else cstr p
    formatStr s fmt { st with ap := st.ap + 1 }
  else if c = byte 'p' then
    formatStr (formatNumber (args st.ap % 2 ^ 64) numberChars 16 false) { fmt with unsigned := true }
      { (st.output (byte '0')).output (byte 'x') with ap := st.ap + 1 }
  else if c = byte '%' then st.output (byte '%')
  else (st.output (byte '%')).output c

/-- The cases of `format` that only change its state; `none` for the others. -/
def modifier (c : UInt8) (fmt : FormatState) : Option FormatState :=
  if byte '0' ≤ c ∧ c ≤ byte '9' then
    if fmt.precision then some fmt
    else some { fmt with
      hasWidth := true
      zeroPad := fmt.zeroPad || (fmt.width == 0 && c == byte '0')
      width := (fmt.width * 10 + (c - byte '0').toNat) % 2 ^ 64 }
  else if c = byte '.' then some { fmt with precision := true, zeroPad := true }
  else if c = byte '-' then some { fmt with left := true }
  else if c = byte 'l' then some { fmt with longLong := fmt.longLong || fmt.long, long := true }
  else none

/-- The conversion character, the state it is met in and what follows; `none` if the format
ends before it. -/
def scan : List UInt8 → FormatState → Option (UInt8 × FormatState × List UInt8)
  | [], _ => none
  | c :: fmt, state =>
      match modifier c state with
      | some state => scan fmt state
      | none => some (c, state, fmt)

/-- `format`, from the character after the `%` on; `none` if it would read behind the NUL. -/
def format (fmt : List UInt8) (st : VsprintfState) : Option (List UInt8 × VsprintfState) :=
  (scan fmt {}).map fun (c, state, rest) => (rest, convert charConv cstr args c state st)

/-- The loop of `vsnprintf`. -/
def vsnprintfLoop : ℕ → List UInt8 → VsprintfState → Option VsprintfState
  | _, [], st => some st
  | 0, _ :: _, _ => none
  | fuel + 1, c :: fmt, st =>
      if c ≠ byte '%' then vsnprintfLoop fuel fmt (st.output c)
      else do
        let (rest, st) ← format charConv cstr args fmt st
        vsnprintfLoop fuel rest st

/-- What `vsnprintf` leaves: the buffer, the number it returns, and the `va_list`. -/
structure Printed where
  str : ℕ → UInt8
  ret : ℤ
  ap : ℕ

/-- The end of `vsnprintf`: the NUL and the result, a `size_t` returned as an `int`. -/
def finish (st : VsprintfState) : Printed where
  str := Function.update st.str (if st.size < st.pos then sub64 st.size 1 else st.pos) 0
  ret := Int.bmod st.pos (2 ^ 32)
  ap := st.ap

/-- Each round of the loop takes at least one character. -/
def vsnprintf (str : ℕ → UInt8) (size : ℕ) (fmt : List UInt8) : Option Printed :=
  (vsnprintfLoop charConv cstr args fmt.length fmt ⟨str, 0, size, 0⟩).map finish

/-- `vsnprintf` of `kernel/printf.c`. -/
def kernelVsnprintf : (ℕ → UInt8) → ℕ → List UInt8 → Option Printed := vsnprintf true cstr args

/-- `vsnprintf` of liblinux's `stdio.c`. -/
def liblinuxVsnprintf : (ℕ → UInt8) → ℕ → List UInt8 → Option Printed := vsnprintf false cstr args

/-! ## Formats -/

/-- **The conversion characters of a format**, each of whose conversions is complete. -/
inductive Conversions : List UInt8 → List UInt8 → Prop
  | nil : Conversions [] []
  | text {c : UInt8} {fmt cs : List UInt8} (hc : c ≠ byte '%') (h : Conversions fmt cs) :
      Conversions (c :: fmt) cs
  | spec (c : UInt8) (state : FormatState) (rest : List UInt8) {fmt cs : List UInt8}
      (hscan : scan fmt {} = some (c, state, rest)) (h : Conversions rest cs) :
      Conversions (byte '%' :: fmt) (c :: cs)

theorem length_lt_of_scan {c : UInt8} {state' : FormatState} {rest : List UInt8} :
    ∀ {fmt : List UInt8} {state : FormatState}, scan fmt state = some (c, state', rest) →
      rest.length < fmt.length
  | [], _, h => nomatch h
  | d :: fmt, state, h => by
      unfold scan at h
      split at h
      · exact lt_trans (length_lt_of_scan h) (Nat.lt_succ_self _)
      · obtain ⟨-, -, rfl⟩ := Option.some.inj h
        exact Nat.lt_succ_self _

/-! ## Arguments -/

/-- Whether the conversion takes an argument. -/
def takesArg (c : UInt8) : Bool :=
  c == byte 'd' || c == byte 'u' || c == byte 'x' || c == byte 'X' || (charConv && c == byte 'c') ||
    c == byte 's' || c == byte 'p'

section arguments

variable {charConv cstr args} {st : VsprintfState} {fmt cs : List UInt8} {c : UInt8}
  {state : FormatState}

@[simp] theorem ap_output (st : VsprintfState) (c : UInt8) : (st.output c).ap = st.ap := rfl

@[simp] theorem ap_outputs : ∀ (cs : List UInt8) (st : VsprintfState), (st.outputs cs).ap = st.ap
  | [], _ => rfl
  | c :: cs, st => ap_outputs cs (st.output c)

@[simp] theorem ap_formatStr (s : List UInt8) (state : FormatState) (st : VsprintfState) :
    (formatStr s state st).ap = st.ap := by
  unfold formatStr
  simp only
  split <;> exact ap_outputs _ _

theorem ap_convertInt (chars : List UInt8) (base : ℕ) (sign : Bool) (state : FormatState)
    (st : VsprintfState) : (convertInt args chars base sign state st).ap = st.ap + 1 :=
  ap_formatStr ..

theorem takesArg_iff : takesArg charConv c ↔ c = byte 'd' ∨ c = byte 'u' ∨ c = byte 'x' ∨
    c = byte 'X' ∨ charConv ∧ c = byte 'c' ∨ c = byte 's' ∨ c = byte 'p' := by
  simp only [takesArg, Bool.or_eq_true, Bool.and_eq_true, beq_iff_eq, or_assoc]

theorem ap_convert (c : UInt8) (state : FormatState) (st : VsprintfState) :
    (convert charConv cstr args c state st).ap =
      st.ap + if takesArg charConv c then 1 else 0 := by
  obtain ⟨k, hk⟩ : ∃ k, (if takesArg charConv c then 1 else 0) = k := ⟨_, rfl⟩
  have hone (h : c = byte 'd' ∨ c = byte 'u' ∨ c = byte 'x' ∨ c = byte 'X' ∨
      charConv ∧ c = byte 'c' ∨ c = byte 's' ∨ c = byte 'p') : st.ap + 1 = st.ap + k := by
    rw [← hk, if_pos (takesArg_iff.mpr h)]
  have hzero (h : ¬ takesArg charConv c) : st.ap = st.ap + k := by
    rw [← hk, if_neg h]
    rfl
  rw [hk]
  unfold convert
  split_ifs with hd hu hx hX hc hs hp hpercent
  · exact (ap_convertInt ..).trans (hone (by simp only [hd, true_or]))
  · exact (ap_convertInt ..).trans (hone (by simp only [hu, true_or, or_true]))
  · exact (ap_convertInt ..).trans (hone (by simp only [hx, true_or, or_true]))
  · exact (ap_convertInt ..).trans (hone (by simp only [hX, true_or, or_true]))
  · exact hone (by simp only [hc, and_self, true_or, or_true])
  · exact (ap_formatStr ..).trans (hone (by simp only [hs, true_or, or_true]))
  · exact (ap_formatStr ..).trans (hone (by simp only [hp, or_true]))
  · exact hzero (by simp only [takesArg_iff, hd, hu, hx, hX, hc, hs, hp, or_self,
      not_false_eq_true])
  · exact hzero (by simp only [takesArg_iff, hd, hu, hx, hX, hc, hs, hp, or_self,
      not_false_eq_true])

theorem vsnprintfLoop_text (hc : c ≠ byte '%') {fuel : ℕ} :
    vsnprintfLoop charConv cstr args (fuel + 1) (c :: fmt) st =
      vsnprintfLoop charConv cstr args fuel fmt (st.output c) := by
  rw [vsnprintfLoop, if_pos hc]

theorem vsnprintfLoop_spec {rest : List UInt8} (hscan : scan fmt {} = some (c, state, rest))
    {fuel : ℕ} : vsnprintfLoop charConv cstr args (fuel + 1) (byte '%' :: fmt) st =
      vsnprintfLoop charConv cstr args fuel rest (convert charConv cstr args c state st) := by
  rw [vsnprintfLoop, if_neg (not_not.mpr rfl), format, hscan]
  rfl

theorem vsnprintfLoop_of_conversions (charConv : Bool) (cstr : ℕ → List UInt8) (args : ℕ → ℕ)
    (h : Conversions fmt cs) :
    ∀ {fuel : ℕ} (st : VsprintfState), fmt.length ≤ fuel →
      ∃ st', vsnprintfLoop charConv cstr args fuel fmt st = some st' ∧
        st'.ap = st.ap + cs.countP (takesArg charConv) := by
  induction h with
  | nil =>
      intro fuel st _
      exact ⟨st, by cases fuel <;> rfl, rfl⟩
  | text hc _ ih =>
      intro fuel st hfuel
      cases fuel with
      | zero => cases hfuel
      | succ fuel =>
          obtain ⟨st', hst', hap⟩ := ih (st.output _) (Nat.le_of_succ_le_succ hfuel)
          exact ⟨st', by rw [vsnprintfLoop_text hc, hst'], hap⟩
  | spec c state rest hscan _ ih =>
      intro fuel st hfuel
      cases fuel with
      | zero => cases hfuel
      | succ fuel =>
          have hle : rest.length ≤ fuel :=
            (length_lt_of_scan hscan).le.trans (Nat.le_of_succ_le_succ hfuel)
          obtain ⟨st', hst', hap⟩ := ih (convert charConv cstr args c state st) hle
          refine ⟨st', by rw [vsnprintfLoop_spec hscan, hst'], ?_⟩
          rw [hap, ap_convert, List.countP_cons]
          omega

/-! ## Agreement -/

theorem convert_eq_of_ne (hc : c ≠ byte 'c') : convert true cstr args c state st =
    convert false cstr args c state st := by
  simp [convert, hc]

theorem vsnprintfLoop_eq_of_conversions (h : Conversions fmt cs) (hc : byte 'c' ∉ cs) :
    ∀ (fuel : ℕ) (st : VsprintfState), vsnprintfLoop true cstr args fuel fmt st =
      vsnprintfLoop false cstr args fuel fmt st := by
  induction h with
  | nil =>
      intro fuel st
      cases fuel <;> rfl
  | text hne _ ih =>
      intro fuel st
      cases fuel with
      | zero => rfl
      | succ fuel =>
          rw [vsnprintfLoop_text hne, vsnprintfLoop_text hne, ih hc]
  | spec c state rest hscan _ ih =>
      intro fuel st
      obtain ⟨hne, hrest⟩ := not_or.mp (mt List.mem_cons.mpr hc)
      cases fuel with
      | zero => rfl
      | succ fuel =>
          rw [vsnprintfLoop_spec hscan, vsnprintfLoop_spec hscan, convert_eq_of_ne (Ne.symm hne),
            ih hrest]

theorem countP_takesArg (cs : List UInt8) : cs.countP (takesArg true) =
    cs.countP (takesArg false) + cs.count (byte 'c') := by
  induction cs with
  | nil => rfl
  | cons c cs ih =>
      rw [List.countP_cons, List.countP_cons, List.count_cons, ih]
      by_cases hc : c = byte 'c'
      · subst hc
        simp [takesArg, byte]
        omega
      · simp [takesArg, hc]
        omega

end arguments

/-- **The two formatters agree on a format iff it has no `%c`.** Both return on every format
whose conversions are complete; they leave the same buffer, result and `va_list` iff none of
the conversions is `c`. -/
theorem vsnprintf_agree_iff (str : ℕ → UInt8) (size : ℕ) {fmt cs : List UInt8}
    (h : Conversions fmt cs) :
    (kernelVsnprintf cstr args str size fmt).isSome ∧
    (liblinuxVsnprintf cstr args str size fmt).isSome ∧
    (kernelVsnprintf cstr args str size fmt = liblinuxVsnprintf cstr args str size fmt ↔
      byte 'c' ∉ cs) := by
  obtain ⟨st, hst, hap⟩ := vsnprintfLoop_of_conversions true cstr args h ⟨str, 0, size, 0⟩ le_rfl
  obtain ⟨st', hst', hap'⟩ :=
    vsnprintfLoop_of_conversions false cstr args h ⟨str, 0, size, 0⟩ le_rfl
  simp only [kernelVsnprintf, liblinuxVsnprintf, vsnprintf, hst, hst', Option.map_some,
    Option.isSome_some, true_and]
  constructor
  · intro heq
    have haps : st.ap = st'.ap := congrArg Printed.ap (Option.some.inj heq)
    rw [hap, hap', countP_takesArg] at haps
    exact List.count_eq_zero.mp (by omega)
  · intro hc
    rw [vsnprintfLoop_eq_of_conversions h hc, hst'] at hst
    rw [Option.some.inj hst]

/-- A number between two texts. -/
theorem vsnprintf_agree_number :
    let fmt := ['<', '%', '0', '4', 'x', '>'].map byte
    kernelVsnprintf (fun _ => []) (fun _ => 0xbeef) (fun _ => 0) 16 fmt =
      liblinuxVsnprintf (fun _ => []) (fun _ => 0xbeef) (fun _ => 0) 16 fmt := by
  have h : Conversions (['<', '%', '0', '4', 'x', '>'].map byte) [byte 'x'] :=
    .text (by decide) (.spec (byte 'x') { hasWidth := true, zeroPad := true, width := 4 }
      [byte '>'] (by decide) (.text (by decide) .nil))
  exact (vsnprintf_agree_iff _ _ _ _ h).2.2.mpr (by decide)

/-- **`%c` prints its argument in the kernel and `%c` in liblinux**, which leaves the argument to
the next conversion. -/
theorem vsnprintf_char_differs :
    let fmt := ['%', 'c'].map byte
    let shown (r : Printed) := ((List.range 3).map r.str, r.ret, r.ap)
    Conversions fmt [byte 'c'] ∧
    (kernelVsnprintf (fun _ => []) (fun _ => 65) (fun _ => 0) 16 fmt).map shown =
      some ([byte 'A', 0, 0], 1, 1) ∧
    (liblinuxVsnprintf (fun _ => []) (fun _ => 65) (fun _ => 0) 16 fmt).map shown =
      some ([byte '%', byte 'c', 0], 2, 0) :=
  ⟨.spec (byte 'c') {} [] (by decide) .nil, by decide +kernel,
    by decide +kernel⟩

end Printf

end Manticore
