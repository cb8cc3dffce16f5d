import Manticore.Kernel.Printf

/-!
# The text of a format

Every conversion hands its characters to the callback one by one, so the full output of a format is
a list that does not depend on the buffer.  `vsnprintf` stores the part of it that fits and puts the
NUL at the position after it, or at the last byte of the buffer.  The test for the second case is
`pos > size`; for an output of exactly `size` characters the NUL goes behind the buffer.
-/

namespace Manticore

namespace Printf

/-- The characters of `format_str`. -/
def strText (s : List UInt8) (fmt : FormatState) : List UInt8 :=
  let length := if fmt.hasWidth ∧ fmt.width < s.length then fmt.width else s.length
  let padding := if fmt.hasWidth then fmt.width - length else 0
  let text := (s.take length).takeWhile (· ≠ 0)
  if fmt.left then text ++ List.replicate padding (byte ' ')
  else List.replicate padding (if fmt.zeroPad then byte '0' else byte ' ') ++ text

variable (charConv : Bool) (cstr : ℕ → List UInt8) (args : ℕ → ℕ)

/-- The characters of `d`, `u`, `x` and `X`. -/
def intText (chars : List UInt8) (base : ℕ) (sign : Bool) (fmt : FormatState) (ap : ℕ) :
    List UInt8 :=
  strText (formatNumber (popInt fmt (args ap)) chars base sign) fmt

/-- The characters of a conversion whose argument is `ap`. -/
def convertText (c : UInt8) (fmt : FormatState) (ap : ℕ) : List UInt8 :=
  if c = byte 'd' then intText args numberChars 10 true fmt ap
  else if c = byte 'u' then intText args numberChars 10 false { fmt with unsigned := true } ap
  else if c = byte 'x' then intText args numberChars 16 false { fmt with unsigned := true } ap
  else if c = byte 'X' then
    intText args numberCharsUpcase 16 false { fmt with unsigned := true } ap
  else if charConv ∧ c = byte 'c' then [(args ap).toUInt8]
  else if c = byte 's' then
    strText (if args ap = 0 then nullString else cstr (args ap)) fmt
  else if c = byte 'p' then
    byte '0' :: byte 'x' :: strText (formatNumber (args ap % 2 ^ 64) numberChars 16 false)
      { fmt with unsigned := true }
  else if c = byte '%' then [byte '%']
  else [byte '%', c]

/-- **The full output of a format** whose first argument is `ap`. -/
inductive FullText : List UInt8 → ℕ → List UInt8 → Prop
  | nil {ap : ℕ} : FullText [] ap []
  | text {c : UInt8} {fmt out : List UInt8} {ap : ℕ} (hc : c ≠ byte '%') (h : FullText fmt ap out) :
      FullText (c :: fmt) ap (c :: out)
  | spec {c : UInt8} {state : FormatState} {rest fmt out : List UInt8} {ap : ℕ}
      (hscan : scan fmt {} = some (c, state, rest))
      (h : FullText rest (ap + if takesArg charConv c then 1 else 0) out) :
      FullText (byte '%' :: fmt) ap (convertText charConv cstr args c state ap ++ out)

/-- What is in the buffer and returned: the text as far as it fits, a NUL behind it, nothing behind
the buffer, and the length of the text. -/
structure RespectsBuffer (out : List UInt8) (size : ℕ) (str : ℕ → UInt8) (r : Printed) : Prop where
  within : ∀ i, size ≤ i → r.str i = str i
  text : ∀ i < min out.length (size - 1), r.str i = out.getD i 0
  nul : r.str (min out.length (size - 1)) = 0
  ret : r.ret = out.length

variable {charConv cstr args} {st : VsprintfState} {fmt cs out : List UInt8} {c : UInt8}
  {state : FormatState} {ap size : ℕ}

/-! ## Conversions put out their text -/

theorem outputs_append (st : VsprintfState) (cs ds : List UInt8) :
    st.outputs (cs ++ ds) = (st.outputs cs).outputs ds :=
  List.foldl_append

def VsprintfState.withAp (st : VsprintfState) (ap : ℕ) : VsprintfState := { st with ap := ap }

theorem outputs_withAp (cs : List UInt8) (st : VsprintfState) (ap : ℕ) :
    (st.withAp ap).outputs cs = (st.outputs cs).withAp ap := by
  induction cs generalizing st with
  | nil => rfl
  | cons c cs ih => exact ih (st.output c)

theorem formatStr_withAp (s : List UInt8) (state : FormatState) (st : VsprintfState) (ap : ℕ) :
    formatStr s state (st.withAp ap) = (st.outputs (strText s state)).withAp ap := by
  rw [← outputs_withAp]
  unfold formatStr strText
  dsimp only
  split <;> rfl

theorem exists_outputs_ite {P : Prop} [Decidable P] {text text' : List UInt8}
    {st' st'' : VsprintfState} (h : ∃ ap', st' = (st.outputs text).withAp ap')
    (h' : ∃ ap', st'' = (st.outputs text').withAp ap') :
    ∃ ap', (if P then st' else st'') = (st.outputs (if P then text else text')).withAp ap' := by
  by_cases hP : P
  · rw [if_pos hP, if_pos hP]
    exact h
  · rw [if_neg hP, if_neg hP]
    exact h'

theorem exists_convert_eq (c : UInt8) (state : FormatState) (st : VsprintfState) :
    ∃ ap', convert charConv cstr args c state st =
      (st.outputs (convertText charConv cstr args c state st.ap)).withAp ap' := by
  have hstr (s : List UInt8) (state : FormatState) (st' : VsprintfState) :
      ∃ ap', formatStr s state (st'.withAp (st.ap + 1)) =
        (st'.outputs (strText s state)).withAp ap' := ⟨_, formatStr_withAp s state st' _⟩
  unfold convert convertText
  refine exists_outputs_ite (hstr ..) ?_
  refine exists_outputs_ite (hstr ..) ?_
  refine exists_outputs_ite (hstr ..) ?_
  refine exists_outputs_ite (hstr ..) ?_
  refine exists_outputs_ite ⟨st.ap + 1, rfl⟩ ?_
  refine exists_outputs_ite (hstr ..) ?_
  refine exists_outputs_ite (hstr _ _ ((st.output (byte '0')).output (byte 'x'))) ?_
  exact exists_outputs_ite ⟨st.ap, rfl⟩ ⟨st.ap, rfl⟩

theorem vsnprintfLoop_of_fullText (h : FullText charConv cstr args fmt ap out) :
    ∀ {fuel : ℕ} (st : VsprintfState), st.ap = ap → fmt.length ≤ fuel →
      ∃ ap', vsnprintfLoop charConv cstr args fuel fmt st = some ((st.outputs out).withAp ap') := by
  induction h with
  | nil =>
      intro fuel st _ _
      exact ⟨st.ap, by cases fuel <;> rfl⟩
  | text hc _ ih =>
      intro fuel st hap hfuel
      cases fuel with
      | zero => cases hfuel
      | succ fuel =>
          rw [vsnprintfLoop_text hc]
          exact ih _ hap (Nat.le_of_succ_le_succ hfuel)
  | @spec c state rest fmt out ap hscan _ ih =>
      intro fuel st hap hfuel
      cases fuel with
      | zero => cases hfuel
      | succ fuel =>
          have hle : rest.length ≤ fuel :=
            (length_lt_of_scan hscan).le.trans (Nat.le_of_succ_le_succ hfuel)
          have hnext : (convert charConv cstr args c state st).ap =
              ap + if takesArg charConv c then 1 else 0 := by rw [ap_convert, hap]
          obtain ⟨ap₁, hconv⟩ : ∃ ap₁, convert charConv cstr args c state st =
              (st.outputs (convertText charConv cstr args c state ap)).withAp ap₁ :=
            hap ▸ exists_convert_eq c state st
          obtain ⟨ap', hrun⟩ := ih _ hnext hle
          refine ⟨ap', ?_⟩
          rw [vsnprintfLoop_spec hscan, hrun, hconv, outputs_withAp, outputs_append]
          rfl

theorem exists_fullText (h : Conversions fmt cs) (ap : ℕ) :
    ∃ out, FullText charConv cstr args fmt ap out := by
  induction h generalizing ap with
  | nil => exact ⟨[], .nil⟩
  | text hc _ ih =>
      obtain ⟨out, hout⟩ := ih ap
      exact ⟨_, .text hc hout⟩
  | spec c state rest hscan _ ih =>
      obtain ⟨out, hout⟩ := ih (ap + if takesArg charConv c then 1 else 0)
      exact ⟨_, .spec hscan hout⟩

/-! ## The buffer -/

@[simp] theorem size_outputs (cs : List UInt8) (st : VsprintfState) :
    (st.outputs cs).size = st.size := by
  induction cs generalizing st with
  | nil => rfl
  | cons c cs ih => exact ih (st.output c)

theorem str_output (st : VsprintfState) (c : UInt8) (i : ℕ) :
    (st.output c).str i = if i = st.pos ∧ i < st.size then c else st.str i := by
  by_cases hsize : st.pos < st.size
  · have hstr : (st.output c).str = Function.update st.str st.pos c := if_pos hsize
    rw [hstr, Function.update_apply]
    exact if_congr (by omega) rfl rfl
  · have hstr : (st.output c).str = st.str := if_neg hsize
    rw [hstr, if_neg (by omega)]

theorem pos_outputs (cs : List UInt8) (st : VsprintfState) (h : st.pos < 2 ^ 64) :
    (st.outputs cs).pos = (st.pos + cs.length) % 2 ^ 64 := by
  induction cs generalizing st with
  | nil => exact (Nat.mod_eq_of_lt h).symm
  | cons c cs ih =>
      have hpos : (st.output c).pos = (st.pos + 1) % 2 ^ 64 := rfl
      have hlt : (st.output c).pos < 2 ^ 64 := Nat.mod_lt _ (Nat.two_pow_pos 64)
      show ((st.output c).outputs cs).pos = _
      rw [ih (st.output c) hlt, hpos, Nat.mod_add_mod, List.length_cons]
      congr 1
      omega

theorem str_outputs (cs : List UInt8) (st : VsprintfState) (h : st.pos + cs.length < 2 ^ 64)
    (i : ℕ) : (st.outputs cs).str i =
      if st.pos ≤ i ∧ i < st.pos + cs.length ∧ i < st.size then cs.getD (i - st.pos) 0
      else st.str i := by
  induction cs generalizing st with
  | nil => rw [if_neg (by simp only [List.length_nil]; omega)]; rfl
  | cons c cs ih =>
      rw [List.length_cons] at h
      have hpos : (st.output c).pos = st.pos + 1 := Nat.mod_eq_of_lt (by omega)
      have hfirst : (st.output c).str i = if i = st.pos ∧ i < st.size then c else st.str i :=
        str_output st c i
      have hsize : (st.output c).size = st.size := rfl
      show ((st.output c).outputs cs).str i = _
      rw [ih (st.output c) (by omega), hpos, hsize, hfirst, List.length_cons]
      rcases Nat.lt_trichotomy i st.pos with hlt | rfl | hgt
      · have hlater : ¬ (st.pos + 1 ≤ i ∧ i < st.pos + 1 + cs.length ∧ i < st.size) := by omega
        have hhere : ¬ (i = st.pos ∧ i < st.size) := by omega
        rw [if_neg hlater, if_neg hhere, if_neg (by omega)]
      · have hlater : ¬ (st.pos + 1 ≤ st.pos ∧ st.pos < st.pos + 1 + cs.length ∧
            st.pos < st.size) := by omega
        rw [if_neg hlater, Nat.sub_self, List.getD_cons_zero]
        exact if_congr (by omega) rfl rfl
      · have hsub : i - st.pos = i - (st.pos + 1) + 1 := by omega
        rw [if_neg (by omega : ¬ (i = st.pos ∧ i < st.size)), hsub, List.getD_cons_succ]
        exact if_congr (by omega) rfl rfl

theorem finish_of_fullText {str : ℕ → UInt8} (h : FullText charConv cstr args fmt 0 out) :
    ∃ ap', vsnprintf charConv cstr args str size fmt =
      some (finish ((VsprintfState.outputs ⟨str, 0, size, 0⟩ out).withAp ap')) := by
  obtain ⟨ap', hrun⟩ := vsnprintfLoop_of_fullText h ⟨str, 0, size, 0⟩ rfl le_rfl
  exact ⟨ap', by rw [vsnprintf, hrun]; rfl⟩

theorem finish_outputs (str : ℕ → UInt8) (size ap : ℕ) (hlen : out.length < 2 ^ 64) :
    let r := finish ((VsprintfState.outputs ⟨str, 0, size, 0⟩ out).withAp ap)
    r.str = Function.update (VsprintfState.outputs ⟨str, 0, size, 0⟩ out).str
      (if size < out.length then sub64 size 1 else out.length) 0 ∧
      r.ret = Int.bmod out.length (2 ^ 32) := by
  have hpos : (VsprintfState.outputs ⟨str, 0, size, 0⟩ out).pos = out.length := by
    rw [pos_outputs _ _ (Nat.two_pow_pos 64), Nat.zero_add, Nat.mod_eq_of_lt hlen]
  have hsize : (VsprintfState.outputs ⟨str, 0, size, 0⟩ out).size = size := size_outputs ..
  dsimp only [finish, VsprintfState.withAp]
  rw [hpos, hsize]
  exact ⟨rfl, rfl⟩

theorem finish_ret_lt (st : VsprintfState) : (finish st).ret < 2 ^ 31 := by
  have hlt := Int.bmod_lt (x := st.pos) (Nat.two_pow_pos 32)
  dsimp only [finish]
  omega

theorem respectsBuffer_of_ne {str : ℕ → UInt8} {ap : ℕ} (hsize : 1 ≤ size) (hlt : size < 2 ^ 64)
    (hne : out.length ≠ size) (hlen : out.length < 2 ^ 31) :
    RespectsBuffer out size str
      (finish ((VsprintfState.outputs ⟨str, 0, size, 0⟩ out).withAp ap)) := by
  obtain ⟨hstr, hret⟩ := finish_outputs str size ap (by omega : out.length < 2 ^ 64)
  have hnul : (if size < out.length then sub64 size 1 else out.length) =
      min out.length (size - 1) := by
    rw [sub64]
    split <;> omega
  have htext := str_outputs out ⟨str, 0, size, 0⟩ (by simp only; omega)
  simp only [Nat.zero_le, true_and, Nat.zero_add, Nat.sub_zero] at htext
  rw [hnul] at hstr
  refine ⟨fun i hi => ?_, fun i hi => ?_, ?_, ?_⟩
  · rw [hstr, Function.update_of_ne (by omega), htext, if_neg (by omega)]
  · rw [hstr, Function.update_of_ne (by omega), htext, if_pos (by omega)]
  · rw [hstr, Function.update_self]
  · rw [hret]
    apply Int.bmod_eq_of_le <;> omega

/-- **When `vsnprintf` respects its buffer**: unless the output has exactly as many characters as
the buffer, or more than an `int` can say. -/
theorem vsnprintf_respects_buffer_iff (charConv : Bool) (cstr : ℕ → List UInt8) (args : ℕ → ℕ)
    (fmt cs : List UInt8) (h : Conversions fmt cs) :
    ∃ out, FullText charConv cstr args fmt 0 out ∧ ∀ size, 1 ≤ size → size < 2 ^ 64 →
      ((∀ str, ∃ r, vsnprintf charConv cstr args str size fmt = some r ∧
        RespectsBuffer out size str r) ↔ out.length ≠ size ∧ out.length < 2 ^ 31) := by
  obtain ⟨out, hout⟩ := exists_fullText h 0
  refine ⟨out, hout, fun size hsize hlt => ⟨fun hall => ?_, fun hlen str => ?_⟩⟩
  · -- A buffer without a NUL shows the one that is written behind it.
    obtain ⟨r, hr, hrespects⟩ := hall fun _ => 1
    obtain ⟨ap', hrun⟩ := finish_of_fullText hout
    obtain rfl := Option.some.inj (hr.symm.trans hrun)
    have hret := hrespects.ret
    have hsmall := finish_ret_lt ((VsprintfState.outputs ⟨fun _ => 1, 0, size, 0⟩ out).withAp ap')
    refine ⟨fun heq => ?_, by omega⟩
    obtain ⟨hstr, -⟩ := finish_outputs (fun _ => 1) size ap'
      (by omega : out.length < 2 ^ 64)
    have hbehind := hrespects.within size le_rfl
    rw [hstr, if_neg (by omega), heq, Function.update_self] at hbehind
    exact absurd hbehind (by decide)
  · obtain ⟨ap', hrun⟩ := finish_of_fullText hout
    exact ⟨_, hrun, respectsBuffer_of_ne hsize hlt hlen.1 hlen.2⟩

/-- A number between two texts. -/
theorem vsnprintf_respects_number :
    ∃ out, FullText true (fun _ => []) (fun _ => 0xbeef) (['<', '%', 'x', '>'].map byte) 0 out ∧
      ∀ size, 1 ≤ size → size < 2 ^ 64 →
        ((∀ str, ∃ r, vsnprintf true (fun _ => []) (fun _ => 0xbeef) str size
          (['<', '%', 'x', '>'].map byte) = some r ∧ RespectsBuffer out size str r) ↔
          out.length ≠ size ∧ out.length < 2 ^ 31) :=
  vsnprintf_respects_buffer_iff true (fun _ => []) (fun _ => 0xbeef) (['<', '%', 'x', '>'].map byte)
    [byte 'x'] (.text (by decide) (.spec (byte 'x') {} [byte '>'] (by decide)
      (.text (by decide) .nil)))

/-- **A NUL behind the buffer.** Three characters go to a buffer of three bytes, and the NUL to the
byte behind it. -/
theorem vsnprintf_nul_behind_buffer :
    let fmt := ['a', 'b', 'c'].map byte
    FullText true (fun _ => []) (fun _ => 0) fmt 0 fmt ∧ fmt.length = 3 ∧
      (vsnprintf true (fun _ => []) (fun _ => 0) (fun _ => 1) 3 fmt).map
        (fun r => ((List.range 4).map r.str, r.ret)) =
          some ([byte 'a', byte 'b', byte 'c', 0], 3) :=
  ⟨.text (by decide) (.text (by decide) (.text (by decide) .nil)), rfl, by decide +kernel⟩

end Printf

end Manticore
