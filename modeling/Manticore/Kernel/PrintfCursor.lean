import Manticore.Kernel.PrintfText

/-!
# Reading a format

`vprintf` and `vsnprintf` on a format in memory.  Both loops advance one cursor: the outer one over
plain characters up to the NUL, and that of `format` over a conversion.  In `format` the NUL is an
unknown conversion character like any other, and the cursor it returns is behind the NUL.

The two functions differ in where characters go (`Sink`).  The cursor records what it has read, and
`none` is running out of fuel.
-/

namespace Manticore

namespace Printf

/-- The pointer `fmt`, and the addresses that were read through it. -/
structure Cursor where
  fmt : ℕ
  reads : List ℕ
deriving DecidableEq, Repr

/-- After `*fmt++`. -/
def Cursor.next (k : Cursor) : Cursor := ⟨k.fmt + 1, k.reads ++ [k.fmt]⟩

/-- The loop of `format`, up to the conversion character. -/
def scanAt (mem : ℕ → UInt8) : ℕ → FormatState → Cursor → Option (UInt8 × FormatState × Cursor)
  | 0, _, _ => none
  | fuel + 1, state, k =>
      match modifier (mem k.fmt) state with
      | some state => scanAt mem fuel state k.next
      | none => some (mem k.fmt, state, k.next)

/-- What becomes of a plain character, and of a conversion. -/
structure Sink (σ : Type) where
  plain : σ → UInt8 → σ
  conv : UInt8 → FormatState → σ → σ

/-- The loop of `vprintf` and of `vsnprintf`. -/
def printLoop {σ : Type} (S : Sink σ) (mem : ℕ → UInt8) (fuel : ℕ) :
    ℕ → Cursor → σ → Option (Cursor × σ)
  | 0, _, _ => none
  | n + 1, k, st =>
      let c := mem k.fmt
      if c = 0 then some (k.next, st)
      else if c ≠ byte '%' then printLoop S mem fuel n k.next (S.plain st c)
      else (scanAt mem fuel {} k.next).bind fun (c, state, k) =>
        printLoop S mem fuel n k (S.conv c state st)

variable (charConv : Bool) (cstr : ℕ → List UInt8) (args : ℕ → ℕ)

def vsnprintfSink : Sink VsprintfState where
  plain := VsprintfState.output
  conv := convert charConv cstr args

/-- `vsnprintf` of the format at `fmt`. -/
def vsnprintfAt (str : ℕ → UInt8) (size : ℕ) (mem : ℕ → UInt8) (fmt fuel : ℕ) :
    Option (Cursor × Printed) :=
  (printLoop (vsnprintfSink charConv cstr args) mem fuel fuel ⟨fmt, []⟩ ⟨str, 0, size, 0⟩).map
    fun r => (r.1, finish r.2)

/-- The console, the characters that conversions put there, and the `va_list`. -/
structure VprintfState where
  console : List UInt8
  pos : ℕ
  ap : ℕ
deriving DecidableEq, Repr

/-- Plain characters are not counted. -/
def vprintfSink : Sink VprintfState where
  plain st c := { st with console := st.console ++ [c] }
  conv c state st :=
    let text := convertText charConv cstr args c state st.ap
    { console := st.console ++ text
      pos := (st.pos + text.length) % 2 ^ 64
      ap := st.ap + if takesArg charConv c then 1 else 0 }

/-- `vprintf` of the format at `fmt`: what it reads, what is on the console, and the result. -/
def vprintfAt (mem : ℕ → UInt8) (fmt fuel : ℕ) : Option (Cursor × List UInt8 × ℤ) :=
  (printLoop (vprintfSink charConv cstr args) mem fuel fuel ⟨fmt, []⟩ ⟨[], 0, 0⟩).map
    fun r => (r.1, r.2.console, Int.bmod r.2.pos (2 ^ 32))

/-- The bytes `l` are at `p`. -/
def Holds (mem : ℕ → UInt8) : ℕ → List UInt8 → Prop
  | _, [] => True
  | p, c :: l => mem p = c ∧ Holds mem (p + 1) l

theorem holds_congr {m m' : ℕ → UInt8} : ∀ {l : List UInt8} {p : ℕ}, (∀ i, p ≤ i → m' i = m i) →
    Holds m p l → Holds m' p l
  | [], _, _, _ => trivial
  | _ :: _, p, h, hl =>
      ⟨(h p le_rfl).trans hl.1, holds_congr (fun i hi => h i (Nat.le_of_succ_le hi)) hl.2⟩

/-- The string `s` is at `p`, with its NUL. -/
structure CString (mem : ℕ → UInt8) (p : ℕ) (s : List UInt8) : Prop where
  holds : Holds mem p (s ++ [0])
  ne_zero : ∀ c ∈ s, c ≠ 0

/-- **The reading stops at the NUL** at `last`: the run ends, and nothing behind `last` was read. -/
def StopsAt {ρ : Type} (run : ℕ → Option (Cursor × ρ)) (last : ℕ) : Prop :=
  ∃ fuel k r, run fuel = some (k, r) ∧ ∀ a ∈ k.reads, a ≤ last

/-! ## Scanning a conversion -/

variable {charConv cstr args} {mem : ℕ → UInt8} {l s rest cs : List UInt8} {c : UInt8}
  {state state' : FormatState} {k k' : Cursor} {σ : Type} {S : Sink σ} {st st' : σ}

/-- The cursor `n` characters later. -/
def Cursor.advance (k : Cursor) (n : ℕ) : Cursor := ⟨k.fmt + n, k.reads ++ List.range' k.fmt n⟩

theorem Cursor.advance_next (k : Cursor) (n : ℕ) : k.next.advance n = k.advance (n + 1) := by
  rw [advance, advance, next, List.range'_succ, List.append_assoc, List.singleton_append,
    Nat.add_assoc, Nat.add_comm 1]

theorem Cursor.advance_advance (k : Cursor) (m n : ℕ) :
    (k.advance m).advance n = k.advance (m + n) := by
  rw [advance, advance, advance, List.append_assoc, List.range'_append_1, Nat.add_assoc]

theorem modifier_zero (state : FormatState) : modifier 0 state = none := by
  rw [modifier, if_neg (by decide), if_neg (by decide), if_neg (by decide), if_neg (by decide)]

@[elab_as_elim]
theorem scan_induction
    {motive : ∀ l state, scan l state = some (c, state', rest) → Prop}
    (last : ∀ (_ : modifier c state' = none) (hscan : scan (c :: rest) state' = _),
      motive (c :: rest) state' hscan)
    (more : ∀ d l state state₁ (_ : modifier d state = some state₁) (hscan : scan (d :: l) state = _)
      (hrest : scan l state₁ = _), motive l state₁ hrest → motive (d :: l) state hscan)
    (l : List UInt8) (state : FormatState) (hscan : scan l state = some (c, state', rest)) :
    motive l state hscan := by
  induction l generalizing state with
  | nil => cases hscan
  | cons d l ih =>
      have hstep := hscan
      rw [scan] at hstep
      cases hmod : modifier d state with
      | none =>
          rw [hmod] at hstep
          obtain ⟨rfl, rfl, rfl⟩ := Option.some.inj hstep
          exact last hmod hscan
      | some state₁ =>
          rw [hmod] at hstep
          exact more d l state state₁ hmod hscan hstep (ih state₁ hstep)

theorem scanAt_eq (h : Holds mem k.fmt l) (hscan : scan l state = some (c, state', rest))
    (fuel : ℕ) : scanAt mem fuel state k = if fuel < l.length - rest.length then none
      else some (c, state', k.advance (l.length - rest.length)) := by
  induction l, state, hscan using scan_induction generalizing k fuel with
  | last hmod =>
      rw [List.length_cons, Nat.add_sub_cancel_left]
      cases fuel with
      | zero => rfl
      | succ fuel =>
          rw [scanAt, h.1, hmod, if_neg (by omega)]
          rfl
  | more d l state state₁ hmod _ hrest ih =>
      have hlt := length_lt_of_scan hrest
      have hlen : (d :: l).length - rest.length = l.length - rest.length + 1 := by
        rw [List.length_cons]
        omega
      have htail : Holds mem k.next.fmt l := h.2
      rw [hlen]
      cases fuel with
      | zero => rw [if_pos (Nat.succ_pos _), scanAt]
      | succ fuel =>
          rw [scanAt, h.1, hmod]
          show scanAt mem fuel state₁ k.next = _
          rw [ih htail fuel, Cursor.advance_next]
          exact if_congr Nat.succ_lt_succ_iff.symm rfl rfl

theorem holds_of_scan {p : ℕ} (h : Holds mem p l) (hscan : scan l state = some (c, state', rest)) :
    Holds mem (p + (l.length - rest.length)) rest := by
  induction l, state, hscan using scan_induction generalizing p with
  | last _ =>
      rw [List.length_cons, Nat.add_sub_cancel_left]
      exact h.2
  | more d l _ _ _ _ hrest ih =>
      have hlt := length_lt_of_scan hrest
      have hlen : p + ((d :: l).length - rest.length) = p + 1 + (l.length - rest.length) := by
        rw [List.length_cons]
        omega
      rw [hlen]
      exact ih h.2

theorem scan_append (hscan : scan s state = some (c, state', rest)) (t : List UInt8) :
    scan (s ++ t) state = some (c, state', rest ++ t) := by
  induction s, state, hscan using scan_induction with
  | last hmod => rw [List.cons_append, scan, hmod]
  | more d l _ _ hmod _ _ ih =>
      rw [List.cons_append, scan, hmod]
      exact ih

theorem scan_nul (hscan : scan s state = none) :
    ∃ state', scan (s ++ [0]) state = some (0, state', []) := by
  induction s generalizing state with
  | nil => exact ⟨state, by rw [List.nil_append, scan, modifier_zero]⟩
  | cons d s ih =>
      rw [scan] at hscan
      rw [List.cons_append, scan]
      cases hmod : modifier d state with
      | none => rw [hmod] at hscan; cases hscan
      | some state₁ =>
          rw [hmod] at hscan
          exact ih hscan

theorem mem_of_scan (hscan : scan s state = some (c, state', rest)) : ∀ d ∈ rest, d ∈ s := by
  induction s, state, hscan using scan_induction with
  | last _ => exact fun _ hd => List.mem_cons_of_mem _ hd
  | more d l _ _ _ _ _ ih => exact fun x hx => List.mem_cons_of_mem _ (ih x hx)

namespace CString

variable {p : ℕ}

theorem nil (h : mem p = 0) : CString mem p [] := ⟨⟨h, trivial⟩, fun _ hd => nomatch hd⟩

theorem cons (hc : mem p = c) (hne : c ≠ 0) (h : CString mem (p + 1) s) : CString mem p (c :: s) :=
  ⟨⟨hc, h.holds⟩, List.forall_mem_cons.mpr ⟨hne, h.ne_zero⟩⟩

theorem zero (h : CString mem p []) : mem p = 0 := h.holds.1

theorem head (h : CString mem p (c :: s)) : mem p = c ∧ c ≠ 0 :=
  ⟨h.holds.1, h.ne_zero c List.mem_cons_self⟩

theorem tail (h : CString mem p (c :: s)) : CString mem (p + 1) s :=
  ⟨h.holds.2, fun d hd => h.ne_zero d (List.mem_cons_of_mem _ hd)⟩

theorem of_scan (h : CString mem p s) (hscan : scan s state = some (c, state', rest)) :
    CString mem (p + (s.length - rest.length)) rest := by
  refine ⟨?_, fun d hd => h.ne_zero d (mem_of_scan hscan d hd)⟩
  have hholds := holds_of_scan h.holds (scan_append hscan [0])
  rwa [List.length_append, List.length_append, Nat.add_sub_add_right] at hholds

theorem scanAt_eq (h : CString mem k.fmt s) (hscan : scan s state = some (c, state', rest))
    (fuel : ℕ) : scanAt mem fuel state k = if fuel < s.length - rest.length then none
      else some (c, state', k.advance (s.length - rest.length)) := by
  rw [Printf.scanAt_eq h.holds (scan_append hscan [0]), List.length_append, List.length_append,
    Nat.add_sub_add_right]

theorem scanAt_nul (h : CString mem k.fmt s) (hscan : scan s state = none) {fuel : ℕ}
    {r : UInt8 × FormatState × Cursor} (hr : scanAt mem fuel state k = some r) :
    r.2.2 = k.advance (s.length + 1) := by
  obtain ⟨state', hnul⟩ := scan_nul hscan
  rw [Printf.scanAt_eq h.holds hnul] at hr
  split at hr
  · cases hr
  · obtain rfl := Option.some.inj hr
    rw [List.length_append, List.length_singleton, List.length_nil, Nat.sub_zero]

end CString

/-! ## Complete formats -/

/-- What a complete format does to a sink. -/
inductive Prints (S : Sink σ) : List UInt8 → σ → σ → Prop
  | nil {st : σ} : Prints S [] st st
  | text {c : UInt8} {s : List UInt8} {st st' : σ} (hc : c ≠ byte '%')
      (h : Prints S s (S.plain st c) st') : Prints S (c :: s) st st'
  | spec {c : UInt8} {state : FormatState} {rest s : List UInt8} {st st' : σ}
      (hscan : scan s {} = some (c, state, rest)) (h : Prints S rest (S.conv c state st) st') :
      Prints S (byte '%' :: s) st st'

theorem exists_prints (h : Conversions s cs) (S : Sink σ) (st : σ) : ∃ st', Prints S s st st' := by
  induction h generalizing st with
  | nil => exact ⟨st, .nil⟩
  | text hc _ ih =>
      obtain ⟨st', hst⟩ := ih (S.plain st _)
      exact ⟨st', .text hc hst⟩
  | spec c state rest hscan _ ih =>
      obtain ⟨st', hst⟩ := ih (S.conv c state st)
      exact ⟨st', .spec hscan hst⟩

/-- **A complete format is read up to its NUL.** -/
theorem printLoop_of_prints (h : Prints S s st st') {k : Cursor} (hs : CString mem k.fmt s)
    {fuel n : ℕ} (hfuel : s.length < fuel) (hn : s.length < n) :
    printLoop S mem fuel n k st = some (k.advance (s.length + 1), st') := by
  induction h generalizing k n with
  | nil =>
      obtain ⟨n, rfl⟩ := Nat.exists_eq_succ_of_ne_zero (Nat.ne_zero_of_lt hn)
      rw [printLoop, hs.zero]
      rfl
  | @text c s st st' hc _ ih =>
      obtain ⟨n, rfl⟩ := Nat.exists_eq_succ_of_ne_zero (Nat.ne_zero_of_lt hn)
      rw [List.length_cons] at hfuel hn ⊢
      have hrest : printLoop S mem fuel n k.next (S.plain st c) =
          some (k.next.advance (s.length + 1), st') := ih hs.tail (by omega) (by omega)
      rw [Cursor.advance_next] at hrest
      rw [printLoop]
      simp only [hs.head.1]
      rw [if_neg hs.head.2, if_pos hc, hrest]
  | @spec c state rest s st st' hscan _ ih =>
      obtain ⟨n, rfl⟩ := Nat.exists_eq_succ_of_ne_zero (Nat.ne_zero_of_lt hn)
      rw [List.length_cons] at hfuel hn ⊢
      have hlt := length_lt_of_scan hscan
      have htail : CString mem k.next.fmt s := hs.tail
      have hrest : printLoop S mem fuel n (k.next.advance (s.length - rest.length))
          (S.conv c state st) = some
            ((k.next.advance (s.length - rest.length)).advance (rest.length + 1), st') :=
        ih (htail.of_scan hscan) (by omega) (by omega)
      have hlen : s.length - rest.length + (rest.length + 1) = s.length + 1 := by omega
      have hend : (k.next.advance (s.length - rest.length)).advance (rest.length + 1) =
          k.advance (s.length + 1 + 1) := by
        rw [Cursor.advance_advance, hlen, Cursor.advance_next]
      rw [hend] at hrest
      rw [printLoop]
      simp only [hs.head.1]
      rw [if_neg hs.head.2, if_neg (not_not.mpr rfl), htail.scanAt_eq hscan, if_neg (by omega),
        Option.bind_some]
      exact hrest

theorem scanAt_reads {fuel : ℕ} {r : UInt8 × FormatState × Cursor}
    (hr : scanAt mem fuel state k = some r) : ∀ a ∈ k.reads, a ∈ r.2.2.reads := by
  induction fuel generalizing state k with
  | zero => cases hr
  | succ fuel ih =>
      intro a ha
      rw [scanAt] at hr
      split at hr
      · exact ih hr a (List.mem_append_left _ ha)
      · obtain rfl := Option.some.inj hr
        exact List.mem_append_left _ ha

theorem printLoop_reads {fuel n : ℕ} (hrun : printLoop S mem fuel n k st = some (k', st')) :
    ∀ a ∈ k.reads, a ∈ k'.reads := by
  induction n generalizing k st with
  | zero => cases hrun
  | succ n ih =>
      intro a ha
      rw [printLoop] at hrun
      dsimp only at hrun
      split at hrun
      · obtain ⟨rfl, -⟩ := Prod.mk.inj (Option.some.inj hrun)
        exact List.mem_append_left _ ha
      · split at hrun
        · exact ih hrun a (List.mem_append_left _ ha)
        · obtain ⟨r, hr, hrest⟩ := Option.bind_eq_some_iff.mp hrun
          exact ih hrest a (scanAt_reads hr a (List.mem_append_left _ ha))

theorem printLoop_reads_first {fuel n : ℕ}
    (hrun : printLoop S mem fuel n k st = some (k', st')) : k.fmt ∈ k'.reads := by
  have hnext : k.fmt ∈ k.next.reads := List.mem_append_right _ List.mem_cons_self
  cases n with
  | zero => cases hrun
  | succ n =>
      rw [printLoop] at hrun
      dsimp only at hrun
      split at hrun
      · obtain ⟨rfl, -⟩ := Prod.mk.inj (Option.some.inj hrun)
        exact hnext
      · split at hrun
        · exact printLoop_reads hrun _ hnext
        · obtain ⟨r, hr, hrest⟩ := Option.bind_eq_some_iff.mp hrun
          exact printLoop_reads hrest _ (scanAt_reads hr _ hnext)

/-! ## Incomplete formats -/

/-- **A format that ends within a conversion is read on behind its NUL.** -/
theorem printLoop_of_incomplete (hs : CString mem k.fmt s) (hno : ¬ ∃ cs, Conversions s cs)
    {fuel n : ℕ} (hrun : printLoop S mem fuel n k st = some (k', st')) :
    k.fmt + s.length + 1 ∈ k'.reads := by
  induction n generalizing k s st with
  | zero => cases hrun
  | succ n ih =>
      cases s with
      | nil => exact absurd ⟨[], .nil⟩ hno
      | cons c s =>
          have htail : CString mem k.next.fmt s := hs.tail
          have hlen : k.fmt + (c :: s).length + 1 = k.next.fmt + s.length + 1 := by
            rw [List.length_cons]
            show _ = k.fmt + 1 + s.length + 1
            omega
          rw [hlen]
          rw [printLoop] at hrun
          simp only [hs.head.1, if_neg hs.head.2] at hrun
          by_cases hc : c ≠ byte '%'
          · rw [if_pos hc] at hrun
            exact ih htail (fun ⟨cs, h⟩ => hno ⟨cs, .text hc h⟩) hrun
          · obtain rfl := not_not.mp hc
            rw [if_neg hc] at hrun
            obtain ⟨r, hr, hrest⟩ := Option.bind_eq_some_iff.mp hrun
            cases hscan : scan s {} with
            | none =>
                -- The cursor is behind the NUL now, and the loop reads there.
                have hk := htail.scanAt_nul hscan hr
                have hread := printLoop_reads_first hrest
                rwa [hk] at hread
            | some t =>
                obtain ⟨d, state, rest⟩ := t
                have hlt := length_lt_of_scan hscan
                rw [htail.scanAt_eq hscan] at hr
                split at hr
                · cases hr
                · obtain rfl := Option.some.inj hr
                  have hread := ih (htail.of_scan hscan)
                    (fun ⟨cs, h⟩ => hno ⟨_, .spec d state rest hscan h⟩) hrest
                  have hpos : k.next.fmt + (s.length - rest.length) + rest.length + 1 =
                      k.next.fmt + s.length + 1 := by omega
                  rwa [← hpos]

/-- **When the reading stops at the NUL**: exactly if the format is complete. -/
theorem stopsAt_iff {ρ : Type} (hs : CString mem k.fmt s) (hk : k.reads = []) (S : Sink σ) (st : σ)
    (out : σ → ρ) :
    StopsAt (fun fuel => (printLoop S mem fuel fuel k st).map fun r => (r.1, out r.2))
      (k.fmt + s.length) ↔ ∃ cs, Conversions s cs := by
  constructor
  · rintro ⟨fuel, k', r, hrun, hreads⟩
    by_contra hno
    obtain ⟨⟨k₁, st₁⟩, hloop, heq⟩ := Option.map_eq_some_iff.mp hrun
    obtain ⟨rfl, -⟩ := Prod.mk.inj heq
    have := hreads _ (printLoop_of_incomplete hs hno hloop)
    omega
  · rintro ⟨cs, hcs⟩
    obtain ⟨st', hst⟩ := exists_prints hcs S st
    refine ⟨s.length + 1, k.advance (s.length + 1), out st', ?_, fun a ha => ?_⟩
    · dsimp only
      rw [printLoop_of_prints hst hs (Nat.lt_succ_self _) (Nat.lt_succ_self _), Option.map_some]
    · rw [Cursor.advance, hk, List.nil_append, List.mem_range'_1] at ha
      omega

/-- **Format parsing stops at the terminator** exactly if no conversion of the format is cut off by
it. -/
theorem format_stops_at_nul_iff (charConv : Bool) (cstr : ℕ → List UInt8) (args : ℕ → ℕ)
    (mem : ℕ → UInt8) (fmt : ℕ) (s : List UInt8) (hs : CString mem fmt s) :
    (StopsAt (vprintfAt charConv cstr args mem fmt) (fmt + s.length) ↔ ∃ cs, Conversions s cs) ∧
      ∀ str size, StopsAt (vsnprintfAt charConv cstr args str size mem fmt) (fmt + s.length) ↔
        ∃ cs, Conversions s cs := by
  have hs' : CString mem (Cursor.fmt ⟨fmt, []⟩) s := hs
  refine ⟨?_, fun str size => ?_⟩
  · exact stopsAt_iff hs' rfl (vprintfSink charConv cstr args) ⟨[], 0, 0⟩
      fun st => (st.console, Int.bmod st.pos (2 ^ 32))
  · exact stopsAt_iff hs' rfl (vsnprintfSink charConv cstr args) ⟨str, 0, size, 0⟩ finish

/-- A `%d` and its NUL. -/
def percentD (a : ℕ) : UInt8 :=
  if a = 0x1000 then byte '%' else if a = 0x1001 then byte 'd' else 0

theorem format_stops_at_nul_percent_d :
    StopsAt (vprintfAt true (fun _ => []) (fun _ => 7) percentD 0x1000) 0x1002 :=
  (format_stops_at_nul_iff true (fun _ => []) (fun _ => 7) percentD 0x1000 [byte '%', byte 'd']
    (.cons rfl (by decide) (.cons rfl (by decide) (.nil rfl)))).1.mpr
    ⟨[byte 'd'], .spec (byte 'd') {} [] (by decide) .nil⟩

/-- A `%` and its NUL, and another string behind it. -/
def percent (a : ℕ) : UInt8 :=
  if a = 0x1000 then byte '%' else if a = 0x1002 then byte '!' else 0

/-- **A format that is read on behind its NUL.** `vprintf("%")` prints `%`, the NUL and the next
string in memory. -/
theorem vprintf_percent_reads_on :
    CString percent 0x1000 [byte '%'] ∧
      vprintfAt true (fun _ => []) (fun _ => 0) percent 0x1000 8 =
        some (⟨0x1004, [0x1000, 0x1001, 0x1002, 0x1003]⟩, [byte '%', 0, byte '!'], 2) :=
  ⟨.cons rfl (by decide) (.nil rfl), by decide +kernel⟩

/-! ## The list of bytes -/

theorem vsnprintfLoop_of_prints {st st' : VsprintfState}
    (h : Prints (vsnprintfSink charConv cstr args) s st st') {fuel : ℕ} (hfuel : s.length ≤ fuel) :
    vsnprintfLoop charConv cstr args fuel s st = some st' := by
  induction h generalizing fuel with
  | nil => cases fuel <;> rfl
  | text hc _ ih =>
      obtain ⟨fuel, rfl⟩ := Nat.exists_eq_succ_of_ne_zero (Nat.ne_zero_of_lt hfuel)
      rw [vsnprintfLoop_text hc]
      exact ih (Nat.le_of_succ_le_succ hfuel)
  | spec hscan _ ih =>
      obtain ⟨fuel, rfl⟩ := Nat.exists_eq_succ_of_ne_zero (Nat.ne_zero_of_lt hfuel)
      rw [vsnprintfLoop_spec hscan]
      exact ih ((length_lt_of_scan hscan).le.trans (Nat.le_of_succ_le_succ hfuel))

/-- **`vsnprintf` on memory** is `vsnprintf` on the bytes before the NUL, for a complete format. -/
theorem vsnprintfAt_eq {fmt fuel size : ℕ} {str : ℕ → UInt8} (hs : CString mem fmt s)
    (h : Conversions s cs) (hfuel : s.length < fuel) :
    (vsnprintfAt charConv cstr args str size mem fmt fuel).map Prod.snd =
      vsnprintf charConv cstr args str size s := by
  obtain ⟨st', hst⟩ := exists_prints h (vsnprintfSink charConv cstr args) ⟨str, 0, size, 0⟩
  have hs' : CString mem (Cursor.fmt ⟨fmt, []⟩) s := hs
  rw [vsnprintfAt, printLoop_of_prints hst hs' hfuel hfuel, vsnprintf,
    vsnprintfLoop_of_prints hst le_rfl]
  rfl

theorem vsnprintfAt_percent_d :
    (vsnprintfAt true (fun _ => []) (fun _ => 7) (fun _ => 0) 8 percentD 0x1000 3).map Prod.snd =
      vsnprintf true (fun _ => []) (fun _ => 7) (fun _ => 0) 8 [byte '%', byte 'd'] :=
  vsnprintfAt_eq (.cons rfl (by decide) (.cons rfl (by decide) (.nil rfl)))
    (.spec (byte 'd') {} [] (by decide) .nil) (by decide)

end Printf

end Manticore
