import Mathlib.Logic.Relation
import Manticore.Base.Bytes
import Manticore.Kernel.PrintfConversion

/-!
# The ACPI tables

`acpi_parse_config` goes through the tables that the RSDT lists, and `acpi_parse_madt` through the
entries of a MADT, to count the processors.

The entries are not checked against the table: the loop reads two bytes of each entry, also where only
one is left, and goes on by the length that it finds, also if that is 0.  Four of the five entry types
that the source knows have a case in the `switch`; an NMI source ends the parse like an unknown entry.
Nothing else goes wrong.
-/

namespace Manticore

namespace Acpi

def sizeofSdtHeader : ℕ := 36
def sizeofMadtHeader : ℕ := 44

/-- `"RSD PTR "` -/
def rsdpSignature : List UInt8 := [0x52, 0x53, 0x44, 0x20, 0x50, 0x54, 0x52, 0x20]

/-- `"RSDT"` -/
def rsdtSignature : List UInt8 := [0x52, 0x53, 0x44, 0x54]

/-- `"APIC"` -/
def madtSignature : List UInt8 := [0x41, 0x50, 0x49, 0x43]

inductive EntryType where
  | processorLocalApic
  | ioApic
  | intSourceOverride
  | nmiSource
  | localApicNmi
deriving DecidableEq, Repr

def EntryType.code : EntryType → UInt8
  | processorLocalApic => 0x00
  | ioApic => 0x01
  | intSourceOverride => 0x02
  | nmiSource => 0x03
  | localApicNmi => 0x04

/-- The calls of `printf`. -/
inductive Message where
  | rsdpMismatch
  | rsdtMismatch
  | madtMismatch
  | unknownEntry (type : UInt8)
  | foundCpus (nrCpus : ℕ)
deriving DecidableEq, Repr

namespace Message

/-- The format and its argument. -/
def call : Message → String × Option ℕ
  | rsdpMismatch => ("ACPI RSDP signature mismatch\n", none)
  | rsdtMismatch => ("ACPI RSDT signature mismatch\n", none)
  | madtMismatch => ("ACPI MADT signature mismatch\n", none)
  | unknownEntry type => ("warning: unknown ACPI MADT entry: %d\n", some type.toNat)
  | foundCpus nrCpus => ("Found %d CPUs via ACPI MADT\n", some nrCpus)

/-- The number of processors that is printed: `nr_cpus` is a `size_t`, and `%d` prints an `int`. -/
def reported : Message → Option ℤ
  | foundCpus nrCpus => some (Printf.Conversion.value { specifier := .d } nrCpus)
  | _ => none

end Message

/-- What a parse prints, and the offsets of the bytes that it reads. -/
structure Parsed where
  message : Message
  reads : List ℕ
deriving DecidableEq, Repr

/-- The `switch`: the processors counted so far, `none` for an entry without a case. -/
def countEntry (type : UInt8) (nrCpus : ℕ) : Option ℕ :=
  if type = EntryType.processorLocalApic.code then some (nrCpus + 1)
  else if type = EntryType.ioApic.code then some nrCpus
  else if type = EntryType.intSourceOverride.code then some nrCpus
  else if type = EntryType.localApicNmi.code then some nrCpus
  else none

def entryType (m : Mem) (rawMadt off : ℕ) : UInt8 := m (rawMadt + off)
def entryLen (m : Mem) (rawMadt off : ℕ) : ℕ := (m (rawMadt + off + 1)).toNat
def madtLength (m : Mem) (rawMadt : ℕ) : ℕ := load m (rawMadt + 4) 4

/-- The loop of `acpi_parse_madt`; `none` if it takes more than `fuel` rounds. -/
def parseEntries (m : Mem) (rawMadt madtLen : ℕ) : ℕ → ℕ → ℕ → Option Parsed
  | 0, _, _ => none
  | fuel + 1, off, nrCpus =>
      if off < madtLen then
        match countEntry (entryType m rawMadt off) nrCpus with
        | some nrCpus =>
            (parseEntries m rawMadt madtLen fuel (off + entryLen m rawMadt off) nrCpus).map
              fun r => { r with reads := off :: (off + 1) :: r.reads }
        | none => some ⟨.unknownEntry (entryType m rawMadt off), [off, off + 1]⟩
      else some ⟨.foundCpus nrCpus, []⟩

def acpiParseMadt (m : Mem) (rawMadt fuel : ℕ) : Option Parsed :=
  if bytesAt m rawMadt 4 ≠ madtSignature then some ⟨.madtMismatch, List.range 4⟩
  else (parseEntries m rawMadt (madtLength m rawMadt) fuel sizeofMadtHeader 0).map
    fun r => { r with reads := List.range 8 ++ r.reads }

/-! ## Well-formed tables -/

/-- The entries from `off` on fill the table up to its end. -/
inductive Entries (m : Mem) (rawMadt madtLen : ℕ) : ℕ → List ℕ → Prop
  | done : Entries m rawMadt madtLen madtLen []
  | entry {off : ℕ} {offs : List ℕ} (hlen : 2 ≤ entryLen m rawMadt off)
      (hrest : Entries m rawMadt madtLen (off + entryLen m rawMadt off) offs) :
      Entries m rawMadt madtLen off (off :: offs)

structure WellFormed (m : Mem) (rawMadt : ℕ) (offs : List ℕ) : Prop where
  signature : bytesAt m rawMadt 4 = madtSignature
  entries : Entries m rawMadt (madtLength m rawMadt) sizeofMadtHeader offs

/-- Every entry is of a type that the source has a name for. -/
def Known (m : Mem) (rawMadt : ℕ) (offs : List ℕ) : Prop :=
  ∀ off ∈ offs, ∃ t : EntryType, entryType m rawMadt off = t.code

/-- The number of processors in the table. -/
def cpus (m : Mem) (rawMadt : ℕ) (offs : List ℕ) : ℕ :=
  offs.countP fun off => entryType m rawMadt off = EntryType.processorLocalApic.code

/-- **What the parse is for.** It ends, no byte behind the table is read (the signature and the length
are read in any case), and the processors of a well-formed table are reported. -/
def ParsedRight (m : Mem) (rawMadt : ℕ) : Prop :=
  ∃ fuel r, acpiParseMadt m rawMadt fuel = some r ∧
    (∀ off ∈ r.reads, off < 8 ∨ off < madtLength m rawMadt) ∧
    ∀ offs, WellFormed m rawMadt offs → Known m rawMadt offs →
      r.message.reported = some (cpus m rawMadt offs : ℤ)

/-! ## The loop -/

section Loop

variable {m : Mem} {rawMadt madtLen fuel off off' nrCpus : ℕ} {offs : List ℕ} {r : Parsed}

/-- The entry at `off` has a case in the `switch`. -/
def Handled (m : Mem) (rawMadt off : ℕ) : Prop :=
  entryType m rawMadt off ∈ [EntryType.processorLocalApic.code, EntryType.ioApic.code,
    EntryType.intSourceOverride.code, EntryType.localApicNmi.code]

/-- The loop goes on from `off` to `off'`. -/
def Step (m : Mem) (rawMadt madtLen off off' : ℕ) : Prop :=
  off < madtLen ∧ Handled m rawMadt off ∧ off' = off + entryLen m rawMadt off

/-- The loop gets from `off` to `off'`. -/
abbrev Reaches (m : Mem) (rawMadt madtLen : ℕ) : ℕ → ℕ → Prop :=
  Relation.ReflTransGen (Step m rawMadt madtLen)

theorem countEntry_of_handled (h : Handled m rawMadt off) (nrCpus : ℕ) :
    countEntry (entryType m rawMadt off) nrCpus = some (nrCpus +
      if entryType m rawMadt off = EntryType.processorLocalApic.code then 1 else 0) := by
  simp only [Handled, List.mem_cons, List.not_mem_nil, or_false] at h
  unfold countEntry
  rcases h with h | h | h | h
  all_goals
    rw [h]
    rfl

theorem countEntry_of_not_handled (h : ¬ Handled m rawMadt off) (nrCpus : ℕ) :
    countEntry (entryType m rawMadt off) nrCpus = none := by
  simp only [Handled, List.mem_cons, List.not_mem_nil, or_false, not_or] at h
  obtain ⟨h₁, h₂, h₃, h₄⟩ := h
  rw [countEntry, if_neg h₁, if_neg h₂, if_neg h₃, if_neg h₄]

theorem le_of_reaches (h : Reaches m rawMadt madtLen off off') : off ≤ off' := by
  induction h with
  | refl => exact le_rfl
  | tail _ hstep ih =>
      obtain ⟨-, -, rfl⟩ := hstep
      omega

theorem parseEntries_of_handled (hlt : off < madtLen) (h : Handled m rawMadt off) :
    parseEntries m rawMadt madtLen (fuel + 1) off nrCpus =
      (parseEntries m rawMadt madtLen fuel (off + entryLen m rawMadt off) (nrCpus +
        if entryType m rawMadt off = EntryType.processorLocalApic.code then 1 else 0)).map
          fun r => { r with reads := off :: (off + 1) :: r.reads } := by
  rw [parseEntries, if_pos hlt, countEntry_of_handled h]

theorem parseEntries_of_not_handled (hlt : off < madtLen) (h : ¬ Handled m rawMadt off) :
    parseEntries m rawMadt madtLen (fuel + 1) off nrCpus =
      some ⟨.unknownEntry (entryType m rawMadt off), [off, off + 1]⟩ := by
  rw [parseEntries, if_pos hlt, countEntry_of_not_handled h]

theorem parseEntries_of_ge (hge : madtLen ≤ off) :
    parseEntries m rawMadt madtLen (fuel + 1) off nrCpus = some ⟨.foundCpus nrCpus, []⟩ := by
  rw [parseEntries, if_neg (Nat.not_lt.mpr hge)]

theorem parseEntries_cases (h : parseEntries m rawMadt madtLen fuel off nrCpus = some r) :
    (madtLen ≤ off ∧ r = ⟨.foundCpus nrCpus, []⟩) ∨
    (off < madtLen ∧ ¬ Handled m rawMadt off ∧
      r = ⟨.unknownEntry (entryType m rawMadt off), [off, off + 1]⟩) ∨
    (off < madtLen ∧ Handled m rawMadt off ∧ ∃ fuel' r', fuel = fuel' + 1 ∧
      parseEntries m rawMadt madtLen fuel' (off + entryLen m rawMadt off) (nrCpus +
        if entryType m rawMadt off = EntryType.processorLocalApic.code then 1 else 0) = some r' ∧
      r = ⟨r'.message, off :: (off + 1) :: r'.reads⟩) := by
  cases fuel with
  | zero => exact nomatch h
  | succ fuel =>
      by_cases hlt : off < madtLen
      · by_cases hcase : Handled m rawMadt off
        · rw [parseEntries_of_handled hlt hcase, Option.map_eq_some_iff] at h
          obtain ⟨r', hr', rfl⟩ := h
          exact .inr (.inr ⟨hlt, hcase, fuel, r', rfl, hr', rfl⟩)
        · rw [parseEntries_of_not_handled hlt hcase] at h
          exact .inr (.inl ⟨hlt, hcase, (Option.some.inj h).symm⟩)
      · rw [parseEntries_of_ge (Nat.not_lt.mp hlt)] at h
        exact .inl ⟨Nat.not_lt.mp hlt, (Option.some.inj h).symm⟩

theorem parseEntries_stuck (hlt : off < madtLen) (hcase : Handled m rawMadt off)
    (hzero : entryLen m rawMadt off = 0) (fuel nrCpus : ℕ) :
    parseEntries m rawMadt madtLen fuel off nrCpus = none := by
  induction fuel generalizing nrCpus with
  | zero => rfl
  | succ fuel ih =>
      rw [parseEntries_of_handled hlt hcase, hzero, Nat.add_zero off, ih]
      rfl

theorem parseEntries_reaches (hreach : Reaches m rawMadt madtLen off off')
    (h : parseEntries m rawMadt madtLen fuel off nrCpus = some r) :
    ∃ fuel' nrCpus' r', parseEntries m rawMadt madtLen fuel' off' nrCpus' = some r' ∧
      ∀ o ∈ r'.reads, o ∈ r.reads := by
  induction hreach using Relation.ReflTransGen.head_induction_on generalizing fuel nrCpus r with
  | refl => exact ⟨fuel, nrCpus, r, h, fun o ho => ho⟩
  | head hstep hreach ih =>
      obtain ⟨hlt, hcase, rfl⟩ := hstep
      rcases parseEntries_cases h with ⟨hge, -⟩ | ⟨-, hnot, -⟩ | ⟨-, -, fuel₁, r₁, -, h₁, rfl⟩
      · exact absurd hge (Nat.not_le.mpr hlt)
      · exact absurd hcase hnot
      · obtain ⟨fuel', nrCpus', r', h', hreads⟩ := ih h₁
        refine ⟨fuel', nrCpus', r', h', fun o ho => ?_⟩
        exact List.mem_cons_of_mem _ (List.mem_cons_of_mem _ (hreads o ho))

/-- **The loop ends** if it gets to no entry of length 0. -/
theorem exists_parseEntries
    (hpos : ∀ off', Reaches m rawMadt madtLen off off' → off' < madtLen → Handled m rawMadt off' →
      entryLen m rawMadt off' ≠ 0)
    (hfuel : madtLen ≤ off + fuel) (nrCpus : ℕ) :
    ∃ r, parseEntries m rawMadt madtLen (fuel + 1) off nrCpus = some r := by
  induction fuel generalizing off nrCpus with
  | zero => exact ⟨_, parseEntries_of_ge hfuel⟩
  | succ fuel ih =>
      by_cases hlt : off < madtLen
      · by_cases hcase : Handled m rawMadt off
        · have hlen : entryLen m rawMadt off ≠ 0 := hpos off .refl hlt hcase
          have hstep : Step m rawMadt madtLen off (off + entryLen m rawMadt off) := ⟨hlt, hcase, rfl⟩
          obtain ⟨r, hr⟩ := ih (fun off' hreach => hpos off' (.head hstep hreach))
            (by omega) (nrCpus + if entryType m rawMadt off = EntryType.processorLocalApic.code
              then 1 else 0)
          rw [parseEntries_of_handled hlt hcase, hr]
          exact ⟨_, rfl⟩
        · exact ⟨_, parseEntries_of_not_handled hlt hcase⟩
      · exact ⟨_, parseEntries_of_ge (Nat.not_lt.mp hlt)⟩

theorem reads_of_parseEntries (h : parseEntries m rawMadt madtLen fuel off nrCpus = some r) :
    ∀ o ∈ r.reads, ∃ off', Reaches m rawMadt madtLen off off' ∧ off' < madtLen ∧
      (o = off' ∨ o = off' + 1) := by
  induction fuel generalizing off nrCpus r with
  | zero => exact nomatch h
  | succ fuel ih =>
      intro o ho
      rcases parseEntries_cases h with ⟨-, rfl⟩ | ⟨hlt, -, rfl⟩ | ⟨hlt, hcase, fuel', r', hf, hr', rfl⟩
      · cases ho
      · simp only [List.mem_cons, List.not_mem_nil, or_false] at ho
        exact ⟨off, .refl, hlt, ho⟩
      · simp only [List.mem_cons] at ho
        rcases ho with ho | ho | ho
        · exact ⟨off, .refl, hlt, .inl ho⟩
        · exact ⟨off, .refl, hlt, .inr ho⟩
        · obtain rfl := Nat.succ.inj hf
          obtain ⟨off', hreach, hin⟩ := ih hr' o ho
          exact ⟨off', .head ⟨hlt, hcase, rfl⟩ hreach, hin⟩

theorem succ_mem_reads (hlt : off < madtLen)
    (h : parseEntries m rawMadt madtLen fuel off nrCpus = some r) : off + 1 ∈ r.reads := by
  rcases parseEntries_cases h with ⟨hge, -⟩ | ⟨-, -, rfl⟩ | ⟨-, -, fuel', r', -, -, rfl⟩
  · exact absurd hge (Nat.not_le.mpr hlt)
  · simp
  · simp

theorem entryLen_ne_zero_of_parsed (h : parseEntries m rawMadt madtLen fuel off nrCpus = some r)
    (hreach : Reaches m rawMadt madtLen off off') (hlt : off' < madtLen)
    (hcase : Handled m rawMadt off') : entryLen m rawMadt off' ≠ 0 := by
  intro hzero
  obtain ⟨fuel', nrCpus', r', hr', -⟩ := parseEntries_reaches hreach h
  rw [parseEntries_stuck hlt hcase hzero] at hr'
  cases hr'

theorem succ_mem_reads_of_reaches (h : parseEntries m rawMadt madtLen fuel off nrCpus = some r)
    (hreach : Reaches m rawMadt madtLen off off') (hlt : off' < madtLen) : off' + 1 ∈ r.reads := by
  obtain ⟨fuel', nrCpus', r', hr', hsub⟩ := parseEntries_reaches hreach h
  exact hsub _ (succ_mem_reads hlt hr')

theorem reads_lt_of_last_not_reached (h : parseEntries m rawMadt madtLen fuel off nrCpus = some r)
    (hlast : ∀ off', Reaches m rawMadt madtLen off off' → off' + 1 ≠ madtLen) :
    ∀ o ∈ r.reads, o < madtLen := by
  intro o ho
  obtain ⟨off', hreach, hlt, hor⟩ := reads_of_parseEntries h o ho
  have hne := hlast off' hreach
  omega

end Loop

/-! ## The count -/

namespace Entries

variable {m : Mem} {rawMadt madtLen fuel off nrCpus : ℕ} {offs : List ℕ} {r : Parsed}

theorem end_le (h : Entries m rawMadt madtLen off offs) : off + 2 * offs.length ≤ madtLen := by
  induction h with
  | done => simp
  | entry hlen _ ih =>
      rw [List.length_cons]
      omega

theorem handled_of_known {t : EntryType} (h : entryType m rawMadt off = t.code)
    (hne : entryType m rawMadt off ≠ EntryType.nmiSource.code) : Handled m rawMadt off := by
  rw [h] at hne
  rw [Handled, h]
  cases t
  case nmiSource => exact absurd rfl hne
  all_goals decide

theorem not_handled_nmiSource (h : entryType m rawMadt off = EntryType.nmiSource.code) :
    ¬ Handled m rawMadt off := by
  rw [Handled, h]
  decide

theorem message_of_handled (h : Entries m rawMadt madtLen off offs)
    (hcases : ∀ o ∈ offs, Handled m rawMadt o)
    (hr : parseEntries m rawMadt madtLen fuel off nrCpus = some r) :
    r.message = .foundCpus (nrCpus + cpus m rawMadt offs) := by
  induction h generalizing fuel nrCpus r with
  | done =>
      rcases parseEntries_cases hr with ⟨-, rfl⟩ | ⟨hlt, -⟩ | ⟨hlt, -⟩
      · rfl
      · exact absurd hlt (lt_irrefl _)
      · exact absurd hlt (lt_irrefl _)
  | @entry off offs hlen hrest ih =>
      have hend := hrest.end_le
      rcases parseEntries_cases hr with ⟨hge, -⟩ | ⟨-, hnot, -⟩ | ⟨-, -, fuel', r', -, hr', rfl⟩
      · omega
      · exact absurd (hcases off List.mem_cons_self) hnot
      · rw [ih (fun o ho => hcases o (List.mem_cons_of_mem _ ho)) hr', cpus, cpus, List.countP_cons]
        simp only [decide_eq_true_eq]
        congr 1
        omega

theorem message_of_not_handled (h : Entries m rawMadt madtLen off offs)
    (hcase : ∃ o ∈ offs, ¬ Handled m rawMadt o)
    (hr : parseEntries m rawMadt madtLen fuel off nrCpus = some r) : r.message.reported = none := by
  induction h generalizing fuel nrCpus r with
  | done =>
      obtain ⟨o, ho, -⟩ := hcase
      cases ho
  | @entry off offs hlen hrest ih =>
      have hend := hrest.end_le
      rcases parseEntries_cases hr with ⟨hge, -⟩ | ⟨-, -, rfl⟩ | ⟨-, hhere, fuel', r', -, hr', rfl⟩
      · omega
      · rfl
      · obtain ⟨o, ho, hnot⟩ := hcase
        rcases List.mem_cons.mp ho with rfl | ho
        · exact absurd hhere hnot
        · have hrest : r'.message.reported = none := ih ⟨o, ho, hnot⟩ hr'
          exact hrest

end Entries

theorem reported_foundCpus {n : ℕ} (hn : n < 2 ^ 31) :
    (Message.foundCpus n).reported = some (n : ℤ) := by
  have hvalue : Printf.Conversion.value { specifier := .d } n = n := by
    rw [Printf.Conversion.value, if_pos rfl, show Printf.LengthModifier.int.bits = 32 from rfl]
    apply Int.bmod_eq_of_le <;> omega
  rw [Message.reported, hvalue]

theorem WellFormed.cpus_lt {m : Mem} {rawMadt : ℕ} {offs : List ℕ} (h : WellFormed m rawMadt offs) :
    cpus m rawMadt offs < 2 ^ 31 := by
  have hcount : cpus m rawMadt offs ≤ offs.length := List.countP_le_length
  have hend := h.entries.end_le
  have hlen : madtLength m rawMadt < 2 ^ 32 := load_lt m (rawMadt + 4) 4
  simp only [sizeofMadtHeader] at hend
  omega

/-- **The MADT.** The parse is right exactly if it gets to no entry of length 0 that it has a case
for and to no entry that starts at the last byte of the table, and a table with known entries only
has no NMI source. -/
theorem acpi_parse_madt_correct_iff (m : Mem) (rawMadt : ℕ) :
    ParsedRight m rawMadt ↔ (bytesAt m rawMadt 4 = madtSignature →
      (∀ off, Reaches m rawMadt (madtLength m rawMadt) sizeofMadtHeader off →
        (off < madtLength m rawMadt → Handled m rawMadt off → entryLen m rawMadt off ≠ 0) ∧
        off + 1 ≠ madtLength m rawMadt) ∧
      ∀ offs, WellFormed m rawMadt offs → Known m rawMadt offs →
        ∀ off ∈ offs, entryType m rawMadt off ≠ EntryType.nmiSource.code) := by
  constructor
  · rintro ⟨fuel, r, hr, hreads, hcount⟩ hsig
    rw [acpiParseMadt, if_neg (not_not.mpr hsig), Option.map_eq_some_iff] at hr
    obtain ⟨r, hr, rfl⟩ := hr
    refine ⟨fun off hreach => ⟨entryLen_ne_zero_of_parsed hr hreach, fun hlast => ?_⟩, ?_⟩
    · have hmem := succ_mem_reads_of_reaches hr hreach (by omega)
      have hle : sizeofMadtHeader ≤ off := le_of_reaches hreach
      have hbound := hreads (off + 1) (List.mem_append_right _ hmem)
      simp only [sizeofMadtHeader] at hle
      omega
    · intro offs hwf hknown off hoff hnmi
      have hnone := hwf.entries.message_of_not_handled
        ⟨off, hoff, Entries.not_handled_nmiSource hnmi⟩ hr
      rw [hcount offs hwf hknown] at hnone
      cases hnone
  · intro hcond
    by_cases hsig : bytesAt m rawMadt 4 = madtSignature
    · obtain ⟨hpath, hnmi⟩ := hcond hsig
      obtain ⟨r, hr⟩ := exists_parseEntries (fun off hreach => (hpath off hreach).1)
        (Nat.le_add_left (madtLength m rawMadt) sizeofMadtHeader) 0
      refine ⟨madtLength m rawMadt + 1, { r with reads := List.range 8 ++ r.reads }, ?_, ?_, ?_⟩
      · rw [acpiParseMadt, if_neg (not_not.mpr hsig), hr]
        rfl
      · intro o ho
        rcases List.mem_append.mp ho with ho | ho
        · exact .inl (List.mem_range.mp ho)
        · exact .inr (reads_lt_of_last_not_reached hr (fun off hreach => (hpath off hreach).2) o ho)
      · intro offs hwf hknown
        have hcases : ∀ o ∈ offs, Handled m rawMadt o := fun o ho =>
          Entries.handled_of_known (hknown o ho).choose_spec (hnmi offs hwf hknown o ho)
        have hmessage := hwf.entries.message_of_handled hcases hr
        rw [Nat.zero_add] at hmessage
        change r.message.reported = _
        rw [hmessage, reported_foundCpus hwf.cpus_lt]
    · refine ⟨0, ⟨.madtMismatch, List.range 4⟩, if_pos hsig, fun o ho => ?_, fun offs hwf => ?_⟩
      · have := List.mem_range.mp ho
        omega
      · exact absurd hwf.signature hsig

/-- A table with a single entry, a local APIC of length 0. -/
def zeroLengthTable : Mem := fun a =>
  (madtSignature ++ leBytes 4 46 ++ List.replicate 36 0 ++ [0, 0]).getD a 0

/-- The parse of the table does not end. -/
theorem acpiParseMadt_zero_length :
    (∀ fuel, acpiParseMadt zeroLengthTable 0 fuel = none) ∧ ¬ ParsedRight zeroLengthTable 0 := by
  have hnone : ∀ fuel, acpiParseMadt zeroLengthTable 0 fuel = none := by
    intro fuel
    have hsig : bytesAt zeroLengthTable 0 4 = madtSignature := by decide
    have hlen : madtLength zeroLengthTable 0 = 46 := by decide
    rw [acpiParseMadt, if_neg (not_not.mpr hsig), hlen,
      parseEntries_stuck (by decide) (by unfold Handled; decide) (by decide)]
    rfl
  refine ⟨hnone, ?_⟩
  rintro ⟨fuel, r, hr, -⟩
  rw [hnone fuel] at hr
  cases hr

/-- Two processors and an I/O APIC. -/
example : (acpiParseMadt (fun a => (madtSignature ++ leBytes 4 72 ++ List.replicate 36 0 ++
    ([0, 8, 0, 0, 1, 0, 0, 0] ++ [0, 8, 1, 1, 1, 0, 0, 0] ++
      [1, 12, 2, 0, 0, 0, 0xc0, 0xfe, 0, 0, 0, 0])).getD a 0) 0 4).map Parsed.message =
    some (.foundCpus 2) := by
  decide

/-! ## The tables that the RSDT lists -/

/-- The loop of `acpi_parse_config`; `none` if it takes more than `rounds` rounds, or if a MADT takes
more than `fuel`. -/
def parseTables (m : Mem) (rsdt fuel : ℕ) : ℕ → ℕ → Option (List Message)
  | 0, _ => none
  | rounds + 1, off =>
      if off < load m (rsdt + 4) 4 then do
        let sdt := load m (rsdt + off) 4
        let printed ← if bytesAt m sdt 4 = madtSignature then
            (acpiParseMadt m sdt fuel).map fun r => [r.message]
          else some []
        let rest ← parseTables m rsdt fuel rounds (off + 4)
        some (printed ++ rest)
      else some []

/-- What `acpi_parse_config` prints. -/
def acpiParseConfig (m : Mem) (rawRsdp fuel : ℕ) : Option (List Message) :=
  if bytesAt m rawRsdp 8 ≠ rsdpSignature then some [.rsdpMismatch]
  else
    let rsdt := load m (rawRsdp + 16) 4
    if bytesAt m rsdt 4 ≠ rsdtSignature then some [.rsdtMismatch]
    else parseTables m rsdt fuel fuel sizeofSdtHeader

/-- The addresses in the RSDT from `off` on, in `n` words. -/
def listed (m : Mem) (rsdt off n : ℕ) : List ℕ :=
  (List.range n).map fun i => load m (rsdt + (off + 4 * i)) 4

/-- The words that are read: a part of a word at the end of the table counts as one. -/
def rsdtWords (m : Mem) (rsdt : ℕ) : ℕ := (load m (rsdt + 4) 4 - sizeofSdtHeader + 3) / 4

section Tables

variable {m : Mem} {rsdt fuel : ℕ} {message : ℕ → Message}

theorem listed_succ (m : Mem) (rsdt off n : ℕ) :
    listed m rsdt off (n + 1) = load m (rsdt + off) 4 :: listed m rsdt (off + 4) n := by
  simp only [listed, List.range_succ_eq_map, List.map_cons, List.map_map, Nat.mul_zero, Nat.add_zero]
  refine congrArg _ (List.map_congr_left fun i _ => ?_)
  simp only [Function.comp_apply]
  congr 2
  omega

theorem parseTables_eq {n rounds off : ℕ} (hrounds : n < rounds)
    (hn : n = (load m (rsdt + 4) 4 - off + 3) / 4)
    (hmadt : ∀ t ∈ listed m rsdt off n, bytesAt m t 4 = madtSignature →
      ∃ r, acpiParseMadt m t fuel = some r ∧ r.message = message t) :
    parseTables m rsdt fuel rounds off =
      some (((listed m rsdt off n).filter fun t => bytesAt m t 4 = madtSignature).map message) := by
  induction n generalizing rounds off with
  | zero =>
      obtain ⟨rounds, rfl⟩ := Nat.exists_eq_add_one.mpr hrounds
      have hge : ¬ off < load m (rsdt + 4) 4 := by omega
      rw [parseTables, if_neg hge]
      rfl
  | succ n ih =>
      obtain ⟨rounds, rfl⟩ := Nat.exists_eq_add_one.mpr (Nat.zero_lt_of_lt hrounds)
      have hlt : off < load m (rsdt + 4) 4 := by omega
      rw [listed_succ] at hmadt ⊢
      have hrest : parseTables m rsdt fuel rounds (off + 4) = _ := ih (by omega) (by omega)
        fun t ht => hmadt t (List.mem_cons_of_mem _ ht)
      rw [parseTables, if_pos hlt, hrest]
      by_cases hsig : bytesAt m (load m (rsdt + off) 4) 4 = madtSignature
      · obtain ⟨r, hr, hmessage⟩ := hmadt _ List.mem_cons_self hsig
        simp [hsig, hr, hmessage]
      · simp [hsig]

end Tables

/-- **Every MADT is parsed, in the order of the RSDT**: if the parses of the listed MADTs end, so does
`acpi_parse_config`, and it prints what they print. -/
theorem acpiParseConfig_eq {m : Mem} {rawRsdp : ℕ} {message : ℕ → Message}
    (hrsdp : bytesAt m rawRsdp 8 = rsdpSignature)
    (hrsdt : bytesAt m (load m (rawRsdp + 16) 4) 4 = rsdtSignature) {fuel : ℕ}
    (hfuel : rsdtWords m (load m (rawRsdp + 16) 4) < fuel)
    (hmadt : ∀ t ∈ listed m (load m (rawRsdp + 16) 4) sizeofSdtHeader
        (rsdtWords m (load m (rawRsdp + 16) 4)), bytesAt m t 4 = madtSignature →
      ∃ r, acpiParseMadt m t fuel = some r ∧ r.message = message t) :
    acpiParseConfig m rawRsdp fuel = some (((listed m (load m (rawRsdp + 16) 4) sizeofSdtHeader
      (rsdtWords m (load m (rawRsdp + 16) 4))).filter
        fun t => bytesAt m t 4 = madtSignature).map message) := by
  rw [acpiParseConfig, if_neg (not_not.mpr hrsdp)]
  dsimp only
  rw [if_neg (not_not.mpr hrsdt)]
  exact parseTables_eq hfuel rfl hmadt

/-- An RSDT with two tables: one of another signature, and a MADT with two processors. -/
def oneMadt : Mem := fun a => (rsdpSignature ++ List.replicate 8 0 ++ leBytes 4 20 ++
  (rsdtSignature ++ leBytes 4 44 ++ List.replicate 28 0 ++ leBytes 4 124 ++ leBytes 4 64) ++
  (madtSignature ++ leBytes 4 60 ++ List.replicate 36 0 ++
    ([0, 8, 0, 0, 1, 0, 0, 0] ++ [0, 8, 1, 1, 1, 0, 0, 0])) ++ [70, 65, 67, 80]).getD a 0

theorem acpiParseConfig_one_madt : acpiParseConfig oneMadt 0 4 = some [.foundCpus 2] :=
  (@acpiParseConfig_eq oneMadt 0 (fun _ => .foundCpus 2) (by decide) (by decide) 4 (by decide)
    (fun t ht hsig => by
      obtain rfl | ht := List.mem_cons.mp ht
      · exact absurd hsig (by decide)
      · obtain rfl : t = 64 := List.mem_singleton.mp ht
        exact ⟨_, rfl, rfl⟩)).trans (by decide)

end Acpi

end Manticore
