import Mathlib.Data.Nat.Bitwise
import Manticore.Drivers.PciBar
import Manticore.Drivers.PciCapability
import Manticore.Kernel.IoPort

/-!
# MSI-X

A PCI device with its BARs mapped, and the functions that go to the table of its MSI-X capability.  The number of table entries is a field of the message control
register, and the table starts at `table_offset` of a BAR.

In `control & PCI_MSIX_MSG_CTRL_TABLE_SIZE + 1` the sum is taken first, and `get_entry_addr` leaves
`table_offset` out.  A panic is `none`.

The 16-bit registers of configuration space are read and written by any functions, so nothing is
assumed of a register that does not read back what was written.
-/

namespace Manticore

def pciCfgCommand : UInt8 := 0x04
def pciCmdIntxDisable : ℕ := 1 <<< 10
def pciMsixMsgCtrl : UInt8 := 0x02
def pciMsixMsgCtrlMsixEnable : ℕ := 1 <<< 15
def pciMsixMsgCtrlFunctionMask : ℕ := 1 <<< 14
def pciMsixMsgCtrlTableSize : ℕ := (1 <<< 11) - 1
def pciMsixTableOffsetMask : ℕ := 0x7ffffff8
def pciMsixEntryVectorCtrlMaskBit : ℕ := 1 <<< 0
def msixEntrySize : ℕ := 16
def msixEntryAddr : ℕ := 0
def msixEntryData : ℕ := 8
def msixEntryControl : ℕ := 12
structure MSIX where
  offset : UInt8
  tableBar : ℕ
  tableOffset : ℕ
  tableOffset_lt : tableOffset < 2 ^ 32

structure PCIDevice where
  bars : Fin 6 → Option IOPort
  msix : Option MSIX

/-- The 16-bit registers of a function. -/
structure ConfigU16 (σ : Type) where
  read : σ → UInt8 → UInt16
  write : σ → UInt8 → ℕ → σ

theorem tableOffset_lt (msixTable : ℕ) : msixTable &&& pciMsixTableOffsetMask < 2 ^ 32 :=
  Nat.lt_of_le_of_lt Nat.and_le_right (by decide)

namespace PCIDevice

open IOPort (World)

variable {σ : Type} (C : ConfigU16 σ) (dev : PCIDevice)

/-- `None` if there is no capability or the BAR is not mapped. -/
def getMsixTable : Option (Option IOPort) :=
  match dev.msix with
  | some msix => if h : msix.tableBar < 6 then some (dev.bars ⟨msix.tableBar, h⟩) else none
  | none => some none

def getEntryAddr (id : ℕ) : ℕ := id * msixEntrySize

def readMsixEntryCtrl (id : ℕ) (w : World) : Option (ℕ × World) :=
  dev.getMsixTable.bind fun
    | some ioport => ioport.read 4 (getEntryAddr id + msixEntryControl) w
    | none => some (0, w)

def writeMsixEntryCtrl (id ctrlData : ℕ) (w : World) : Option World :=
  dev.getMsixTable.bind fun
    | some ioport => ioport.write 4 ctrlData (getEntryAddr id + msixEntryControl) w
    | none => some w

def maskMsixEntry (id : ℕ) (w : World) : Option World := do
  let (ctrlData, w) ← dev.readMsixEntryCtrl id w
  dev.writeMsixEntryCtrl id (ctrlData ||| pciMsixEntryVectorCtrlMaskBit) w

def unmaskMsixEntry (id : ℕ) (w : World) : Option World := do
  let (ctrlData, w) ← dev.readMsixEntryCtrl id w
  dev.writeMsixEntryCtrl id (ctrlData &&& not32 pciMsixEntryVectorCtrlMaskBit) w

def writeMsixEntry (id addr data : ℕ) (w : World) : Option World :=
  dev.getMsixTable.bind fun
    | some ioport => do
        let w ← ioport.write 8 addr (getEntryAddr id + msixEntryAddr) w
        ioport.write 4 data (getEntryAddr id + msixEntryData) w
    | none => some w

def disableIntx (cfg : σ) : σ :=
  C.write cfg pciCfgCommand ((C.read cfg pciCfgCommand).toNat ||| pciCmdIntxDisable)

/-- `for id in 0..table_size`. -/
def maskMsixEntries (w : World) : List ℕ → Option World
  | [] => some w
  | id :: ids => (dev.maskMsixEntry id w).bind fun w => maskMsixEntries w ids

/-- The message control register that `enable_msix` reads. -/
def msgControl (msix : MSIX) (cfg : σ) : ℕ :=
  (C.read (disableIntx C cfg) (msix.offset + pciMsixMsgCtrl)).toNat

/-- The entries that `enable_msix` masks, of a message control register. -/
def maskedEntries (control : ℕ) : ℕ :=
  (control ||| pciMsixMsgCtrlMsixEnable ||| pciMsixMsgCtrlFunctionMask) &&&
    (pciMsixMsgCtrlTableSize + 1)

def enableMsix (cfg : σ) (w : World) : Option (σ × World) :=
  match dev.msix with
  | none => some (cfg, w)
  | some msix =>
      let control := msgControl C msix cfg
      let cfg := disableIntx C cfg
      let cfg := C.write cfg (msix.offset + pciMsixMsgCtrl)
        (control ||| pciMsixMsgCtrlMsixEnable ||| pciMsixMsgCtrlFunctionMask)
      (dev.maskMsixEntries w (List.range (maskedEntries control))).map fun w =>
        let control := (C.read cfg (msix.offset + pciMsixMsgCtrl)).toNat
        (C.write cfg (msix.offset + pciMsixMsgCtrl)
          (control &&& not16 pciMsixMsgCtrlFunctionMask), w)

/-! ## What the table is -/

/-- The number of table entries, of a message control register. -/
def tableEntries (control : ℕ) : ℕ := (control &&& 0x7ff) + 1

/-- Byte `k` of entry `id` of the table at `tableOffset` of the BAR. -/
def entryByte (bar : IOPort) (tableOffset id k : ℕ) : PortSpace × ℕ :=
  (bar.space, (bar.base + (tableOffset + 16 * id + k)) % bar.space.card)

/-- The mask bit is bit 0 of the vector control word, which has offset 12 in the entry. -/
def EntryMasked (bar : IOPort) (tableOffset : ℕ) (w : World) (id : ℕ) : Prop :=
  (w.byte (entryByte bar tableOffset id 12)).toNat % 2 = 1

/-- A call returns, and what it reads and writes is entry `id`. -/
def OnlyEntry (bar : IOPort) (tableOffset id : ℕ) (w : World) (result : Option World) : Prop :=
  ∃ w' as, result = some w' ∧ w'.log = w.log ++ as ∧
    ∀ a ∈ as, ∃ k < 16, a = entryByte bar tableOffset id k

/-- **MSI-X masking covers the table**, for the table of `msix` in `bar`. -/
structure MsixCovers (msix : MSIX) (bar : IOPort) (cfg : σ) : Prop where
  enable : ∀ w, ∃ cfg' w', dev.enableMsix C cfg w = some (cfg', w') ∧
    ∀ id < tableEntries (msgControl C msix cfg), EntryMasked bar msix.tableOffset w' id
  mask : ∀ id < tableEntries (msgControl C msix cfg), ∀ w,
    OnlyEntry bar msix.tableOffset id w (dev.maskMsixEntry id w)
  unmask : ∀ id < tableEntries (msgControl C msix cfg), ∀ w,
    OnlyEntry bar msix.tableOffset id w (dev.unmaskMsixEntry id w)
  write : ∀ id < tableEntries (msgControl C msix cfg), ∀ addr data w,
    OnlyEntry bar msix.tableOffset id w (dev.writeMsixEntry id addr data w)

/-! ## Bytes of a word -/

theorem or_one_eq (n : ℕ) : n ||| 1 = 2 * (n / 2) + 1 := by
  apply Nat.eq_of_testBit_eq
  intro i
  cases i with
  | zero => simp
  | succ i =>
      rw [Nat.testBit_or, Nat.testBit_succ, Nat.testBit_succ, Nat.testBit_succ]
      simp [Nat.mul_add_div]

theorem leBytes_or_one (b : UInt8) (bs : List UInt8) :
    leBytes (bs.length + 1) (leNat (b :: bs) ||| 1) = (b ||| 1) :: bs := by
  have hbit : leNat (b :: bs) ||| 1 = leNat ((b ||| 1) :: bs) := by
    rw [leNat, leNat, UInt8.toNat_or, show (1 : UInt8).toNat = 1 from rfl, or_one_eq, or_one_eq]
    omega
  rw [hbit]
  exact leBytes_leNat ((b ||| 1) :: bs)

theorem toNat_or_one_mod_two (b : UInt8) : (b ||| 1).toNat % 2 = 1 := by
  rw [UInt8.toNat_or, show (1 : UInt8).toNat = 1 from rfl, or_one_eq]
  omega

theorem storeBytes_self (byte : PortSpace × ℕ → UInt8) (as : List (PortSpace × ℕ)) :
    IOPort.storeBytes byte as (as.map byte) = byte := by
  induction as with
  | nil => rfl
  | cons a as ih =>
      have hcons : IOPort.storeBytes byte (a :: as) ((a :: as).map byte) =
          Function.update (IOPort.storeBytes byte as (as.map byte)) a (byte a) := rfl
      rw [hcons, ih, Function.update_eq_self]

theorem storeBytes_head (byte : PortSpace × ℕ → UInt8) (a : PortSpace × ℕ)
    (as : List (PortSpace × ℕ)) (b : UInt8) :
    IOPort.storeBytes byte (a :: as) (b :: as.map byte) = Function.update byte a b := by
  have hcons : IOPort.storeBytes byte (a :: as) (b :: as.map byte) =
      Function.update (IOPort.storeBytes byte as (as.map byte)) a b := rfl
  rw [hcons, storeBytes_self]

/-! ## Accesses to an entry -/

variable {C dev} {msix : MSIX} {bar : IOPort} {w : World} {id : ℕ}

theorem addr_entry (bar : IOPort) (id k j : ℕ) :
    (bar.space, (bar.addr (getEntryAddr id + k) + j) % bar.space.card) =
      entryByte bar 0 id (k + j) := by
  rw [entryByte, IOPort.addr_eq, Nat.mod_add_mod, getEntryAddr, msixEntrySize]
  congr 2
  omega

theorem accessed_entry_four (bar : IOPort) (id k : ℕ) :
    bar.accessed 4 (getEntryAddr id + k) =
      some ((List.range 4).map fun j => entryByte bar 0 id (k + j)) := by
  have hcode : bar.accessed 4 (getEntryAddr id + k) = some ((List.range 4).map fun j =>
      (bar.space, (bar.addr (getEntryAddr id + k) + j) % bar.space.card)) := by
    cases bar <;> rfl
  simp only [hcode, addr_entry]

theorem accessed_entry_eight (hmem : bar.space = .memory) (id k : ℕ) :
    bar.accessed 8 (getEntryAddr id + k) =
      some ((List.range 8).map fun j => entryByte bar 0 id (k + j)) := by
  have hcode : bar.accessed 8 (getEntryAddr id + k) = some ((List.range 8).map fun j =>
      (bar.space, (bar.addr (getEntryAddr id + k) + j) % bar.space.card)) := by
    cases bar with
    | memory => rfl
    | io => cases hmem
  simp only [hcode, addr_entry]

theorem mem_entryBytes {bar : IOPort} {id k n : ℕ} (h : k + n ≤ 16) :
    ∀ a ∈ (List.range n).map fun j => entryByte bar 0 id (k + j),
      ∃ k' < 16, a = entryByte bar 0 id k' := by
  intro a ha
  obtain ⟨j, hj, rfl⟩ := List.mem_map.mp ha
  have hlt := List.mem_range.mp hj
  exact ⟨k + j, by omega, rfl⟩

section Table

variable (htable : dev.getMsixTable = some (some bar))
include htable

theorem maskMsixEntry_eq (id : ℕ) (w : World) :
    let a := entryByte bar 0 id 12
    let as := (List.range 4).map fun j => entryByte bar 0 id (12 + j)
    dev.maskMsixEntry id w =
      some ⟨Function.update w.byte a (w.byte a ||| 1), w.log ++ (as ++ as)⟩ := by
  dsimp only
  have hbytes := leBytes_or_one (w.byte (entryByte bar 0 id 12))
    ([entryByte bar 0 id 13, entryByte bar 0 id 14, entryByte bar 0 id 15].map w.byte)
  have hstore := storeBytes_head w.byte (entryByte bar 0 id 12)
    [entryByte bar 0 id 13, entryByte bar 0 id 14, entryByte bar 0 id 15]
    (w.byte (entryByte bar 0 id 12) ||| 1)
  rw [← hbytes] at hstore
  rw [maskMsixEntry, readMsixEntryCtrl, htable, Option.bind_some]
  simp only [IOPort.read, msixEntryControl, accessed_entry_four, Option.map_some,
    Option.bind_eq_bind, Option.bind_some]
  rw [writeMsixEntryCtrl, htable, Option.bind_some]
  simp only [IOPort.write, msixEntryControl, accessed_entry_four, Option.map_some]
  rw [← hstore, List.append_assoc]
  rfl

theorem onlyEntry_mask (id : ℕ) (w : World) : OnlyEntry bar 0 id w (dev.maskMsixEntry id w) := by
  refine ⟨_, _, maskMsixEntry_eq htable id w, rfl, fun a ha => ?_⟩
  exact (List.mem_append.mp ha).elim (mem_entryBytes (by decide) a) (mem_entryBytes (by decide) a)

theorem onlyEntry_unmask (id : ℕ) (w : World) :
    OnlyEntry bar 0 id w (dev.unmaskMsixEntry id w) := by
  rw [unmaskMsixEntry, readMsixEntryCtrl, htable, Option.bind_some]
  simp only [IOPort.read, msixEntryControl, accessed_entry_four, Option.map_some,
    Option.bind_eq_bind, Option.bind_some]
  rw [writeMsixEntryCtrl, htable, Option.bind_some]
  simp only [IOPort.write, msixEntryControl, accessed_entry_four, Option.map_some]
  refine ⟨_, _, rfl, List.append_assoc .., fun a ha => ?_⟩
  exact (List.mem_append.mp ha).elim (mem_entryBytes (by decide) a) (mem_entryBytes (by decide) a)

theorem writeMsixEntry_log (hmem : bar.space = .memory) (id addr data : ℕ) (w : World) :
    ∃ w', dev.writeMsixEntry id addr data w = some w' ∧
      w'.log = w.log ++ (((List.range 8).map fun j => entryByte bar 0 id (0 + j)) ++
        (List.range 4).map fun j => entryByte bar 0 id (8 + j)) := by
  rw [writeMsixEntry, htable, Option.bind_some]
  simp only [IOPort.write, msixEntryAddr, msixEntryData, accessed_entry_eight hmem,
    accessed_entry_four, Option.map_some, Option.bind_eq_bind, Option.bind_some]
  exact ⟨_, rfl, List.append_assoc ..⟩

theorem onlyEntry_write (hmem : bar.space = .memory) (id addr data : ℕ) (w : World) :
    OnlyEntry bar 0 id w (dev.writeMsixEntry id addr data w) := by
  obtain ⟨w', hrun, hlog⟩ := writeMsixEntry_log htable hmem id addr data w
  refine ⟨w', _, hrun, hlog, fun a ha => ?_⟩
  exact (List.mem_append.mp ha).elim (mem_entryBytes (by decide) a) (mem_entryBytes (by decide) a)

theorem writeMsixEntry_io (hio : bar.space = .io) (id addr data : ℕ) (w : World) :
    dev.writeMsixEntry id addr data w = none := by
  rw [writeMsixEntry, htable, Option.bind_some]
  cases bar with
  | memory => cases hio
  | io => rfl

/-! ## Masking the table -/

theorem maskMsixEntry_step (id : ℕ) (w : World) :
    ∃ w', dev.maskMsixEntry id w = some w' ∧
      (∀ a, (w.byte a).toNat % 2 = 1 → (w'.byte a).toNat % 2 = 1) ∧ EntryMasked bar 0 w' id := by
  refine ⟨_, maskMsixEntry_eq htable id w, fun a ha => ?_, ?_⟩ <;> dsimp only [EntryMasked]
  · rcases eq_or_ne a (entryByte bar 0 id 12) with rfl | hne
    · rw [Function.update_self]
      exact toNat_or_one_mod_two _
    · rwa [Function.update_of_ne hne]
  · rw [Function.update_self]
    exact toNat_or_one_mod_two _

theorem maskMsixEntries_spec (ids : List ℕ) (w : World) :
    ∃ w', dev.maskMsixEntries w ids = some w' ∧
      (∀ a, (w.byte a).toNat % 2 = 1 → (w'.byte a).toNat % 2 = 1) ∧
      ∀ id ∈ ids, EntryMasked bar 0 w' id := by
  induction ids generalizing w with
  | nil => exact ⟨w, rfl, fun _ h => h, fun _ h => absurd h List.not_mem_nil⟩
  | cons id ids ih =>
      obtain ⟨w₁, hstep, hkeep₁, hmasked₁⟩ := maskMsixEntry_step htable id w
      obtain ⟨w', hrun, hkeep, hmasked⟩ := ih w₁
      refine ⟨w', ?_, fun a ha => hkeep a (hkeep₁ a ha), fun id' hid => ?_⟩
      · rw [maskMsixEntries, hstep, Option.bind_some, hrun]
      · rcases List.mem_cons.mp hid with rfl | hmem
        · exact hkeep _ hmasked₁
        · exact hmasked id' hmem

end Table

theorem maskedEntries_eq (control : ℕ) :
    maskedEntries control = if control.testBit 11 then 2048 else 0 := by
  have henable : pciMsixMsgCtrlMsixEnable &&& (pciMsixMsgCtrlTableSize + 1) = 0 := by decide
  have hmask : pciMsixMsgCtrlFunctionMask &&& (pciMsixMsgCtrlTableSize + 1) = 0 := by decide
  have hsize : pciMsixMsgCtrlTableSize + 1 = 2 ^ 11 := by decide
  rw [maskedEntries, Nat.and_or_distrib_right, Nat.and_or_distrib_right, henable, hmask,
    Nat.or_zero, Nat.or_zero, hsize, Nat.and_two_pow]
  cases control.testBit 11 <;> rfl

theorem tableEntries_le (control : ℕ) : tableEntries control ≤ 2048 :=
  Nat.succ_le_succ (Nat.and_le_right.trans (by decide))

theorem tableEntries_pos (control : ℕ) : 0 < tableEntries control := Nat.succ_pos _

theorem tableOffset_eq_zero (hmem : bar.space = .memory) {k : ℕ} (hk : k < 16)
    (h : entryByte bar 0 0 0 = entryByte bar msix.tableOffset 0 k) : msix.tableOffset = 0 := by
  have hlt := msix.tableOffset_lt
  have haddr := (Prod.mk.inj h).2
  rw [hmem] at haddr
  simp only [PortSpace.card] at haddr
  omega

section Covers

variable {cfg : σ} (htable : dev.getMsixTable = some (some bar))
include htable

theorem MsixCovers.memory (h : dev.MsixCovers C msix bar cfg) : bar.space = .memory := by
  cases hspace : bar.space with
  | memory => rfl
  | io =>
      obtain ⟨w', as, hrun, -⟩ := h.write 0 (tableEntries_pos _) 0 0 ⟨fun _ => 0, []⟩
      rw [writeMsixEntry_io htable hspace] at hrun
      cases hrun

theorem MsixCovers.tableOffset (h : dev.MsixCovers C msix bar cfg) : msix.tableOffset = 0 := by
  have hmem := h.memory htable
  obtain ⟨w', as, hrun, hlog, has⟩ := h.write 0 (tableEntries_pos _) 0 0 ⟨fun _ => 0, []⟩
  obtain ⟨w'', hrun', hlog'⟩ := writeMsixEntry_log htable hmem 0 0 0 ⟨fun _ => 0, []⟩
  obtain rfl := Option.some.inj (hrun.symm.trans hrun')
  obtain rfl := List.append_cancel_left (hlog.symm.trans hlog')
  obtain ⟨k, hk, heq⟩ := has _ List.mem_cons_self
  exact tableOffset_eq_zero hmem hk heq

omit htable in
theorem MsixCovers.testBit (h : dev.MsixCovers C msix bar cfg) (hmsix : dev.msix = some msix) :
    (msgControl C msix cfg).testBit 11 := by
  by_contra hbit
  obtain ⟨cfg', w', hrun, hmasked⟩ := h.enable ⟨fun _ => 0, []⟩
  simp only [enableMsix, hmsix, maskedEntries_eq, if_neg hbit, List.range_zero,
    maskMsixEntries, Option.map_some] at hrun
  obtain ⟨-, rfl⟩ := Prod.mk.inj (Option.some.inj hrun)
  exact absurd (hmasked 0 (tableEntries_pos _)) Nat.zero_ne_one

theorem msixCovers_of_start (hmsix : dev.msix = some msix) (hoff : msix.tableOffset = 0)
    (hbit : (msgControl C msix cfg).testBit 11) (hmem : bar.space = .memory) :
    dev.MsixCovers C msix bar cfg := by
  refine ⟨fun w => ?_, fun id _ w => ?_, fun id _ w => ?_, fun id _ addr data w => ?_⟩ <;>
    rw [hoff]
  · obtain ⟨w', hrun, -, hmasked⟩ := maskMsixEntries_spec htable (List.range 2048) w
    rw [enableMsix, hmsix]
    simp only [maskedEntries_eq, if_pos hbit, hrun, Option.map_some]
    refine ⟨_, w', rfl, fun id hid => hmasked id (List.mem_range.mpr ?_)⟩
    exact hid.trans_le (tableEntries_le _)
  · exact onlyEntry_mask htable id w
  · exact onlyEntry_unmask htable id w
  · exact onlyEntry_write htable hmem id addr data w

end Covers

/-- **When masking covers the table**: the table is at the start of a BAR in memory, and bit 11 of
the message control register is set. -/
theorem msix_covers_iff (C : ConfigU16 σ) (dev : PCIDevice) (msix : MSIX) (bar : IOPort) (cfg : σ)
    (hmsix : dev.msix = some msix) (hlt : msix.tableBar < 6)
    (hbar : dev.bars ⟨msix.tableBar, hlt⟩ = some bar) :
    dev.MsixCovers C msix bar cfg ↔
      msix.tableOffset = 0 ∧ (msgControl C msix cfg).testBit 11 ∧ bar.space = .memory := by
  have htable : dev.getMsixTable = some (some bar) := by
    simp only [getMsixTable, hmsix, dif_pos hlt, hbar]
  constructor
  · exact fun h => ⟨h.tableOffset htable, h.testBit hmsix, h.memory htable⟩
  · exact fun ⟨hoff, hbit, hmem⟩ => msixCovers_of_start htable hmsix hoff hbit hmem

/-- A function with its message control register at 0x42. -/
def oneRegister : ConfigU16 UInt16 where
  read control offset := if offset = 0x42 then control else 0
  write control offset value := if offset = 0x42 then UInt16.ofNat value else control

/-- MSI-X tables in BAR 1, at its start and at offset 0x1000. -/
def tableAtStart : MSIX := ⟨0x40, 1, 0, tableOffset_lt 0⟩

def tableBehind : MSIX := ⟨0x40, 1, 0x1000, tableOffset_lt 0x1000⟩

def barOne : IOPort := .memory 0x10000 0x2000

def oneBar (msix : MSIX) : PCIDevice := ⟨fun i => if i = 1 then some barOne else none, some msix⟩

theorem msix_covers_bit_eleven :
    (oneBar tableAtStart).MsixCovers oneRegister tableAtStart barOne 0x0802 :=
  (msix_covers_iff oneRegister (oneBar tableAtStart) tableAtStart barOne 0x0802 rfl (by decide)
    rfl).mpr (by decide)

/-- **A table that is not masked, and one that is elsewhere.** With three entries (message control
2) nothing is masked. With the table at 0x1000 of the BAR, masking entry 0 goes to the start of the
BAR. -/
theorem msix_enable_masks_nothing :
    (∃ cfg', (oneBar tableAtStart).enableMsix oneRegister 2 ⟨fun _ => 0, []⟩ =
      some (cfg', ⟨fun _ => 0, []⟩) ∧ ¬ EntryMasked barOne 0 ⟨fun _ => 0, []⟩ 0) ∧
    ∃ w, (oneBar tableBehind).maskMsixEntry 0 ⟨fun _ => 0, []⟩ = some w ∧
      w.log.head? = some (.memory, 0x1000c) ∧
      ∀ k < 16, entryByte barOne 0x1000 0 k ≠ (.memory, 0x1000c) := by
  have htable : (oneBar tableBehind).getMsixTable = some (some barOne) := rfl
  exact ⟨⟨_, rfl, Nat.zero_ne_one⟩, _, maskMsixEntry_eq htable 0 _, by decide, by decide⟩

end PCIDevice

end Manticore
