import Mathlib.Data.FinEnum
import Manticore.Base.ChainSearch

/-!
# PCI capabilities

`find_capability` and `find_next_capability` of a PCI function, and the search of the virtio network
driver on top of them.  The capabilities are a chain through configuration space: the byte at
`PCI_CFG_CAPABILITIES_PTR` is the offset of the first, each holds the offset of the next, and 0 ends
the chain.  The offsets come from the device and nothing counts the steps.

Offsets are `u8` and wrap.  Running out of fuel is `none`.
-/

namespace Manticore

def pciCfgStatus : UInt8 := 0x06
def pciStatusCapabilitiesList : UInt8 := 0x10
def pciCfgCapabilitiesPtr : UInt8 := 0x34
def pciCapIdOffset : UInt8 := 0x00
def pciCapNextOffset : UInt8 := 0x01
def pciCapabilityVendor : UInt8 := 0x09
def virtioPciCapCfgType : UInt8 := 3
def virtioPciCapBar : UInt8 := 4

structure VirtioPCICap where
  offset : UInt8
  barIdx : UInt8
deriving DecidableEq, Repr

/-- The 256 bytes of a function's configuration space. -/
structure ConfigBytes where
  byte : UInt8 → UInt8

namespace ConfigBytes

variable (cfg : ConfigBytes)

/-- `pci_config_read_u8`: the dword is selected first, and then the byte of it. -/
def readConfigU8 (offset : UInt8) : UInt8 := cfg.byte ((offset &&& 0xfc) + (offset &&& 3))

def capabilityId (offset : UInt8) : UInt8 := cfg.readConfigU8 (offset + pciCapIdOffset)

def nextCapability (offset : UInt8) : UInt8 := cfg.readConfigU8 (offset + pciCapNextOffset)

/-- The status register announces a capability list. -/
def hasCapabilities : Bool := cfg.readConfigU8 pciCfgStatus &&& pciStatusCapabilitiesList != 0

def firstCapability : UInt8 := cfg.readConfigU8 pciCfgCapabilitiesPtr

/-- The loop of both searches. -/
def searchCapability (capId : UInt8) (fuel : ℕ) (offset : UInt8) : Option (Option UInt8) :=
  searchFrom cfg.nextCapability (· == 0) (cfg.capabilityId · == capId) fuel offset

def findCapability (fuel : ℕ) (capId : UInt8) : Option (Option UInt8) :=
  if cfg.hasCapabilities then cfg.searchCapability capId fuel cfg.firstCapability
  else some none

def findNextCapability (fuel : ℕ) (capId pos : UInt8) : Option (Option UInt8) :=
  cfg.searchCapability capId fuel (cfg.nextCapability pos)

/-- `find_capability` and then `find_next_capability` from each capability found. -/
def capabilities (fuel : ℕ) (capId : UInt8) : Option (List UInt8) :=
  (cfg.findCapability fuel capId).bind
    (collectFrom cfg.nextCapability (· == 0) (cfg.capabilityId · == capId) fuel fuel)

/-- The test of the virtio driver. -/
def isCfgType (cfgType offset : UInt8) : Bool :=
  cfg.readConfigU8 (offset + virtioPciCapCfgType) == cfgType &&
    cfg.readConfigU8 (offset + virtioPciCapBar) < 0x05

/-- `VirtioNetDevice::find_capability`. The calls of `find_next_capability` are those of
`searchAgain`. -/
def findVirtioCapability (fuel : ℕ) (cfgType : UInt8) : Option (Option VirtioPCICap) :=
  let found := (cfg.findCapability fuel pciCapabilityVendor).bind
    (searchAgain cfg.nextCapability (· == 0) (cfg.capabilityId · == pciCapabilityVendor)
      (cfg.isCfgType cfgType) fuel fuel)
  found.map (Option.map fun offset => ⟨offset, cfg.readConfigU8 (offset + virtioPciCapBar)⟩)

/-- A vendor capability of a configuration type, in one of the BARs that the driver accepts. -/
def isVirtioCapability (cfgType offset : UInt8) : Bool :=
  cfg.capabilityId offset == pciCapabilityVendor && cfg.isCfgType cfgType offset

/-- The capabilities from `offset` up to the end of the chain. -/
def CapabilityChain (offset : UInt8) (l : List UInt8) : Prop :=
  Chain cfg.nextCapability (· == 0) offset l

/-! ## Chains that end -/

variable {cfg} {l : List UInt8} {fuel : ℕ}

theorem findCapability_eq (h : cfg.hasCapabilities)
    (hchain : cfg.CapabilityChain cfg.firstCapability l) (hfuel : l.length < fuel)
    (capId : UInt8) :
    cfg.findCapability fuel capId = some (l.find? (cfg.capabilityId · == capId)) := by
  rw [findCapability, if_pos h]
  exact hchain.searchFrom_eq hfuel

/-- **Searches are exact on chains that end.** -/
theorem capability_search_exact (cfg : ConfigBytes) (l : List UInt8) (fuel : ℕ)
    (hannounced : cfg.hasCapabilities) (hchain : cfg.CapabilityChain cfg.firstCapability l)
    (hfuel : l.length < fuel) :
    l.Nodup ∧
      (∀ capId, cfg.capabilities fuel capId = some (l.filter (cfg.capabilityId · == capId))) ∧
      ∀ cfgType, cfg.findVirtioCapability fuel cfgType =
        some ((l.find? (cfg.isVirtioCapability cfgType)).map fun offset =>
          ⟨offset, cfg.readConfigU8 (offset + virtioPciCapBar)⟩) := by
  refine ⟨hchain.nodup, fun capId => ?_, fun cfgType => ?_⟩
  · rw [capabilities, findCapability_eq hannounced hchain hfuel, Option.bind_some]
    exact hchain.collectFrom_eq hfuel hfuel.le
  · rw [findVirtioCapability, findCapability_eq hannounced hchain hfuel, Option.bind_some,
      hchain.searchAgain_eq hfuel hfuel.le]
    rfl

/-- A vendor capability at 0x40 and an MSI-X capability behind it. -/
def twoCapabilities : ConfigBytes where
  byte offset :=
    if offset = 0x06 then 0x10 else if offset = 0x34 then 0x40
    else if offset = 0x40 then 0x09 else if offset = 0x41 then 0x50
    else if offset = 0x43 then 1 else if offset = 0x50 then 0x11 else 0

theorem twoCapabilities_chain :
    twoCapabilities.CapabilityChain twoCapabilities.firstCapability [0x40, 0x50] := by
  have hnext : twoCapabilities.nextCapability 0x40 = 0x50 := by decide
  have hlast : twoCapabilities.nextCapability 0x50 = 0 := by decide
  have hend : Chain twoCapabilities.nextCapability (· == 0) 0 [] := .nil rfl
  have hsecond : Chain twoCapabilities.nextCapability (· == 0) 0x50 [0x50] :=
    .cons (by decide) (hlast ▸ hend)
  exact .cons (by decide) (hnext ▸ hsecond)

theorem capability_search_two :
    twoCapabilities.hasCapabilities ∧ [(0x40 : UInt8), 0x50].Nodup ∧
      (∀ capId, twoCapabilities.capabilities 3 capId =
        some ([0x40, 0x50].filter (twoCapabilities.capabilityId · == capId))) ∧
      ∀ cfgType, twoCapabilities.findVirtioCapability 3 cfgType =
        some (([0x40, 0x50].find? (twoCapabilities.isVirtioCapability cfgType)).map fun offset =>
          ⟨offset, twoCapabilities.readConfigU8 (offset + virtioPciCapBar)⟩) :=
  ⟨by decide, capability_search_exact twoCapabilities [0x40, 0x50] 3 (by decide)
    twoCapabilities_chain (by decide)⟩

/-! ## Chains that do not end -/

/-- From `offset` on the chain ends or comes to a capability that meets the test. -/
abbrev CapabilityStops (cfg : ConfigBytes) (test : UInt8 → Bool) (offset : UInt8) : Prop :=
  Stops cfg.nextCapability (· == 0) test offset

theorem findCapability_ends_iff (cfg : ConfigBytes) (capId : UInt8) :
    (∃ fuel, (cfg.findCapability fuel capId).isSome) ↔
      (cfg.hasCapabilities →
        cfg.CapabilityStops (cfg.capabilityId · == capId) cfg.firstCapability) := by
  unfold findCapability
  by_cases h : cfg.hasCapabilities
  · simp only [forall_const, h]
    exact searchFrom_ends_iff
  · simp only [if_neg h]
    exact iff_of_true ⟨0, rfl⟩ fun h' => absurd h' h

theorem findVirtioCapability_ends_iff (cfg : ConfigBytes) (cfgType : UInt8) :
    (∃ fuel, (cfg.findVirtioCapability fuel cfgType).isSome) ↔
      (cfg.hasCapabilities →
        cfg.CapabilityStops (cfg.isVirtioCapability cfgType) cfg.firstCapability) := by
  unfold findVirtioCapability findCapability
  by_cases h : cfg.hasCapabilities
  · simp only [forall_const, h, Option.isSome_map]
    exact searchAgain_ends_iff
  · simp only [if_neg h]
    exact iff_of_true ⟨0, rfl⟩ fun h' => absurd h' h

theorem forall_capabilityId_stops_iff (cfg : ConfigBytes) (offset : UInt8) :
    (∀ capId, cfg.CapabilityStops (cfg.capabilityId · == capId) offset) ↔
      ∃ k, cfg.nextCapability^[k] offset = 0 := by
  rw [forall_stops_iff le_rfl (e := 0) rfl cfg.capabilityId fun _ _ h => beq_iff_eq.mp h]
  simp only [beq_iff_eq]

theorem forall_isVirtioCapability_stops_iff (cfg : ConfigBytes) (offset : UInt8) :
    (∀ cfgType, cfg.CapabilityStops (cfg.isVirtioCapability cfgType) offset) ↔
      ∃ k, cfg.nextCapability^[k] offset = 0 := by
  rw [forall_stops_iff le_rfl (e := 0) rfl fun x => cfg.readConfigU8 (x + virtioPciCapCfgType)]
  · simp only [beq_iff_eq]
  · intro cfgType x h
    have hty := (Bool.and_eq_true_iff.mp h).2
    exact beq_iff_eq.mp (Bool.and_eq_true_iff.mp hty).1

/-- **When searches end**: each one, if the chain it follows ends or comes to a match; and all of
them, if the chain of the function ends. -/
theorem capability_search_ends_iff (cfg : ConfigBytes) :
    (∀ capId, (∃ fuel, (cfg.findCapability fuel capId).isSome) ↔
      (cfg.hasCapabilities →
        cfg.CapabilityStops (cfg.capabilityId · == capId) cfg.firstCapability)) ∧
    (∀ capId pos, (∃ fuel, (cfg.findNextCapability fuel capId pos).isSome) ↔
      cfg.CapabilityStops (cfg.capabilityId · == capId) (cfg.nextCapability pos)) ∧
    (∀ cfgType, (∃ fuel, (cfg.findVirtioCapability fuel cfgType).isSome) ↔
      (cfg.hasCapabilities →
        cfg.CapabilityStops (cfg.isVirtioCapability cfgType) cfg.firstCapability)) ∧
    ((∀ capId, ∃ fuel, (cfg.findCapability fuel capId).isSome) ↔
      (cfg.hasCapabilities → ∃ k, cfg.nextCapability^[k] cfg.firstCapability = 0)) ∧
    (∀ pos, (∀ capId, ∃ fuel, (cfg.findNextCapability fuel capId pos).isSome) ↔
      ∃ k, cfg.nextCapability^[k] (cfg.nextCapability pos) = 0) ∧
    ((∀ cfgType, ∃ fuel, (cfg.findVirtioCapability fuel cfgType).isSome) ↔
      (cfg.hasCapabilities → ∃ k, cfg.nextCapability^[k] cfg.firstCapability = 0)) := by
  have hnext : ∀ capId pos, (∃ fuel, (cfg.findNextCapability fuel capId pos).isSome) ↔
      cfg.CapabilityStops (cfg.capabilityId · == capId) (cfg.nextCapability pos) :=
    fun capId pos => searchFrom_ends_iff
  refine ⟨cfg.findCapability_ends_iff, hnext, cfg.findVirtioCapability_ends_iff, ?_, ?_, ?_⟩
  · simp only [cfg.findCapability_ends_iff]
    rw [forall_comm]
    exact imp_congr_right fun _ => cfg.forall_capabilityId_stops_iff _
  · simp only [hnext]
    exact fun pos => cfg.forall_capabilityId_stops_iff _
  · simp only [cfg.findVirtioCapability_ends_iff]
    rw [forall_comm]
    exact imp_congr_right fun _ => cfg.forall_isVirtioCapability_stops_iff _

/-- A function whose only capability is its own successor. -/
def loopingCapability : ConfigBytes where
  byte offset :=
    if offset = 0x06 then 0x10 else if offset = 0x34 then 0x40
    else if offset = 0x40 then 0x05 else if offset = 0x41 then 0x40 else 0

/-- **A search that does not end.** -/
theorem looping_capability_never_ends :
    (∀ fuel, loopingCapability.findCapability fuel 0x11 = none) ∧
      (∀ fuel, loopingCapability.findNextCapability fuel 0x11 0x40 = none) ∧
      ∀ fuel, loopingCapability.findVirtioCapability fuel 1 = none := by
  have hstuck : ∀ fuel capId, capId ≠ 0x05 →
      loopingCapability.searchCapability capId fuel 0x40 = none := fun fuel capId hne => by
    refine searchFrom_eq_none_of_fixed (by decide) (by decide) ?_ fuel
    exact fun heq => hne (beq_iff_eq.mp heq).symm
  have hfind : ∀ fuel capId, capId ≠ 0x05 →
      loopingCapability.findCapability fuel capId = none := fun fuel capId hne => hstuck fuel capId hne
  refine ⟨fun fuel => hfind fuel _ (by decide), fun fuel => hstuck fuel _ (by decide), fun fuel => ?_⟩
  rw [findVirtioCapability, hfind fuel _ (by decide)]
  rfl

end ConfigBytes

end Manticore
