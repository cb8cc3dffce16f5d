import Manticore.Base.TreeWalk

/-!
# PCI enumeration

`pci_probe` scans the buses from 0 up to the first one without a device of its own, and
`pci_probe_slot` follows each bridge to its secondary bus.  Both end in `pci_probe_bus`, and
nothing records which buses have been probed.

The model keeps the registers the enumeration reads.  `PCIDevice::probe` writes other registers
(the command word and the base addresses of a function that is not a bridge) and appears as the
function it is called with.  The recursion through bridges has fuel; `none` stands for
running out of it.
-/

namespace Manticore

open Relation

structure PCIFunction where
  busId : ℕ
  slotId : ℕ
  funcId : ℕ
deriving DecidableEq, Repr

def pciHeaderTypeMask : UInt8 := 0x03
def pciHeaderTypeBridge : UInt8 := 0x01

/-- The part of configuration space that the enumeration reads. -/
structure ConfigSpace where
  vendorId : PCIFunction → UInt16
  classRevision : PCIFunction → UInt32
  headerType : PCIFunction → UInt8
  secondaryBus : PCIFunction → UInt8

namespace ConfigSpace

variable (cfg : ConfigSpace)

def isBridge (f : PCIFunction) : Bool :=
  cfg.headerType f &&& pciHeaderTypeMask == pciHeaderTypeBridge

/-- The loop of `pci_probe_slot`: whether a device was found, and the calls of
`PCIDevice::probe`. -/
def probeFuncs (probeBus : ℕ → Option (Bool × List PCIFunction)) :
    List PCIFunction → Option (Bool × List PCIFunction)
  | [] => some (false, [])
  | f :: fs =>
      if cfg.classRevision f = 0xffffffff then probeFuncs probeBus fs
      else if cfg.isBridge f then do
        -- the result of the secondary bus is not used
        let (_, probed) ← probeBus (cfg.secondaryBus f).toNat
        let (result, rest) ← probeFuncs probeBus fs
        some (result, probed ++ rest)
      else do
        let (_, rest) ← probeFuncs probeBus fs
        some (true, f :: rest)

/-- `pci_probe_slot`. -/
def probeSlot (probeBus : ℕ → Option (Bool × List PCIFunction)) (bus slot : ℕ) :
    Option (Bool × List PCIFunction) :=
  cfg.probeFuncs probeBus ((List.range 8).map fun i => ⟨bus, slot, i⟩)

/-- The loop of `pci_probe_bus`. -/
def probeSlots (probeBus : ℕ → Option (Bool × List PCIFunction)) (bus : ℕ) :
    List ℕ → Option (Bool × List PCIFunction)
  | [] => some (false, [])
  | slot :: slots =>
      if cfg.vendorId ⟨bus, slot, 0⟩ = 0xffff then probeSlots probeBus bus slots
      else do
        let (found, probed) ← cfg.probeSlot probeBus bus slot
        let (result, rest) ← probeSlots probeBus bus slots
        some (found || result, probed ++ rest)

/-- `pci_probe_bus`. -/
def probeBus : ℕ → ℕ → Option (Bool × List PCIFunction)
  | 0, _ => none
  | fuel + 1, bus => cfg.probeSlots (probeBus fuel) bus (List.range 32)

/-- The loop of `pci_probe`. -/
def probeBuses (fuel : ℕ) : List ℕ → Option (List PCIFunction)
  | [] => some []
  | bus :: buses => do
      let (result, probed) ← cfg.probeBus fuel bus
      if result then do
        let rest ← probeBuses fuel buses
        some (probed ++ rest)
      else some probed

/-- `pci_probe`: the functions passed to `PCIDevice::probe`, which is taken to return, in order. -/
def pciProbe (fuel : ℕ) : Option (List PCIFunction) := cfg.probeBuses fuel (List.range 256)

/-! ## The topology -/

/-- A slot without function 0 is empty; a function without a class is absent. -/
def Present (f : PCIFunction) : Prop :=
  f.slotId < 32 ∧ f.funcId < 8 ∧ cfg.vendorId ⟨f.busId, f.slotId, 0⟩ ≠ 0xffff ∧
    cfg.classRevision f ≠ 0xffffffff

instance (f : PCIFunction) : Decidable (cfg.Present f) :=
  inferInstanceAs (Decidable (_ ∧ _ ∧ _ ∧ _))

def IsDevice (f : PCIFunction) : Prop := cfg.Present f ∧ cfg.isBridge f = false

def IsPciBridge (f : PCIFunction) : Prop := cfg.Present f ∧ cfg.isBridge f = true

/-- A bridge on `b` leads to `c`. -/
def Secondary (c b : ℕ) : Prop :=
  ∃ f, cfg.IsPciBridge f ∧ f.busId = b ∧ (cfg.secondaryBus f).toNat = c

/-- `c` is `b`, or lies below it behind bridges. -/
def Below : ℕ → ℕ → Prop := ReflTransGen cfg.Secondary

/-- Bridges lead from `c` back to `c`. -/
def OnLoop (c : ℕ) : Prop := TransGen cfg.Secondary c c

/-- Every bus before `b` has a device of its own: `pci_probe` gets to `b`. -/
def Scanned (b : ℕ) : Prop := b < 256 ∧ ∀ c < b, ∃ f, cfg.IsDevice f ∧ f.busId = c

/-- The bridges form a tree with bus 0 at its root. -/
structure IsTree : Prop where
  root : ∀ b, ¬ cfg.Secondary 0 b
  entry : ∀ f g, cfg.IsPciBridge f → cfg.IsPciBridge g → cfg.secondaryBus f = cfg.secondaryBus g →
    f = g
  connected : ∀ f, cfg.IsPciBridge f → cfg.Below f.busId 0

/-! ## Enumeration as a walk -/

/-- Where a function leads. -/
def next (f : PCIFunction) : Option ℕ :=
  if cfg.isBridge f then some (cfg.secondaryBus f).toNat else none

def presentFuncs (fs : List PCIFunction) : List PCIFunction :=
  fs.filter fun f => decide (cfg.classRevision f ≠ 0xffffffff)

def slotFuncs (bus slot : ℕ) : List PCIFunction :=
  cfg.presentFuncs ((List.range 8).map fun i => ⟨bus, slot, i⟩)

def slotsFuncs (bus : ℕ) (slots : List ℕ) : List PCIFunction :=
  (slots.filter fun slot => decide (cfg.vendorId ⟨bus, slot, 0⟩ ≠ 0xffff)).flatMap
    (cfg.slotFuncs bus)

/-- The functions of a bus in the order of their probing. -/
def functions (bus : ℕ) : List PCIFunction := cfg.slotsFuncs bus (List.range 32)

def hasDevice (fs : List PCIFunction) : Bool := fs.any fun f => !cfg.isBridge f

variable {cfg} {f : PCIFunction} {b c fuel bus : ℕ} {l : List PCIFunction}

theorem mem_functions : f ∈ cfg.functions b ↔ cfg.Present f ∧ f.busId = b := by
  obtain ⟨bus, slot, i⟩ := f
  simp only [functions, slotsFuncs, slotFuncs, presentFuncs, Present, List.mem_flatMap,
    List.mem_filter, List.mem_range, List.mem_map, decide_eq_true_eq, PCIFunction.mk.injEq]
  constructor
  · rintro ⟨slot', ⟨hslot, hvendor⟩, ⟨i', hi, rfl, rfl, rfl⟩, hclass⟩
    exact ⟨⟨hslot, hi, hvendor, hclass⟩, rfl⟩
  · rintro ⟨⟨hslot, hi, hvendor, hclass⟩, rfl⟩
    exact ⟨slot, ⟨hslot, hvendor⟩, ⟨i, hi, rfl, rfl, rfl⟩, hclass⟩

theorem nodup_functions (b : ℕ) : (cfg.functions b).Nodup := by
  refine List.nodup_flatMap.mpr ⟨fun slot _ => ?_, ?_⟩
  · refine List.Nodup.filter _ (List.nodup_range.map fun i j h => ?_)
    exact (PCIFunction.mk.inj h).2.2
  · refine (List.nodup_range.filter _).pairwise_of_forall_ne fun s _ s' _ hne f hf hf' => ?_
    simp only [slotFuncs, presentFuncs, List.mem_filter, List.mem_map] at hf hf'
    obtain ⟨⟨i, -, rfl⟩, -⟩ := hf
    obtain ⟨⟨j, -, h⟩, -⟩ := hf'
    exact hne (PCIFunction.mk.inj h).2.1.symm

theorem childOf_iff : ChildOf cfg.next cfg.functions c b ↔ cfg.Secondary c b := by
  simp only [ChildOf, Secondary, IsPciBridge, mem_functions, next]
  constructor
  · rintro ⟨f, ⟨hf, hbus⟩, hnext⟩
    split at hnext
    · next hbridge => exact ⟨f, ⟨hf, hbridge⟩, hbus, Option.some.inj hnext⟩
    · cases hnext
  · rintro ⟨f, ⟨hf, hbridge⟩, hbus, hsec⟩
    exact ⟨f, ⟨hf, hbus⟩, by rw [if_pos hbridge, hsec]⟩

theorem childOf_eq : ChildOf cfg.next cfg.functions = cfg.Secondary := by
  funext c b
  exact propext childOf_iff

section refinement

variable {probeBus : ℕ → Option (Bool × List PCIFunction)}

theorem probeFuncs_eq (fs : List PCIFunction) : cfg.probeFuncs probeBus fs =
    (walkItems cfg.next (fun b => (probeBus b).map Prod.snd) (cfg.presentFuncs fs)).map
      fun l => (cfg.hasDevice (cfg.presentFuncs fs), l) := by
  induction fs with
  | nil => rfl
  | cons f fs ih =>
      by_cases hclass : cfg.classRevision f = 0xffffffff
      · simpa [probeFuncs, presentFuncs, hclass] using ih
      · have hpresent : cfg.presentFuncs (f :: fs) = f :: cfg.presentFuncs fs := by
          simp [presentFuncs, hclass]
        rw [hpresent]
        cases hbridge : cfg.isBridge f with
        | true =>
            simp only [probeFuncs, hclass, hbridge, if_false, if_true, ih, walkItems, visit, next]
            cases probeBus (cfg.secondaryBus f).toNat <;>
              cases walkItems cfg.next (fun b => (probeBus b).map Prod.snd)
                (cfg.presentFuncs fs) <;> simp [hasDevice, hbridge]
        | false =>
            simp only [probeFuncs, hclass, hbridge, if_false, ih, walkItems, visit, next]
            cases walkItems cfg.next (fun b => (probeBus b).map Prod.snd)
              (cfg.presentFuncs fs) <;> simp [hasDevice, hbridge]

theorem probeSlots_eq (bus : ℕ) (slots : List ℕ) : cfg.probeSlots probeBus bus slots =
    (walkItems cfg.next (fun b => (probeBus b).map Prod.snd) (cfg.slotsFuncs bus slots)).map
      fun l => (cfg.hasDevice (cfg.slotsFuncs bus slots), l) := by
  induction slots with
  | nil => rfl
  | cons slot slots ih =>
      by_cases hvendor : cfg.vendorId ⟨bus, slot, 0⟩ = 0xffff
      · simpa [probeSlots, slotsFuncs, hvendor] using ih
      · have hslots : cfg.slotsFuncs bus (slot :: slots) =
            cfg.slotFuncs bus slot ++ cfg.slotsFuncs bus slots := by
          simp [slotsFuncs, hvendor]
        rw [hslots, walkItems_append]
        simp only [probeSlots, hvendor, if_false, probeSlot, probeFuncs_eq, ih]
        rw [← slotFuncs]
        cases walkItems cfg.next (fun b => (probeBus b).map Prod.snd) (cfg.slotFuncs bus slot) <;>
          cases walkItems cfg.next (fun b => (probeBus b).map Prod.snd)
            (cfg.slotsFuncs bus slots) <;> simp [hasDevice]

end refinement

/-- **`pci_probe_bus` walks the functions below the bus.** -/
theorem probeBus_eq (fuel bus : ℕ) : cfg.probeBus fuel bus =
    (walk cfg.next cfg.functions fuel bus).map fun l => (cfg.hasDevice (cfg.functions bus), l) := by
  induction fuel generalizing bus with
  | zero => rfl
  | succ fuel ih =>
      have hrec : (fun b => (cfg.probeBus fuel b).map Prod.snd) =
          walk cfg.next cfg.functions fuel := by
        funext b
        rw [ih, Option.map_map]
        exact Option.map_id'
      rw [probeBus, probeSlots_eq, hrec]
      rfl

/-- The buses among `buses` that the loop of `pci_probe` gets to. -/
def scannedBuses (cfg : ConfigSpace) : List ℕ → List ℕ
  | [] => []
  | b :: bs => if cfg.hasDevice (cfg.functions b) then b :: scannedBuses cfg bs else [b]

theorem probeBuses_eq_some {buses : List ℕ} : cfg.probeBuses fuel buses = some l ↔
    (∀ b ∈ cfg.scannedBuses buses, (walk cfg.next cfg.functions fuel b).isSome) ∧
      l = (cfg.scannedBuses buses).flatMap fun b =>
        (walk cfg.next cfg.functions fuel b).getD [] := by
  induction buses generalizing l with
  | nil =>
      rw [probeBuses, Option.some.injEq, scannedBuses, List.flatMap_nil]
      exact ⟨fun h => ⟨by simp, h.symm⟩, fun h => h.2.symm⟩
  | cons b bs ih =>
      simp only [probeBuses, scannedBuses, probeBus_eq]
      rcases hw : walk cfg.next cfg.functions fuel b with _ | lb
      · cases cfg.hasDevice (cfg.functions b) <;> simp [hw]
      · cases cfg.hasDevice (cfg.functions b) with
        | false =>
            simp only [Option.map_some, Option.bind_eq_bind, Option.bind_some, Bool.false_eq_true,
              if_false, Option.some.injEq, List.forall_mem_singleton, hw, Option.isSome_some,
              true_and, List.flatMap_singleton, Option.getD_some]
            exact eq_comm
        | true =>
            simp only [Option.map_some, Option.bind_eq_bind, Option.bind_some, if_true,
              Option.bind_eq_some_iff, ih, List.forall_mem_cons, List.flatMap_cons, hw,
              Option.isSome_some, true_and, Option.getD_some, Option.some.injEq]
            constructor
            · rintro ⟨rest, ⟨hbs, rfl⟩, rfl⟩
              exact ⟨hbs, rfl⟩
            · rintro ⟨hbs, rfl⟩
              exact ⟨_, ⟨hbs, rfl⟩, rfl⟩

theorem hasDevice_functions :
    cfg.hasDevice (cfg.functions b) = true ↔ ∃ f, cfg.IsDevice f ∧ f.busId = b := by
  simp only [hasDevice, List.any_eq_true, mem_functions, IsDevice, Bool.not_eq_true']
  constructor
  · rintro ⟨f, ⟨hf, hbus⟩, hdev⟩
    exact ⟨f, ⟨hf, hdev⟩, hbus⟩
  · rintro ⟨f, ⟨hf, hdev⟩, hbus⟩
    exact ⟨f, ⟨hf, hbus⟩, hdev⟩

theorem mem_scannedBuses_range {first n : ℕ} : b ∈ cfg.scannedBuses (List.range' first n) ↔
    first ≤ b ∧ b < first + n ∧
      ∀ c, first ≤ c → c < b → cfg.hasDevice (cfg.functions c) = true := by
  induction n generalizing first with
  | zero =>
      simp only [List.range'_zero, scannedBuses, List.not_mem_nil, false_iff]
      omega
  | succ n ih =>
      rw [List.range'_succ, scannedBuses]
      by_cases hdev : cfg.hasDevice (cfg.functions first) = true
      · rw [if_pos hdev, List.mem_cons, ih]
        constructor
        · rintro (rfl | ⟨hle, hlt, hall⟩)
          · exact ⟨le_rfl, by omega, fun c h₁ h₂ => absurd h₁ (by omega)⟩
          · refine ⟨by omega, by omega, fun c h₁ h₂ => ?_⟩
            by_cases hc : c = first
            · rw [hc]; exact hdev
            · exact hall c (by omega) h₂
        · rintro ⟨hle, hlt, hall⟩
          by_cases hb : b = first
          · exact Or.inl hb
          · exact Or.inr ⟨by omega, by omega, fun c h₁ h₂ => hall c (by omega) h₂⟩
      · rw [if_neg hdev, List.mem_singleton]
        constructor
        · rintro rfl
          exact ⟨le_rfl, by omega, fun c h₁ h₂ => absurd h₁ (by omega)⟩
        · rintro ⟨hle, hlt, hall⟩
          by_contra hb
          exact hdev (hall first le_rfl (by omega))

theorem scannedBuses_eq (cfg : ConfigSpace) :
    ∃ rest, cfg.scannedBuses (List.range 256) = 0 :: rest ∧
      ∀ b, b ∈ rest ↔ 0 < b ∧ cfg.Scanned b := by
  have hscan : ∀ b, cfg.Scanned b ↔ b < 256 ∧
      ∀ c < b, cfg.hasDevice (cfg.functions c) = true := by
    simp [Scanned, hasDevice_functions]
  have hrange : List.range 256 = 0 :: List.range' 1 255 := by
    rw [List.range_eq_range', List.range'_succ]
  rw [hrange, scannedBuses]
  by_cases hdev : cfg.hasDevice (cfg.functions 0) = true
  · rw [if_pos hdev]
    refine ⟨_, rfl, fun b => ?_⟩
    rw [mem_scannedBuses_range, hscan]
    constructor
    · rintro ⟨hle, hlt, hall⟩
      refine ⟨hle, by omega, fun c hc => ?_⟩
      rcases Nat.eq_zero_or_pos c with rfl | hpos
      · exact hdev
      · exact hall c hpos hc
    · rintro ⟨hpos, hlt, hall⟩
      exact ⟨hpos, by omega, fun c _ hc => hall c hc⟩
  · rw [if_neg hdev]
    refine ⟨[], rfl, fun b => ?_⟩
    rw [hscan]
    exact ⟨fun hb => absurd hb List.not_mem_nil, fun h => absurd (h.2.2 0 h.1) hdev⟩

theorem mem_scannedBuses : b ∈ cfg.scannedBuses (List.range 256) ↔ cfg.Scanned b := by
  obtain ⟨rest, hrest, hmem⟩ := scannedBuses_eq cfg
  rw [hrest, List.mem_cons, hmem]
  constructor
  · rintro (rfl | ⟨-, h⟩)
    · exact ⟨by decide, fun c hc => absurd hc (Nat.not_lt_zero c)⟩
    · exact h
  · intro h
    rcases Nat.eq_zero_or_pos b with rfl | hpos
    · exact Or.inl rfl
    · exact Or.inr ⟨hpos, h⟩

/-! ## Termination -/

theorem finite_below (b : ℕ) : {c | ReflTransGen cfg.Secondary c b}.Finite := by
  refine (Set.finite_Iio (max 256 (b + 1))).subset fun c hc => ?_
  rcases ReflTransGen.cases_head hc with rfl | ⟨d, ⟨f, -, -, hsec⟩, -⟩
  · exact Set.mem_Iio.mpr (by omega)
  · have := (cfg.secondaryBus f).toNat_lt
    exact Set.mem_Iio.mpr (by omega)

theorem exists_walk_iff : (∃ fuel, (walk cfg.next cfg.functions fuel b).isSome) ↔
    ∀ c, cfg.Below c b → ¬ cfg.OnLoop c := by
  rw [exists_walk_iff_acc, childOf_eq]
  exact acc_iff_no_loop (finite_below b)

theorem pciProbe_ends_iff : (∃ fuel l, cfg.pciProbe fuel = some l) ↔
    ∀ b, cfg.Scanned b → ∀ c, cfg.Below c b → ¬ cfg.OnLoop c := by
  constructor
  · rintro ⟨fuel, l, h⟩ b hb
    exact exists_walk_iff.mp ⟨fuel, (probeBuses_eq_some.mp h).1 b (mem_scannedBuses.mpr hb)⟩
  · intro h
    obtain ⟨fuel, hfuel⟩ := exists_fuel_forall fun b hb =>
      exists_walk_iff.mpr (h b (mem_scannedBuses.mp hb))
    exact ⟨fuel, _, probeBuses_eq_some.mpr ⟨hfuel, rfl⟩⟩

/-! ## Trees -/

namespace IsTree

variable (h : cfg.IsTree)
include h

theorem isForest : IsForest cfg.next cfg.functions where
  nodup := nodup_functions
  place hb hc := (mem_functions.mp hb).2.symm.trans (mem_functions.mp hc).2
  entry := by
    intro f g b b' c hf hg hnf hng
    have hbridge : ∀ {f : PCIFunction}, cfg.next f = some c →
        cfg.isBridge f = true ∧ (cfg.secondaryBus f).toNat = c := by
      intro f hn
      unfold next at hn
      split at hn
      · next hb => exact ⟨hb, Option.some.inj hn⟩
      · cases hn
    obtain ⟨hf', hfc⟩ := hbridge hnf
    obtain ⟨hg', hgc⟩ := hbridge hng
    exact h.entry f g ⟨(mem_functions.mp hf).1, hf'⟩ ⟨(mem_functions.mp hg).1, hg'⟩
      (UInt8.toNat_inj.mp (hfc.trans hgc.symm))

theorem not_onLoop (c : ℕ) : ¬ cfg.OnLoop c := by
  intro hloop
  obtain ⟨-, -, f, hf, rfl, -⟩ := TransGen.tail'_iff.mp hloop
  have huniq := h.isForest.rightUnique
  rw [childOf_eq] at huniq
  exact not_transGen_of_tree huniq h.root (h.connected f hf) hloop

theorem count_eq_one_iff {l : List PCIFunction} (hl : cfg.pciProbe fuel = some l)
    (hf : cfg.IsDevice f) (hbelow : cfg.Below f.busId 0) :
    l.count f = 1 ↔ ∀ b, 0 < b → cfg.Scanned b → ¬ cfg.Below f.busId b := by
  obtain ⟨rest, hrest, hmem⟩ := scannedBuses_eq cfg
  obtain ⟨hsome, rfl⟩ := probeBuses_eq_some.mp hl
  rw [hrest] at hsome ⊢
  have hleaf : ∀ b, LeafBelow cfg.next cfg.functions f b ↔ cfg.Below f.busId b := by
    intro b
    simp only [LeafBelow, next, hf.2, childOf_eq, mem_functions, Below]
    constructor
    · rintro ⟨-, c, hc, -, rfl⟩
      exact hc
    · intro hb
      exact ⟨rfl, f.busId, hb, hf.1, rfl⟩
  have hin : ∀ b ∈ 0 :: rest, (f ∈ (walk cfg.next cfg.functions fuel b).getD [] ↔
      cfg.Below f.busId b) := by
    intro b hb
    obtain ⟨lb, hlb⟩ := Option.isSome_iff_exists.mp (hsome b hb)
    rw [hlb, Option.getD_some, mem_walk hlb, hleaf]
  -- once below bus 0
  have hroot : ((walk cfg.next cfg.functions fuel 0).getD []).count f = 1 := by
    refine List.count_eq_one_of_mem ?_ ((hin 0 List.mem_cons_self).mpr hbelow)
    obtain ⟨l₀, hl₀⟩ := Option.isSome_iff_exists.mp (hsome 0 List.mem_cons_self)
    rw [hl₀]
    exact h.isForest.nodup_walk hl₀
  rw [List.flatMap_cons, List.count_append, hroot, Nat.add_eq_left, List.count_eq_zero]
  constructor
  · intro hnot b hpos hb hbel
    have hbrest := (hmem b).mpr ⟨hpos, hb⟩
    exact hnot (List.mem_flatMap.mpr
      ⟨b, hbrest, (hin b (List.mem_cons_of_mem _ hbrest)).mpr hbel⟩)
  · intro hnot hmemf
    obtain ⟨b, hb, hfb⟩ := List.mem_flatMap.mp hmemf
    obtain ⟨hpos, hscan⟩ := (hmem b).mp hb
    exact hnot b hpos hscan ((hin b (List.mem_cons_of_mem _ hb)).mp hfb)

end IsTree

/-- **When enumeration ends, and when it probes each device once.** It ends iff the scan comes
to no bus with a loop below it; in a tree it ends, and probes each device below bus 0 exactly
once iff no bus of the scan but bus 0 lies above one of them. -/
theorem pciProbe_iff (cfg : ConfigSpace) :
    ((∃ fuel l, cfg.pciProbe fuel = some l) ↔
      ∀ b, cfg.Scanned b → ∀ c, cfg.Below c b → ¬ cfg.OnLoop c) ∧
    (cfg.IsTree → ∃ fuel l, cfg.pciProbe fuel = some l ∧
      ((∀ f, cfg.IsDevice f → cfg.Below f.busId 0 → l.count f = 1) ↔
        ∀ b, 0 < b → cfg.Scanned b → ∀ f, cfg.IsDevice f → cfg.Below f.busId 0 →
          ¬ cfg.Below f.busId b)) := by
  refine ⟨pciProbe_ends_iff, fun htree => ?_⟩
  obtain ⟨fuel, l, hl⟩ := pciProbe_ends_iff.mpr fun _ _ c _ => htree.not_onLoop c
  refine ⟨fuel, l, hl, fun hone b hpos hb f hf hbelow => ?_, fun hnone f hf hbelow => ?_⟩
  · exact (htree.count_eq_one_iff hl hf hbelow).mp (hone f hf hbelow) b hpos hb
  · exact (htree.count_eq_one_iff hl hf hbelow).mpr fun b hpos hb => hnone b hpos hb f hf hbelow

/-! ## Machines -/

/-- The listed functions and no others: devices, and bridges to the given bus. -/
def populated (fs : List (PCIFunction × Option UInt8)) : ConfigSpace where
  vendorId f := if (fs.lookup f).isSome then 0x8086 else 0xffff
  classRevision f := if (fs.lookup f).isSome then 0x06040000 else 0xffffffff
  headerType f := if (fs.lookup f).join.isSome then pciHeaderTypeBridge else 0
  secondaryBus f := (fs.lookup f).join.getD 0

theorem mem_of_present_populated {fs : List (PCIFunction × Option UInt8)}
    (h : (populated fs).Present f) : f ∈ fs.map Prod.fst := by
  by_contra hnot
  have hnone : fs.lookup f = none := by
    refine List.lookup_eq_none_iff.mpr fun p hp => ?_
    exact bne_iff_ne.mpr fun heq => hnot (List.mem_map.mpr ⟨p, hp, heq.symm⟩)
  exact h.2.2.2 (by simp only [populated, hnone, Option.isSome_none, Bool.false_eq_true, if_false])

theorem isTree_of_single {g : PCIFunction} (hg : g.busId = 0) (hsec : cfg.secondaryBus g ≠ 0)
    (honly : ∀ f, cfg.IsPciBridge f → f = g) : cfg.IsTree where
  root := by
    rintro b ⟨f, hf, -, hzero⟩
    rw [honly f hf] at hzero
    exact hsec (UInt8.toNat_inj.mp hzero)
  entry := fun f g hf hg _ => (honly f hf).trans (honly g hg).symm
  connected := by
    intro f hf
    rw [honly f hf, hg]
    exact .refl

/-- A bridge on bus 0 with a device behind it. -/
def deviceBehindBridge : List (PCIFunction × Option UInt8) :=
  [(⟨0, 0, 0⟩, some 1), (⟨1, 0, 0⟩, none)]

/-- The only device, behind a bridge, is probed once. -/
theorem pciProbe_once_behind_bridge : (populated deviceBehindBridge).IsTree ∧
    ∃ fuel l, (populated deviceBehindBridge).pciProbe fuel = some l ∧
      ∀ f, (populated deviceBehindBridge).IsDevice f →
        (populated deviceBehindBridge).Below f.busId 0 → l.count f = 1 := by
  have hcases : ∀ f, (populated deviceBehindBridge).Present f → f = ⟨0, 0, 0⟩ ∨ f = ⟨1, 0, 0⟩ :=
    fun f hf => by simpa [deviceBehindBridge] using mem_of_present_populated hf
  have htree : (populated deviceBehindBridge).IsTree := by
    refine isTree_of_single (g := ⟨0, 0, 0⟩) rfl (by decide) ?_
    rintro f ⟨hf, hbridge⟩
    rcases hcases f hf with rfl | rfl
    · rfl
    · exact absurd hbridge (by decide)
  refine ⟨htree, ?_⟩
  obtain ⟨fuel, l, hl, hiff⟩ := (pciProbe_iff _).2 htree
  refine ⟨fuel, l, hl, hiff.mpr ?_⟩
  -- bus 0 has no device of its own, so the scan stops there
  intro b hpos hscan
  obtain ⟨f, ⟨hf, hdev⟩, hbus⟩ := hscan.2 0 hpos
  rcases hcases f hf with rfl | rfl
  · exact absurd hdev (by decide)
  · exact absurd hbus (by decide)

/-- A device on bus 0, and a bridge with another device behind it. -/
def deviceAndBridge : List (PCIFunction × Option UInt8) :=
  [(⟨0, 0, 0⟩, none), (⟨0, 1, 0⟩, some 1), (⟨1, 0, 0⟩, none)]

/-- **A bridge to its own bus is followed for ever, and in a tree a device behind a bridge is
probed again by the scan.** -/
theorem pciProbe_loops_and_repeats :
    (∀ fuel, (populated [(⟨0, 0, 0⟩, some 0)]).pciProbe fuel = none) ∧
    (populated deviceAndBridge).IsTree ∧ (populated deviceAndBridge).IsDevice ⟨1, 0, 0⟩ ∧
    (populated deviceAndBridge).Below 1 0 ∧
    (populated deviceAndBridge).pciProbe 2 =
      some [⟨0, 0, 0⟩, ⟨1, 0, 0⟩, ⟨1, 0, 0⟩] := by
  refine ⟨fun fuel => ?_, ?_, ⟨by decide, by decide⟩, ?_, by decide +kernel⟩
  · have hloop : (populated [(⟨0, 0, 0⟩, some 0)]).Secondary 0 0 :=
      ⟨⟨0, 0, 0⟩, ⟨by decide, by decide⟩, rfl, by decide⟩
    rcases hl : (populated [(⟨0, 0, 0⟩, some 0)]).pciProbe fuel with _ | l
    · rfl
    · exact absurd (.single hloop) (pciProbe_ends_iff.mp ⟨fuel, l, hl⟩ 0
        ⟨by decide, fun c hc => absurd hc (Nat.not_lt_zero c)⟩ 0 .refl)
  · refine isTree_of_single (g := ⟨0, 1, 0⟩) rfl (by decide) ?_
    rintro f ⟨hf, hbridge⟩
    have hcases : f = ⟨0, 0, 0⟩ ∨ f = ⟨0, 1, 0⟩ ∨ f = ⟨1, 0, 0⟩ := by
      simpa [deviceAndBridge] using mem_of_present_populated hf
    rcases hcases with rfl | rfl | rfl
    · exact absurd hbridge (by decide)
    · rfl
    · exact absurd hbridge (by decide)
  · exact .single ⟨⟨0, 1, 0⟩, ⟨by decide, by decide⟩, rfl, by decide⟩

end ConfigSpace

end Manticore
