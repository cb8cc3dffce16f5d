import Manticore.Base.Word

/-!
# Base address registers

`BAR::decode` of `drivers/pci/lib.rs` reads a base address register, writes all ones to it, reads
back which bits stuck, and restores it.  The probe loop does that for each register and skips the
upper half of a 64-bit one.

The hardware side is a register whose low bits cannot be written.  The size that `decode` computes
is the complement of what it reads back, and what it reads back has the type bits in it.
-/

namespace Manticore

/-! ## The hardware -/

/-- A register of configuration space: writes change all but the `lowBits` lowest bits, which read
as `fixed`. -/
structure BarRegister where
  lowBits : ℕ
  fixed : ℕ
  value : ℕ
deriving DecidableEq, Repr

def BarRegister.write (r : BarRegister) (w : ℕ) : BarRegister :=
  { r with value := w / 2 ^ r.lowBits * 2 ^ r.lowBits + r.fixed }

/-- The registers by their offset. -/
abbrev BarSpace : Type := ℕ → BarRegister

namespace BarSpace

def readConfigU32 (cfg : BarSpace) (offset : ℕ) : ℕ := (cfg offset).value

def writeConfigU32 (cfg : BarSpace) (offset w : ℕ) : BarSpace :=
  Function.update cfg offset ((cfg offset).write w)

end BarSpace

/-! ## `BAR::decode` -/

def pciCfgBars : ℕ := 0x10

inductive Locatable where
  | bits32
  | bits64
deriving DecidableEq, Repr

inductive BAR where
  | memory (baseAddr size : ℕ) (prefetchable : Bool) (locatable : Locatable)
  | io (iobase size : ℕ)
deriving DecidableEq, Repr

namespace BAR

/-- `PCI_CFG_BARS + (bar_idx << 2) as u8`. -/
def offset (barIdx : ℕ) : ℕ := (pciCfgBars + (barIdx <<< 2) % 2 ^ 8) % 2 ^ 8

/-- All ones are written, read back and complemented, and the register is restored. -/
def probeSize (cfg : BarSpace) (offset rawBar : ℕ) : ℕ × BarSpace :=
  let cfg := cfg.writeConfigU32 offset (not32 0)
  let size := add32 (not32 (cfg.readConfigU32 offset)) 1
  (size, cfg.writeConfigU32 offset rawBar)

def decode (cfg : BarSpace) (barIdx : ℕ) : Option BAR × ℕ × BarSpace :=
  let rawBar := cfg.readConfigU32 (offset barIdx)
  if rawBar = 0 then (none, barIdx + 1, cfg)
  else if rawBar &&& 0x01 = 0 then
    let barType := (rawBar &&& 0b110) >>> 1
    let decoded : Option (ℕ × Locatable) :=
      if barType = 0b00 then some (rawBar &&& not32 0xf, .bits32)
      else if barType = 0b10 then
        let nextBar := cfg.readConfigU32 (offset (barIdx + 1))
        some ((rawBar &&& not32 0xf) ||| (nextBar <<< 32), .bits64)
      else none
    match decoded with
    | none => (none, barIdx + 1, cfg)
    | some (baseAddr, locatable) =>
        let (size, cfg) := probeSize cfg (offset barIdx) rawBar
        let prefetchable := decide (rawBar &&& 0b1000 ≠ 0)
        let nextIdx := match locatable with
          | .bits32 => barIdx + 1
          | .bits64 => barIdx + 2
        (some (.memory baseAddr size prefetchable locatable), nextIdx, cfg)
  else
    let (size, cfg) := probeSize cfg (offset barIdx) rawBar
    (some (.io ((rawBar &&& not32 0x03) % 2 ^ 16) size), barIdx + 1, cfg)

end BAR

/-! ## The probe loop -/

/-- The number of registers, by the header type. -/
def maxBars (headerType : ℕ) : ℕ :=
  if headerType &&& 0x03 = 0x00 then 6 else if headerType &&& 0x03 = 0x02 then 2 else 0

/-- `while bar_idx < max_bars`: the array `bars` and configuration space. `none` is out of
fuel. -/
def probeBars (max : ℕ) : ℕ → BarSpace → ℕ → (ℕ → Option BAR) →
    Option ((ℕ → Option BAR) × BarSpace)
  | 0, _, _, _ => none
  | fuel + 1, cfg, barIdx, bars =>
      if barIdx < max then
        let (bar, nextIdx, cfg) := BAR.decode cfg barIdx
        probeBars max fuel cfg nextIdx (Function.update bars barIdx bar)
      else some (bars, cfg)

/-! ## Conforming registers -/

/-- What a device may have in one register, or in two. Sizes are `2 ^ sizeBits`. -/
inductive BarSpec where
  | unimplemented
  | memory32 (base sizeBits : ℕ) (below1M prefetchable : Bool)
  | memory64 (base sizeBits : ℕ) (prefetchable : Bool)
  | io (base sizeBits : ℕ)
deriving DecidableEq, Repr

namespace BarSpec

/-- The hard-wired bits of a memory register: its type, and the prefetch bit. -/
def typeBits (barType : ℕ) (prefetchable : Bool) : ℕ :=
  2 * barType + if prefetchable then 8 else 0

def locatable32 (below1M : Bool) : ℕ := if below1M then 0b01 else 0b00

/-- Naturally aligned, and of a size that 32 bits can represent. -/
def Valid : BarSpec → Prop
  | .unimplemented => True
  | .memory32 base k _ _ => 4 ≤ k ∧ k < 32 ∧ 2 ^ k ∣ base ∧ base < 2 ^ 32
  | .memory64 base k _ => 4 ≤ k ∧ k < 32 ∧ 2 ^ k ∣ base ∧ base < 2 ^ 64
  | .io base k => 2 ≤ k ∧ k < 32 ∧ 2 ^ k ∣ base ∧ base < 2 ^ 32

/-- The registers of the device, with the type bits hard-wired. -/
def registers : BarSpec → List BarRegister
  | .unimplemented => [⟨32, 0, 0⟩]
  | .memory32 base k low p =>
      [⟨k, typeBits (locatable32 low) p, base + typeBits (locatable32 low) p⟩]
  | .memory64 base k p =>
      [⟨k, typeBits 0b10 p, base % 2 ^ 32 + typeBits 0b10 p⟩, ⟨0, 0, base / 2 ^ 32⟩]
  | .io base k => [⟨k, 1, base + 1⟩]

def slots (spec : BarSpec) : ℕ := spec.registers.length

/-- What the probe should find. -/
def bar : BarSpec → Option BAR
  | .unimplemented => none
  | .memory32 base k _ p => some (.memory base (2 ^ k) p .bits32)
  | .memory64 base k p => some (.memory base (2 ^ k) p .bits64)
  | .io base k => some (.io base (2 ^ k))

/-- The registers of `specs` are at `idx` and behind it. -/
def At (cfg : BarSpace) : ℕ → List BarSpec → Prop
  | _, [] => True
  | idx, spec :: specs =>
      (∀ i r, spec.registers[i]? = some r → cfg (BAR.offset (idx + i)) = r) ∧
        At cfg (idx + spec.slots) specs

/-- The first register of each BAR. -/
def starts : ℕ → List BarSpec → List ℕ
  | _, [] => []
  | idx, spec :: specs => idx :: starts (idx + spec.slots) specs

/-- An array with the results of `f`, each at the first register of its BAR. -/
def place (f : BarSpec → Option BAR) : ℕ → List BarSpec → (ℕ → Option BAR) → ℕ → Option BAR
  | _, [], bars => bars
  | idx, spec :: specs, bars =>
      place f (idx + spec.slots) specs (Function.update bars idx (f spec))

end BarSpec

/-- What the probe does find: the size has the hard-wired bits taken off, a register that reads
zero counts as unimplemented, and a register of type `0b01` is not decoded. -/
def BarSpec.decoded : BarSpec → Option BAR
  | .unimplemented => none
  | .memory32 base k low p =>
      if low = true ∨ (base = 0 ∧ p = false) then none
      else some (.memory base (2 ^ k - typeBits 0b00 p) p .bits32)
  | .memory64 base k p => some (.memory base (2 ^ k - typeBits 0b10 p) p .bits64)
  | .io base k => some (.io (base % 2 ^ 16) (2 ^ k - 1))

/-- **The probe is exact**: each BAR is found with its base, size and kind, and configuration
space is as it was. -/
def ProbeExact (headerType : ℕ) (cfg : BarSpace) (specs : List BarSpec) : Prop :=
  probeBars (maxBars headerType) (maxBars headerType + 1) cfg 0 (fun _ => none) =
    some (BarSpec.place BarSpec.bar 0 specs fun _ => none, cfg)

/-! ## One register -/

theorem BAR.offset_of_lt {idx : ℕ} (h : idx < 60) : BAR.offset idx = 0x10 + 4 * idx := by
  unfold BAR.offset pciCfgBars
  rw [Nat.shiftLeft_eq]
  omega

theorem and_not32_two_pow {x k : ℕ} (hk : k ≤ 32) (hx : x < 2 ^ 32) :
    x &&& not32 (2 ^ k - 1) = x / 2 ^ k * 2 ^ k := by
  have hpos := Nat.two_pow_pos k
  have hle : 2 ^ k ≤ 2 ^ 32 := Nat.pow_le_pow_right (by norm_num) hk
  have hmask : not32 (2 ^ k - 1) = 2 ^ 32 - 2 ^ k := by
    unfold not32
    omega
  rw [hmask, and_two_pow_sub_two_pow x hk, Nat.mod_eq_of_lt hx]

theorem div_mul_of_dvd {base fixed n : ℕ} (hd : n ∣ base) (hf : fixed < n) :
    (base + fixed) / n * n = base := by
  obtain ⟨c, rfl⟩ := hd
  rw [Nat.mul_add_div (by omega), Nat.div_eq_of_lt hf, Nat.add_zero, Nat.mul_comm]

/-- A register as the device has it: aligned, with its hard-wired bits. -/
structure BarRegister.Wired (r : BarRegister) (base : ℕ) : Prop where
  bits : r.lowBits < 32
  dvd : 2 ^ r.lowBits ∣ base
  lt : base < 2 ^ 32
  fixed_lt : r.fixed < 2 ^ r.lowBits
  value : r.value = base + r.fixed

namespace BarRegister.Wired

variable {r : BarRegister} {base : ℕ}

theorem value_lt (h : r.Wired base) : r.value < 2 ^ 32 := by
  obtain ⟨c, hc⟩ := h.dvd
  have hpow : 2 ^ 32 = 2 ^ r.lowBits * 2 ^ (32 - r.lowBits) := by
    rw [← pow_add, Nat.add_sub_cancel' h.bits.le]
  have hlt : c < 2 ^ (32 - r.lowBits) := by
    apply Nat.lt_of_mul_lt_mul_left
    rw [← hpow, ← hc]
    exact h.lt
  calc r.value = 2 ^ r.lowBits * c + r.fixed := by rw [h.value, hc]
    _ < 2 ^ r.lowBits * c + 2 ^ r.lowBits := by
        have := h.fixed_lt
        omega
    _ = 2 ^ r.lowBits * (c + 1) := by ring
    _ ≤ 2 ^ 32 := by
        rw [hpow]
        exact Nat.mul_le_mul_left _ hlt

theorem write_restore (h : r.Wired base) (w : ℕ) : (r.write w).write r.value = r := by
  have hback := div_mul_of_dvd h.dvd h.fixed_lt
  rw [← h.value] at hback
  unfold BarRegister.write
  dsimp only
  rw [hback, ← h.value]

theorem write_ones (h : r.Wired base) :
    (r.write (not32 0)).value = 2 ^ 32 - 2 ^ r.lowBits + r.fixed := by
  have hpos := Nat.two_pow_pos r.lowBits
  have hdvd : 2 ^ r.lowBits ∣ 2 ^ 32 - 2 ^ r.lowBits :=
    Nat.dvd_sub (pow_dvd_pow 2 h.bits.le) (dvd_refl _)
  have hle : 2 ^ r.lowBits ≤ 2 ^ 32 := Nat.pow_le_pow_right (by norm_num) h.bits.le
  have hones : not32 0 = 2 ^ 32 - 2 ^ r.lowBits + (2 ^ r.lowBits - 1) := by
    unfold not32
    omega
  unfold BarRegister.write
  dsimp only
  rw [hones, div_mul_of_dvd hdvd (by omega)]

theorem size_eq (h : r.Wired base) :
    add32 (not32 (r.write (not32 0)).value) 1 = 2 ^ r.lowBits - r.fixed := by
  have hlt : 2 ^ r.lowBits < 2 ^ 32 := Nat.pow_lt_pow_right (by norm_num) h.bits
  have hf := h.fixed_lt
  rw [h.write_ones]
  unfold add32 not32
  omega

theorem probeSize_eq {cfg : BarSpace} {offset : ℕ} (h : r.Wired base) (hr : cfg offset = r) :
    BAR.probeSize cfg offset r.value = (2 ^ r.lowBits - r.fixed, cfg) := by
  unfold BAR.probeSize BarSpace.writeConfigU32 BarSpace.readConfigU32
  simp only [Function.update_self, Function.update_idem, hr, h.size_eq, h.write_restore]
  rw [← hr, Function.update_eq_self, hr]

end BarRegister.Wired

/-! ## The bits of a memory register -/

theorem typeBits_lt {t : ℕ} (ht : t < 4) (p : Bool) : BarSpec.typeBits t p < 2 ^ 4 := by
  unfold BarSpec.typeBits
  split <;> omega

theorem memory_bits {base t : ℕ} (hd : 2 ^ 4 ∣ base) (ht : t < 4) (p : Bool) :
    (base + BarSpec.typeBits t p) &&& 0x01 = 0 ∧
      ((base + BarSpec.typeBits t p) &&& 0b110) >>> 1 = t ∧
      decide ((base + BarSpec.typeBits t p) &&& 0b1000 ≠ 0) = p := by
  have h6 := and_two_pow_sub_two_pow (base + BarSpec.typeBits t p) (show 1 ≤ 3 by omega)
  have h8 := and_two_pow_sub_two_pow (base + BarSpec.typeBits t p) (show 3 ≤ 4 by omega)
  norm_num at h6 h8
  rw [Nat.and_one_is_mod, h6, h8, Nat.shiftRight_eq_div_pow]
  cases p <;> simp only [BarSpec.typeBits] <;> simp <;> omega

theorem memory_base {r : BarRegister} {base : ℕ} (h : r.Wired base) (hd : 2 ^ 4 ∣ base)
    (hf : r.fixed < 2 ^ 4) : r.value &&& not32 0xf = base := by
  have hmask : not32 0xf = not32 (2 ^ 4 - 1) := by norm_num
  rw [hmask, and_not32_two_pow (by omega) h.value_lt, h.value, div_mul_of_dvd hd hf]

namespace BAR

variable {cfg : BarSpace} {idx : ℕ}

theorem decode_zero (h : (cfg (offset idx)).value = 0) : decode cfg idx = (none, idx + 1, cfg) := by
  unfold decode BarSpace.readConfigU32
  rw [h]
  rfl

theorem decode_memory32 {k base : ℕ} {p : Bool}
    (hr : cfg (offset idx) = ⟨k, BarSpec.typeBits 0b00 p, base + BarSpec.typeBits 0b00 p⟩)
    (hw : (cfg (offset idx)).Wired base) (hd : 2 ^ 4 ∣ base)
    (hne : base + BarSpec.typeBits 0b00 p ≠ 0) :
    decode cfg idx =
      (some (.memory base (2 ^ k - BarSpec.typeBits 0b00 p) p .bits32), idx + 1, cfg) := by
  obtain ⟨hkind, htype, hp⟩ := memory_bits hd (show 0b00 < 4 by omega) p
  have hbase := memory_base hw hd (by rw [hr]; exact typeBits_lt (by omega) p)
  have hsize := hw.probeSize_eq rfl
  rw [hr] at hbase hsize
  dsimp only at hbase hsize
  unfold decode BarSpace.readConfigU32
  simp only [hr, if_neg hne, hkind, htype, hbase, hsize, hp, if_true]

theorem decode_memory1M {k base : ℕ} {p : Bool}
    (hr : cfg (offset idx) = ⟨k, BarSpec.typeBits 0b01 p, base + BarSpec.typeBits 0b01 p⟩)
    (hd : 2 ^ 4 ∣ base) : decode cfg idx = (none, idx + 1, cfg) := by
  obtain ⟨hkind, htype, hp⟩ := memory_bits hd (show 0b01 < 4 by omega) p
  have hne : base + BarSpec.typeBits 0b01 p ≠ 0 := by
    unfold BarSpec.typeBits
    omega
  unfold decode BarSpace.readConfigU32
  simp only [hr, if_neg hne, hkind, htype, if_true]
  rfl

theorem decode_memory64 {k base : ℕ} {p : Bool}
    (hr : cfg (offset idx) =
      ⟨k, BarSpec.typeBits 0b10 p, base % 2 ^ 32 + BarSpec.typeBits 0b10 p⟩)
    (hnext : cfg (offset (idx + 1)) = ⟨0, 0, base / 2 ^ 32⟩)
    (hw : (cfg (offset idx)).Wired (base % 2 ^ 32)) (hd : 2 ^ 4 ∣ base) :
    decode cfg idx =
      (some (.memory base (2 ^ k - BarSpec.typeBits 0b10 p) p .bits64), idx + 2, cfg) := by
  have hdlow : 2 ^ 4 ∣ base % 2 ^ 32 := by
    exact (Nat.dvd_mod_iff (by norm_num)).mpr hd
  obtain ⟨hkind, htype, hp⟩ := memory_bits hdlow (show 0b10 < 4 by omega) p
  have hbase := memory_base hw hdlow (by rw [hr]; exact typeBits_lt (by omega) p)
  have hsize := hw.probeSize_eq rfl
  have hne : base % 2 ^ 32 + BarSpec.typeBits 0b10 p ≠ 0 := by
    unfold BarSpec.typeBits
    omega
  -- the two halves have no bit in common
  have hwhole : base % 2 ^ 32 ||| (base / 2 ^ 32) <<< 32 = base := by
    rw [Nat.or_comm, ← Nat.shiftLeft_add_eq_or_of_lt (Nat.mod_lt _ (by norm_num)),
      Nat.shiftLeft_eq]
    omega
  rw [hr] at hbase hsize
  dsimp only at hbase hsize
  unfold decode BarSpace.readConfigU32
  simp only [hr, hnext, if_neg hne, hkind, htype, hbase, hwhole, hsize, hp, if_true]
  rfl

theorem decode_io {k base : ℕ} (hr : cfg (offset idx) = ⟨k, 1, base + 1⟩)
    (hw : (cfg (offset idx)).Wired base) (hd : 2 ^ 2 ∣ base) :
    decode cfg idx = (some (.io (base % 2 ^ 16) (2 ^ k - 1)), idx + 1, cfg) := by
  have hkind : (base + 1) &&& 0x01 = 1 := by
    rw [Nat.and_one_is_mod]
    omega
  have hbase : (base + 1) &&& not32 0x03 = base := by
    have hlt := hw.value_lt
    rw [hr] at hlt
    have hmask : not32 0x03 = not32 (2 ^ 2 - 1) := by norm_num
    rw [hmask, and_not32_two_pow (by omega) hlt, div_mul_of_dvd hd (by norm_num)]
  have hsize := hw.probeSize_eq rfl
  rw [hr] at hsize
  dsimp only at hsize
  unfold decode BarSpace.readConfigU32
  simp only [hr, Nat.succ_ne_zero, if_false, hkind, hbase, hsize, one_ne_zero]

end BAR

/-! ## The whole set -/

namespace BarSpec

variable {cfg : BarSpace} {idx : ℕ}

theorem dvd_sixteen {k base : ℕ} (hk : 4 ≤ k) (hd : 2 ^ k ∣ base) : 2 ^ 4 ∣ base :=
  (pow_dvd_pow 2 hk).trans hd

theorem typeBits_lt_size {k t : ℕ} (hk : 4 ≤ k) (ht : t < 4) (p : Bool) :
    typeBits t p < 2 ^ k :=
  (typeBits_lt ht p).trans_le (Nat.pow_le_pow_right (by norm_num) hk)

theorem decode_eq {spec : BarSpec} (hv : spec.Valid)
    (hat : ∀ i r, spec.registers[i]? = some r → cfg (BAR.offset (idx + i)) = r) :
    BAR.decode cfg idx = (spec.decoded, idx + spec.slots, cfg) := by
  cases spec with
  | unimplemented =>
      have hr := hat 0 _ rfl
      exact BAR.decode_zero (by rw [Nat.add_zero] at hr; rw [hr])
  | memory32 base k low p =>
      obtain ⟨hk, hk32, hd, hlt⟩ := hv
      have hr : cfg (BAR.offset idx) = _ := hat 0 _ rfl
      have h16 := dvd_sixteen hk hd
      cases low with
      | true =>
          rw [BAR.decode_memory1M hr h16]
          rfl
      | false =>
          have hw : (cfg (BAR.offset idx)).Wired base := by
            rw [hr]
            exact ⟨hk32, hd, hlt, typeBits_lt_size hk (by decide) p, rfl⟩
          by_cases hzero : base = 0 ∧ p = false
          · obtain ⟨rfl, rfl⟩ := hzero
            exact BAR.decode_zero (by rw [hr]; rfl)
          · have hne : base + typeBits 0b00 p ≠ 0 := by
              cases p <;> simp_all [typeBits]
            rw [BAR.decode_memory32 hr hw h16 hne]
            simp only [decoded, Bool.false_eq_true, false_or, if_neg hzero]
            rfl
  | memory64 base k p =>
      obtain ⟨hk, hk32, hd, -⟩ := hv
      have hr : cfg (BAR.offset idx) = _ := hat 0 _ rfl
      have hw : (cfg (BAR.offset idx)).Wired (base % 2 ^ 32) := by
        rw [hr]
        exact ⟨hk32, (Nat.dvd_mod_iff (pow_dvd_pow 2 hk32.le)).mpr hd,
          Nat.mod_lt _ (by norm_num), typeBits_lt_size hk (by norm_num) p, rfl⟩
      exact BAR.decode_memory64 hr (hat 1 _ rfl) hw (dvd_sixteen hk hd)
  | io base k =>
      obtain ⟨hk, hk32, hd, hlt⟩ := hv
      have hr : cfg (BAR.offset idx) = _ := hat 0 _ rfl
      have hw : (cfg (BAR.offset idx)).Wired base := by
        rw [hr]
        have hone : 1 < 2 ^ k := Nat.one_lt_two_pow_iff.mpr (by omega)
        exact ⟨hk32, hd, hlt, hone, rfl⟩
      exact BAR.decode_io hr hw ((pow_dvd_pow 2 hk).trans hd)

theorem slots_pos (spec : BarSpec) : 0 < spec.slots := by
  cases spec <;> exact Nat.succ_pos _

theorem probeBars_eq {specs : List BarSpec} (hv : ∀ spec ∈ specs, spec.Valid) {max fuel : ℕ}
    (hat : At cfg idx specs) (hmax : idx + (specs.map slots).sum = max)
    (hfuel : max < idx + fuel) (bars : ℕ → Option BAR) :
    probeBars max fuel cfg idx bars = some (place decoded idx specs bars, cfg) := by
  induction specs generalizing idx fuel bars with
  | nil =>
      obtain ⟨fuel, rfl⟩ : ∃ m, fuel = m + 1 := ⟨fuel - 1, by simp at hmax; omega⟩
      rw [List.map_nil, List.sum_nil] at hmax
      rw [probeBars, if_neg (by omega), place]
  | cons spec specs ih =>
      obtain ⟨fuel, rfl⟩ : ∃ m, fuel = m + 1 := ⟨fuel - 1, by simp at hmax; omega⟩
      rw [List.map_cons, List.sum_cons] at hmax
      have hpos := spec.slots_pos
      rw [probeBars, if_pos (by omega), decode_eq (hv spec List.mem_cons_self) hat.1]
      exact ih (fun s hs => hv s (List.mem_cons_of_mem _ hs)) hat.2 (by omega) (by omega) _

theorem place_of_not_mem (f : BarSpec → Option BAR) {specs : List BarSpec} {i : ℕ}
    (h : i ∉ starts idx specs) (bars : ℕ → Option BAR) : place f idx specs bars i = bars i := by
  induction specs generalizing idx bars with
  | nil => rfl
  | cons spec specs ih =>
      rw [starts, List.mem_cons, not_or] at h
      rw [place, ih h.2, Function.update_of_ne h.1]

theorem le_of_mem_starts {specs : List BarSpec} {i : ℕ} (h : i ∈ starts idx specs) : idx ≤ i := by
  induction specs generalizing idx with
  | nil => exact absurd h List.not_mem_nil
  | cons spec specs ih =>
      rcases List.mem_cons.mp h with rfl | htail
      · exact le_refl _
      · exact (Nat.le_add_right _ _).trans (ih htail)

theorem place_start (f : BarSpec → Option BAR) (spec : BarSpec) (specs : List BarSpec)
    (bars : ℕ → Option BAR) : place f idx (spec :: specs) bars idx = f spec := by
  have hpos := spec.slots_pos
  rw [place, place_of_not_mem f (fun hmem => by have := le_of_mem_starts hmem; omega),
    Function.update_self]

theorem place_eq_iff (f g : BarSpec → Option BAR) (specs : List BarSpec)
    (bars : ℕ → Option BAR) :
    place f idx specs bars = place g idx specs bars ↔ ∀ spec ∈ specs, f spec = g spec := by
  induction specs generalizing idx bars with
  | nil => exact ⟨fun _ _ h => absurd h List.not_mem_nil, fun _ => rfl⟩
  | cons spec specs ih =>
      rw [List.forall_mem_cons]
      constructor
      · intro heq
        have hhead : f spec = g spec := by
          have hat := congrFun heq idx
          rw [place_start, place_start] at hat
          exact hat
        rw [place, place, hhead] at heq
        exact ⟨hhead, (ih _).mp heq⟩
      · rintro ⟨hhead, htail⟩
        rw [place, place, hhead]
        exact (ih _).mpr htail

/-- The BARs that `decode` gets right: 32-bit memory, not prefetchable and not at address zero. -/
def Decodes : BarSpec → Prop
  | .unimplemented => True
  | .memory32 base _ low p => low = false ∧ p = false ∧ base ≠ 0
  | .memory64 _ _ _ => False
  | .io _ _ => False

theorem decoded_eq_bar_iff {spec : BarSpec} (hv : spec.Valid) :
    spec.decoded = spec.bar ↔ spec.Decodes := by
  cases spec with
  | unimplemented => exact ⟨fun _ => trivial, fun _ => rfl⟩
  | memory32 base k low p =>
      have hlt := typeBits_lt_size hv.1 (show 0b00 < 4 by omega) p
      cases low <;> cases p <;> simp [decoded, bar, Decodes, typeBits] at hlt ⊢
      omega
  | memory64 base k p =>
      have hlt := typeBits_lt_size hv.1 (show 0b10 < 4 by omega) p
      cases p <;> simp [decoded, bar, Decodes, typeBits] at hlt ⊢ <;> omega
  | io base k =>
      have hpos := Nat.two_pow_pos k
      simp [decoded, bar, Decodes]
      omega

end BarSpec

/-- **Which sets the probe recovers.** The loop restores configuration space and skips the upper
halves for every conforming set, but it recovers base, size and kind exactly when each implemented
BAR is 32-bit memory, not prefetchable and not at address zero. -/
theorem probe_exact_iff (headerType : ℕ) (cfg : BarSpace) (specs : List BarSpec)
    (hslots : (specs.map BarSpec.slots).sum = maxBars headerType)
    (hv : ∀ spec ∈ specs, spec.Valid) (hat : BarSpec.At cfg 0 specs) :
    (∃ bars, probeBars (maxBars headerType) (maxBars headerType + 1) cfg 0 (fun _ => none) =
        some (bars, cfg) ∧ ∀ i, bars i ≠ none → i ∈ BarSpec.starts 0 specs) ∧
      (ProbeExact headerType cfg specs ↔ ∀ spec ∈ specs, spec.Decodes) := by
  have hrun := BarSpec.probeBars_eq hv hat (show 0 + _ = maxBars headerType by omega)
    (show maxBars headerType < 0 + (maxBars headerType + 1) by omega) fun _ => none
  refine ⟨⟨_, hrun, fun i hi => ?_⟩, ?_⟩
  · by_contra hnot
    exact hi (BarSpec.place_of_not_mem _ hnot _)
  · unfold ProbeExact
    rw [hrun, Option.some_inj, Prod.mk.injEq, and_iff_left rfl, BarSpec.place_eq_iff]
    exact forall₂_congr fun spec hs => BarSpec.decoded_eq_bar_iff (hv spec hs)

/-- The registers of a set, at their offsets. -/
def BarSpace.ofSpecs (specs : List BarSpec) : BarSpace := fun offset =>
  ((specs.flatMap BarSpec.registers)[(offset - 0x10) / 4]?).getD ⟨32, 0, 0⟩

namespace BarSpec

theorem at_of_flatMap {cfg : BarSpace} {idx : ℕ} {specs : List BarSpec}
    (h : ∀ i r, (specs.flatMap registers)[i]? = some r → cfg (BAR.offset (idx + i)) = r) :
    At cfg idx specs := by
  induction specs generalizing idx with
  | nil => trivial
  | cons spec specs ih =>
      rw [List.flatMap_cons] at h
      refine ⟨fun i r hi => h i r ?_, ih fun i r hi => ?_⟩
      · rw [List.getElem?_append_left (List.getElem?_eq_some_iff.mp hi).1]
        exact hi
      · rw [Nat.add_assoc]
        apply h
        rw [slots, List.getElem?_append_right (by omega), Nat.add_sub_cancel_left]
        exact hi

theorem length_registers (specs : List BarSpec) :
    (specs.flatMap registers).length = (specs.map slots).sum := by
  rw [List.length_flatMap]
  rfl

theorem at_ofSpecs {specs : List BarSpec} (h : (specs.map slots).sum ≤ 6) :
    At (BarSpace.ofSpecs specs) 0 specs := by
  apply at_of_flatMap
  intro i r hi
  have hlt := (List.getElem?_eq_some_iff.mp hi).1
  rw [length_registers] at hlt
  rw [Nat.zero_add, BAR.offset_of_lt (by omega), BarSpace.ofSpecs]
  have hslot : (0x10 + 4 * i - 0x10) / 4 = i := by omega
  rw [hslot, hi, Option.getD_some]

end BarSpec

/-- A network card with its registers in memory. -/
def plainSpecs : List BarSpec :=
  [.memory32 0xfebc0000 17 false false, .unimplemented, .unimplemented, .unimplemented,
    .unimplemented, .unimplemented]

theorem probe_exact_plain : ProbeExact 0 (BarSpace.ofSpecs plainSpecs) plainSpecs := by
  refine (probe_exact_iff 0 _ plainSpecs (by decide) ?_ (BarSpec.at_ofSpecs (by decide))).2.mpr ?_
  · simp [plainSpecs, BarSpec.Valid]
  · simp [plainSpecs, BarSpec.Decodes]

/-- A virtio device: 32 ports, and its registers in prefetchable 64-bit memory. -/
def virtioSpecs : List BarSpec :=
  [.io 0xc000 5, .memory32 0xfebd0000 12 false false, .unimplemented, .unimplemented,
    .memory64 0xfe000000 14 true]

/-- A region of 16384 bytes is found with 16372, and 32 ports are found as 31. -/
theorem probe_size_short :
    BarSpec.At (BarSpace.ofSpecs virtioSpecs) 0 virtioSpecs ∧
      (∀ spec ∈ virtioSpecs, spec.Valid) ∧
      ((probeBars (maxBars 0) 7 (BarSpace.ofSpecs virtioSpecs) 0 fun _ => none).map
        fun found => (found.1 0, found.1 4)) =
        some (some (.io 0xc000 31), some (.memory 0xfe000000 16372 true .bits64)) ∧
      ¬ ProbeExact 0 (BarSpace.ofSpecs virtioSpecs) virtioSpecs := by
  have hat : BarSpec.At (BarSpace.ofSpecs virtioSpecs) 0 virtioSpecs :=
    BarSpec.at_ofSpecs (by decide)
  have hv : ∀ spec ∈ virtioSpecs, spec.Valid := by
    simp [virtioSpecs, BarSpec.Valid]
  have hrun : probeBars (maxBars 0) 7 (BarSpace.ofSpecs virtioSpecs) 0 (fun _ => none) =
      some (BarSpec.place BarSpec.decoded 0 virtioSpecs fun _ => none, BarSpace.ofSpecs virtioSpecs) :=
    BarSpec.probeBars_eq hv hat (by decide) (by decide) _
  refine ⟨hat, hv, ?_, fun hexact => ?_⟩
  · rw [hrun]
    decide
  · rw [ProbeExact, show maxBars 0 + 1 = 7 from rfl, hrun] at hexact
    have hfound := congrFun (Prod.mk.inj (Option.some.inj hexact)).1 0
    revert hfound
    decide

end Manticore
