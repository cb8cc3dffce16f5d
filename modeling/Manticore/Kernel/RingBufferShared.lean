import Manticore.Kernel.AtomicRingBuffer

/-!
# The kernel's side of a ring whose other side is hostile

The ring lives in memory the process can write, so each load the kernel makes of one of
the four control words may give another value.  `w i` holds the words as they are at the
`i`-th load of a call; nothing is known of them.
-/

namespace Manticore

/-- The control words at the moment of one load. -/
structure RingWords where
  elementSize : UInt64
  capacity : UInt64
  tail : UInt64
  head : UInt64
deriving DecidableEq, Repr

/-- An access to `len` bytes; addresses wrap. -/
inductive Access where
  | load (addr len : ℕ)
  | store (addr len : ℕ)
deriving DecidableEq, Repr

namespace Access

/-- All bytes of `[addr, addr + len)` are in the buffer. -/
def BytesInside (buf bufSize addr len : ℕ) : Prop :=
  ∀ i < len, buf ≤ (addr + i) % 2 ^ 64 ∧ (addr + i) % 2 ^ 64 < buf + bufSize

def StoresInside (buf bufSize : ℕ) : Access → Prop
  | .load .. => True
  | .store addr len => BytesInside buf bufSize addr len

def LoadsInside (buf bufSize : ℕ) : Access → Prop
  | .load addr len => BytesInside buf bufSize addr len
  | .store .. => True

end Access

/-- Offsets in `struct atomic_ring_buffer`. -/
def ringElementSizeAt : ℕ := 0
def ringCapacityAt : ℕ := 8
def ringTailAt : ℕ := 64
def ringHeadAt : ℕ := 128

/-- `sizeof(RawIOCmd)` and the offsets of its fields. -/
def sizeofRawIOCmd : ℕ := 24
def rawOpcodeAt : ℕ := 0
def rawAddrAt : ℕ := 8
def rawLenAt : ℕ := 16

/-- One element further, as the kernel computes it from its loads. -/
def nextOffset (offset elementSize capacity : ℕ) : ℕ :=
  let next := add64 offset elementSize
  if next = capacity then 0 else next

/-- The ring is full for what `emplace` has loaded. -/
def RingRefuses (w : ℕ → RingWords) : Prop :=
  nextOffset (w 0).head.toNat (w 1).elementSize.toNat (w 2).capacity.toNat = (w 3).tail.toNat

instance (w : ℕ → RingWords) : Decidable (RingRefuses w) := inferInstanceAs (Decidable (_ = _))

/-- What `atomic_ring_buffer_emplace` accesses in the shared buffer. -/
def emplaceAccesses (buf : ℕ) (w : ℕ → RingWords) : List Access :=
  let loads := [.load (buf + ringHeadAt) 8, .load (buf + ringElementSizeAt) 8,
    .load (buf + ringCapacityAt) 8, .load (buf + ringTailAt) 8]
  if RingRefuses w then loads
  else loads ++ [.load (buf + ringElementSizeAt) 8,
    .store (buf + sizeofAtomicRingBuffer + (w 0).head.toNat) (w 4).elementSize.toNat,
    .store (buf + ringHeadAt) 8]

/-- What `IOQueue::pop` accesses: `front`, the fields of the command, then the ring's
`pop`. A null pointer from `front` counts as an empty ring. -/
def ioQueuePopAccesses (buf : ℕ) (w : ℕ → RingWords) : List Access :=
  let loads := [.load (buf + ringHeadAt) 8, .load (buf + ringTailAt) 8]
  let front := buf + sizeofAtomicRingBuffer + (w 1).tail.toNat
  if (w 0).head = (w 1).tail ∨ front % 2 ^ 64 = 0 then loads
  else loads ++ [.load (front + rawOpcodeAt) 4, .load (front + rawAddrAt) 8,
    .load (front + rawLenAt) 8, .load (buf + ringTailAt) 8, .load (buf + ringElementSizeAt) 8,
    .load (buf + ringCapacityAt) 8, .store (buf + ringTailAt) 8]

/-- Where an offset into the data area leads, from the start of the buffer. -/
def bufferOffset (offset : UInt64) : ℕ := add64 sizeofAtomicRingBuffer offset.toNat

/-! ## Bounds -/

variable {buf bufSize o len : ℕ}

theorem header_inside (hsize : sizeofAtomicRingBuffer ≤ bufSize) (hbuf : buf + bufSize < 2 ^ 64)
    (ho : o + len ≤ sizeofAtomicRingBuffer) : Access.BytesInside buf bufSize (buf + o) len := by
  intro i hi
  rw [Nat.mod_eq_of_lt (by omega)]
  omega

theorem data_inside_iff (offset : UInt64) (hbuf : buf + bufSize < 2 ^ 64) (hlen : 0 < len) :
    Access.BytesInside buf bufSize (buf + sizeofAtomicRingBuffer + offset.toNat) len ↔
      bufferOffset offset + len ≤ bufSize := by
  have hmod : ∀ i, (buf + sizeofAtomicRingBuffer + offset.toNat + i) % 2 ^ 64 =
      (buf + bufferOffset offset + i) % 2 ^ 64 := by
    intro i
    simp only [bufferOffset, add64]
    omega
  have hoff : bufferOffset offset < 2 ^ 64 := add64_lt _ _
  simp only [Access.BytesInside, hmod]
  generalize bufferOffset offset = o at *
  constructor
  · intro h
    have hfirst := h 0 hlen
    have ho : o < bufSize := by omega
    by_contra hnot
    -- the first byte past the end of the buffer is among those accessed
    have hpast := h (bufSize - o) (by omega)
    rw [show buf + o + (bufSize - o) = buf + bufSize by omega, Nat.mod_eq_of_lt hbuf] at hpast
    omega
  · intro h i hi
    rw [Nat.mod_eq_of_lt (by omega)]
    omega

theorem command_inside_iff {offset : UInt64} (hbuf : buf + bufSize + sizeofRawIOCmd ≤ 2 ^ 64) :
    Access.BytesInside buf bufSize
        (buf + sizeofAtomicRingBuffer + offset.toNat + rawOpcodeAt) 4 ∧
      Access.BytesInside buf bufSize
        (buf + sizeofAtomicRingBuffer + offset.toNat + rawAddrAt) 8 ∧
      Access.BytesInside buf bufSize
        (buf + sizeofAtomicRingBuffer + offset.toNat + rawLenAt) 8 ↔
      bufferOffset offset + sizeofRawIOCmd ≤ bufSize := by
  simp only [sizeofRawIOCmd] at hbuf
  have hlt : buf + bufSize < 2 ^ 64 := by omega
  have hfirst := data_inside_iff offset hlt (show 0 < 4 by decide)
  have hall := data_inside_iff offset hlt (show 0 < 24 by decide)
  simp only [rawOpcodeAt, rawAddrAt, rawLenAt, sizeofRawIOCmd, Nat.add_zero]
  constructor
  · rintro ⟨hop, -, hlen⟩
    have ho := hfirst.mp hop
    have hlast := hlen 7 (by decide)
    have hmod : (buf + sizeofAtomicRingBuffer + offset.toNat + 16 + 7) % 2 ^ 64 =
        (buf + bufferOffset offset + 23) % 2 ^ 64 := by
      simp only [bufferOffset, add64]
      omega
    rw [hmod, Nat.mod_eq_of_lt (by omega)] at hlast
    omega
  · intro h
    have hbytes := hall.mpr h
    refine ⟨fun i hi => hbytes i (by omega), fun i hi => ?_, fun i hi => ?_⟩
    · rw [Nat.add_assoc _ 8 i]
      exact hbytes (8 + i) (by omega)
    · rw [Nat.add_assoc _ 16 i]
      exact hbytes (16 + i) (by omega)

/-- **The kernel's side of a shared ring stays in the buffer exactly if** the offset it
has loaded, and the element size it copies by, do. -/
theorem shared_ring_inside_iff (buf bufSize : ℕ) (w : ℕ → RingWords)
    (hsize : sizeofAtomicRingBuffer ≤ bufSize) (hbuf : buf + bufSize + sizeofRawIOCmd ≤ 2 ^ 64) :
    ((∀ a ∈ emplaceAccesses buf w, a.StoresInside buf bufSize) ↔
        RingRefuses w ∨ (w 4).elementSize = 0 ∨
          bufferOffset (w 0).head + (w 4).elementSize.toNat ≤ bufSize) ∧
      ((∀ a ∈ ioQueuePopAccesses buf w, a.LoadsInside buf bufSize) ↔
        (w 0).head = (w 1).tail ∨ (buf + bufferOffset (w 1).tail) % 2 ^ 64 = 0 ∨
          bufferOffset (w 1).tail + sizeofRawIOCmd ≤ bufSize) := by
  have hlt : buf + bufSize < 2 ^ 64 := by
    simp only [sizeofRawIOCmd] at hbuf
    omega
  have hheader : ∀ o len, o + len ≤ 192 → Access.BytesInside buf bufSize (buf + o) len :=
    fun o len ho => header_inside hsize hlt ho
  refine ⟨?_, ?_⟩
  · by_cases hfull : RingRefuses w
    · simp [emplaceAccesses, hfull, Access.StoresInside]
    · have hhead := hheader ringHeadAt 8 (by decide)
      by_cases hzero : (w 4).elementSize = 0
      · simp [emplaceAccesses, hfull, hzero, Access.StoresInside, Access.BytesInside]
        exact hhead
      · have hpos : 0 < (w 4).elementSize.toNat :=
          Nat.pos_of_ne_zero fun h => hzero (UInt64.toNat_inj.mp h)
        have hdata := data_inside_iff (w 0).head hlt hpos
        simp [emplaceAccesses, hfull, hzero, Access.StoresInside, hhead, hdata]
  · have hnull : (buf + sizeofAtomicRingBuffer + (w 1).tail.toNat) % 2 ^ 64 = 0 ↔
        (buf + bufferOffset (w 1).tail) % 2 ^ 64 = 0 := by
      simp only [bufferOffset, add64]
      omega
    have h₁ := hheader ringHeadAt 8 (by decide)
    have h₂ := hheader ringTailAt 8 (by decide)
    have h₃ := hheader ringElementSizeAt 8 (by decide)
    have h₄ := hheader ringCapacityAt 8 (by decide)
    by_cases hempty : (w 0).head = (w 1).tail ∨ (buf + bufferOffset (w 1).tail) % 2 ^ 64 = 0
    · rw [← or_assoc, iff_true_right (Or.inl hempty)]
      simp only [ioQueuePopAccesses, hnull, if_pos hempty]
      simp [Access.LoadsInside, h₁, h₂]
    · rw [← or_assoc, or_iff_right hempty, ← command_inside_iff hbuf]
      simp only [ioQueuePopAccesses, hnull, if_neg hempty]
      simp [Access.LoadsInside, h₁, h₂, h₃, h₄]

/-- The event ring of a process, as the kernel has set it up. -/
theorem shared_ring_inside_honest :
    ¬ RingRefuses (fun _ => ⟨24, 3888, 0, 24⟩) ∧
      ∀ a ∈ emplaceAccesses 0x80000000 fun _ => ⟨24, 3888, 0, 24⟩,
        a.StoresInside 0x80000000 0x1000 :=
  ⟨by decide, (shared_ring_inside_iff 0x80000000 0x1000 (fun _ => ⟨24, 3888, 0, 24⟩)
    (by decide) (by decide)).1.mpr (Or.inr (Or.inr (by decide)))⟩

/-- **The process chooses where the kernel writes.** With `head` set to `0x10000`, the
event goes to the page sixteen pages above the ring. -/
theorem shared_ring_head_outside :
    ¬ ∀ a ∈ emplaceAccesses 0x80000000 fun _ => ⟨24, 3888, 0, 0x10000⟩,
      a.StoresInside 0x80000000 0x1000 := by
  intro h
  have hstore := h (.store (0x80000000 + sizeofAtomicRingBuffer + 0x10000) 24) (by decide) 0
    (by decide)
  exact absurd hstore.2 (by decide)

end Manticore
