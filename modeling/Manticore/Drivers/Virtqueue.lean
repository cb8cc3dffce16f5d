import Manticore.Base.Run

/-!
# Virtqueues

`drivers/virtio/virtqueue.rs`: the driver writes a buffer to the descriptor table and publishes
the descriptor's index in the available ring; the device takes indices from there and returns
them, in any order, through the used ring.  Ring indices run freely and wrap at 2^16.

`add_buf` has one descriptor, so it hands the device what the device already has unless the
device is done with everything before.
-/

namespace Manticore

structure VirtqDesc where
  addr : ℕ
  len : ℕ
  flags : ℕ
  next : ℕ
deriving DecidableEq, Repr

def virtqDescFWrite : ℕ := 2

structure VirtqUsedElem where
  id : ℕ
  len : ℕ
deriving DecidableEq, Repr

/-- The size of a queue is read from a 16-bit register of the device. -/
structure Virtqueue where
  queueSize : ℕ
  queueSize_pos : 0 < queueSize
  queueSize_lt : queueSize < 2 ^ 16
  descriptorTable : ℕ → VirtqDesc
  availIdx : ℕ
  availRing : ℕ → ℕ
  usedIdx : ℕ
  usedRing : ℕ → VirtqUsedElem

namespace Virtqueue

/-- The three parts come from `kmem_zalloc`. -/
def new (queueSize : ℕ) (hpos : 0 < queueSize) (hlt : queueSize < 2 ^ 16) : Virtqueue where
  queueSize := queueSize
  queueSize_pos := hpos
  queueSize_lt := hlt
  descriptorTable := fun _ => ⟨0, 0, 0, 0⟩
  availIdx := 0
  availRing := fun _ => 0
  usedIdx := 0
  usedRing := fun _ => ⟨0, 0⟩

def addBufIdx (vq : Virtqueue) (idx : ℕ) : Virtqueue :=
  { vq with
    availRing := Function.update vq.availRing (vq.availIdx % vq.queueSize) idx
    availIdx := (vq.availIdx + 1) % 2 ^ 16 }

/-- The one descriptor that `add_buf` uses. -/
def addBufDesc : ℕ := 0

def addBuf (vq : Virtqueue) (addr len flags : ℕ) : Virtqueue :=
  let idx := addBufDesc
  let desc : VirtqDesc := ⟨addr, len % 2 ^ 32, flags, 0⟩
  addBufIdx { vq with descriptorTable := Function.update vq.descriptorTable idx desc } idx

/-- A buffer for the device to write. -/
def addInbuf (vq : Virtqueue) (addr len : ℕ) : Virtqueue := vq.addBuf addr len virtqDescFWrite

/-- A buffer for the device to read. -/
def addOutbuf (vq : Virtqueue) (addr len : ℕ) : Virtqueue := vq.addBuf addr len 0

end Virtqueue

/-! ## Driver and device -/

/-- A queue and its device, which has taken the entries of the available ring up to `lastAvail`
and has not returned those `inFlight`. -/
structure VirtqSystem where
  vq : Virtqueue
  lastAvail : ℕ
  inFlight : List ℕ

namespace VirtqSystem

def new (queueSize : ℕ) (hpos : 0 < queueSize) (hlt : queueSize < 2 ^ 16) : VirtqSystem :=
  ⟨Virtqueue.new queueSize hpos hlt, 0, []⟩

/-- The device takes the next entry of the available ring, if there is one. -/
def take (st : VirtqSystem) : VirtqSystem :=
  if st.lastAvail = st.vq.availIdx then st
  else { st with
    lastAvail := (st.lastAvail + 1) % 2 ^ 16
    inFlight := st.inFlight ++ [st.vq.availRing (st.lastAvail % st.vq.queueSize)] }

/-- The device returns the `k`-th of the descriptors it has taken. -/
def complete (st : VirtqSystem) (k len : ℕ) : VirtqSystem :=
  match st.inFlight[k]? with
  | none => st
  | some id => { st with
      inFlight := st.inFlight.eraseIdx k
      vq := { st.vq with
        usedRing := Function.update st.vq.usedRing (st.vq.usedIdx % st.vq.queueSize) ⟨id, len⟩
        usedIdx := (st.vq.usedIdx + 1) % 2 ^ 16 } }

inductive Op where
  | addInbuf (addr len : ℕ)
  | addOutbuf (addr len : ℕ)
  | take
  | complete (k len : ℕ)
deriving DecidableEq, Repr

def step (st : VirtqSystem) : Op → VirtqSystem
  | .addInbuf addr len => { st with vq := st.vq.addInbuf addr len }
  | .addOutbuf addr len => { st with vq := st.vq.addOutbuf addr len }
  | .take => st.take
  | .complete k len => st.complete k len

def Op.IsAdd : Op → Prop
  | .addInbuf _ _ => True
  | .addOutbuf _ _ => True
  | .take => False
  | .complete _ _ => False

/-- The entries of the available ring that the device has not taken yet. -/
def waiting (st : VirtqSystem) : List ℕ :=
  (List.range ((st.vq.availIdx + (2 ^ 16 - st.lastAvail)) % 2 ^ 16)).map fun j =>
    st.vq.availRing ((st.lastAvail + j) % 2 ^ 16 % st.vq.queueSize)

/-- The device has descriptor `i`: it was published and has not been returned. -/
def Owns (st : VirtqSystem) (i : ℕ) : Prop := i ∈ st.inFlight ++ st.waiting

/-- `add_buf` is given a descriptor that the device does not have. -/
def FreshAdd (st : VirtqSystem) (op : Op) : Prop := op.IsAdd → ¬ st.Owns Virtqueue.addBufDesc

/-- The step leaves the buffers of the device alone. -/
def KeepsBuffers (st : VirtqSystem) (op : Op) : Prop :=
  ∀ i, st.Owns i → (st.step op).vq.descriptorTable i = st.vq.descriptorTable i

/-- `add_buf` is called when everything published has been returned. -/
def DrainedAdd (st : VirtqSystem) (op : Op) : Prop := op.IsAdd → st.vq.availIdx = st.vq.usedIdx

/-! ## The three phases of the descriptor -/

/-- The driver has the descriptor. -/
structure Idle (st : VirtqSystem) : Prop where
  lt : st.vq.availIdx < 2 ^ 16
  taken : st.lastAvail = st.vq.availIdx
  returned : st.vq.usedIdx = st.vq.availIdx
  inFlight : st.inFlight = []

/-- The descriptor is in the available ring. -/
structure Published (st : VirtqSystem) : Prop where
  lt : st.lastAvail < 2 ^ 16
  published : st.vq.availIdx = (st.lastAvail + 1) % 2 ^ 16
  returned : st.vq.usedIdx = st.lastAvail
  entry : st.vq.availRing (st.lastAvail % st.vq.queueSize) = Virtqueue.addBufDesc
  inFlight : st.inFlight = []

/-- The device has taken the descriptor. -/
structure Taken (st : VirtqSystem) : Prop where
  lt : st.vq.usedIdx < 2 ^ 16
  published : st.vq.availIdx = (st.vq.usedIdx + 1) % 2 ^ 16
  taken : st.lastAvail = st.vq.availIdx
  inFlight : st.inFlight = [Virtqueue.addBufDesc]

def Inv (st : VirtqSystem) : Prop := st.Idle ∨ st.Published ∨ st.Taken

variable {st : VirtqSystem} {op : Op}

theorem waiting_of_taken (hlt : st.vq.availIdx < 2 ^ 16) (h : st.lastAvail = st.vq.availIdx) :
    st.waiting = [] := by
  have hnone : (st.vq.availIdx + (2 ^ 16 - st.lastAvail)) % 2 ^ 16 = 0 := by omega
  rw [waiting, hnone]
  rfl

theorem Idle.not_owns (h : st.Idle) (i : ℕ) : ¬ st.Owns i := by
  simp [Owns, h.inFlight, waiting_of_taken h.lt h.taken]

theorem Published.owns (h : st.Published) : st.Owns Virtqueue.addBufDesc := by
  have hlt := h.lt
  have hone : (st.vq.availIdx + (2 ^ 16 - st.lastAvail)) % 2 ^ 16 = 1 := by
    rw [h.published]
    omega
  refine List.mem_append_right _ (List.mem_map.mpr ⟨0, ?_, ?_⟩)
  · rw [hone]
    simp
  · rw [Nat.add_zero, Nat.mod_eq_of_lt hlt]
    exact h.entry

theorem Taken.owns (h : st.Taken) : st.Owns Virtqueue.addBufDesc := by
  refine List.mem_append_left _ ?_
  rw [h.inFlight]
  exact List.mem_singleton_self _

theorem Inv.not_owns_iff (h : st.Inv) :
    ¬ st.Owns Virtqueue.addBufDesc ↔ st.vq.availIdx = st.vq.usedIdx := by
  rcases h with h | h | h
  · exact ⟨fun _ => h.returned.symm, fun _ => h.not_owns _⟩
  · have hne : st.vq.availIdx ≠ st.vq.usedIdx := by
      have := h.lt
      rw [h.published, h.returned]
      omega
    exact ⟨fun hc => absurd h.owns hc, fun hc => absurd hc hne⟩
  · have hne : st.vq.availIdx ≠ st.vq.usedIdx := by
      have := h.lt
      rw [h.published]
      omega
    exact ⟨fun hc => absurd h.owns hc, fun hc => absurd hc hne⟩

theorem Inv.idle (h : st.Inv) (heq : st.vq.availIdx = st.vq.usedIdx) : st.Idle := by
  have hnot := h.not_owns_iff.mpr heq
  rcases h with h | h | h
  · exact h
  · exact absurd h.owns hnot
  · exact absurd h.owns hnot

/-! ## Steps -/

theorem step_of_isAdd (h : op.IsAdd) (st : VirtqSystem) :
    ∃ addr len flags, st.step op = { st with vq := st.vq.addBuf addr len flags } := by
  cases op with
  | addInbuf addr len => exact ⟨addr, len, virtqDescFWrite, rfl⟩
  | addOutbuf addr len => exact ⟨addr, len, 0, rfl⟩
  | take => exact h.elim
  | complete k len => exact h.elim

theorem Idle.addBuf (h : st.Idle) (addr len flags : ℕ) :
    Published { st with vq := st.vq.addBuf addr len flags } := by
  have hlt := h.lt
  refine ⟨?_, ?_, ?_, ?_, h.inFlight⟩
  · rw [h.taken]
    exact hlt
  · simp only [Virtqueue.addBuf, Virtqueue.addBufIdx, h.taken]
  · rw [h.taken]
    exact h.returned
  · simp only [Virtqueue.addBuf, Virtqueue.addBufIdx, h.taken, Function.update_self]

theorem Inv.take (h : st.Inv) : st.take.Inv := by
  unfold VirtqSystem.take
  rcases h with h | h | h
  · rw [if_pos h.taken]
    exact Or.inl h
  · have hlt := h.lt
    have hne : st.lastAvail ≠ st.vq.availIdx := by
      rw [h.published]
      omega
    rw [if_neg hne]
    refine Or.inr (Or.inr ⟨?_, ?_, h.published.symm, ?_⟩)
    · exact h.returned ▸ hlt
    · simp only [h.returned]
      exact h.published
    · simp only [h.inFlight, h.entry, List.nil_append]
  · rw [if_pos h.taken]
    exact Or.inr (Or.inr h)

theorem Inv.complete (h : st.Inv) (k len : ℕ) : (st.complete k len).Inv := by
  rcases h with h | h | h
  · have hsame : st.complete k len = st := by simp [VirtqSystem.complete, h.inFlight]
    rw [hsame]
    exact Or.inl h
  · have hsame : st.complete k len = st := by simp [VirtqSystem.complete, h.inFlight]
    rw [hsame]
    exact Or.inr (Or.inl h)
  · cases k with
    | zero =>
        have hhead : st.inFlight[0]? = some Virtqueue.addBufDesc := by simp [h.inFlight]
        simp only [VirtqSystem.complete, hhead]
        refine Or.inl ⟨?_, h.taken, h.published.symm, ?_⟩
        · simp only [h.published]
          exact Nat.mod_lt _ (by decide)
        · simp [h.inFlight]
    | succ k =>
        have hsame : st.complete (k + 1) len = st := by simp [VirtqSystem.complete, h.inFlight]
        rw [hsame]
        exact Or.inr (Or.inr h)

theorem Inv.step (h : st.Inv) (hadd : st.DrainedAdd op) : (st.step op).Inv := by
  by_cases hop : op.IsAdd
  · obtain ⟨addr, len, flags, heq⟩ := step_of_isAdd hop st
    rw [heq]
    exact Or.inr (Or.inl ((h.idle (hadd hop)).addBuf addr len flags))
  · cases op with
    | addInbuf addr len => exact absurd trivial hop
    | addOutbuf addr len => exact absurd trivial hop
    | take => exact h.take
    | complete k len => exact h.complete k len

theorem Inv.keepsBuffers (h : st.Inv) (hadd : st.DrainedAdd op) : st.KeepsBuffers op := by
  intro i hi
  cases op with
  | addInbuf addr len => exact absurd hi ((h.idle (hadd trivial)).not_owns i)
  | addOutbuf addr len => exact absurd hi ((h.idle (hadd trivial)).not_owns i)
  | take =>
      simp only [VirtqSystem.step, VirtqSystem.take]
      split
      · rfl
      · rfl
  | complete k len =>
      simp only [VirtqSystem.step, VirtqSystem.complete]
      split
      · rfl
      · rfl

/-! ## Runs -/

theorem inv_new (queueSize : ℕ) (hpos : 0 < queueSize) (hlt : queueSize < 2 ^ 16) :
    (new queueSize hpos hlt).Inv :=
  Or.inl ⟨Nat.two_pow_pos 16, rfl, rfl, rfl⟩

end VirtqSystem

/-- **Descriptors are published once.** In a run of calls of the driver and steps of the device,
no `add_buf` is given a descriptor that the device has if and only if at each one everything
published before has been returned.  In such a run no step changes a buffer of the device. -/
theorem virtqueue_fresh_iff (queueSize : ℕ) (hpos : 0 < queueSize) (hlt : queueSize < 2 ^ 16)
    (ops : List VirtqSystem.Op) :
    let start := VirtqSystem.new queueSize hpos hlt
    (Guarded VirtqSystem.step VirtqSystem.FreshAdd start ops ↔
      Guarded VirtqSystem.step VirtqSystem.DrainedAdd start ops) ∧
    (Guarded VirtqSystem.step VirtqSystem.DrainedAdd start ops →
      Guarded VirtqSystem.step VirtqSystem.KeepsBuffers start ops) := by
  have hinv := VirtqSystem.inv_new queueSize hpos hlt
  have hiff : ∀ (st : VirtqSystem) op, st.Inv → (st.FreshAdd op ↔ st.DrainedAdd op) := by
    intro st op h
    exact imp_congr_right fun _ => h.not_owns_iff
  refine ⟨⟨?_, ?_⟩, ?_⟩
  · apply guarded_of_inv (P := VirtqSystem.Inv) _ _ hinv
    · exact fun st op h hadd => (hiff st op h).mp hadd
    · exact fun st op h hadd => h.step ((hiff st op h).mp hadd)
  · apply guarded_of_inv (P := VirtqSystem.Inv) _ _ hinv
    · exact fun st op h hadd => (hiff st op h).mpr hadd
    · exact fun st op h hadd => h.step hadd
  · apply guarded_of_inv (P := VirtqSystem.Inv) _ _ hinv
    · exact fun st op h hadd => h.keepsBuffers hadd
    · exact fun st op h hadd => h.step hadd

/-- A buffer, its return, and the next buffer. -/
theorem virtqueue_fresh_two_buffers :
    Guarded VirtqSystem.step VirtqSystem.KeepsBuffers
      (VirtqSystem.new 256 (by decide) (by decide))
      [.addOutbuf 0x5000 70, .take, .complete 0 0, .addOutbuf 0x5000 110] :=
  (virtqueue_fresh_iff 256 (by decide) (by decide) _).2
    ⟨fun _ => rfl, fun h => h.elim, fun h => h.elim, fun _ => rfl, trivial⟩

/-- **Two packets at once.** `process_io` submits two packets before the device returns the
first: the device has descriptor 0 when `add_buf` writes it again, and the 70 bytes become 110. -/
theorem virtqueue_submit_twice :
    let first := (VirtqSystem.new 256 (by decide) (by decide)).step (.addOutbuf 0x5000 70)
    first.Owns Virtqueue.addBufDesc ∧
      first.vq.descriptorTable 0 = ⟨0x5000, 70, 0, 0⟩ ∧
      (first.step (.addOutbuf 0x5000 110)).vq.descriptorTable 0 = ⟨0x5000, 110, 0, 0⟩ := by
  refine ⟨VirtqSystem.Published.owns ?_, rfl, rfl⟩
  exact VirtqSystem.Idle.addBuf ⟨by decide, rfl, rfl, rfl⟩ 0x5000 70 0

end Manticore
