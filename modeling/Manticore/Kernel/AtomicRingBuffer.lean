import Manticore.Base.Word
import Manticore.Base.Memory
import Manticore.Base.Circular

/-!
# The atomic ring buffer

`struct atomic_ring_buffer` as one call at a time sees it: `new`, `is_empty`,
`front`, `pop` and `emplace` of `kernel/atomic-ring-buffer.c` (the copy in
`libmanticore` has the same bodies).  Offsets are byte offsets into `data`.

`Holds r n q l` is the representation relation: the ring has `n` slots, `q` elements
have been popped so far, and `l` is what it holds, oldest first.  One slot is always
left empty, so `l.length < n`.
-/

namespace Manticore

/-- `struct atomic_ring_buffer`, padding left out. -/
structure AtomicRingBuffer where
  elementSize : ℕ
  capacity : ℕ
  tail : ℕ
  head : ℕ
  data : Mem

/-- `sizeof(struct atomic_ring_buffer)`: three cache lines of 64 bytes. -/
def sizeofAtomicRingBuffer : ℕ := 192

namespace AtomicRingBuffer

/-- `atomic_ring_buffer_new`. The data area keeps what the buffer held before. -/
def new (buf : Mem) (bufSize elementSize : ℕ) : AtomicRingBuffer :=
  let capacity := sub64 bufSize sizeofAtomicRingBuffer
  { elementSize := elementSize
    capacity := capacity - capacity % elementSize
    tail := 0
    head := 0
    data := fun i => buf (sizeofAtomicRingBuffer + i) }

def isEmpty (r : AtomicRingBuffer) : Bool := r.head == r.tail

/-- The offset of the element `front` points to, `none` for `NULL`. -/
def front (r : AtomicRingBuffer) : Option ℕ :=
  if r.head = r.tail then none else some r.tail

/-- The offset one element further, back to `0` at the end of the data area. -/
def next (r : AtomicRingBuffer) (offset : ℕ) : ℕ :=
  let next := add64 offset r.elementSize
  if next = r.capacity then 0 else next

def pop (r : AtomicRingBuffer) : AtomicRingBuffer := { r with tail := r.next r.tail }

def emplace (r : AtomicRingBuffer) (element : Mem) : Bool × AtomicRingBuffer :=
  let nextHead := r.next r.head
  if nextHead = r.tail then (false, r)
  else (true, { r with
    data := memcpy r.data r.head element r.elementSize
    head := nextHead })

/-! ## The representation relation -/

/-- The ring `r` of `n` slots holds `l`, after `q` elements were popped. -/
structure Holds (r : AtomicRingBuffer) (n q : ℕ) (l : List (List UInt8)) : Prop where
  two_le : 2 ≤ n
  elementSize_pos : 0 < r.elementSize
  capacity_eq : r.capacity = n * r.elementSize
  capacity_lt : r.capacity < 2 ^ 64
  tail_eq : r.tail = slot n r.elementSize q
  head_eq : r.head = slot n r.elementSize (q + l.length)
  length_lt : l.length < n
  data_eq : ∀ i (h : i < l.length),
    bytesAt r.data (slot n r.elementSize (q + i)) r.elementSize = l[i]

theorem holds_new {buf : Mem} {bufSize elementSize : ℕ} (hes : 0 < elementSize)
    (hroom : sizeofAtomicRingBuffer + 2 * elementSize ≤ bufSize)
    (hsize : bufSize < 2 ^ 64) :
    Holds (new buf bufSize elementSize)
      ((bufSize - sizeofAtomicRingBuffer) / elementSize) 0 [] := by
  have hcap : sub64 bufSize sizeofAtomicRingBuffer = bufSize - sizeofAtomicRingBuffer :=
    sub64_of_le (by omega) hsize
  have htwo : 2 ≤ (bufSize - sizeofAtomicRingBuffer) / elementSize :=
    (Nat.le_div_iff_mul_le hes).mpr (by omega)
  have hmul : bufSize - sizeofAtomicRingBuffer -
      (bufSize - sizeofAtomicRingBuffer) % elementSize =
      (bufSize - sizeofAtomicRingBuffer) / elementSize * elementSize := by
    have := Nat.div_add_mod' (bufSize - sizeofAtomicRingBuffer) elementSize
    omega
  refine ⟨htwo, hes, ?_, ?_, ?_, ?_, ?_, ?_⟩
  · simp only [new, hcap, hmul]
  · simp only [new, hcap]
    omega
  · simp [new]
  · simp [new]
  · simp only [List.length_nil]
    omega
  · intro i h
    simp at h

namespace Holds

variable {r : AtomicRingBuffer} {n q : ℕ} {l : List (List UInt8)}

theorem pos (h : Holds r n q l) : 0 < n := lt_of_lt_of_le (by norm_num) h.two_le

theorem next_slot (h : Holds r n q l) (i : ℕ) :
    r.next (slot n r.elementSize i) = slot n r.elementSize (i + 1) := by
  have hle := slot_add_le (w := r.elementSize) (i := i) h.pos
  have hlt : slot n r.elementSize i + r.elementSize < 2 ^ 64 :=
    lt_of_le_of_lt hle (by rw [← h.capacity_eq]; exact h.capacity_lt)
  simp only [next, add64_of_lt hlt, h.capacity_eq]
  exact slot_succ h.pos h.elementSize_pos

theorem head_lt (h : Holds r n q l) : r.head < r.capacity := by
  rw [h.head_eq, h.capacity_eq]
  exact slot_lt h.pos h.elementSize_pos

theorem tail_lt (h : Holds r n q l) : r.tail < r.capacity := by
  rw [h.tail_eq, h.capacity_eq]
  exact slot_lt h.pos h.elementSize_pos

theorem empty_iff (h : Holds r n q l) : r.head = r.tail ↔ l = [] := by
  have hlt := h.length_lt
  rw [h.head_eq, h.tail_eq]
  constructor
  · intro heq
    have := slot_inj_window (q := q) h.elementSize_pos (by omega) (by omega) le_rfl
      (by omega) heq
    exact List.eq_nil_of_length_eq_zero (by omega)
  · rintro rfl
    rfl

theorem full_iff (h : Holds r n q l) : r.next r.head = r.tail ↔ l.length + 1 = n := by
  have hlt := h.length_lt
  have htwo := h.two_le
  rw [h.head_eq, h.next_slot, h.tail_eq]
  constructor
  · intro heq
    by_contra hne
    have := slot_inj_window (q := q) h.elementSize_pos (by omega) (by omega) le_rfl
      (by omega) heq
    omega
  · intro hlen
    rw [show q + l.length + 1 = q + n by omega]
    simp [slot]

theorem head_disjoint (h : Holds r n q l) {i : ℕ} (hi : i < l.length) :
    r.head + r.elementSize ≤ slot n r.elementSize (q + i) ∨
      slot n r.elementSize (q + i) + r.elementSize ≤ r.head := by
  have hlt := h.length_lt
  rw [h.head_eq]
  exact slot_disjoint (q := q) h.elementSize_pos (by omega) (by omega) (by omega)
    (by omega) (by omega)

theorem copy (h : Holds r n q l) (element : Mem) :
    Holds { r with data := memcpy r.data r.head element r.elementSize } n q l := by
  refine ⟨h.two_le, h.elementSize_pos, h.capacity_eq, h.capacity_lt, h.tail_eq,
    h.head_eq, h.length_lt, ?_⟩
  intro i hi
  have hdisj := h.head_disjoint hi
  rw [← h.data_eq i hi]
  show bytesAt (memcpy r.data r.head element r.elementSize)
    (slot n r.elementSize (q + i)) r.elementSize = _
  exact bytesAt_memcpy_of_disjoint (by omega)

theorem publish (h : Holds r n q l) (hroom : l.length + 1 < n) {e : List UInt8}
    (he : bytesAt r.data r.head r.elementSize = e) :
    Holds { r with head := r.next r.head } n q (l ++ [e]) := by
  refine ⟨h.two_le, h.elementSize_pos, h.capacity_eq, h.capacity_lt, h.tail_eq, ?_,
    by simpa using hroom, ?_⟩
  · show r.next r.head = _
    rw [h.head_eq, h.next_slot]
    simp [Nat.add_assoc]
  · intro i hi
    show bytesAt r.data _ _ = _
    by_cases hold : i < l.length
    · rw [List.getElem_append_left hold]
      exact h.data_eq i hold
    · have hlast : i = l.length := by
        simp only [List.length_append, List.length_singleton] at hi
        omega
      subst hlast
      rw [List.getElem_concat_length rfl, ← h.head_eq]
      exact he

theorem front_data {e : List UInt8} (h : Holds r n q (e :: l)) :
    bytesAt r.data r.tail r.elementSize = e := by
  rw [h.tail_eq]
  exact h.data_eq 0 (by simp)

theorem pop {e : List UInt8} (h : Holds r n q (e :: l)) : Holds r.pop n (q + 1) l := by
  have hlt := h.length_lt
  simp only [List.length_cons] at hlt
  refine ⟨h.two_le, h.elementSize_pos, h.capacity_eq, h.capacity_lt, ?_, ?_, by omega, ?_⟩
  · show r.next r.tail = _
    rw [h.tail_eq, h.next_slot]
    rfl
  · show r.head = _
    rw [h.head_eq, List.length_cons]
    congr 1
    omega
  · intro i hi
    show bytesAt r.data (slot n r.elementSize (q + 1 + i)) r.elementSize = _
    have hi' := h.data_eq (i + 1) (by simpa using hi)
    rw [show q + 1 + i = q + (i + 1) by omega]
    simpa using hi'

end Holds

/-! ## One call at a time, the ring is a bounded queue -/

section Sequential

variable {r : AtomicRingBuffer} {n q : ℕ} {l : List (List UInt8)}

theorem isEmpty_iff (h : Holds r n q l) : r.isEmpty = true ↔ l = [] := by
  simp only [isEmpty, beq_iff_eq]
  exact h.empty_iff

theorem front_eq_none_iff (h : Holds r n q l) : r.front = none ↔ l = [] := by
  rw [← h.empty_iff]
  unfold front
  split <;> simp_all

theorem front_of_cons {e : List UInt8} (h : Holds r n q (e :: l)) :
    r.front = some r.tail := by
  have hne : r.head ≠ r.tail := fun heq => by simpa using h.empty_iff.mp heq
  simp [front, hne]

theorem emplace_of_full (h : Holds r n q l) (hfull : l.length + 1 = n) (element : Mem) :
    r.emplace element = (false, r) := by
  simp [emplace, h.full_iff.mpr hfull]

theorem emplace_of_room (h : Holds r n q l) (hroom : l.length + 1 < n) (element : Mem) :
    (r.emplace element).1 = true ∧
      Holds (r.emplace element).2 n q (l ++ [bytesAt element 0 r.elementSize]) := by
  have hne : r.next r.head ≠ r.tail := fun heq => by
    have := h.full_iff.mp heq
    omega
  simp only [emplace, if_neg hne, true_and]
  exact (h.copy element).publish hroom (bytesAt_memcpy_same _ _ _ _)

end Sequential

end AtomicRingBuffer

end Manticore
