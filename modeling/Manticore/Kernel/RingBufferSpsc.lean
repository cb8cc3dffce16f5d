import Manticore.Base.Run
import Manticore.Kernel.AtomicRingBuffer

/-!
# One producer and one consumer on a ring, step by step

The producer runs `atomic_ring_buffer_emplace` over and over, the consumer runs
`atomic_ring_buffer_front`, reads the element and runs `atomic_ring_buffer_pop`.
Every atomic load, the `memcpy` and every atomic store is one step; the consumer
reads its element one byte per step, so that a torn read would show.  A run is any
list of labels, that is, any interleaving.

`calls`, `consumed` and `popped` are history: the finished `emplace` calls, the
elements read, and the number of `pop` calls.  Nothing reads them.
-/

namespace Manticore

/-- A finished call of `atomic_ring_buffer_emplace`: the offset it loaded from `head`,
its element, and what it returned. -/
structure EmplaceCall where
  offset : ℕ
  element : List UInt8
  ret : Bool

/-- Where the producer stands inside `atomic_ring_buffer_emplace`. -/
inductive Producer where
  | idle
  | loadedHead (element : Mem) (head nextHead : ℕ)
  | copying (element : Mem) (head nextHead : ℕ)
  | copied (element : Mem) (head nextHead : ℕ)

/-- Where the consumer stands between `front` and the end of `pop`. -/
inductive Consumer where
  | idle
  | loadedHead (head : ℕ)
  | reading (ptr : ℕ) (got : List UInt8)
  | read
  | popping (nextTail : ℕ)

structure Spsc where
  ring : AtomicRingBuffer
  producer : Producer
  consumer : Consumer
  calls : List EmplaceCall
  consumed : List (List UInt8)
  popped : ℕ

namespace Spsc

def init (ring : AtomicRingBuffer) : Spsc :=
  { ring := ring, producer := .idle, consumer := .idle
    calls := [], consumed := [], popped := 0 }

/-- One step of the producer; `element` is the argument if a new call starts. -/
def producerStep (s : Spsc) (element : Mem) : Spsc :=
  match s.producer with
  | .idle =>
      { s with producer := .loadedHead element s.ring.head (s.ring.next s.ring.head) }
  | .loadedHead e head nextHead =>
      if nextHead = s.ring.tail then
        { s with
          producer := .idle
          calls := s.calls ++ [⟨head, bytesAt e 0 s.ring.elementSize, false⟩] }
      else { s with producer := .copying e head nextHead }
  | .copying e head nextHead =>
      { s with
        ring := { s.ring with data := memcpy s.ring.data head e s.ring.elementSize }
        producer := .copied e head nextHead }
  | .copied e head nextHead =>
      { s with
        ring := { s.ring with head := nextHead }
        producer := .idle
        calls := s.calls ++ [⟨head, bytesAt e 0 s.ring.elementSize, true⟩] }

/-- One step of the consumer. -/
def consumerStep (s : Spsc) : Spsc :=
  match s.consumer with
  | .idle => { s with consumer := .loadedHead s.ring.head }
  | .loadedHead head =>
      if head = s.ring.tail then { s with consumer := .idle }
      else { s with consumer := .reading s.ring.tail [] }
  | .reading ptr got =>
      let got' := got ++ [s.ring.data (ptr + got.length)]
      if got'.length = s.ring.elementSize then
        { s with consumer := .read, consumed := s.consumed ++ [got'] }
      else { s with consumer := .reading ptr got' }
  | .read => { s with consumer := .popping (s.ring.next s.ring.tail) }
  | .popping nextTail =>
      { s with
        ring := { s.ring with tail := nextTail }
        consumer := .idle
        popped := s.popped + 1 }

inductive Label where
  | producer (element : Mem)
  | consumer

def step (s : Spsc) : Label → Spsc
  | .producer element => s.producerStep element
  | .consumer => s.consumerStep

/-- The calls that returned `true`, oldest first. -/
def published (s : Spsc) : List EmplaceCall := s.calls.filter (·.ret)

/-- The published calls whose element has not been popped. -/
def live (s : Spsc) : List EmplaceCall := s.published.drop s.popped

/-- The elements the ring should hold. -/
def queued (s : Spsc) : List (List UInt8) := s.live.map (·.element)

/-! ## The invariant -/

/-- What the producer's locals say about the shared state. -/
def ProducerOk (s : Spsc) (n : ℕ) : Prop :=
  match s.producer with
  | .idle => True
  | .loadedHead _ head nextHead => head = s.ring.head ∧ nextHead = s.ring.next head
  | .copying _ head nextHead =>
      head = s.ring.head ∧ nextHead = s.ring.next head ∧ s.queued.length + 1 < n
  | .copied e head nextHead =>
      head = s.ring.head ∧ nextHead = s.ring.next head ∧ s.queued.length + 1 < n ∧
        bytesAt s.ring.data head s.ring.elementSize = bytesAt e 0 s.ring.elementSize

/-- What the consumer's locals say about the shared state.  A loaded `head` may be
old, but it is never behind `tail` and never ahead of the current `head`. -/
def ConsumerOk (s : Spsc) (n : ℕ) : Prop :=
  match s.consumer with
  | .idle => s.consumed = (s.published.map (·.element)).take s.popped
  | .loadedHead head =>
      s.consumed = (s.published.map (·.element)).take s.popped ∧
        ∃ k ≤ s.queued.length, head = slot n s.ring.elementSize (s.popped + k)
  | .reading ptr got =>
      s.consumed = (s.published.map (·.element)).take s.popped ∧ s.queued ≠ [] ∧
        ptr = s.ring.tail ∧ got.length < s.ring.elementSize ∧
        got = bytesAt s.ring.data ptr got.length
  | .read =>
      s.consumed = (s.published.map (·.element)).take (s.popped + 1) ∧ s.queued ≠ []
  | .popping nextTail =>
      s.consumed = (s.published.map (·.element)).take (s.popped + 1) ∧ s.queued ≠ [] ∧
        nextTail = s.ring.next s.ring.tail

structure Inv (n : ℕ) (s : Spsc) : Prop where
  popped_le : s.popped ≤ s.published.length
  holds : s.ring.Holds n s.popped s.queued
  offsets : ∀ i (h : i < s.published.length),
    (s.published[i]).offset = slot n s.ring.elementSize i
  producerOk : s.ProducerOk n
  consumerOk : s.ConsumerOk n

variable {n : ℕ} {s : Spsc}

theorem length_queued (s : Spsc) : s.queued.length = s.published.length - s.popped := by
  simp [queued, live]

theorem inv_init {r : AtomicRingBuffer} (h : r.Holds n 0 []) : Inv n (init r) := by
  refine ⟨Nat.zero_le _, h, ?_, trivial, rfl⟩
  intro i hi
  simp [published, init] at hi

/-! ## Producer steps

A finished call touches `calls` only; the consumer's facts speak of `published` and
survive because it grows at the end. -/

theorem Inv.refuse (h : Inv n s) (c : EmplaceCall) (hc : c.ret = false) :
    Inv n { s with producer := .idle, calls := s.calls ++ [c] } := by
  have hpub : published { s with producer := .idle, calls := s.calls ++ [c] } =
      s.published := by
    simp [published, hc]
  have hqueue : queued { s with producer := .idle, calls := s.calls ++ [c] } =
      s.queued := by
    simp only [queued, live, hpub]
  refine ⟨?_, ?_, ?_, trivial, ?_⟩
  · rw [hpub]
    exact h.popped_le
  · rw [hqueue]
    exact h.holds
  · rw [hpub]
    exact h.offsets
  · have hcons := h.consumerOk
    simp only [ConsumerOk, hpub, hqueue] at hcons ⊢
    exact hcons

theorem Inv.publish (h : Inv n s) {e : Mem} (hroom : s.queued.length + 1 < n)
    (he : bytesAt s.ring.data s.ring.head s.ring.elementSize =
      bytesAt e 0 s.ring.elementSize) :
    Inv n { s with
      ring := { s.ring with head := s.ring.next s.ring.head }
      producer := .idle
      calls := s.calls ++ [⟨s.ring.head, bytesAt e 0 s.ring.elementSize, true⟩] } := by
  set s' : Spsc := { s with
      ring := { s.ring with head := s.ring.next s.ring.head }
      producer := .idle
      calls := s.calls ++ [⟨s.ring.head, bytesAt e 0 s.ring.elementSize, true⟩] } with hs'
  have hpub : s'.published =
      s.published ++ [⟨s.ring.head, bytesAt e 0 s.ring.elementSize, true⟩] := by
    simp [published, hs']
  have hqueue : s'.queued = s.queued ++ [bytesAt e 0 s.ring.elementSize] := by
    simp only [queued, live, hpub]
    rw [List.drop_append_of_le_length h.popped_le, List.map_append]
    rfl
  have hlen : s.popped + s.queued.length = s.published.length := by
    have := h.popped_le
    rw [length_queued]
    omega
  refine ⟨?_, ?_, ?_, trivial, ?_⟩
  · rw [hpub, List.length_append]
    exact le_trans h.popped_le (Nat.le_add_right _ _)
  · rw [hqueue]
    exact h.holds.publish hroom he
  · intro i hi
    show (s'.published[i]).offset = slot n s.ring.elementSize i
    simp only [hpub] at hi ⊢
    by_cases hold : i < s.published.length
    · rw [List.getElem_append_left hold]
      exact h.offsets i hold
    · have hlast : i = s.published.length := by
        simp only [List.length_append, List.length_singleton] at hi
        omega
      subst hlast
      rw [List.getElem_concat_length rfl]
      show s.ring.head = _
      rw [h.holds.head_eq, hlen]
  · have hcons := h.consumerOk
    have htake : ∀ k ≤ s.published.length, (s'.published.map (·.element)).take k =
        (s.published.map (·.element)).take k := by
      intro k hk
      rw [hpub, List.map_append]
      exact List.take_append_of_le_length (by simpa using hk)
    have hlt : s.queued ≠ [] → s.popped + 1 ≤ s.published.length := by
      intro hne
      have := List.length_pos_iff.mpr hne
      omega
    have hne' : s'.queued ≠ [] := by
      rw [hqueue]
      simp
    unfold ConsumerOk at hcons ⊢
    show match s.consumer with | _ => _
    cases hc : s.consumer with
    | idle =>
        simp only [hc] at hcons ⊢
        rw [htake _ h.popped_le]
        exact hcons
    | loadedHead head =>
        simp only [hc] at hcons ⊢
        obtain ⟨hread, k, hk, hhead⟩ := hcons
        refine ⟨by rw [htake _ h.popped_le]; exact hread, k, ?_, hhead⟩
        rw [hqueue, List.length_append]
        exact le_trans hk (Nat.le_add_right _ _)
    | reading ptr got =>
        simp only [hc] at hcons ⊢
        obtain ⟨hread, hne, hptr, hlen', hgot⟩ := hcons
        exact ⟨by rw [htake _ h.popped_le]; exact hread, hne', hptr, hlen', hgot⟩
    | read =>
        simp only [hc] at hcons ⊢
        obtain ⟨hread, hne⟩ := hcons
        exact ⟨by rw [htake _ (hlt hne)]; exact hread, hne'⟩
    | popping nextTail =>
        simp only [hc] at hcons ⊢
        obtain ⟨hread, hne, hnext⟩ := hcons
        exact ⟨by rw [htake _ (hlt hne)]; exact hread, hne', hnext⟩

theorem Inv.copy (h : Inv n s) {e : Mem} (hroom : s.queued.length + 1 < n) :
    Inv n { s with
      ring := { s.ring with
        data := memcpy s.ring.data s.ring.head e s.ring.elementSize }
      producer := .copied e s.ring.head (s.ring.next s.ring.head) } := by
  refine ⟨h.popped_le, h.holds.copy e, h.offsets,
    ⟨rfl, rfl, hroom, bytesAt_memcpy_same _ _ _ _⟩, ?_⟩
  have hcons := h.consumerOk
  unfold ConsumerOk at hcons ⊢
  show match s.consumer with | _ => _
  cases hc : s.consumer with
  | idle =>
      simp only [hc] at hcons ⊢
      exact hcons
  | loadedHead head =>
      simp only [hc] at hcons ⊢
      exact hcons
  | read =>
      simp only [hc] at hcons ⊢
      exact hcons
  | popping nextTail =>
      simp only [hc] at hcons ⊢
      exact hcons
  | reading ptr got =>
      simp only [hc] at hcons ⊢
      obtain ⟨hread, hne, hptr, hlen, hgot⟩ := hcons
      refine ⟨hread, hne, hptr, hlen, ?_⟩
      -- the front element sits in the first slot in use, apart from `head`
      have hdisj := h.holds.head_disjoint (List.length_pos_iff.mpr hne)
      rw [Nat.add_zero, ← h.holds.tail_eq, ← hptr] at hdisj
      rw [bytesAt_memcpy_of_disjoint (by omega)]
      exact hgot

theorem Inv.producerStep (h : Inv n s) (element : Mem) : Inv n (s.producerStep element) := by
  have hprod := h.producerOk
  unfold Spsc.producerStep
  unfold ProducerOk at hprod
  cases hp : s.producer with
  | idle => exact ⟨h.popped_le, h.holds, h.offsets, ⟨rfl, rfl⟩, h.consumerOk⟩
  | loadedHead e head nextHead =>
      simp only [hp] at hprod ⊢
      obtain ⟨rfl, rfl⟩ := hprod
      split
      · exact h.refuse _ rfl
      · rename_i hfull
        have hlt := h.holds.length_lt
        have hne : s.queued.length + 1 ≠ n := fun heq => hfull (h.holds.full_iff.mpr heq)
        have hroom : s.queued.length + 1 < n := by omega
        exact ⟨h.popped_le, h.holds, h.offsets, ⟨rfl, rfl, hroom⟩, h.consumerOk⟩
  | copying e head nextHead =>
      simp only [hp] at hprod ⊢
      obtain ⟨rfl, rfl, hroom⟩ := hprod
      exact h.copy hroom
  | copied e head nextHead =>
      simp only [hp] at hprod ⊢
      obtain ⟨rfl, rfl, hroom, he⟩ := hprod
      exact h.publish hroom he

/-! ## Consumer steps -/

theorem Inv.front_eq (h : Inv n s) (hne : s.queued ≠ []) :
    (s.published.map (·.element)).take s.popped ++
        [bytesAt s.ring.data s.ring.tail s.ring.elementSize] =
      (s.published.map (·.element)).take (s.popped + 1) := by
  obtain ⟨e, l, hq⟩ := List.exists_cons_of_ne_nil hne
  have hfront : bytesAt s.ring.data s.ring.tail s.ring.elementSize = e :=
    (hq ▸ h.holds).front_data
  have hdrop : (s.published.map (·.element)).drop s.popped = e :: l := by
    rw [← List.map_drop]
    exact hq
  rw [hfront, List.take_add_one, ← List.head?_drop, hdrop]
  rfl

theorem Inv.pop (h : Inv n s) (hne : s.queued ≠ [])
    (hread : s.consumed = (s.published.map (·.element)).take (s.popped + 1)) :
    Inv n { s with
      ring := { s.ring with tail := s.ring.next s.ring.tail }
      consumer := .idle
      popped := s.popped + 1 } := by
  obtain ⟨e, l, hq⟩ := List.exists_cons_of_ne_nil hne
  have hlen : s.queued.length = s.published.length - s.popped := length_queued s
  have htail : queued { s with
      ring := { s.ring with tail := s.ring.next s.ring.tail }
      consumer := .idle
      popped := s.popped + 1 } = l := by
    have hmap : (s.published.map (·.element)).drop s.popped = e :: l := by
      rw [← List.map_drop]
      exact hq
    show (s.published.drop (s.popped + 1)).map (·.element) = l
    rw [List.map_drop, ← List.drop_drop, hmap]
    rfl
  refine ⟨?_, ?_, h.offsets, ?_, hread⟩
  · show s.popped + 1 ≤ s.published.length
    rw [hq, List.length_cons] at hlen
    omega
  · rw [htail]
    exact (hq ▸ h.holds).pop
  · have hprod := h.producerOk
    have hless : l.length < s.queued.length := by simp [hq]
    unfold ProducerOk at hprod ⊢
    simp only [htail]
    cases hp : s.producer with
    | idle => trivial
    | loadedHead e head nextHead =>
        simp only [hp] at hprod ⊢
        exact hprod
    | copying e head nextHead =>
        simp only [hp] at hprod ⊢
        exact ⟨hprod.1, hprod.2.1, by omega⟩
    | copied e head nextHead =>
        simp only [hp] at hprod ⊢
        exact ⟨hprod.1, hprod.2.1, by omega, hprod.2.2.2⟩

theorem Inv.consumerStep (h : Inv n s) : Inv n s.consumerStep := by
  have hcons := h.consumerOk
  unfold Spsc.consumerStep
  unfold ConsumerOk at hcons
  cases hc : s.consumer with
  | idle =>
      simp only [hc] at hcons ⊢
      exact ⟨h.popped_le, h.holds, h.offsets, h.producerOk,
        ⟨hcons, s.queued.length, le_rfl, h.holds.head_eq⟩⟩
  | loadedHead head =>
      simp only [hc] at hcons ⊢
      obtain ⟨hread, k, hk, rfl⟩ := hcons
      split
      · exact ⟨h.popped_le, h.holds, h.offsets, h.producerOk, hread⟩
      · rename_i hdiff
        have hne : s.queued ≠ [] := by
          intro hnil
          rw [hnil] at hk
          apply hdiff
          rw [h.holds.tail_eq, show k = 0 by simpa using hk, Nat.add_zero]
        exact ⟨h.popped_le, h.holds, h.offsets, h.producerOk,
          ⟨hread, hne, rfl, h.holds.elementSize_pos, rfl⟩⟩
  | reading ptr got =>
      simp only [hc] at hcons ⊢
      obtain ⟨hread, hne, rfl, hlen, hgot⟩ := hcons
      have hgot' : got ++ [s.ring.data (s.ring.tail + got.length)] =
          bytesAt s.ring.data s.ring.tail (got.length + 1) := by
        rw [bytesAt_succ, ← hgot]
      split
      · rename_i hdone
        rw [List.length_append, List.length_singleton] at hdone
        refine ⟨h.popped_le, h.holds, h.offsets, h.producerOk, ⟨?_, hne⟩⟩
        show s.consumed ++ [got ++ [s.ring.data (s.ring.tail + got.length)]] = _
        rw [hgot', hdone, hread]
        exact h.front_eq hne
      · rename_i hmore
        rw [List.length_append, List.length_singleton] at hmore
        have hlt : got.length + 1 < s.ring.elementSize := by omega
        refine ⟨h.popped_le, h.holds, h.offsets, h.producerOk,
          ⟨hread, hne, rfl, ?_, ?_⟩⟩
        · rw [List.length_append, List.length_singleton]
          exact hlt
        · rw [List.length_append, List.length_singleton]
          exact hgot'
  | read =>
      simp only [hc] at hcons ⊢
      exact ⟨h.popped_le, h.holds, h.offsets, h.producerOk, ⟨hcons.1, hcons.2, rfl⟩⟩
  | popping nextTail =>
      simp only [hc] at hcons ⊢
      obtain ⟨hread, hne, rfl⟩ := hcons
      exact h.pop hne hread

theorem Inv.step (h : Inv n s) (l : Label) : Inv n (s.step l) := by
  cases l with
  | producer element => exact h.producerStep element
  | consumer => exact h.consumerStep

/-! ## What the invariant gives -/

theorem Inv.consumed_prefix (h : Inv n s) :
    s.consumed <+: s.published.map (·.element) := by
  have hcons := h.consumerOk
  unfold ConsumerOk at hcons
  cases hc : s.consumer <;> simp only [hc] at hcons
  · rw [hcons]; exact List.take_prefix _ _
  all_goals
    rw [hcons.1]
    exact List.take_prefix _ _

theorem exists_of_mem_live {c : EmplaceCall} (hc : c ∈ s.live) :
    ∃ (i : ℕ) (hi : i < s.queued.length) (hlt : s.popped + i < s.published.length),
      c = s.published[s.popped + i] ∧ s.queued[i] = c.element := by
  obtain ⟨i, hi, rfl⟩ := List.getElem_of_mem hc
  have hlt : s.popped + i < s.published.length := by
    simp only [live, List.length_drop] at hi
    omega
  have hget : s.live[i] = s.published[s.popped + i] := by
    simp [live]
  exact ⟨i, by simpa [queued] using hi, hlt, hget, by simp [queued]⟩

theorem Inv.live_intact (h : Inv n s) {c : EmplaceCall} (hc : c ∈ s.live) :
    bytesAt s.ring.data c.offset s.ring.elementSize = c.element := by
  obtain ⟨i, hi, hlt, rfl, helement⟩ := exists_of_mem_live hc
  rw [h.offsets _ hlt, h.holds.data_eq i hi, helement]

theorem Inv.copying_disjoint (h : Inv n s) {e : Mem} {head nextHead : ℕ}
    (hp : s.producer = .copying e head nextHead) {c : EmplaceCall} (hc : c ∈ s.live) :
    head + s.ring.elementSize ≤ c.offset ∨ c.offset + s.ring.elementSize ≤ head := by
  have hprod := h.producerOk
  unfold ProducerOk at hprod
  simp only [hp] at hprod
  obtain ⟨i, hi, hlt, rfl, -⟩ := exists_of_mem_live hc
  rw [h.offsets _ hlt, hprod.1]
  exact h.holds.head_disjoint hi

theorem Inv.consumed_length (h : Inv n s) :
    s.popped ≤ s.consumed.length ∧ s.consumed.length ≤ s.popped + 1 := by
  have hcons := h.consumerOk
  have hle := h.popped_le
  have hlen := length_queued s
  unfold ConsumerOk at hcons
  cases hc : s.consumer <;> simp only [hc] at hcons
  · rw [hcons, List.length_take, List.length_map]
    omega
  · rw [hcons.1, List.length_take, List.length_map]
    omega
  · rw [hcons.1, List.length_take, List.length_map]
    omega
  · have hpos := List.length_pos_iff.mpr hcons.2
    rw [hcons.1, List.length_take, List.length_map]
    omega
  · have hpos := List.length_pos_iff.mpr hcons.2.1
    rw [hcons.1, List.length_take, List.length_map]
    omega

theorem step_elementSize (s : Spsc) (l : Label) :
    (s.step l).ring.elementSize = s.ring.elementSize := by
  cases l with
  | producer element =>
      simp only [step, producerStep]
      split
      · rfl
      · split <;> rfl
      · rfl
      · rfl
  | consumer =>
      simp only [step, consumerStep]
      split
      · rfl
      · split <;> rfl
      · split <;> rfl
      · rfl
      · rfl

theorem inv_run {r : AtomicRingBuffer} (hr : r.Holds n 0 []) (ls : List Label) :
    Inv n (run step (init r) ls) ∧
      (run step (init r) ls).ring.elementSize = r.elementSize :=
  run_invariant (P := fun s => Inv n s ∧ s.ring.elementSize = r.elementSize)
    (fun s l h => ⟨h.1.step l, (step_elementSize s l).trans h.2⟩) ⟨inv_init hr, rfl⟩

/-- **The ring is a FIFO channel.** In every interleaving of one producer and one
consumer on a fresh ring with room for two elements: the elements read are a prefix
of the elements published by calls that returned `true`; at most the element being
popped is read but not popped; the next `memcpy` never hits a published, unpopped
element, and every such element is intact in its slot; and both offsets stay
multiples of the element size below the capacity. -/
theorem spsc_run_fifo (buf : Mem) (bufSize elementSize : ℕ) (hes : 0 < elementSize)
    (hroom : sizeofAtomicRingBuffer + 2 * elementSize ≤ bufSize)
    (hsize : bufSize < 2 ^ 64) (ls : List Label) :
    let s := run step (init (AtomicRingBuffer.new buf bufSize elementSize)) ls
    s.consumed <+: s.published.map (·.element) ∧
      (s.popped ≤ s.consumed.length ∧ s.consumed.length ≤ s.popped + 1) ∧
      (∀ e head nextHead, s.producer = .copying e head nextHead → ∀ c ∈ s.live,
        head + elementSize ≤ c.offset ∨ c.offset + elementSize ≤ head) ∧
      (∀ c ∈ s.live, bytesAt s.ring.data c.offset elementSize = c.element) ∧
      (elementSize ∣ s.ring.head ∧ s.ring.head < s.ring.capacity) ∧
      (elementSize ∣ s.ring.tail ∧ s.ring.tail < s.ring.capacity) := by
  intro s
  obtain ⟨hinv, hsz⟩ := inv_run (AtomicRingBuffer.holds_new hes hroom hsize) ls
  have hsz' : s.ring.elementSize = elementSize := hsz
  refine ⟨hinv.consumed_prefix, hinv.consumed_length, ?_, ?_, ⟨?_, ?_⟩, ⟨?_, ?_⟩⟩
  · intro e head nextHead hp c hc
    have := hinv.copying_disjoint hp hc
    rwa [hsz'] at this
  · intro c hc
    have := hinv.live_intact hc
    rwa [hsz'] at this
  · rw [← hsz', hinv.holds.head_eq]
    exact dvd_slot
  · exact hinv.holds.head_lt
  · rw [← hsz', hinv.holds.tail_eq]
    exact dvd_slot
  · exact hinv.holds.tail_lt

/-- The hypotheses are met by a two-slot ring of bytes. -/
theorem spsc_run_fifo_two_slots :
    let s := run step (init (AtomicRingBuffer.new (fun _ => 0) 194 1))
      (List.replicate 4 (.producer fun _ => 7) ++ List.replicate 3 .consumer)
    s.consumed = [[7]] ∧ s.consumed <+: s.published.map (·.element) :=
  ⟨rfl, (spsc_run_fifo (fun _ => 0) 194 1 (by norm_num)
    (by norm_num [sizeofAtomicRingBuffer]) (by norm_num) _).1⟩

end Spsc

end Manticore
