import Manticore.Usr.MallocPage

/-!
# The user-space heap: segments

What a new segment looks like, which of its pages serves a block size, and the queue of
segments, which never holds more than one.
-/

namespace Manticore

variable {b i size heap t : ℕ} {m m' : Mem} {w : List Span} {live fl : List ℕ}
  {L : ℕ → List ℕ}

/-! ## Block sizes -/

/-- A block size the heap claims pages for. -/
structure IsBlockSize (size : ℕ) : Prop where
  dvd : 8 ∣ size
  pos : 8 ≤ size
  le : size ≤ 1016

theorem toBlockSize_eq {n : ℕ} (h : n ≤ 1016) : toBlockSize n = (n + 7) / 8 * 8 := by
  have hnot : n + 7 &&& not64 7 = (n + 7) / 8 * 8 :=
    and_not64_two_pow (k := 3) (by decide) (by omega)
  rw [toBlockSize, add64_of_lt (by omega), hnot]

theorem toBlockSize_smallSize {n : ℕ} (h : n ≤ 1016) :
    toBlockSize (smallSize n) = max ((n + 7) / 8 * 8) 8 := by
  rw [smallSize]
  split
  · subst n
    decide
  · rw [toBlockSize_eq h]
    omega

theorem isBlockSize_smallSize {n : ℕ} (h : n ≤ 1016) :
    IsBlockSize (toBlockSize (smallSize n)) := by
  rw [toBlockSize_smallSize h]
  refine ⟨?_, by omega, by omega⟩
  omega

/-! ## Finding a page -/

/-- A segment as it stands in memory; `L i` is what has been handed out from page `i`. -/
structure SegmentOk (m : Mem) (b : ℕ) (L : ℕ → List ℕ) : Prop where
  nrPages : segmentNrPages m b = 32
  page : ∀ i < 32, ∃ size fl, PageOk m b i (L i) size fl

/-- Page `i` has no block of `size` bytes to give and is claimed. -/
def Exhausted (m : Mem) (b i size : ℕ) : Prop :=
  pageBlockSize m (segmentPage b i) ≠ 0 ∧
    (pageBlockSize m (segmentPage b i) = size → pageFree m (segmentPage b i) = 0)

/-- `m'` is `m` with page `i` ready to give a block of `size` bytes; only an unclaimed page
is changed. -/
structure Readied (m m' : Mem) (b i size : ℕ) (live : List ℕ) : Prop where
  writes : WritesOnly [pageHeader b i, pageData b i] m m'
  page : ∃ x fl, PageOk m' b i live size (x :: fl)
  kept : pageBlockSize m (segmentPage b i) ≠ 0 → m' = m

theorem PageOk.remaining (h : PageOk m b i live size fl) (hz : size ≠ 0) :
    mallocPageRemaining m (segmentPage b i) = fl.length := by
  obtain ⟨-, -, hcap, hperm⟩ := h.claimed hz
  have hlen := hperm.length_eq
  have hle := h.length_le
  rw [List.length_append, length_pageBlocks] at hlen
  rw [mallocPageRemaining, hcap, h.used, sub64_of_le (by omega) (by omega)]
  omega

theorem pageBlocks_ne_nil (hsize : IsBlockSize size) : pageBlocks b i size ≠ [] := by
  have hbytes : 1016 ≤ pageBytes i := by
    simp only [pageBytes, metadataSize, sizeofMallocPage, sizeofMallocSegment, mallocPageSize]
    split <;> omega
  have hpos : 0 < pageBytes i / size :=
    Nat.div_pos (le_trans hsize.le hbytes) (lt_of_lt_of_le (by decide) hsize.pos)
  rw [← List.length_pos_iff, length_pageBlocks]
  exact hpos

/-- **The search** ends at a page that can give a block, or has seen that none can. -/
theorem mallocSegmentFindPage_spec (hb : IsSegment b) (hsize : IsBlockSize size)
    (h : SegmentOk m b L) : ∀ {l : List ℕ}, (∀ i ∈ l, i < 32) →
      (mallocSegmentFindPage b size l m = some (0, m) ∧ ∀ i ∈ l, Exhausted m b i size) ∨
      ∃ i ∈ l, ∃ m', mallocSegmentFindPage b size l m = some (segmentPage b i, m') ∧
        Readied m m' b i size (L i)
  | [], _ => Or.inl ⟨rfl, fun _ hi => nomatch hi⟩
  | i :: rest, hl => by
      have hi : i < 32 := hl i List.mem_cons_self
      have ih := mallocSegmentFindPage_spec hb hsize h (l := rest)
        fun j hj => hl j (List.mem_cons_of_mem _ hj)
      obtain ⟨bs, fl, hp⟩ := h.page i hi
      have hsize0 : size ≠ 0 := by
        have := hsize.pos
        omega
      -- whether the page is skipped, the search goes on with the same memory
      have hskip (hex : Exhausted m b i size)
          (heq : mallocSegmentFindPage b size (i :: rest) m = mallocSegmentFindPage b size rest m) :
          (mallocSegmentFindPage b size (i :: rest) m = some (0, m) ∧
            ∀ j ∈ i :: rest, Exhausted m b j size) ∨
          ∃ j ∈ i :: rest, ∃ m', mallocSegmentFindPage b size (i :: rest) m =
            some (segmentPage b j, m') ∧ Readied m m' b j size (L j) := by
        rw [heq]
        rcases ih with ⟨hnone, hall⟩ | ⟨j, hj, m', hfound, hready⟩
        · exact Or.inl ⟨hnone, List.forall_mem_cons.mpr ⟨hex, hall⟩⟩
        · exact Or.inr ⟨j, List.mem_cons_of_mem _ hj, m', hfound, hready⟩
      by_cases hz : bs = 0
      · subst hz
        obtain ⟨rfl, hL⟩ := hp.unclaimed rfl
        rw [hL] at hp
        obtain ⟨m', hclaim, hw, hok⟩ :=
          mallocSegmentClaimPage_spec hp hb hi h.nrPages hsize.dvd hsize0 hsize.le
        obtain ⟨x, fl, hfl⟩ := List.exists_cons_of_ne_nil (pageBlocks_ne_nil (b := b) (i := i) hsize)
        have hrem := hok.remaining hsize0
        rw [hfl] at hok hrem
        refine Or.inr ⟨i, List.mem_cons_self, m', ?_, hw, ⟨x, fl, ?_⟩, ?_⟩
        · simp only [mallocSegmentFindPage, hp.blockSize, if_true, hclaim, Option.bind_eq_bind,
            Option.bind_some, hrem, List.length_cons]
          rw [if_pos (Nat.succ_ne_zero _)]
        · rw [hL]
          exact hok
        · exact fun hne => absurd hp.blockSize hne
      · by_cases hs : bs = size
        · subst hs
          have hrem := hp.remaining hz
          cases fl with
          | nil =>
              refine hskip ⟨?_, fun _ => hp.list⟩ ?_
              · rw [hp.blockSize]
                exact hz
              · simp [mallocSegmentFindPage, hp.blockSize, hz, hrem]
          | cons x fl =>
              refine Or.inr ⟨i, List.mem_cons_self, m, ?_, WritesOnly.refl _ _, ⟨x, fl, hp⟩,
                fun _ => rfl⟩
              simp [mallocSegmentFindPage, hp.blockSize, hz, hrem]
        · refine hskip ⟨?_, fun heq => absurd (hp.blockSize.symm.trans heq) hs⟩ ?_
          · rw [hp.blockSize]
            exact hz
          · simp [mallocSegmentFindPage, hp.blockSize, hz, hs]

/-! ## A new segment -/

/-- A segment no page of which is claimed. -/
structure SegmentNew (m : Mem) (b : ℕ) : Prop where
  links : segmentPrev m b = 0 ∧ segmentNext m b = 0
  nrPages : segmentNrPages m b = 32
  page : ∀ i < 32, PageOk m b i [] 0 []

/-- Initialisation of a segment after it has numbered `t` pages. -/
structure Numbering (m₀ m : Mem) (b t : ℕ) : Prop where
  writes : WritesOnly [⟨b, metadataSize⟩] m₀ m
  links : segmentPrev m b = 0 ∧ segmentNext m b = 0
  nrPages : segmentNrPages m b = 32
  idx : ∀ i < t, pageIdx m (segmentPage b i) = i
  zero : ∀ i < 32, ∀ o n, o + n ≤ 32 → load m (segmentPage b i + o) n = 0

theorem Numbering.step {m₀ : Mem} (h : Numbering m₀ m b t) (ht : t < 32) :
    Numbering m₀ (store m (segmentPage b t + 32) 1 t) b (t + 1) := by
  have hsp : ∀ i, segmentPage b i = b + 24 + 40 * i := fun _ => rfl
  refine ⟨h.writes.store (s := ⟨b, metadataSize⟩) (by simp) ?_ ?_, ?_, ?_, ?_, ?_⟩
  · simp only [hsp]
    omega
  · simp only [hsp, metadataSize, sizeofMallocSegment, sizeofMallocPage]
    omega
  · simp only [segmentPrev, segmentNext, hsp]
    rw [load_store_of_disjoint (by omega), load_store_of_disjoint (by omega)]
    exact h.links
  · simp only [segmentNrPages, hsp]
    rw [load_store_of_disjoint (by omega)]
    exact h.nrPages
  · intro i hi
    rcases Nat.lt_succ_iff_lt_or_eq.mp hi with hlt | rfl
    · have hkeep := h.idx i hlt
      simp only [pageIdx, hsp] at hkeep ⊢
      rw [load_store_of_disjoint (by omega)]
      exact hkeep
    · exact load_store_same (by omega)
  · intro i hi o n hon
    have hkeep := h.zero i hi o n hon
    simp only [hsp] at hkeep ⊢
    rw [load_store_of_disjoint (by omega)]
    exact hkeep

theorem Numbering.loop {m₀ : Mem} (h : Numbering m₀ m b 0) (ht : t ≤ 32) :
    Numbering m₀ ((List.range t).foldl
      (fun m idx => store m (segmentPage b idx + 32) 1 idx) m) b t := by
  induction t with
  | zero => exact h
  | succ t ih =>
      rw [List.range_succ, List.foldl_append, List.foldl_cons, List.foldl_nil]
      exact (ih (by omega)).step (by omega)

theorem mallocSegmentInit_spec
    (hzero : ∀ x n, b ≤ x → x + n ≤ b + mallocSegmentSize → load m x n = 0) :
    WritesOnly [⟨b, metadataSize⟩] m (mallocSegmentInit m b mallocSegmentSize) ∧
      SegmentNew (mallocSegmentInit m b mallocSegmentSize) b := by
  generalize hm₁ : store (store (store m b 8 0) (b + 8) 8 0) (b + 16) 8 32 = m₁
  have hnr : segmentNrPages m₁ b = 32 := by
    rw [← hm₁]
    exact load_store_same (by norm_num)
  have hstart : Numbering m m₁ b 0 := by
    refine ⟨?_, ⟨?_, ?_⟩, hnr, fun i hi => absurd hi (Nat.not_lt_zero i), ?_⟩
    · rw [← hm₁]
      refine (((WritesOnly.refl _ _).store (s := ⟨b, metadataSize⟩) ?_ ?_ ?_).store
        (s := ⟨b, metadataSize⟩) ?_ ?_ ?_).store (s := ⟨b, metadataSize⟩) ?_ ?_ ?_ <;>
        simp [metadataSize, sizeofMallocPage, sizeofMallocSegment]
    · rw [← hm₁, segmentPrev, load_store_of_disjoint (by omega), load_store_of_disjoint (by omega)]
      exact load_store_same (by norm_num)
    · rw [← hm₁, segmentNext, load_store_of_disjoint (by omega)]
      exact load_store_same (by norm_num)
    · intro i hi o n hon
      have hsp : segmentPage b i = b + 24 + 40 * i := rfl
      rw [← hm₁, hsp, load_store_of_disjoint (by omega), load_store_of_disjoint (by omega),
        load_store_of_disjoint (by omega)]
      refine hzero _ _ (by omega) ?_
      simp only [mallocSegmentSize]
      omega
  have hdone := hstart.loop le_rfl
  have heq : mallocSegmentInit m b mallocSegmentSize = (List.range 32).foldl
      (fun m idx => store m (segmentPage b idx + 32) 1 idx) m₁ := by
    have hdiv : mallocSegmentSize / mallocPageSize = 32 := by decide
    simp only [mallocSegmentInit, hdiv, hm₁, hnr]
  rw [heq]
  refine ⟨hdone.writes, hdone.links, hdone.nrPages, ?_⟩
  intro i hi
  have hfree : pageFree _ (segmentPage b i) = 0 := hdone.zero i hi 0 8 (by omega)
  exact ⟨hdone.idx i hi, hdone.zero i hi 24 8 (by omega), hdone.zero i hi 8 8 (by omega), hfree,
    fun hne => absurd rfl hne, fun _ => ⟨rfl, rfl⟩⟩

/-! ## The queue -/

/-- The heap structure and, in it, the two pointers of the queue. -/
def heapSpan (heap : ℕ) : Span := ⟨heap, sizeofMallocHeap⟩

def queueSpan (heap : ℕ) : Span := ⟨heapQueueHead heap, 16⟩

/-- The queue of the heap holds the segment at `b` only, or nothing if `b` is null. -/
structure QueueHolds (m : Mem) (heap b : ℕ) : Prop where
  head : load m (heapQueueHead heap) 8 = b
  tail : load m (heapQueueTail heap) 8 = b
  links : b ≠ 0 → segmentPrev m b = 0 ∧ segmentNext m b = 0

theorem numSizeClasses_eq : numSizeClasses = 128 := rfl

theorem heapSpan_size : sizeofMallocHeap = 1040 := rfl

theorem QueueHolds.frame (h : QueueHolds m heap b) (hw : WritesOnly w m m')
    (hq : ∀ d ∈ w, d.Apart (queueSpan heap)) (hb : b ≠ 0 → ∀ d ∈ w, d.Apart ⟨b, 16⟩) :
    QueueHolds m' heap b := by
  refine ⟨(hw.load_eq hq ?_ ?_).trans h.head, (hw.load_eq hq ?_ ?_).trans h.tail, ?_⟩
  iterate 4
    simp only [queueSpan, heapQueueHead, heapQueueTail]
    omega
  · intro hne
    rw [segmentPrev, segmentNext, hw.load_eq (hb hne) le_rfl (by simp),
      hw.load_eq (hb hne) (by simp) (by simp)]
    exact h.links hne

theorem mallocSegmentQueueEnqueue_spec (h : QueueHolds m heap 0) (hb : IsSegment b)
    (hsep : (segmentSpan b).Apart (heapSpan heap)) :
    QueueHolds (mallocSegmentQueueEnqueue m heap b) heap b ∧
      WritesOnly [⟨b, 16⟩, queueSpan heap] m (mallocSegmentQueueEnqueue m heap b) := by
  have hlt : b < 256 ^ 8 := by
    have := hb.le
    simp only [mallocSegmentSize] at this
    omega
  have hheap : b + 0x200000 ≤ heap ∨ heap + 1040 ≤ b := hsep
  have hhd : heapQueueHead heap = heap + 1024 := rfl
  have htl : heapQueueTail heap = heap + 1032 := rfl
  generalize hm₂ : store (store m b 8 0) (b + 8) 8 0 = m₂
  have htail : load m₂ (heapQueueTail heap) 8 = 0 := by
    rw [← hm₂, htl, load_store_of_disjoint (by omega), load_store_of_disjoint (by omega), ← htl]
    exact h.tail
  have heq : mallocSegmentQueueEnqueue m heap b =
      store (store m₂ (heapQueueTail heap) 8 b) (heapQueueHead heap) 8 b := by
    simp only [mallocSegmentQueueEnqueue, h.tail, hm₂, htail, ne_eq, not_true_eq_false, if_false]
  rw [heq]
  refine ⟨⟨load_store_same hlt, ?_, fun _ => ⟨?_, ?_⟩⟩, ?_⟩
  · rw [load_store_of_disjoint (by omega)]
    exact load_store_same hlt
  · rw [segmentPrev, load_store_of_disjoint (by omega), load_store_of_disjoint (by omega), ← hm₂,
      load_store_of_disjoint (by omega)]
    exact load_store_same (by norm_num)
  · rw [segmentNext, load_store_of_disjoint (by omega), load_store_of_disjoint (by omega), ← hm₂]
    exact load_store_same (by norm_num)
  · rw [← hm₂]
    refine ((((WritesOnly.refl _ _).store (s := ⟨b, 16⟩) ?_ ?_ ?_).store (s := ⟨b, 16⟩)
      ?_ ?_ ?_).store (s := queueSpan heap) ?_ ?_ ?_).store (s := queueSpan heap) ?_ ?_ ?_ <;>
      simp [queueSpan, heapQueueHead, heapQueueTail]

theorem mallocSegmentQueuePop_spec (h : QueueHolds m heap b) (hne : b ≠ 0)
    (hsep : (segmentSpan b).Apart (heapSpan heap)) :
    QueueHolds (mallocSegmentQueuePop m heap) heap 0 ∧
      WritesOnly [queueSpan heap] m (mallocSegmentQueuePop m heap) := by
  have hheap : b + 0x200000 ≤ heap ∨ heap + 1040 ≤ b := hsep
  have hhd : heapQueueHead heap = heap + 1024 := rfl
  have htl : heapQueueTail heap = heap + 1032 := rfl
  obtain ⟨hprev, hnext⟩ := h.links hne
  generalize hm₁ : store m (heapQueueHead heap) 8 0 = m₁
  have htail₁ : load m₁ (heapQueueTail heap) 8 = b := by
    rw [← hm₁, load_store_of_disjoint (by omega)]
    exact h.tail
  have hprev₁ : segmentPrev m₁ b = 0 := by
    rw [← hm₁, segmentPrev, load_store_of_disjoint (by omega)]
    exact hprev
  generalize hm₂ : store m₁ (heapQueueTail heap) 8 0 = m₂
  have hprev₂ : segmentPrev m₂ b = 0 := by
    rw [← hm₂, segmentPrev, load_store_of_disjoint (by omega)]
    exact hprev₁
  have hnext₂ : segmentNext m₂ b = 0 := by
    rw [← hm₂, ← hm₁, segmentNext, load_store_of_disjoint (by omega),
      load_store_of_disjoint (by omega)]
    exact hnext
  have heq : mallocSegmentQueuePop m heap = m₂ := by
    rw [mallocSegmentQueuePop, h.head, if_pos hne]
    simp only [mallocSegmentQueueRemove, h.head, if_true, hnext, hm₁, htail₁, hprev₁, hm₂, hprev₂,
      hnext₂, ne_eq, not_true_eq_false, if_false]
  rw [heq]
  refine ⟨⟨?_, ?_, fun h0 => absurd rfl h0⟩, ?_⟩
  · rw [← hm₂, load_store_of_disjoint (by omega), ← hm₁]
    exact load_store_same (by norm_num)
  · rw [← hm₂]
    exact load_store_same (by norm_num)
  · rw [← hm₂, ← hm₁]
    refine ((WritesOnly.refl _ _).store (s := queueSpan heap) ?_ ?_ ?_).store
      (s := queueSpan heap) ?_ ?_ ?_ <;> simp [queueSpan, heapQueueHead, heapQueueTail]

end Manticore
