import Manticore.Base.Run
import Manticore.Usr.MallocAlloc

/-!
# The user-space heap: whole runs

Any sequence of calls of `malloc` and `free`.  The state holds the memory of the process and,
for each block in use, its size and the page it was carved from.
-/

namespace Manticore

structure HeapState where
  user : UserMem
  live : List MallocObj

inductive HeapOp where
  | malloc (n : ℕ)
  | free (ptr : ℕ)
deriving DecidableEq, Repr

namespace HeapState

variable (E : HeapEnv) (fuel : ℕ)

/-- After `__liblinux_malloc_init`. -/
def start (m : Mem) : HeapState := ⟨⟨mallocHeapInit m E.heap E.emptyPage, 0⟩, []⟩

/-- The page that `malloc` takes a block of `n` bytes from. -/
def carvedFrom (s : UserMem) (n : ℕ) : ℕ :=
  ((mallocHeapGetPage E.os E.heap (fuel + 2) s (smallSize n)).map Prod.fst).getD 0

/-- The blocks in use after `free(ptr)`. -/
def release (live : List MallocObj) (ptr : ℕ) : List MallocObj :=
  match live.find? (·.ptr = ptr) with
  | none => live
  | some o => live.erase o

/-- A call that does not return leaves the state as it is. -/
def step (st : HeapState) : HeapOp → HeapState
  | .malloc n =>
      match mallocHeapAlloc E.os E.heap (fuel + 2) st.user n with
      | none => st
      | some (x, s) =>
          if x = 0 then ⟨s, st.live⟩ else ⟨s, ⟨x, n, carvedFrom E fuel st.user n⟩ :: st.live⟩
  | .free ptr =>
      match freeObj st.user ptr with
      | none => st
      | some s => ⟨s, release st.live ptr⟩

/-- `ptr` is null or a block in use. -/
def CanFree (st : HeapState) (ptr : ℕ) : Prop := ptr = 0 ∨ ∃ o ∈ st.live, o.ptr = ptr

/-- Requests of at most 1016 bytes, and frees of blocks in use. -/
def SmallOnly (st : HeapState) : HeapOp → Prop
  | .malloc n => n ≤ 1016
  | .free ptr => st.CanFree ptr

/-- Requests of any size that is not just below 1 KiB, and frees of blocks in use. -/
def NotJustBelow (st : HeapState) : HeapOp → Prop
  | .malloc n => n ≤ 1016 ∨ smallObjSizeMax ≤ n
  | .free ptr => st.CanFree ptr

/-! ## One step -/

section steps

variable {E fuel} {st : HeapState} {n ptr : ℕ} {op : HeapOp}

theorem step_malloc_ok {x b i : ℕ} {s' : UserMem}
    (hcall : mallocHeapAlloc E.os E.heap (fuel + 2) st.user n = some (x, s'))
    (hok : AllocOk E fuel st.live n st.user s' x b i) :
    step E fuel st (.malloc n) = ⟨s', ⟨x, n, segmentPage b i⟩ :: st.live⟩ := by
  obtain ⟨s₁, hpage, -⟩ := hok.source
  simp only [step, hcall, if_neg hok.ne_zero, carvedFrom, hpage, Option.map_some, Option.getD_some]

theorem step_malloc_null {s' : UserMem}
    (hcall : mallocHeapAlloc E.os E.heap (fuel + 2) st.user n = some (0, s')) :
    step E fuel st (.malloc n) = ⟨s', st.live⟩ := by
  simp only [step, hcall, if_true]

theorem step_malloc_cases (fuel : ℕ) (h : HeapInv E st.user st.live) (hn : n ≤ 1016) :
    (∃ s', step E fuel st (.malloc n) = ⟨s', st.live⟩ ∧
      pageFree st.user.mem (slotPage E st.user n) = 0 ∧
      AllocPageFail E st.live (toBlockSize (smallSize n)) st.user s') ∨
    ∃ x b i s', step E fuel st (.malloc n) = ⟨s', ⟨x, n, segmentPage b i⟩ :: st.live⟩ ∧
      AllocOk E fuel st.live n st.user s' x b i := by
  rcases h.alloc fuel hn with ⟨s', hcall, hfull, hfail⟩ | ⟨x, b, i, s', hcall, halloc⟩
  · exact Or.inl ⟨s', step_malloc_null hcall, hfull, hfail⟩
  · exact Or.inr ⟨x, b, i, s', step_malloc_ok hcall halloc, halloc⟩

theorem step_malloc_large (hbig : smallObjSizeMax ≤ n) : step E fuel st (.malloc n) = st :=
  step_malloc_null (by rw [mallocHeapAlloc, if_neg (Nat.not_lt.mpr hbig)])

theorem release_eq {live : List MallocObj} (h : ∃ o ∈ live, o.ptr = ptr) :
    ∃ o ∈ live, o.ptr = ptr ∧ release live ptr = live.erase o := by
  obtain ⟨o, ho, hptr⟩ := h
  rcases hfind : live.find? (·.ptr = ptr) with _ | o'
  · have := List.find?_eq_none.mp hfind o ho
    simp [hptr] at this
  · refine ⟨o', List.mem_of_find?_eq_some hfind, ?_, by rw [release, hfind]⟩
    simpa using List.find?_some hfind

theorem step_free_ok {o : MallocObj} {s' : UserMem} (hcall : freeObj st.user o.ptr = some s')
    (hrel : release st.live o.ptr = st.live.erase o) :
    step E fuel st (.free o.ptr) = ⟨s', st.live.erase o⟩ := by
  simp only [step, hcall, hrel]

theorem ptr_ne_zero (h : HeapInv E st.user st.live) {o : MallocObj} (ho : o ∈ st.live) :
    o.ptr ≠ 0 := by
  obtain ⟨b, hb, i, hi, -, hblock, -⟩ := h.toPagesInv.block_of_live ho
  have hdata := block_in_data hblock
  have hseg := page_in_segment b hi (pageData b i) (by simp)
  have hpos := hb.isSegment.pos
  omega

theorem step_free_null (h : HeapInv E st.user st.live) : step E fuel st (.free 0) = st := by
  have hnone : st.live.find? (·.ptr = 0) = none := by
    refine List.find?_eq_none.mpr fun o ho => ?_
    simpa using ptr_ne_zero h ho
  simp only [step, freeObj, if_true, release, hnone]

theorem inv_step (fuel : ℕ) (h : HeapInv E st.user st.live) (hok : st.NotJustBelow op) :
    HeapInv E (step E fuel st op).user (step E fuel st op).live := by
  cases op with
  | malloc n =>
      rcases hok with hn | hbig
      · rcases step_malloc_cases fuel h hn with ⟨s', hstep, -, hfail⟩ | ⟨x, b, i, s', hstep, halloc⟩
        · rw [hstep]
          exact hfail.inv
        · rw [hstep]
          exact halloc.inv
      · rw [step_malloc_large hbig]
        exact h
  | free ptr =>
      rcases hok with rfl | hlive
      · rw [step_free_null h]
        exact h
      · obtain ⟨o, ho, rfl, hrel⟩ := release_eq hlive
        obtain ⟨s', b, i, hcall, hfree⟩ := h.free ho
        rw [step_free_ok hcall hrel]
        exact hfree.inv

theorem SmallOnly.notJustBelow (h : st.SmallOnly op) : st.NotJustBelow op := by
  cases op with
  | malloc n => exact Or.inl h
  | free ptr => exact h

end steps

/-! ## Safety -/

/-- The bytes of a block in use. -/
def block (o : MallocObj) : Span := ⟨o.ptr, max ((o.size + 7) / 8 * 8) 8⟩

/-- **The law of the heap.** -/
structure Safe (st : HeapState) : Prop where
  /-- Each block lies, aligned, in one page of one segment and behind the metadata. -/
  inside : ∀ o ∈ st.live, 8 ∣ o.ptr ∧ ∃ b, E.Obtained st.user.osCalls b ∧ ∃ i < 32,
    o.page = segmentPage b i ∧ b + metadataSize ≤ o.ptr ∧ b + i * mallocPageSize ≤ o.ptr ∧
    (block o).base + (block o).size ≤ b + (i + 1) * mallocPageSize
  disjoint : st.live.Pairwise fun o o' => (block o).Apart (block o')
  /-- The free list of a claimed page holds its blocks that are not in use. -/
  free : ∀ b, E.Obtained st.user.osCalls b → ∀ i < 32,
    pageBlockSize st.user.mem (segmentPage b i) ≠ 0 →
    ∃ fl, Linked (blockNext st.user.mem) (pageFree st.user.mem (segmentPage b i)) fl ∧ fl.Nodup ∧
      (∀ x, x ∈ fl ↔ x ∈ pageBlocks b i (pageBlockSize st.user.mem (segmentPage b i)) ∧
        ∀ o ∈ st.live, o.ptr ≠ x) ∧
      pageUsed st.user.mem (segmentPage b i) + fl.length =
        pageCapacity st.user.mem (segmentPage b i)
  /-- `free` returns, and the block is first in the free list of the page it was carved from. -/
  frees : ∀ o ∈ st.live, ∃ s', freeObj st.user o.ptr = some s' ∧ pageFree s'.mem o.page = o.ptr
  /-- `malloc` returns, and null only if the system did. -/
  allocs : ∀ n ≤ 1016, ∃ x s', mallocHeapAlloc E.os E.heap (fuel + 2) st.user n = some (x, s') ∧
    (x = 0 → E.os st.user.osCalls = 0 ∧ s'.osCalls = st.user.osCalls + 1)

section safety

variable {E fuel} {st : HeapState}

theorem block_size {o : MallocObj} (ho : o.size ≤ 1016) :
    (block o).size = toBlockSize (smallSize o.size) := (toBlockSize_smallSize ho).symm

theorem disjoint_of_inv (h : HeapInv E st.user st.live) :
    st.live.Pairwise fun o o' => (block o).Apart (block o') := by
  -- the blocks of one page have different addresses
  have hpage : ∀ page, st.live.Pairwise fun o o' => o.page = page → o'.page = page →
      o.ptr ≠ o'.ptr := by
    intro page
    by_cases howned : ∃ b, E.Obtained st.user.osCalls b ∧ ∃ i < 32, page = segmentPage b i
    · obtain ⟨b, hb, i, hi, rfl⟩ := howned
      obtain ⟨size, fl, hp, -⟩ := h.page b hb i hi
      have hnodup := (List.nodup_append.mp hp.nodup).2.1
      simpa [handedOut, List.Nodup, List.pairwise_map, List.pairwise_filter] using hnodup
    · refine List.pairwise_of_forall_mem_list fun o ho o' _ hpage _ => ?_
      obtain ⟨b, hb, i, hi, heq⟩ := h.owned o ho
      exact absurd ⟨b, hb, i, hi, hpage.symm.trans heq⟩ howned
  rw [List.pairwise_iff_getElem]
  intro j k hj hk hjk
  have ho : st.live[j] ∈ st.live := List.getElem_mem hj
  have ho' : st.live[k] ∈ st.live := List.getElem_mem hk
  have hne := List.pairwise_iff_getElem.mp (hpage st.live[k].page) j k hj hk hjk
  revert hne
  generalize st.live[j] = o at ho ⊢
  generalize st.live[k] = o' at ho' ⊢
  intro hne
  obtain ⟨b, hb, i, hi, hpage, hblock, -⟩ := h.toPagesInv.block_of_live ho
  obtain ⟨b', hb', i', hi', hpage', hblock', -⟩ := h.toPagesInv.block_of_live ho'
  rw [← block_size (h.small o ho)] at hblock
  rw [← block_size (h.small o' ho')] at hblock'
  by_cases hsame : (b, i) = (b', i')
  · obtain ⟨rfl, rfl⟩ := Prod.mk.inj hsame
    have hsizes : (block o).size = (block o').size := by
      obtain ⟨size, fl, hp, hsizes⟩ := h.page b hb i hi
      rw [block_size (h.small o ho), block_size (h.small o' ho'), hsizes o ho hpage,
        hsizes o' ho' hpage']
    rw [← hsizes] at hblock'
    have hapart := block_apart hblock hblock' (hne (hpage.trans hpage'.symm) rfl)
    show (block o).base + (block o).size ≤ (block o').base ∨ _
    rw [← hsizes]
    exact hapart
  · have hdata := block_in_data hblock
    have hdata' := block_in_data hblock'
    have hapart := page_apart hb.isSegment hb'.isSegment hi hi' hsame (pageData b i) (by simp)
      (pageData b' i') (by simp)
    have hbase : (block o).base = o.ptr := rfl
    have hbase' : (block o').base = o'.ptr := rfl
    simp only [Span.Apart] at hapart ⊢
    omega

theorem safe_of_inv (h : HeapInv E st.user st.live) : Safe E fuel st := by
  refine ⟨?_, disjoint_of_inv h, ?_, ?_, ?_⟩
  · intro o ho
    obtain ⟨b, hb, i, hi, hpage, hblock, -⟩ := h.toPagesInv.block_of_live ho
    have hdata := block_in_data hblock
    have hbounds := pageData_bounds b i
    have hsize := isBlockSize_smallSize (h.small o ho)
    have hbase : (block o).base = o.ptr := rfl
    have hbsize := block_size (h.small o ho)
    refine ⟨block_aligned hb.isSegment hsize.dvd hblock, b, hb, i, hi, hpage, ?_⟩
    omega
  · intro b hb i hi hne
    obtain ⟨size, fl, hp, -⟩ := h.page b hb i hi
    rw [hp.blockSize] at hne ⊢
    obtain ⟨-, -, hcap, hperm⟩ := hp.claimed hne
    have hnodup := hp.nodup
    refine ⟨fl, hp.list, (List.nodup_append.mp hnodup).1, fun x => ?_, ?_⟩
    · have hmem : x ∈ pageBlocks b i size ↔
          x ∈ fl ∨ x ∈ handedOut st.live (segmentPage b i) := by
        rw [← hperm.mem_iff, List.mem_append]
      have hnot : x ∈ fl → x ∉ handedOut st.live (segmentPage b i) :=
        fun hx hx' => (List.nodup_append.mp hnodup).2.2 x hx x hx' rfl
      have hlive : x ∈ pageBlocks b i size → ((∀ o ∈ st.live, o.ptr ≠ x) ↔
          x ∉ handedOut st.live (segmentPage b i)) := by
        intro hx
        constructor
        · intro hall hin
          obtain ⟨o, ho, rfl⟩ := List.mem_map.mp hin
          exact hall o (List.mem_filter.mp ho).1 rfl
        · rintro hin o ho rfl
          -- the page of a block is found from its address
          have hpos : 0 < size := Nat.pos_of_ne_zero hne
          obtain ⟨hseg, hown⟩ := owner_of_block hb.isSegment hi hpos hx
          obtain ⟨-, -, -, -, -, -, hpage⟩ := h.toPagesInv.block_of_live ho
          rw [hseg, hown] at hpage
          exact hin (List.mem_map_of_mem (List.mem_filter.mpr ⟨ho, by simpa using hpage.symm⟩))
      constructor
      · intro hx
        have hblock := hmem.mpr (Or.inl hx)
        exact ⟨hblock, (hlive hblock).mpr (hnot hx)⟩
      · rintro ⟨hblock, hall⟩
        exact (hmem.mp hblock).resolve_right ((hlive hblock).mp hall)
    · have hlen := hperm.length_eq
      rw [List.length_append, length_pageBlocks] at hlen
      rw [hp.used, hcap, ← hlen]
      omega
  · intro o ho
    obtain ⟨s', b, i, hcall, hfree⟩ := h.free ho
    exact ⟨s', hcall, hfree.page ▸ hfree.freed⟩
  · intro n hn
    rcases h.alloc fuel hn with ⟨s', hcall, -, hfail⟩ | ⟨x, b, i, s', hcall, halloc⟩
    · exact ⟨0, s', hcall, fun _ => ⟨hfail.null, hfail.calls⟩⟩
    · exact ⟨x, s', hcall, fun hx => absurd hx halloc.ne_zero⟩

/-- **The heap is safe** after every sequence of `malloc` of at most 1016 bytes and `free` of
null or a block in use. -/
theorem malloc_run_safe {m : Mem} (hzero : HeapZero E m) {ops : List HeapOp}
    (hok : Guarded (step E fuel) SmallOnly (start E m) ops) :
    Safe E fuel (run (step E fuel) (start E m) ops) :=
  safe_of_inv (run_invariant_of_guarded (P := fun st => HeapInv E st.user st.live)
    (fun _ _ hop h => inv_step fuel h hop.notJustBelow) hok (heapInv_init hzero))

end safety

/-! ## Slots -/

/-- The queues are the same: head, tail, and the links of the segment at the head. -/
def SameQueue (m m' : Mem) : Prop :=
  let head := load m (heapQueueHead E.heap) 8
  load m' (heapQueueHead E.heap) 8 = head ∧
    load m' (heapQueueTail E.heap) 8 = load m (heapQueueTail E.heap) 8 ∧
    (head ≠ 0 → segmentPrev m' head = segmentPrev m head ∧ segmentNext m' head = segmentNext m head)

/-- What `malloc_segment_queue_pop` and `malloc_segment_queue_enqueue` have made of the queue when
one call of `malloc` or `free` leads from `s` to `s'`. The queue is left alone unless the system was
asked for a segment.  In that case what it held was popped, and the segment, if there is one, was
enqueued. -/
def queueCalls (s s' : UserMem) : Mem :=
  if s'.osCalls = s.osCalls then s.mem
  else if E.os s.osCalls = 0 then mallocSegmentQueuePop s.mem E.heap
  else mallocSegmentQueueEnqueue (mallocSegmentQueuePop s.mem E.heap) E.heap (E.os s.osCalls)

section slots

variable {E fuel} {st : HeapState} {op : HeapOp}

theorem sameQueue_of_holds {b : ℕ} {m m' : Mem} (h : QueueHolds m E.heap b)
    (h' : QueueHolds m' E.heap b) : SameQueue E m m' := by
  unfold SameQueue
  dsimp only
  rw [h.head]
  refine ⟨h'.head, h'.tail.trans h.tail.symm, fun hne => ?_⟩
  obtain ⟨hprev, hnext⟩ := h.links hne
  obtain ⟨hprev', hnext'⟩ := h'.links hne
  exact ⟨hprev'.trans hprev.symm, hnext'.trans hnext.symm⟩

theorem queueHolds_pop (h : HeapInv E st.user st.live) :
    QueueHolds (mallocSegmentQueuePop st.user.mem E.heap) E.heap 0 := by
  obtain ⟨q, hq, hobt⟩ := h.queue
  by_cases hne : q = 0
  · subst hne
    rwa [mallocSegmentQueuePop, if_neg (not_not.mpr hq.head)]
  · exact (mallocSegmentQueuePop_spec hq hne (hobt hne).heapApart).1

theorem sameQueue_step (fuel : ℕ) (h : HeapInv E st.user st.live) (hok : st.NotJustBelow op) :
    SameQueue E (queueCalls E st.user (step E fuel st op).user) (step E fuel st op).user.mem := by
  obtain ⟨q, hq, hobt⟩ := h.queue
  cases op with
  | malloc n =>
      rcases hok with hn | hbig
      · rcases step_malloc_cases fuel h hn with ⟨s', hstep, -, hfail⟩ | ⟨x, b, i, s', hstep, halloc⟩
        · rw [hstep, queueCalls, if_neg (by rw [hfail.calls]; omega), if_pos hfail.null]
          exact sameQueue_of_holds (queueHolds_pop h) hfail.queue
        · rw [hstep]
          rcases (halloc.effect h hn).source with ⟨hcalls, hkeep, -⟩ | ⟨hcalls, rfl, hq', -⟩
          · rw [queueCalls, if_pos hcalls]
            exact sameQueue_of_holds hq (hkeep q hq)
          · have hnew : E.Obtained s'.osCalls (E.os st.user.osCalls) :=
              (halloc.effect h hn).obtained
            rw [queueCalls, if_neg (by rw [hcalls]; omega), if_neg hnew.1]
            exact sameQueue_of_holds (mallocSegmentQueueEnqueue_spec (queueHolds_pop h)
              hnew.isSegment hnew.heapApart).1 hq'
      · rw [step_malloc_large hbig, queueCalls, if_pos rfl]
        exact sameQueue_of_holds hq hq
  | free ptr =>
      rcases hok with rfl | hlive
      · rw [step_free_null h, queueCalls, if_pos rfl]
        exact sameQueue_of_holds hq hq
      · obtain ⟨o, ho, rfl, hrel⟩ := release_eq hlive
        obtain ⟨s', b, i, hcall, hfree⟩ := h.free ho
        rw [step_free_ok hcall hrel, queueCalls, if_pos hfree.calls]
        exact sameQueue_of_holds hq (hfree.queue hq hobt)

/-- **The slots are sound**: in every run without a request of 1017 to 1023 bytes each slot
holds the empty page or a page of its own block size, the next such call uses one of the
slots, and it leaves the queue as pop and enqueue make it from the queue before the call. -/
theorem malloc_run_slots {m : Mem} (hzero : HeapZero E m) {ops : List HeapOp}
    (hok : Guarded (step E fuel) NotJustBelow (start E m) ops) :
    let st := run (step E fuel) (start E m) ops
    (∀ c < numSizeClasses, SlotOk E st.user c (load st.user.mem (heapSlot E.heap c) 8)) ∧
    ∀ op, st.NotJustBelow op →
      (∀ n, op = .malloc n → n < smallObjSizeMax → toSizeClass (smallSize n) < numSizeClasses) ∧
      SameQueue E (queueCalls E st.user (step E fuel st op).user) (step E fuel st op).user.mem := by
  intro st
  have h : HeapInv E st.user st.live :=
    run_invariant_of_guarded (P := fun st => HeapInv E st.user st.live)
      (fun _ _ hop h => inv_step fuel h hop) hok (heapInv_init hzero)
  refine ⟨h.slot, fun op hop => ⟨?_, sameQueue_step fuel h hop⟩⟩
  rintro n rfl hsmall
  rcases hop with hn | hbig
  · exact (toSizeClass_smallSize hn).2.1
  · exact absurd hsmall (Nat.not_lt.mpr hbig)

end slots

/-- The `n`-th of `count` segments, one after the other from 2 MiB on. -/
def segmentAt (count n : ℕ) : ℕ := if n < count then 0x200000 * (n + 1) else 0

theorem segmentAt_of_ne_zero {count n : ℕ} (h : segmentAt count n ≠ 0) :
    n < count ∧ segmentAt count n = 0x200000 * (n + 1) := by
  have hn : n < count := not_not.mp fun hn => h (if_neg hn)
  exact ⟨hn, if_pos hn⟩

theorem isSegment_segmentAt {count n : ℕ} (hcount : count ≤ 1000) (h : segmentAt count n ≠ 0) :
    IsSegment (segmentAt count n) := by
  obtain ⟨hn, heq⟩ := segmentAt_of_ne_zero h
  rw [heq]
  exact ⟨Dvd.intro _ rfl, by omega, by simp only [mallocSegmentSize]; omega⟩

theorem segmentAt_inj {count n k : ℕ} (h : segmentAt count n ≠ 0)
    (heq : segmentAt count n = segmentAt count k) : n = k := by
  have hn := (segmentAt_of_ne_zero h).2
  have hk := (segmentAt_of_ne_zero (heq ▸ h)).2
  omega

theorem segmentAt_apart {count n : ℕ} {d : Span} (h : segmentAt count n ≠ 0)
    (hd : d.base + d.size ≤ 0x200000) : (segmentSpan (segmentAt count n)).Apart d := by
  have heq := (segmentAt_of_ne_zero h).2
  refine Or.inr ?_
  simp only [segmentSpan]
  omega

theorem heapSpan_low : (heapSpan 0x1000).base + (heapSpan 0x1000).size ≤ 0x2000 := by
  simp only [heapSpan, heapSpan_size]
  omega

/-- A system that gives `count` segments, one after the other from 2 MiB on. -/
def segments (count : ℕ) (hcount : count ≤ 1000) : HeapEnv where
  os := ⟨segmentAt count, fun _ _ => 0⟩
  zeroFilled _ _ := rfl
  heap := 0x1000
  emptyPage := 0x2000
  emptyPage_lt := by decide
  segment _ h := isSegment_segmentAt hcount h
  fresh _ _ h heq := segmentAt_inj h heq
  heapApart _ h := segmentAt_apart h (heapSpan_low.trans (by decide))
  emptyApart _ h := segmentAt_apart h (by decide)
  static := Or.inl heapSpan_low

/-- A system with one segment. -/
def oneSegment : HeapEnv := segments 1 (by decide)

theorem heapZero_zero (E : HeapEnv) : HeapZero E fun _ => 0 :=
  ⟨load_zero _ _, load_zero _ _, load_zero _ _⟩

/-- Two blocks, the first of them freed. -/
theorem malloc_run_safe_two :
    let st := run (step oneSegment 0) (start oneSegment fun _ => 0)
      [.malloc 1016, .malloc 1010, .free 0x200518]
    Safe oneSegment 0 st ∧ st.live.map MallocObj.ptr = [0x200910] := by
  have hlive : (step oneSegment 0 (step oneSegment 0 (start oneSegment fun _ => 0)
      (.malloc 1016)) (.malloc 1010)).live.map MallocObj.ptr = [0x200910, 0x200518] := by
    decide +kernel
  have hfree : ∀ st : HeapState, st.live.map MallocObj.ptr = [0x200910, 0x200518] →
      st.SmallOnly (.free 0x200518) := by
    intro st hst
    refine Or.inr (List.mem_map.mp ?_)
    rw [hst]
    decide
  exact ⟨malloc_run_safe (heapZero_zero _)
    ⟨le_refl 1016, (by decide : 1010 ≤ 1016), hfree _ hlive, trivial⟩, by decide +kernel⟩

/-- A request that the heap refuses, between two that it serves. -/
theorem malloc_run_slots_large :
    let st := run (step oneSegment 0) (start oneSegment fun _ => 0) [.malloc 1016, .malloc 5000]
    (∀ c < numSizeClasses,
      SlotOk oneSegment st.user c (load st.user.mem (heapSlot oneSegment.heap c) 8)) ∧
    load st.user.mem (heapSlot oneSegment.heap 127) 8 = segmentPage 0x200000 0 := by
  have hok : Guarded (step oneSegment 0) NotJustBelow (start oneSegment fun _ => 0)
      [.malloc 1016, .malloc 5000] := ⟨Or.inl (le_refl 1016), Or.inr (by decide), trivial⟩
  exact ⟨(malloc_run_slots (heapZero_zero _) hok).1, by decide +kernel⟩

/-- **A request of 1017 bytes** passes the test for small sizes and uses the slot behind the
last one, where the head of the segment queue is: the queue then holds a page. -/
theorem malloc_1017_overwrites_queue :
    1017 < smallObjSizeMax ∧ ¬ toSizeClass (smallSize 1017) < numSizeClasses ∧
    heapSlot oneSegment.heap (toSizeClass (smallSize 1017)) = heapQueueHead oneSegment.heap ∧
    load (run (step oneSegment 0) (start oneSegment fun _ => 0)
      [.malloc 1016, .malloc 1017]).user.mem (heapQueueHead oneSegment.heap) 8 =
        segmentPage 0x200000 1 := by
  refine ⟨by decide, by decide, by decide, by decide +kernel⟩

end HeapState

end Manticore
