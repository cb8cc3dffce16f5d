import Manticore.Usr.MallocHeap

/-!
# The user-space heap: `malloc` and `free`

What each function of `malloc.c` does to a heap that is in order: which page it takes a block
from, when it asks the system for a segment, and that the heap stays in order.
-/

namespace Manticore

variable {E : HeapEnv} {s s' : UserMem} {live : List MallocObj} {o : MallocObj}
  {b i c n p x size : ℕ} {m m' : Mem}

/-- No page of the segment in the queue can give a block of `size` bytes. -/
def QueueDry (E : HeapEnv) (s : UserMem) (size : ℕ) : Prop :=
  ∀ b, QueueHolds s.mem E.heap b → b ≠ 0 → ∀ i < 32, Exhausted s.mem b i size

/-- `malloc_heap_alloc_page` has found page `i` of the segment at `b`, which now is the one in
the queue: as it was before, or new from the system. -/
structure AllocPageOk (E : HeapEnv) (live : List MallocObj) (size : ℕ) (s s' : UserMem)
    (b i : ℕ) : Prop where
  inv : HeapInv E s' live
  obtained : E.Obtained s'.osCalls b
  lt : i < 32
  ready : PageReady s'.mem live b i size
  queue : QueueHolds s'.mem E.heap b
  source : (s'.osCalls = s.osCalls ∧ QueueHolds s.mem E.heap b ∧
      WritesOnly [pageHeader b i, pageData b i] s.mem s'.mem) ∨
    (s'.osCalls = s.osCalls + 1 ∧ b = E.os s.osCalls ∧ QueueDry E s size ∧
      WritesOnly [segmentSpan b, queueSpan E.heap] s.mem s'.mem ∧
      ∀ j < 32, j ≠ i → pageBlockSize s'.mem (segmentPage b j) = 0)

/-- The system has no segment. -/
structure AllocPageFail (E : HeapEnv) (live : List MallocObj) (size : ℕ) (s s' : UserMem) :
    Prop where
  inv : HeapInv E s' live
  calls : s'.osCalls = s.osCalls + 1
  null : E.os s.osCalls = 0
  dry : QueueDry E s size
  writes : WritesOnly [queueSpan E.heap] s.mem s'.mem
  queue : QueueHolds s'.mem E.heap 0

theorem QueueHolds.unique {heap b b' : ℕ} (h : QueueHolds m heap b) (h' : QueueHolds m heap b') :
    b = b' := h.head.symm.trans h'.head

theorem page_ne_zero (hb : IsSegment b) : segmentPage b i ≠ 0 := by
  have := hb.pos
  simp only [segmentPage, sizeofMallocSegment]
  omega

theorem QueueHolds.page_write {k : ℕ} (hq : QueueHolds m E.heap b) (hb : E.Obtained k b)
    (hi : i < 32) (hw : WritesOnly [pageHeader b i, pageData b i] m m') :
    QueueHolds m' E.heap b := by
  refine hq.frame hw (fun d hd => ?_) fun _ d hd => ?_
  · exact (apart_slots_of_heap (page_apart_of_segment hi hb.heapApart d hd)).2
  · have := page_apart_links hb.isSegment hb.isSegment hi d hd
    simp only [Span.Apart] at this ⊢
    omega

theorem mallocHeapAllocPage_found {s₁ : UserMem} (fuel : ℕ)
    (hget : mallocHeapGetSegment E.os E.heap s = (b, s₁)) (hb : IsSegment b)
    (hfind : mallocSegmentFindPage b (toBlockSize n) (List.range (segmentNrPages s₁.mem b)) s₁.mem =
      some (segmentPage b i, m')) :
    mallocHeapAllocPage E.os E.heap (fuel + 1) s n =
      some (segmentPage b i, { s₁ with mem := m' }) := by
  have hne : b ≠ 0 := Nat.ne_zero_of_lt hb.pos
  simp only [mallocHeapAllocPage, hget, if_neg hne, hfind, Option.bind_eq_bind, Option.bind_some,
    if_pos (page_ne_zero hb)]

theorem HeapInv.allocPage_empty (h : HeapInv E s live) (fuel : ℕ) (hq : QueueHolds s.mem E.heap 0)
    (hsize : IsBlockSize (toBlockSize n)) :
    (∃ s', mallocHeapAllocPage E.os E.heap (fuel + 1) s n = some (0, s') ∧
      AllocPageFail E live (toBlockSize n) s s') ∨
    ∃ b i s', mallocHeapAllocPage E.os E.heap (fuel + 1) s n = some (segmentPage b i, s') ∧
      AllocPageOk E live (toBlockSize n) s s' b i := by
  have hdry : QueueDry E s (toBlockSize n) := fun b hb hne => absurd (hb.unique hq) hne
  rcases h.getSegment with ⟨b, hne, hqb, -⟩ | ⟨-, hnull, hget⟩ |
    ⟨-, hos, m₁, hget, hinv, hq₁, hw₁, hnew⟩
  · exact absurd (hqb.unique hq) hne
  · refine Or.inl ⟨_, ?_, h.noAnswer hnull, rfl, hnull, hdry, WritesOnly.refl _ _, hq⟩
    simp only [mallocHeapAllocPage, hget, if_true]
  · have hobt : E.Obtained (s.osCalls + 1) (E.os s.osCalls) := ⟨hos, _, Nat.lt_succ_self _, rfl⟩
    rcases hinv.findPage hobt hsize with ⟨-, hall⟩ | ⟨i, hi, m₂, hfind, hinv₂, hready, hw₂⟩
    · exact absurd (hnew 0 (by decide)) (hall 0 (by decide)).1
    · refine Or.inr ⟨_, i, ⟨m₂, s.osCalls + 1⟩, ?_, hinv₂, hobt, hi, hready, ?_,
        Or.inr ⟨rfl, rfl, hdry, ?_, fun j hj hji => ?_⟩⟩
      · exact mallocHeapAllocPage_found fuel hget hobt.isSegment hfind
      · exact hq₁.page_write hobt hi hw₂
      · refine hw₁.trans (hw₂.widen fun d hd => ⟨_, List.mem_cons_self, ?_⟩)
        have := page_in_segment (E.os s.osCalls) hi d hd
        simp only [segmentSpan]
        omega
      · refine (blockSize_kept hw₂ fun d hd => ?_).trans (hnew j hj)
        exact page_apart hobt.isSegment hobt.isSegment hi hj
          (fun heq => hji (Prod.mk.inj heq).2.symm) d hd _ List.mem_cons_self

/-- **`malloc_heap_alloc_page`** looks in the segment of the queue, and in a new one if that
has no page to offer.  Two rounds of its loop are enough. -/
theorem HeapInv.allocPage (h : HeapInv E s live) (fuel : ℕ)
    (hsize : IsBlockSize (toBlockSize n)) :
    (∃ s', mallocHeapAllocPage E.os E.heap (fuel + 2) s n = some (0, s') ∧
      AllocPageFail E live (toBlockSize n) s s') ∨
    ∃ b i s', mallocHeapAllocPage E.os E.heap (fuel + 2) s n = some (segmentPage b i, s') ∧
      AllocPageOk E live (toBlockSize n) s s' b i := by
  obtain ⟨b, hq, hobt⟩ := h.queue
  by_cases hb : b = 0
  · subst hb
    exact h.allocPage_empty (fuel + 1) hq hsize
  · have hobt := hobt hb
    have hget : mallocHeapGetSegment E.os E.heap s = (b, s) := by
      simp only [mallocHeapGetSegment, hq.head, if_neg hb]
    rcases h.findPage hobt hsize with ⟨hfind, hall⟩ | ⟨i, hi, m₂, hfind, hinv, hready, hw⟩
    · obtain ⟨m₁, hm₁⟩ : ∃ m₁, mallocSegmentQueuePop s.mem E.heap = m₁ := ⟨_, rfl⟩
      obtain ⟨hinv, hq', hw⟩ := h.pop hq hb hobt hm₁
      have hstep : mallocHeapAllocPage E.os E.heap (fuel + 2) s n =
          mallocHeapAllocPage E.os E.heap (fuel + 1) { s with mem := m₁ } n := by
        rw [mallocHeapAllocPage]
        simp only [hget, if_neg hb, hfind, Option.bind_eq_bind, Option.bind_some, ne_eq,
          not_true_eq_false, if_false, hm₁]
      have hdry : QueueDry E s (toBlockSize n) := fun b' hb' _ => hb'.unique hq ▸ hall
      rw [hstep]
      rcases hinv.allocPage_empty fuel hq' hsize with
        ⟨s', hcall, hfail⟩ | ⟨b', i, s', hcall, hok⟩
      · exact Or.inl ⟨s', hcall, hfail.inv, hfail.calls, hfail.null, hdry, hw.trans hfail.writes,
          hfail.queue⟩
      · refine Or.inr ⟨b', i, s', hcall, hok.inv, hok.obtained, hok.lt, hok.ready, hok.queue, ?_⟩
        rcases hok.source with ⟨-, hq₀, -⟩ | ⟨hcalls, hos, -, hw', hnew⟩
        · exact absurd (hq₀.unique hq') hok.obtained.1
        · exact Or.inr ⟨hcalls, hos, hdry, (hw.mono (by simp)).trans hw', hnew⟩
    · refine Or.inr ⟨b, i, { s with mem := m₂ }, ?_, hinv, hobt, hi, hready, ?_,
        Or.inl ⟨rfl, hq, hw⟩⟩
      · exact mallocHeapAllocPage_found (fuel + 1) hget hobt.isSegment hfind
      · exact hq.page_write hobt hi hw

/-! ## Slots -/

theorem slotSpan_in_heap (hc : c < numSizeClasses) : E.heap ≤ heapSlot E.heap c ∧
    heapSlot E.heap c + 8 ≤ E.heap + sizeofMallocHeap :=
  slot_in_heap (E := E) hc

theorem HeapInv.setSlot (h : HeapInv E s live) (hc : c < numSizeClasses) (hp : SlotOk E s c p)
    (hlt : p < 2 ^ 64) : HeapInv E { s with mem := store s.mem (heapSlot E.heap c) 8 p } live := by
  have hin := slotSpan_in_heap (E := E) hc
  have hw : WritesOnly [⟨heapSlot E.heap c, 8⟩] s.mem (store s.mem (heapSlot E.heap c) 8 p) :=
    (WritesOnly.refl _ _).store (List.mem_singleton_self _) le_rfl le_rfl
  have hseg : ∀ b, E.Obtained s.osCalls b → (segmentSpan b).Apart ⟨heapSlot E.heap c, 8⟩ :=
    fun b hb => hb.apart_of_heap hin.1 hin.2
  have hpages : PagesInv E { s with mem := store s.mem (heapSlot E.heap c) 8 p } live := by
    refine h.toPagesInv.frame hw ?_ ?_ ?_ <;>
      simp only [List.mem_singleton, forall_eq]
    · exact fun b hb i hi e he => (page_apart_of_segment hi (hseg b hb) e he).symm
    · intro b hb
      have := hseg b hb
      simp only [Span.Apart, segmentSpan, mallocSegmentSize] at this ⊢
      omega
    · exact apart_empty_of_heap hin.1 hin.2
  have hkeep : KeepsClaims E s { s with mem := store s.mem (heapSlot E.heap c) 8 p } := by
    refine ⟨le_rfl, fun b hb i hi _ => blockSize_kept hw ?_⟩
    simp only [List.mem_singleton, forall_eq]
    exact header_apart_of_segment hi (hseg b hb)
  refine ⟨hpages, fun c' hc' => ?_, ?_⟩
  · by_cases hcc : c' = c
    · subst hcc
      simp only
      rw [load_store_same hlt]
      exact hp.keep hkeep
    · simp only
      rw [load_store_of_disjoint (by simp only [heapSlot]; omega)]
      exact (h.slot c' hc').keep hkeep
  · obtain ⟨q, hq, hobt⟩ := h.queue
    refine ⟨q, hq.frame hw ?_ fun hne => ?_, hobt⟩ <;> simp only [List.mem_singleton, forall_eq]
    · simp only [Span.Apart, queueSpan, heapQueueHead, heapSlot, numSizeClasses_eq] at hc ⊢
      omega
    · have := hseg q (hobt hne)
      simp only [Span.Apart, segmentSpan, mallocSegmentSize] at this ⊢
      omega

theorem toSizeClass_smallSize (hn : n ≤ 1016) : 0 < toSizeClass (smallSize n) ∧
    toSizeClass (smallSize n) < numSizeClasses ∧
    8 * toSizeClass (smallSize n) = toBlockSize (smallSize n) := by
  obtain ⟨⟨k, hk⟩, hpos, hle⟩ := isBlockSize_smallSize hn
  rw [toSizeClass, hk, numSizeClasses_eq]
  omega

/-- The page that stands in the slot of a request of `n` bytes. -/
def slotPage (E : HeapEnv) (s : UserMem) (n : ℕ) : ℕ :=
  load s.mem (heapSlot E.heap (toSizeClass (smallSize n))) 8

/-- `malloc_heap_get_page` has put page `i` of the segment at `b` into the slot, or found it
there with a free block. -/
structure GetPageOk (E : HeapEnv) (live : List MallocObj) (n : ℕ) (s s' : UserMem) (b i : ℕ) :
    Prop where
  inv : HeapInv E s' live
  obtained : E.Obtained s'.osCalls b
  lt : i < 32
  ready : PageReady s'.mem live b i (toBlockSize (smallSize n))
  slot : slotPage E s' n = segmentPage b i
  source : s' = s ∨ pageFree s.mem (slotPage E s n) = 0 ∧
    ∃ s₁, AllocPageOk E live (toBlockSize (smallSize n)) s s₁ b i ∧ s' = { s₁ with
      mem := store s₁.mem (heapSlot E.heap (toSizeClass (smallSize n))) 8 (segmentPage b i) }

theorem HeapInv.slot_ready (h : HeapInv E s live) (hn : n ≤ 1016)
    (hfree : pageFree s.mem (slotPage E s n) ≠ 0) : ∃ b i, E.Obtained s.osCalls b ∧ i < 32 ∧
      slotPage E s n = segmentPage b i ∧ PageReady s.mem live b i (toBlockSize (smallSize n)) := by
  obtain ⟨hpos, hlt, hclass⟩ := toSizeClass_smallSize hn
  have hslot : SlotOk E s (toSizeClass (smallSize n)) (slotPage E s n) := h.slot _ hlt
  rcases hslot with hempty | ⟨-, b, hb, i, hi, hpage, hsize⟩
  · rw [hempty] at hfree
    exact absurd h.empty hfree
  · refine ⟨b, i, hb, hi, hpage, ?_⟩
    obtain ⟨size, fl, hp, -⟩ := h.page b hb i hi
    rw [hpage] at hfree hsize
    obtain rfl : size = toBlockSize (smallSize n) :=
      hp.blockSize.symm.trans (hsize.trans hclass)
    cases fl with
    | nil => exact absurd hp.list hfree
    | cons x fl => exact ⟨x, fl, hp⟩

theorem AllocPageOk.getPage {s₁ : UserMem} (hn : n ≤ 1016)
    (hok : AllocPageOk E live (toBlockSize (smallSize n)) s s₁ b i)
    (hfree : pageFree s.mem (slotPage E s n) = 0) :
    GetPageOk E live n s ⟨store s₁.mem (heapSlot E.heap (toSizeClass (smallSize n))) 8
      (segmentPage b i), s₁.osCalls⟩ b i := by
  obtain ⟨hpos, hlt, hclass⟩ := toSizeClass_smallSize hn
  obtain ⟨x, fl, hp⟩ := hok.ready
  have hplt : segmentPage b i < 2 ^ 64 := by
    have hle := hok.obtained.isSegment.le
    have hi := hok.lt
    simp only [segmentPage, sizeofMallocSegment, sizeofMallocPage, mallocSegmentSize] at *
    omega
  have hslot : SlotOk E s₁ (toSizeClass (smallSize n)) (segmentPage b i) :=
    Or.inr ⟨hpos, b, hok.obtained, i, hok.lt, rfl, hp.blockSize.trans hclass.symm⟩
  have hin := slotSpan_in_heap (E := E) hlt
  have hw : WritesOnly [⟨heapSlot E.heap (toSizeClass (smallSize n)), 8⟩] s₁.mem
      (store s₁.mem (heapSlot E.heap (toSizeClass (smallSize n))) 8 (segmentPage b i)) :=
    (WritesOnly.refl _ _).store (List.mem_singleton_self _) le_rfl le_rfl
  refine ⟨hok.inv.setSlot hlt hslot hplt, hok.obtained, hok.lt, ⟨x, fl, ?_⟩,
    load_store_same hplt, Or.inr ⟨hfree, s₁, hok, rfl⟩⟩
  refine hp.frame_apart hw ?_
  simp only [List.mem_singleton, forall_eq]
  exact fun e he => (page_apart_of_segment hok.lt
    (hok.obtained.apart_of_heap hin.1 hin.2) e he).symm

/-- **`malloc_heap_get_page`.** -/
theorem HeapInv.getPage (h : HeapInv E s live) (fuel : ℕ) (hn : n ≤ 1016) :
    (∃ s', mallocHeapGetPage E.os E.heap (fuel + 2) s (smallSize n) = some (0, s') ∧
      pageFree s.mem (slotPage E s n) = 0 ∧
      AllocPageFail E live (toBlockSize (smallSize n)) s s') ∨
    ∃ b i s', mallocHeapGetPage E.os E.heap (fuel + 2) s (smallSize n) =
        some (segmentPage b i, s') ∧ GetPageOk E live n s s' b i := by
  by_cases hfree : pageFree s.mem (slotPage E s n) = 0
  · have hcall : mallocHeapGetPage E.os E.heap (fuel + 2) s (smallSize n) =
        (mallocHeapAllocPage E.os E.heap (fuel + 2) s (smallSize n)).bind fun r =>
          if r.1 ≠ 0 then some (r.1, { r.2 with
            mem := store r.2.mem (heapSlot E.heap (toSizeClass (smallSize n))) 8 r.1 })
          else some r := by
      have hfull : ¬ pageFree s.mem
          (load s.mem (heapSlot E.heap (toSizeClass (smallSize n))) 8) ≠ 0 := not_not.mpr hfree
      simp only [mallocHeapGetPage, if_neg hfull]
      rfl
    rw [hcall]
    rcases h.allocPage fuel (isBlockSize_smallSize hn) with
      ⟨s', hpage, hfail⟩ | ⟨b, i, s₁, hpage, hok⟩
    · refine Or.inl ⟨s', ?_, hfree, hfail⟩
      rw [hpage, Option.bind_some, if_neg (not_not.mpr rfl)]
    · refine Or.inr ⟨b, i, ⟨store s₁.mem (heapSlot E.heap (toSizeClass (smallSize n))) 8
        (segmentPage b i), s₁.osCalls⟩, ?_, ?_⟩
      · rw [hpage, Option.bind_some, if_pos (page_ne_zero hok.obtained.isSegment)]
      · exact hok.getPage hn hfree
  · obtain ⟨b, i, hb, hi, hpage, hready⟩ := h.slot_ready hn hfree
    refine Or.inr ⟨b, i, s, ?_, h, hb, hi, hready, hpage, Or.inl rfl⟩
    simp only [mallocHeapGetPage]
    rw [← slotPage, if_pos hfree, hpage]

/-! ## Objects -/

/-- What `malloc` does when it returns the block `x`: it comes from page `i` of the segment at
`b`, and only the header of the page is written after the page was found. -/
structure AllocOk (E : HeapEnv) (fuel : ℕ) (live : List MallocObj) (n : ℕ) (s s' : UserMem)
    (x b i : ℕ) : Prop where
  inv : HeapInv E s' (⟨x, n, segmentPage b i⟩ :: live)
  ne_zero : x ≠ 0
  source : ∃ s₁, mallocHeapGetPage E.os E.heap (fuel + 2) s (smallSize n) =
      some (segmentPage b i, s₁) ∧ GetPageOk E live n s s₁ b i ∧
    s'.osCalls = s₁.osCalls ∧ WritesOnly [pageHeader b i] s₁.mem s'.mem

/-- **`malloc`** of at most 1016 bytes. -/
theorem HeapInv.alloc (h : HeapInv E s live) (fuel : ℕ) (hn : n ≤ 1016) :
    (∃ s', mallocHeapAlloc E.os E.heap (fuel + 2) s n = some (0, s') ∧
      pageFree s.mem (slotPage E s n) = 0 ∧
      AllocPageFail E live (toBlockSize (smallSize n)) s s') ∨
    ∃ x b i s', mallocHeapAlloc E.os E.heap (fuel + 2) s n = some (x, s') ∧
      AllocOk E fuel live n s s' x b i := by
  have hsmall : n < smallObjSizeMax := lt_of_le_of_lt hn (by decide)
  simp only [mallocHeapAlloc, if_pos hsmall, mallocHeapAllocSmall]
  rcases h.getPage fuel hn with ⟨s', hcall, hfree, hfail⟩ | ⟨b, i, s₁, hcall, hok⟩
  · refine Or.inl ⟨s', ?_, hfree, hfail⟩
    simp only [hcall, Option.bind_eq_bind, Option.bind_some, if_true]
  · obtain ⟨x, fl, hp⟩ := hok.ready
    obtain ⟨m', halloc, hx, hw, hp'⟩ := mallocPageAllocObj_spec hp hok.lt
    refine Or.inr ⟨x, b, i, { s₁ with mem := m' }, ?_, ?_, hx, s₁, hcall, hok, rfl, hw⟩
    · simp only [hcall, Option.bind_eq_bind, Option.bind_some,
        if_neg (page_ne_zero hok.obtained.isSegment), halloc]
    · have hsizes := (hok.inv.page b hok.obtained i hok.lt).sizes hp
      have hlive : handedOut (⟨x, n, segmentPage b i⟩ :: live) (segmentPage b i) =
          x :: handedOut live (segmentPage b i) := by simp [handedOut]
      rw [← hlive] at hp'
      refine hok.inv.update hok.obtained hok.lt (hw.mono (by simp)) hp'
        (fun _ => hp.blockSize) ?_ ?_ ?_
      · exact List.forall_mem_cons.mpr ⟨fun _ => rfl, hsizes⟩
      · exact List.forall_mem_cons.mpr ⟨hn, hok.inv.small⟩
      · intro page hpage
        exact List.filter_cons_of_neg (by simpa using hpage.symm)

theorem PageOk.perm {l l' fl : List ℕ} (h : PageOk m b i l size fl) (hperm : l.Perm l') :
    PageOk m b i l' size fl := by
  refine ⟨h.idx, h.blockSize, h.used.trans hperm.length_eq, h.list, ?_, ?_⟩
  · intro hne
    obtain ⟨hdvd, hle, hcap, hblocks⟩ := h.claimed hne
    exact ⟨hdvd, hle, hcap, (List.Perm.append_left fl hperm.symm).trans hblocks⟩
  · intro hz
    obtain ⟨hfl, rfl⟩ := h.unclaimed hz
    exact ⟨hfl, hperm.nil_eq.symm⟩

theorem PagesInv.block_of_live (h : PagesInv E s live) (ho : o ∈ live) :
    ∃ b, E.Obtained s.osCalls b ∧ ∃ i < 32, o.page = segmentPage b i ∧
      o.ptr ∈ pageBlocks b i (toBlockSize (smallSize o.size)) ∧
      mallocObjToPage (mallocObjToSegment o.ptr) o.ptr = o.page := by
  obtain ⟨b, hb, i, hi, hpage⟩ := h.owned o ho
  obtain ⟨size, fl, hp, hsizes⟩ := h.page b hb i hi
  have hin : o.ptr ∈ handedOut live (segmentPage b i) :=
    List.mem_map_of_mem (List.mem_filter.mpr ⟨ho, by simpa using hpage⟩)
  obtain ⟨hblock, h8⟩ := hp.mem_blocks (List.mem_append_right _ hin)
  obtain ⟨hseg, hown⟩ := owner_of_block hb.isSegment hi (by omega) hblock
  refine ⟨b, hb, i, hi, hpage, ?_, ?_⟩
  · rw [hsizes o ho hpage]
    exact hblock
  · rw [hseg, hown, hpage]

theorem filter_erase_of_neg {α : Type*} [DecidableEq α] {q : α → Bool} {a : α} (ha : ¬ q a) :
    ∀ l : List α, (l.erase a).filter q = l.filter q
  | [] => rfl
  | x :: l => by
      by_cases hx : x = a
      · subst hx
        rw [List.erase_cons_head, List.filter_cons_of_neg ha]
      · rw [List.erase_cons_tail (by simpa using hx), List.filter_cons, List.filter_cons,
          filter_erase_of_neg ha l]

/-- What `free` does with a block in use from page `i` of the segment at `b`. -/
structure FreeOk (E : HeapEnv) (live : List MallocObj) (o : MallocObj) (s s' : UserMem)
    (b i : ℕ) : Prop where
  obtained : E.Obtained s.osCalls b
  lt : i < 32
  page : o.page = segmentPage b i
  inv : HeapInv E s' (live.erase o)
  calls : s'.osCalls = s.osCalls
  writes : WritesOnly [pageHeader b i, pageData b i] s.mem s'.mem
  blockSize : pageBlockSize s'.mem (segmentPage b i) = pageBlockSize s.mem (segmentPage b i)
  freed : pageFree s'.mem (segmentPage b i) = o.ptr

theorem HeapInv.freeObj_spec (h : HeapInv E s live) (ho : o ∈ live) :
    ∃ m' b i size fl, freeObj s o.ptr = some { s with mem := m' } ∧ E.Obtained s.osCalls b ∧
      i < 32 ∧ o.page = segmentPage b i ∧
      PageOk s.mem b i (handedOut live (segmentPage b i)) size fl ∧
      WritesOnly [pageHeader b i, ⟨o.ptr, 8⟩] s.mem m' ∧
      PageOk m' b i ((handedOut live (segmentPage b i)).erase o.ptr) size (o.ptr :: fl) := by
  obtain ⟨b, hb, i, hi, hpage, hblock, hown⟩ := h.toPagesInv.block_of_live ho
  obtain ⟨size, fl, hp, -⟩ := h.page b hb i hi
  have hin : o.ptr ∈ handedOut live (segmentPage b i) :=
    List.mem_map_of_mem (List.mem_filter.mpr ⟨ho, by simpa using hpage⟩)
  have hdata := hp.node_in_data (List.mem_append_right _ hin)
  have hseg := page_in_segment b hi (pageData b i) (by simp)
  have hle := hb.isSegment.le
  have hbpos := hb.isSegment.pos
  have hne : o.ptr ≠ 0 := by omega
  obtain ⟨m₁, hm₁⟩ : ∃ m₁, mallocPageAppendObj s.mem (segmentPage b i) o.ptr = m₁ := ⟨_, rfl⟩
  obtain ⟨m₂, hm₂⟩ : ∃ m₂, store m₁ (segmentPage b i + 8) 8
    (sub64 (pageUsed m₁ (segmentPage b i)) 1) = m₂ := ⟨_, rfl⟩
  obtain ⟨hused, hw, hp'⟩ := mallocPageAppendObj_spec hp hi hin (by omega) hne
  rw [hm₁] at hused hw hp'
  rw [hm₂] at hw hp'
  refine ⟨m₂, b, i, size, fl, ?_, hb, hi, hpage, hp, hw, hp'⟩
  rw [freeObj, if_neg hne, mallocHeapFree, hown, hpage]
  simp only [hm₁, if_pos hused, hm₂]

/-- **`free`** of a block in use. -/
theorem HeapInv.free (h : HeapInv E s live) (ho : o ∈ live) :
    ∃ s' b i, freeObj s o.ptr = some s' ∧ FreeOk E live o s s' b i := by
  obtain ⟨m', b, i, size, fl, hcall, hb, hi, hpage, hp, hw, hp'⟩ := h.freeObj_spec ho
  have hin : o.ptr ∈ handedOut live (segmentPage b i) :=
    List.mem_map_of_mem (List.mem_filter.mpr ⟨ho, by simpa using hpage⟩)
  have hdata := hp.node_in_data (List.mem_append_right _ hin)
  have hsizes := (h.page b hb i hi).sizes hp
  have hw' : WritesOnly [pageHeader b i, pageData b i] s.mem m' := by
    refine hw.widen ?_
    simp only [List.forall_mem_cons, List.not_mem_nil, false_implies, implies_true, and_true]
    exact ⟨⟨_, List.mem_cons_self, le_rfl, le_rfl⟩,
      ⟨_, List.mem_cons_of_mem _ List.mem_cons_self, hdata⟩⟩
  refine ⟨{ s with mem := m' }, b, i, hcall, hb, hi, hpage, ?_, rfl, hw',
    hp'.blockSize.trans hp.blockSize.symm, hp'.list.1⟩
  · have hperm : (handedOut live (segmentPage b i)).Perm
        (o.ptr :: handedOut (live.erase o) (segmentPage b i)) := by
      have hfilter := ((List.perm_cons_erase ho).filter
        (·.page = segmentPage b i)).map MallocObj.ptr
      rwa [List.filter_cons_of_pos (by simpa using hpage), List.map_cons] at hfilter
    have hrest := hperm.erase o.ptr
    rw [List.erase_cons_head] at hrest
    refine h.update hb hi hw' (hp'.perm hrest) (fun _ => hp.blockSize)
      (fun o' ho' => hsizes o' (List.mem_of_mem_erase ho'))
      (fun o' ho' => h.small o' (List.mem_of_mem_erase ho')) fun page hpage' => ?_
    exact filter_erase_of_neg (by simpa [hpage] using hpage'.symm) live

/-! ## The start -/

theorem mallocHeapInit_slots (hempty : E.emptyPage < 2 ^ 64) : ∀ t ≤ numSizeClasses,
    let m' := (List.range t).foldl (fun m idx => store m (heapSlot E.heap idx) 8 E.emptyPage) m
    WritesOnly [slotsSpan E.heap] m m' ∧
      ∀ c < t, load m' (heapSlot E.heap c) 8 = E.emptyPage
  | 0, _ => ⟨WritesOnly.refl _ _, fun c hc => absurd hc (Nat.not_lt_zero c)⟩
  | t + 1, ht => by
      obtain ⟨hw, hslots⟩ := mallocHeapInit_slots hempty t (by omega)
      simp only [List.range_succ, List.foldl_append, List.foldl_cons, List.foldl_nil]
      refine ⟨hw.store (List.mem_singleton_self _) ?_ ?_, fun c hc => ?_⟩
      · simp [slotsSpan, heapSlot]
      · simp only [slotsSpan, heapSlot]
        omega
      · by_cases hct : c = t
        · subst hct
          exact load_store_same hempty
        · rw [load_store_of_disjoint (by simp only [heapSlot]; omega)]
          exact hslots c (by omega)

/-- The static data before `malloc_heap_init`: the queue and the empty page are zero. -/
structure HeapZero (E : HeapEnv) (m : Mem) : Prop where
  head : load m (heapQueueHead E.heap) 8 = 0
  tail : load m (heapQueueTail E.heap) 8 = 0
  free : pageFree m E.emptyPage = 0

/-- **The heap starts in order.** -/
theorem heapInv_init (h : HeapZero E m) :
    HeapInv E ⟨mallocHeapInit m E.heap E.emptyPage, 0⟩ [] := by
  obtain ⟨hw, hslots⟩ := mallocHeapInit_slots (m := m) E.emptyPage_lt numSizeClasses le_rfl
  have hnone : ∀ b, ¬ E.Obtained 0 b := by
    rintro b ⟨-, n, hn, -⟩
    exact absurd hn (Nat.not_lt_zero n)
  have hqueue : ∀ d ∈ [slotsSpan E.heap], d.Apart (queueSpan E.heap) := by
    simp only [List.mem_singleton, forall_eq]
    exact queue_apart_slots.symm
  refine ⟨⟨fun b hb => absurd hb (hnone b), fun b hb => absurd hb (hnone b),
    fun o ho => absurd ho List.not_mem_nil, fun o ho => absurd ho List.not_mem_nil, ?_⟩,
    fun c hc => Or.inl (hslots c hc), 0, ⟨?_, ?_, fun h0 => absurd rfl h0⟩, fun h0 => absurd rfl h0⟩
  · refine (hw.load_eq (d := ⟨E.emptyPage, sizeofMallocPage⟩) ?_ le_rfl ?_).trans h.free
    · simp only [List.mem_singleton, forall_eq]
      refine apart_empty_of_heap le_rfl ?_
      simp only [slotsSpan, heapSpan_size, numSizeClasses_eq]
      omega
    · simp [sizeofMallocPage]
  · refine (hw.load_eq hqueue ?_ ?_).trans h.head <;> simp [queueSpan]
  · refine (hw.load_eq hqueue ?_ ?_).trans h.tail <;>
      simp [queueSpan, heapQueueHead, heapQueueTail]

/-! ## What a call changes -/

variable {fuel j : ℕ} {w : List Span}

/-- Page `j` of the segment at `b` has the same block size and the same free list. -/
def PageSame (m m' : Mem) (b j : ℕ) : Prop :=
  pageBlockSize m' (segmentPage b j) = pageBlockSize m (segmentPage b j) ∧
    pageFree m' (segmentPage b j) = pageFree m (segmentPage b j)

theorem pageSame_of_writes (hw : WritesOnly w m m') (hd : ∀ d ∈ w, d.Apart (pageHeader b j)) :
    PageSame m m' b j := by
  refine ⟨blockSize_kept hw hd, hw.load_eq hd ?_ ?_⟩ <;> simp [pageHeader, sizeofMallocPage]

theorem PageSame.trans {m₁ : Mem} (h : PageSame m m₁ b j) (h' : PageSame m₁ m' b j) :
    PageSame m m' b j := ⟨h'.1.trans h.1, h'.2.trans h.2⟩

theorem slots_of_writes (hw : WritesOnly w m m')
    (hd : ∀ d ∈ w, d.Apart ⟨heapSlot E.heap c, 8⟩) :
    load m' (heapSlot E.heap c) 8 = load m (heapSlot E.heap c) 8 :=
  hw.load_eq hd le_rfl le_rfl

theorem slot_apart_slot {c' : ℕ} (hne : c' ≠ c) :
    (⟨heapSlot E.heap c, 8⟩ : Span).Apart ⟨heapSlot E.heap c', 8⟩ := by
  simp only [Span.Apart, heapSlot]
  omega

theorem apart_slot_of_slots {d : Span} (hc : c < numSizeClasses) (h : d.Apart (slotsSpan E.heap)) :
    d.Apart ⟨heapSlot E.heap c, 8⟩ := by
  simp only [Span.Apart, slotsSpan, heapSlot] at *
  omega

/-- **The effect of a `malloc` of `n` bytes that takes a block from page `i` of the segment at
`b`.** -/
structure AllocEffect (E : HeapEnv) (n : ℕ) (s s' : UserMem) (b i : ℕ) : Prop where
  obtained : E.Obtained s'.osCalls b
  lt : i < 32
  blockSize : pageBlockSize s'.mem (segmentPage b i) = toBlockSize (smallSize n)
  slot : slotPage E s' n = segmentPage b i
  others : ∀ b', E.Obtained s.osCalls b' → ∀ j < 32, (b, i) ≠ (b', j) →
    PageSame s.mem s'.mem b' j
  slots : ∀ c < numSizeClasses, c ≠ toSizeClass (smallSize n) →
    load s'.mem (heapSlot E.heap c) 8 = load s.mem (heapSlot E.heap c) 8
  source : (s'.osCalls = s.osCalls ∧ (∀ q, QueueHolds s.mem E.heap q → QueueHolds s'.mem E.heap q) ∧
      (slotPage E s n = segmentPage b i ∨
        pageFree s.mem (slotPage E s n) = 0 ∧ QueueHolds s.mem E.heap b)) ∨
    (s'.osCalls = s.osCalls + 1 ∧ b = E.os s.osCalls ∧ QueueHolds s'.mem E.heap b ∧
      QueueDry E s (toBlockSize (smallSize n)) ∧ pageFree s.mem (slotPage E s n) = 0 ∧
      ∀ j < 32, j ≠ i → pageBlockSize s'.mem (segmentPage b j) = 0)

theorem queueHolds_of_page_slot {q : ℕ} (hq : QueueHolds m E.heap q) {k : ℕ}
    (hobt : q ≠ 0 → E.Obtained k q) (hb : E.Obtained k b) (hi : i < 32) (hc : c < numSizeClasses)
    (hw : WritesOnly [pageHeader b i, pageData b i, ⟨heapSlot E.heap c, 8⟩] m m') :
    QueueHolds m' E.heap q := by
  have hin := slotSpan_in_heap (E := E) hc
  have hpage : ∀ d ∈ [pageHeader b i, pageData b i], d.Apart (heapSpan E.heap) :=
    page_apart_of_segment hi hb.heapApart
  refine hq.frame hw ?_ fun hne => ?_
  · simp only [List.forall_mem_cons, List.not_mem_nil, false_implies, implies_true, and_true]
      at hpage ⊢
    refine ⟨(apart_slots_of_heap hpage.1).2, (apart_slots_of_heap hpage.2).2, ?_⟩
    simp only [Span.Apart, queueSpan, heapQueueHead, heapSlot, numSizeClasses_eq] at hc ⊢
    omega
  · have hlinks := page_apart_links hb.isSegment (hobt hne).isSegment hi
    have hslot := (hobt hne).apart_of_heap (d := ⟨heapSlot E.heap c, 8⟩) hin.1 hin.2
    simp only [List.forall_mem_cons, List.not_mem_nil, false_implies, implies_true, and_true,
      Span.Apart, segmentSpan, mallocSegmentSize] at hlinks hslot ⊢
    omega

theorem pageSame_of_page_slot {k k' b' : ℕ} (hb : E.Obtained k b) (hb' : E.Obtained k' b')
    (hi : i < 32) (hj : j < 32) (hne : (b, i) ≠ (b', j)) (hc : c < numSizeClasses)
    (hw : WritesOnly [pageHeader b i, pageData b i, ⟨heapSlot E.heap c, 8⟩] m m') :
    PageSame m m' b' j := by
  have hin := slotSpan_in_heap (E := E) hc
  have hapart := page_apart hb.isSegment hb'.isSegment hi hj hne
  refine pageSame_of_writes hw ?_
  simp only [List.forall_mem_cons, List.not_mem_nil, false_implies, implies_true, and_true]
    at hapart ⊢
  exact ⟨hapart.1.1, hapart.2.1, header_apart_of_segment hj (hb'.apart_of_heap hin.1 hin.2)⟩

theorem slots_of_page_slot {k c' : ℕ} (hb : E.Obtained k b) (hi : i < 32)
    (hc' : c' < numSizeClasses) (hne : c' ≠ c)
    (hw : WritesOnly [pageHeader b i, pageData b i, ⟨heapSlot E.heap c, 8⟩] m m') :
    load m' (heapSlot E.heap c') 8 = load m (heapSlot E.heap c') 8 := by
  have hheap := page_apart_of_segment hi hb.heapApart
  refine slots_of_writes hw ?_
  simp only [List.forall_mem_cons, List.not_mem_nil, false_implies, implies_true, and_true]
    at hheap ⊢
  exact ⟨apart_slot_of_slots hc' (apart_slots_of_heap hheap.1).1,
    apart_slot_of_slots hc' (apart_slots_of_heap hheap.2).1, slot_apart_slot hne⟩

theorem HeapInv.effect_of_page_slot (h : HeapInv E s live) (hn : n ≤ 1016)
    (hb : E.Obtained s.osCalls b) (hi : i < 32) (hcalls : s'.osCalls = s.osCalls)
    (hw : WritesOnly [pageHeader b i, pageData b i,
      ⟨heapSlot E.heap (toSizeClass (smallSize n)), 8⟩] s.mem s'.mem)
    (hblock : pageBlockSize s'.mem (segmentPage b i) = toBlockSize (smallSize n))
    (hslot : slotPage E s' n = segmentPage b i)
    (hsource : slotPage E s n = segmentPage b i ∨
      pageFree s.mem (slotPage E s n) = 0 ∧ QueueHolds s.mem E.heap b) :
    AllocEffect E n s s' b i := by
  obtain ⟨-, hclass, -⟩ := toSizeClass_smallSize hn
  obtain ⟨q, hq, hqobt⟩ := h.queue
  refine ⟨hcalls ▸ hb, hi, hblock, hslot, fun b' hb' j hj hne => ?_, fun c hc hne => ?_,
    Or.inl ⟨hcalls, fun q' hq' => ?_, hsource⟩⟩
  · exact pageSame_of_page_slot hb hb' hi hj hne hclass hw
  · exact slots_of_page_slot hb hi hc hne hw
  · rw [← hq.unique hq']
    exact queueHolds_of_page_slot hq hqobt hb hi hclass hw

theorem AllocPageOk.effect_of_new {s₂ : UserMem} (hn : n ≤ 1016)
    (hpage : AllocPageOk E live (toBlockSize (smallSize n)) s s₂ b i)
    (hcalls : s'.osCalls = s₂.osCalls)
    (hw : WritesOnly [pageHeader b i, pageData b i,
      ⟨heapSlot E.heap (toSizeClass (smallSize n)), 8⟩] s₂.mem s'.mem)
    (hblock : pageBlockSize s'.mem (segmentPage b i) = toBlockSize (smallSize n))
    (hslot : slotPage E s' n = segmentPage b i)
    (hfull : pageFree s.mem (slotPage E s n) = 0) (hcalls₂ : s₂.osCalls = s.osCalls + 1)
    (hos : b = E.os s.osCalls) (hdry : QueueDry E s (toBlockSize (smallSize n)))
    (hw₂ : WritesOnly [segmentSpan b, queueSpan E.heap] s.mem s₂.mem)
    (hnew : ∀ j < 32, j ≠ i → pageBlockSize s₂.mem (segmentPage b j) = 0) :
    AllocEffect E n s s' b i := by
  obtain ⟨-, hclass, -⟩ := toSizeClass_smallSize hn
  have hobt := hpage.obtained
  have hi := hpage.lt
  have hnot : ¬ E.Obtained s.osCalls b := by
    rw [hos]
    exact E.not_obtained (hos ▸ hobt.1)
  refine ⟨hcalls ▸ hobt, hi, hblock, hslot, fun b' hb' j hj hne => ?_, fun c hc hne => ?_,
    Or.inr ⟨hcalls.trans hcalls₂, hos, ?_, hdry, hfull, fun j hj hne => ?_⟩⟩
  · have hbb : b' ≠ b := fun heq => hnot (heq ▸ hb')
    refine PageSame.trans (pageSame_of_writes hw₂ ?_)
      (pageSame_of_page_slot hobt hb' hi hj hne hclass hw)
    simp only [List.forall_mem_cons, List.not_mem_nil, false_implies, implies_true, and_true]
    exact ⟨header_apart_of_segment hj (hb'.isSegment.apart hobt.isSegment hbb),
      header_apart_of_segment hj (apart_slots_of_heap hb'.heapApart).2⟩
  · refine (slots_of_page_slot hobt hi hc hne hw).trans (slots_of_writes hw₂ ?_)
    simp only [List.forall_mem_cons, List.not_mem_nil, false_implies, implies_true, and_true]
    exact ⟨apart_slot_of_slots hc (apart_slots_of_heap hobt.heapApart).1,
      apart_slot_of_slots hc queue_apart_slots⟩
  · exact queueHolds_of_page_slot hpage.queue (fun _ => hobt) hobt hi hclass hw
  · have hsame := pageSame_of_page_slot hobt hobt hi hj (fun heq => hne (Prod.mk.inj heq).2.symm)
      hclass hw
    exact hsame.1.trans (hnew j hj hne)

theorem AllocOk.effect (h : HeapInv E s live) (hn : n ≤ 1016)
    (hok : AllocOk E fuel live n s s' x b i) : AllocEffect E n s s' b i := by
  obtain ⟨-, hclass, -⟩ := toSizeClass_smallSize hn
  obtain ⟨s₁, -, hpage, hcalls, hw₁⟩ := hok.source
  have hi := hpage.lt
  have hobt : E.Obtained s'.osCalls b := hcalls ▸ hpage.obtained
  have hblock : pageBlockSize s'.mem (segmentPage b i) = toBlockSize (smallSize n) := by
    obtain ⟨size, fl, hp, hsizes⟩ := hok.inv.page b hobt i hi
    rw [hp.blockSize]
    exact (hsizes _ List.mem_cons_self rfl).symm
  -- the block is taken: the header of the page only
  have hslot : slotPage E s' n = segmentPage b i := by
    refine (slots_of_writes hw₁ ?_).trans hpage.slot
    have hheap := page_apart_of_segment hi hobt.heapApart
    simp only [List.mem_singleton, forall_eq]
    exact apart_slot_of_slots hclass (apart_slots_of_heap (hheap _ List.mem_cons_self)).1
  rcases hpage.source with rfl | ⟨hfull, s₂, hpage₂, rfl⟩
  · -- the page was in the slot
    exact h.effect_of_page_slot hn hpage.obtained hi hcalls (hw₁.mono (by simp)) hblock hslot
      (Or.inl hpage.slot)
  · have hstore : WritesOnly [⟨heapSlot E.heap (toSizeClass (smallSize n)), 8⟩] s₂.mem
        (store s₂.mem (heapSlot E.heap (toSizeClass (smallSize n))) 8 (segmentPage b i)) :=
      (WritesOnly.refl _ _).store (List.mem_singleton_self _) le_rfl le_rfl
    have hafter : WritesOnly [pageHeader b i, pageData b i,
        ⟨heapSlot E.heap (toSizeClass (smallSize n)), 8⟩] s₂.mem s'.mem :=
      (hstore.mono (by simp)).trans (hw₁.mono (by simp))
    rcases hpage₂.source with ⟨hcalls₂, hqb, hw₂⟩ | ⟨hcalls₂, hos, hdry, hw₂, hnew⟩
    · -- the page was found in the segment of the queue
      exact h.effect_of_page_slot hn (hcalls₂ ▸ hpage₂.obtained) hi (hcalls.trans hcalls₂)
        ((hw₂.mono (by simp)).trans hafter) hblock hslot (Or.inr ⟨hfull, hqb⟩)
    · exact hpage₂.effect_of_new hn hcalls hafter hblock hslot hfull hcalls₂ hos hdry hw₂ hnew

theorem FreeOk.slots {o : MallocObj} (h : FreeOk E live o s s' b i) (hc : c < numSizeClasses) :
    load s'.mem (heapSlot E.heap c) 8 = load s.mem (heapSlot E.heap c) 8 :=
  slots_of_writes h.writes fun d hd => apart_slot_of_slots hc
    (apart_slots_of_heap (page_apart_of_segment h.lt h.obtained.heapApart d hd)).1

theorem FreeOk.queue {o : MallocObj} {q : ℕ} (h : FreeOk E live o s s' b i)
    (hq : QueueHolds s.mem E.heap q) (hobt : q ≠ 0 → E.Obtained s.osCalls q) :
    QueueHolds s'.mem E.heap q :=
  queueHolds_of_page_slot (c := 0) hq hobt h.obtained h.lt (by decide) (h.writes.mono (by simp))

end Manticore
