import Manticore.Usr.MallocSegment

/-!
# The user-space heap: allocation and freeing

The heap slots, the queue and all page headers are consistent with each other, and stay so
through `malloc_heap_alloc` and `malloc_heap_free`.
-/

namespace Manticore

/-- The static data of `malloc.c` and the answers of `malloc_os_alloc`, each of them null or
a region of its own.  The regions come zeroed, which `malloc.c` counts on. -/
structure HeapEnv where
  os : MallocOs
  zeroFilled : ∀ n i, os.byte n i = 0
  heap : ℕ
  emptyPage : ℕ
  emptyPage_lt : emptyPage < 2 ^ 64
  segment : ∀ n, os n ≠ 0 → IsSegment (os n)
  fresh : ∀ n k, os n ≠ 0 → os n = os k → n = k
  heapApart : ∀ n, os n ≠ 0 → (segmentSpan (os n)).Apart (heapSpan heap)
  emptyApart : ∀ n, os n ≠ 0 → (segmentSpan (os n)).Apart ⟨emptyPage, sizeofMallocPage⟩
  static : (heapSpan heap).Apart ⟨emptyPage, sizeofMallocPage⟩

/-- A block in use: its address, the size that was asked for, and the page it was carved
from. -/
structure MallocObj where
  ptr : ℕ
  size : ℕ
  page : ℕ
deriving DecidableEq, Repr

/-- What is in use from one page. -/
def handedOut (live : List MallocObj) (page : ℕ) : List ℕ :=
  (live.filter (·.page = page)).map (·.ptr)

/-- The segment at `b` is among the first `k` answers. -/
def HeapEnv.Obtained (E : HeapEnv) (k b : ℕ) : Prop := b ≠ 0 ∧ ∃ n < k, E.os n = b

/-- Page `i` of the segment at `b`, and that what is in use from it has its block size. -/
def HeapPage (m : Mem) (live : List MallocObj) (b i : ℕ) : Prop :=
  ∃ size fl, PageOk m b i (handedOut live (segmentPage b i)) size fl ∧
    ∀ o ∈ live, o.page = segmentPage b i → toBlockSize (smallSize o.size) = size

/-- All segments obtained so far. -/
structure PagesInv (E : HeapEnv) (s : UserMem) (live : List MallocObj) : Prop where
  page : ∀ b, E.Obtained s.osCalls b → ∀ i < 32, HeapPage s.mem live b i
  nrPages : ∀ b, E.Obtained s.osCalls b → segmentNrPages s.mem b = 32
  owned : ∀ o ∈ live, ∃ b, E.Obtained s.osCalls b ∧ ∃ i < 32, o.page = segmentPage b i
  small : ∀ o ∈ live, o.size ≤ 1016
  empty : pageFree s.mem E.emptyPage = 0

/-- The page `p` may stand in slot `c` of the heap. -/
def SlotOk (E : HeapEnv) (s : UserMem) (c p : ℕ) : Prop :=
  p = E.emptyPage ∨ 0 < c ∧ ∃ b, E.Obtained s.osCalls b ∧ ∃ i < 32, p = segmentPage b i ∧
    pageBlockSize s.mem p = 8 * c

/-- **The invariant of the heap.** -/
structure HeapInv (E : HeapEnv) (s : UserMem) (live : List MallocObj) : Prop
    extends PagesInv E s live where
  slot : ∀ c < numSizeClasses, SlotOk E s c (load s.mem (heapSlot E.heap c) 8)
  queue : ∃ b, QueueHolds s.mem E.heap b ∧ (b ≠ 0 → E.Obtained s.osCalls b)

variable {E : HeapEnv} {s s' : UserMem} {live live' : List MallocObj} {o : MallocObj}
  {b b' i j k c n p x fuel size : ℕ} {m m' : Mem} {w : List Span}

/-! ## Segments, pages and static data are apart -/

theorem HeapEnv.Obtained.isSegment (h : E.Obtained k b) : IsSegment b := by
  obtain ⟨hne, n, -, rfl⟩ := h
  exact E.segment n hne

theorem HeapEnv.Obtained.heapApart (h : E.Obtained k b) :
    (segmentSpan b).Apart (heapSpan E.heap) := by
  obtain ⟨hne, n, -, rfl⟩ := h
  exact E.heapApart n hne

theorem HeapEnv.Obtained.emptyApart (h : E.Obtained k b) :
    (segmentSpan b).Apart ⟨E.emptyPage, sizeofMallocPage⟩ := by
  obtain ⟨hne, n, -, rfl⟩ := h
  exact E.emptyApart n hne

theorem HeapEnv.Obtained.succ (h : E.Obtained k b) : E.Obtained (k + 1) b := by
  obtain ⟨hne, n, hn, rfl⟩ := h
  exact ⟨hne, n, Nat.lt_succ_of_lt hn, rfl⟩

theorem HeapEnv.obtained_succ : E.Obtained (k + 1) b ↔ E.Obtained k b ∨ (b ≠ 0 ∧ E.os k = b) := by
  constructor
  · rintro ⟨hne, n, hn, rfl⟩
    rcases Nat.lt_succ_iff_lt_or_eq.mp hn with hlt | rfl
    · exact Or.inl ⟨hne, n, hlt, rfl⟩
    · exact Or.inr ⟨hne, rfl⟩
  · rintro (h | ⟨hne, rfl⟩)
    · exact h.succ
    · exact ⟨hne, k, Nat.lt_succ_self k, rfl⟩

theorem HeapEnv.not_obtained (h : E.os k ≠ 0) : ¬ E.Obtained k (E.os k) := by
  rintro ⟨-, n, hn, heq⟩
  have := E.fresh k n h heq.symm
  omega

theorem page_in_segment (b : ℕ) (hi : i < 32) : ∀ d ∈ [pageHeader b i, pageData b i],
    b + 24 ≤ d.base ∧ d.base + d.size ≤ b + mallocSegmentSize := by
  have hh := pageHeader_bounds b hi
  have hd := pageData_bounds b i
  simp only [List.mem_cons, List.not_mem_nil, or_false, forall_eq_or_imp, forall_eq]
  simp only [metadataSize, sizeofMallocSegment, sizeofMallocPage, mallocPageSize,
    mallocSegmentSize] at *
  omega

theorem page_apart_of_segment {d : Span} (hi : i < 32) (h : (segmentSpan b).Apart d) :
    ∀ e ∈ [pageHeader b i, pageData b i], e.Apart d := by
  intro e he
  have hin := page_in_segment b hi e he
  simp only [Span.Apart, segmentSpan] at *
  omega

theorem segmentPage_inj (hb : IsSegment b) (hb' : IsSegment b') (hi : i < 32) (hj : j < 32)
    (h : segmentPage b i = segmentPage b' j) : b = b' ∧ i = j := by
  by_contra hne
  have hapart := page_apart hb hb' hi hj (fun heq => hne (Prod.mk.inj heq)) (pageHeader b i)
    (by simp) (pageHeader b' j) (by simp)
  simp only [Span.Apart, pageHeader, h, sizeofMallocPage] at hapart
  omega

theorem page_apart_links (hb : IsSegment b) (hb' : IsSegment b') (hi : i < 32) :
    ∀ d ∈ [pageHeader b i, pageData b i], d.Apart ⟨b', 24⟩ := by
  intro d hd
  have hin := page_in_segment b hi d hd
  have hseg : b ≠ b' → b + 0x200000 ≤ b' ∨ b' + 0x200000 ≤ b := hb.apart hb'
  simp only [Span.Apart, mallocSegmentSize] at *
  omega

theorem slot_in_heap (hc : c < numSizeClasses) :
    (heapSpan E.heap).base ≤ heapSlot E.heap c ∧
      heapSlot E.heap c + 8 ≤ (heapSpan E.heap).base + (heapSpan E.heap).size := by
  simp only [numSizeClasses_eq, heapSpan, heapSlot, heapSpan_size] at *
  omega

/-- The page pointers of the heap structure. -/
def slotsSpan (heap : ℕ) : Span := ⟨heap, 8 * numSizeClasses⟩

theorem apart_slots_of_heap {d : Span} (h : d.Apart (heapSpan E.heap)) :
    d.Apart (slotsSpan E.heap) ∧ d.Apart (queueSpan E.heap) := by
  simp only [Span.Apart, heapSpan, slotsSpan, queueSpan, heapQueueHead, heapSpan_size,
    numSizeClasses_eq] at *
  omega

theorem queue_apart_slots : (queueSpan E.heap).Apart (slotsSpan E.heap) := by
  simp only [Span.Apart, slotsSpan, queueSpan, heapQueueHead, numSizeClasses_eq]
  omega

theorem apart_empty_of_heap {d : Span} (hlo : E.heap ≤ d.base)
    (hhi : d.base + d.size ≤ E.heap + sizeofMallocHeap) :
    d.Apart ⟨E.emptyPage, sizeofMallocPage⟩ := by
  have h := E.static
  simp only [Span.Apart, heapSpan] at *
  omega

theorem HeapEnv.Obtained.apart_of_heap (h : E.Obtained k b) {d : Span} (hlo : E.heap ≤ d.base)
    (hhi : d.base + d.size ≤ E.heap + sizeofMallocHeap) : (segmentSpan b).Apart d := by
  have hb := h.heapApart
  simp only [Span.Apart, heapSpan, segmentSpan] at *
  omega

/-! ## Frames -/

theorem PagesInv.frame (h : PagesInv E s live) (hw : WritesOnly w s.mem m')
    (hpages : ∀ b, E.Obtained s.osCalls b → ∀ i < 32, ∀ d ∈ w,
      ∀ e ∈ [pageHeader b i, pageData b i], d.Apart e)
    (hlinks : ∀ b, E.Obtained s.osCalls b → ∀ d ∈ w, d.Apart ⟨b + 16, 8⟩)
    (hempty : ∀ d ∈ w, d.Apart ⟨E.emptyPage, sizeofMallocPage⟩) :
    PagesInv E { s with mem := m' } live := by
  refine ⟨?_, ?_, h.owned, h.small, ?_⟩
  · intro b hb i hi
    obtain ⟨size, fl, hp, hsizes⟩ := h.page b hb i hi
    exact ⟨size, fl, hp.frame_apart hw (hpages b hb i hi), hsizes⟩
  · intro b hb
    exact (hw.load_eq (hlinks b hb) le_rfl le_rfl).trans (h.nrPages b hb)
  · refine (hw.load_eq hempty le_rfl ?_).trans h.empty
    simp [sizeofMallocPage]

/-- **One page changes**, and with it what is handed out from it. -/
theorem PagesInv.update (h : PagesInv E s live) (hb : E.Obtained s.osCalls b) (hi : i < 32)
    {fl : List ℕ} (hw : WritesOnly [pageHeader b i, pageData b i] s.mem m')
    (hp : PageOk m' b i (handedOut live' (segmentPage b i)) size fl)
    (hsizes : ∀ o ∈ live', o.page = segmentPage b i → toBlockSize (smallSize o.size) = size)
    (hsmall : ∀ o ∈ live', o.size ≤ 1016)
    (hothers : ∀ page, page ≠ segmentPage b i →
      live'.filter (·.page = page) = live.filter (·.page = page)) :
    PagesInv E { s with mem := m' } live' := by
  have hmem : ∀ o ∈ live', o.page ≠ segmentPage b i → o ∈ live := by
    intro o ho hne
    have hfilter : o ∈ live'.filter (·.page = o.page) := List.mem_filter.mpr ⟨ho, by simp⟩
    rw [hothers _ hne] at hfilter
    exact (List.mem_filter.mp hfilter).1
  have hbseg := hb.isSegment
  refine ⟨?_, ?_, ?_, hsmall, ?_⟩
  · intro b' hb' j hj
    by_cases hsame : (b, i) = (b', j)
    · obtain ⟨rfl, rfl⟩ := Prod.mk.inj hsame
      exact ⟨size, fl, hp, hsizes⟩
    · have hne : segmentPage b' j ≠ segmentPage b i := by
        intro heq
        obtain ⟨rfl, rfl⟩ := segmentPage_inj hb'.isSegment hbseg hj hi heq
        exact hsame rfl
      obtain ⟨size', fl', hp', hsizes'⟩ := h.page b' hb' j hj
      refine ⟨size', fl', ?_, fun o ho hpage => hsizes' o (hmem o ho (hpage ▸ hne)) hpage⟩
      rw [handedOut, hothers _ hne]
      exact hp'.frame_apart hw (page_apart hbseg hb'.isSegment hi hj hsame)
  · intro b' hb'
    refine (hw.load_eq (d := ⟨b' + 16, 8⟩) ?_ le_rfl le_rfl).trans (h.nrPages b' hb')
    intro d hd
    have hlinks := page_apart_links hbseg hb'.isSegment hi d hd
    simp only [Span.Apart] at hlinks ⊢
    omega
  · intro o ho
    by_cases hpage : o.page = segmentPage b i
    · exact ⟨b, hb, i, hi, hpage⟩
    · exact h.owned o (hmem o ho hpage)
  · refine (hw.load_eq (page_apart_of_segment hi hb.emptyApart) le_rfl ?_).trans h.empty
    simp [sizeofMallocPage]

/-- A claimed page keeps its block size, and segments are only added. -/
structure KeepsClaims (E : HeapEnv) (s s' : UserMem) : Prop where
  calls : s.osCalls ≤ s'.osCalls
  blockSize : ∀ b, E.Obtained s.osCalls b → ∀ i < 32,
    pageBlockSize s.mem (segmentPage b i) ≠ 0 →
      pageBlockSize s'.mem (segmentPage b i) = pageBlockSize s.mem (segmentPage b i)

theorem HeapEnv.Obtained.mono (h : E.Obtained k b) {k' : ℕ} (hle : k ≤ k') : E.Obtained k' b := by
  obtain ⟨hne, n, hn, rfl⟩ := h
  exact ⟨hne, n, lt_of_lt_of_le hn hle, rfl⟩

theorem SlotOk.keep (h : SlotOk E s c p) (hkeep : KeepsClaims E s s') : SlotOk E s' c p := by
  rcases h with rfl | ⟨hc, b, hb, i, hi, rfl, hsize⟩
  · exact Or.inl rfl
  · refine Or.inr ⟨hc, b, hb.mono hkeep.calls, i, hi, rfl, ?_⟩
    rw [hkeep.blockSize b hb i hi (by omega)]
    exact hsize

theorem HeapInv.rebuild (h : HeapInv E s live) (hp : PagesInv E s' live')
    (hw : WritesOnly w s.mem s'.mem) (hslots : ∀ d ∈ w, d.Apart (slotsSpan E.heap))
    (hkeep : KeepsClaims E s s')
    (hq : ∃ b, QueueHolds s'.mem E.heap b ∧ (b ≠ 0 → E.Obtained s'.osCalls b)) :
    HeapInv E s' live' := by
  refine ⟨hp, fun c hc => ?_, hq⟩
  rw [hw.load_eq hslots]
  · exact (h.slot c hc).keep hkeep
  · simp [slotsSpan, heapSlot]
  · simp only [slotsSpan, heapSlot]
    omega

theorem keepsClaims_of_page (hb : E.Obtained s.osCalls b) (hi : i < 32)
    (hw : WritesOnly [pageHeader b i, pageData b i] s.mem m')
    (hsame : pageBlockSize s.mem (segmentPage b i) ≠ 0 →
      pageBlockSize m' (segmentPage b i) = pageBlockSize s.mem (segmentPage b i)) :
    KeepsClaims E s { s with mem := m' } := by
  refine ⟨le_rfl, fun b' hb' j hj hne => ?_⟩
  by_cases hpair : (b, i) = (b', j)
  · obtain ⟨rfl, rfl⟩ := Prod.mk.inj hpair
    exact hsame hne
  · refine hw.load_eq (fun d hd => page_apart hb.isSegment hb'.isSegment hi hj hpair d hd
      (pageHeader b' j) (by simp)) ?_ ?_ <;> simp [pageHeader, sizeofMallocPage]

/-- **One page of the heap changes.** -/
theorem HeapInv.update (h : HeapInv E s live) (hb : E.Obtained s.osCalls b) (hi : i < 32)
    {fl : List ℕ} (hw : WritesOnly [pageHeader b i, pageData b i] s.mem m')
    (hp : PageOk m' b i (handedOut live' (segmentPage b i)) size fl)
    (hkeep : pageBlockSize s.mem (segmentPage b i) ≠ 0 →
      pageBlockSize s.mem (segmentPage b i) = size)
    (hsizes : ∀ o ∈ live', o.page = segmentPage b i → toBlockSize (smallSize o.size) = size)
    (hsmall : ∀ o ∈ live', o.size ≤ 1016)
    (hothers : ∀ page, page ≠ segmentPage b i →
      live'.filter (·.page = page) = live.filter (·.page = page)) :
    HeapInv E { s with mem := m' } live' := by
  have hheap := page_apart_of_segment hi hb.heapApart
  refine h.rebuild (h.toPagesInv.update hb hi hw hp hsizes hsmall hothers) hw
    (fun d hd => (apart_slots_of_heap (hheap d hd)).1)
    (keepsClaims_of_page hb hi hw fun hne => hp.blockSize.trans (hkeep hne).symm) ?_
  obtain ⟨q, hq, hobt⟩ := h.queue
  refine ⟨q, hq.frame hw (fun d hd => (apart_slots_of_heap (hheap d hd)).2) ?_, hobt⟩
  intro hne d hd
  have hlinks := page_apart_links hb.isSegment (hobt hne).isSegment hi d hd
  simp only [Span.Apart] at hlinks ⊢
  omega

/-! ## Segments -/

theorem handedOut_of_not_obtained (h : PagesInv E s live) (hnew : ¬ E.Obtained s.osCalls b)
    (hb : IsSegment b) (hi : i < 32) : handedOut live (segmentPage b i) = [] := by
  refine List.map_eq_nil_iff.mpr (List.filter_eq_nil_iff.mpr fun o ho hpage => ?_)
  obtain ⟨b', hb', j, hj, heq⟩ := h.owned o ho
  rw [decide_eq_true_eq, heq] at hpage
  exact hnew ((segmentPage_inj hb'.isSegment hb hj hi hpage).1 ▸ hb')

/-- **A new segment** joins the heap with all its pages unclaimed. -/
theorem PagesInv.newSegment (h : PagesInv E s live) (hne : E.os s.osCalls ≠ 0)
    (hw : WritesOnly [segmentSpan (E.os s.osCalls)] s.mem m')
    (hnew : SegmentNew m' (E.os s.osCalls)) :
    PagesInv E ⟨m', s.osCalls + 1⟩ live := by
  have hseg := E.segment _ hne
  have hnot := E.not_obtained hne
  have hapart : ∀ b, E.Obtained s.osCalls b →
      (segmentSpan (E.os s.osCalls)).Apart (segmentSpan b) := fun b hb =>
    hseg.apart hb.isSegment fun heq => hnot (heq ▸ hb)
  have hold := h.frame hw
    (fun b hb i hi d hd e he => by
      rw [List.mem_singleton.mp hd]
      exact (page_apart_of_segment hi (hapart b hb).symm e he).symm)
    (fun b hb d hd => by
      rw [List.mem_singleton.mp hd]
      have := hapart b hb
      simp only [Span.Apart, segmentSpan, mallocSegmentSize] at this ⊢
      omega)
    (fun d hd => by
      rw [List.mem_singleton.mp hd]
      exact E.emptyApart _ hne)
  refine ⟨?_, ?_, ?_, h.small, hold.empty⟩
  · intro b hb i hi
    rcases HeapEnv.obtained_succ.mp hb with hb | ⟨-, rfl⟩
    · exact hold.page b hb i hi
    · refine ⟨0, [], ?_, fun o ho hpage => ?_⟩
      · rw [handedOut_of_not_obtained h hnot hseg hi]
        exact hnew.page i hi
      · obtain ⟨b', hb', j, hj, heq⟩ := h.owned o ho
        rw [heq] at hpage
        exact absurd ((segmentPage_inj hb'.isSegment hseg hj hi hpage).1 ▸ hb') hnot
  · intro b hb
    rcases HeapEnv.obtained_succ.mp hb with hb | ⟨-, rfl⟩
    · exact hold.nrPages b hb
    · exact hnew.nrPages
  · intro o ho
    obtain ⟨b, hb, i, hi, heq⟩ := h.owned o ho
    exact ⟨b, hb.succ, i, hi, heq⟩

theorem HeapEnv.obtained_succ_of_null (h : E.os k = 0) : E.Obtained (k + 1) b ↔ E.Obtained k b := by
  rw [HeapEnv.obtained_succ]
  exact ⟨fun hor => hor.elim id fun hb => absurd (hb.2.symm.trans h) hb.1, Or.inl⟩

theorem HeapInv.noAnswer (h : HeapInv E s live) (hnull : E.os s.osCalls = 0) :
    HeapInv E { s with osCalls := s.osCalls + 1 } live := by
  have hiff : ∀ b, E.Obtained (s.osCalls + 1) b ↔ E.Obtained s.osCalls b := fun b =>
    HeapEnv.obtained_succ_of_null hnull
  refine ⟨⟨fun b hb => h.page b ((hiff b).mp hb), fun b hb => h.nrPages b ((hiff b).mp hb), ?_,
    h.small, h.empty⟩, ?_, ?_⟩
  · intro o ho
    obtain ⟨b, hb, hpage⟩ := h.owned o ho
    exact ⟨b, (hiff b).mpr hb, hpage⟩
  · exact fun c hc => (h.slot c hc).keep ⟨Nat.le_succ _, fun _ _ _ _ _ => rfl⟩
  · obtain ⟨q, hq, hobt⟩ := h.queue
    exact ⟨q, hq, fun hne => (hiff q).mpr (hobt hne)⟩

theorem PagesInv.frameQueue (h : PagesInv E s live) (hb : b ≠ 0 → E.Obtained s.osCalls b)
    (hw : WritesOnly (queueSpan E.heap :: if b = 0 then [] else [⟨b, 16⟩]) s.mem m') :
    PagesInv E { s with mem := m' } live := by
  have hqin : E.heap ≤ (queueSpan E.heap).base ∧ (queueSpan E.heap).base +
      (queueSpan E.heap).size ≤ E.heap + sizeofMallocHeap := by
    simp only [queueSpan, heapQueueHead, heapSpan_size, numSizeClasses_eq]
    omega
  have hcases : ∀ d ∈ queueSpan E.heap :: (if b = 0 then [] else [⟨b, 16⟩]),
      d = queueSpan E.heap ∨ (b ≠ 0 ∧ d = ⟨b, 16⟩) := by
    intro d hd
    rcases List.mem_cons.mp hd with rfl | hd
    · exact Or.inl rfl
    · split at hd
      · exact absurd hd List.not_mem_nil
      · next hne => exact Or.inr ⟨hne, List.mem_singleton.mp hd⟩
  refine h.frame hw ?_ ?_ ?_
  · intro b' hb' i hi d hd e he
    rcases hcases d hd with rfl | ⟨hne, rfl⟩
    · exact (page_apart_of_segment hi (hb'.apart_of_heap hqin.1 hqin.2) e he).symm
    · have hlinks := page_apart_links hb'.isSegment (hb hne).isSegment hi e he
      simp only [Span.Apart] at hlinks ⊢
      omega
  · intro b' hb' d hd
    rcases hcases d hd with rfl | ⟨hne, rfl⟩
    · have := hb'.apart_of_heap hqin.1 hqin.2
      simp only [Span.Apart, segmentSpan, mallocSegmentSize] at this ⊢
      omega
    · have hseg : b ≠ b' → b + 0x200000 ≤ b' ∨ b' + 0x200000 ≤ b :=
        (hb hne).isSegment.apart hb'.isSegment
      simp only [Span.Apart]
      omega
  · intro d hd
    rcases hcases d hd with rfl | ⟨hne, rfl⟩
    · exact apart_empty_of_heap hqin.1 hqin.2
    · have := (hb hne).emptyApart
      simp only [Span.Apart, segmentSpan, mallocSegmentSize] at this ⊢
      omega

theorem mallocHeapAllocSegment_spec (s : UserMem) (hne : E.os s.osCalls ≠ 0) :
    ∃ m', mallocHeapAllocSegment E.os s = (E.os s.osCalls, ⟨m', s.osCalls + 1⟩) ∧
      WritesOnly [segmentSpan (E.os s.osCalls)] s.mem m' ∧ SegmentNew m' (E.os s.osCalls) := by
  obtain ⟨hinit, hnew⟩ := mallocSegmentInit_spec (b := E.os s.osCalls)
    (m := memset s.mem (E.os s.osCalls) 0 mallocSegmentSize)
    fun x n hlo hhi => load_memset_zero hlo hhi
  have hzero : memcpy s.mem (E.os s.osCalls) (E.os.byte s.osCalls) mallocSegmentSize =
      memset s.mem (E.os s.osCalls) 0 mallocSegmentSize := by
    funext x
    simp only [memcpy, memset, E.zeroFilled]
  refine ⟨_, by simp only [mallocHeapAllocSegment, if_neg hne, hzero], ?_, hnew⟩
  have hset : WritesOnly [segmentSpan (E.os s.osCalls)] s.mem
      (memset s.mem (E.os s.osCalls) 0 mallocSegmentSize) := by
    intro x hx
    refine memset_of_disjoint ?_
    by_contra hc
    exact hx ⟨_, List.mem_singleton_self _, by simp only [segmentSpan]; omega,
      by simp only [segmentSpan]; omega⟩
  refine hset.trans (hinit.widen fun d hd => ⟨_, List.mem_singleton_self _, ?_⟩)
  rw [List.mem_singleton.mp hd]
  simp [segmentSpan, metadataSize, sizeofMallocSegment, sizeofMallocPage, mallocSegmentSize]

theorem blockSize_kept (hw : WritesOnly w m m') (hd : ∀ d ∈ w, d.Apart (pageHeader b i)) :
    pageBlockSize m' (segmentPage b i) = pageBlockSize m (segmentPage b i) := by
  refine hw.load_eq hd ?_ ?_ <;> simp [pageHeader, sizeofMallocPage]

theorem header_apart_of_segment {d : Span} (hi : i < 32) (h : (segmentSpan b).Apart d) :
    d.Apart (pageHeader b i) :=
  (page_apart_of_segment hi h _ List.mem_cons_self).symm

/-- **A new segment** enters the empty queue. -/
theorem HeapInv.enqueueNew (h : HeapInv E s live) (hq : QueueHolds s.mem E.heap 0)
    (hne : E.os s.osCalls ≠ 0) (hw₁ : WritesOnly [segmentSpan (E.os s.osCalls)] s.mem m)
    (hnew : SegmentNew m (E.os s.osCalls))
    (hm' : mallocSegmentQueueEnqueue m E.heap (E.os s.osCalls) = m') :
    HeapInv E ⟨m', s.osCalls + 1⟩ live ∧ QueueHolds m' E.heap (E.os s.osCalls) ∧
      WritesOnly [segmentSpan (E.os s.osCalls), queueSpan E.heap] s.mem m' ∧
      ∀ i < 32, pageBlockSize m' (segmentPage (E.os s.osCalls) i) = 0 := by
  have hself : E.Obtained (s.osCalls + 1) (E.os s.osCalls) := ⟨hne, _, Nat.lt_succ_self _, rfl⟩
  have hqueue := (apart_slots_of_heap hself.heapApart).2
  have hq₁ : QueueHolds m E.heap 0 := by
    refine hq.frame hw₁ (fun d hd => ?_) fun h0 => absurd rfl h0
    rw [List.mem_singleton.mp hd]
    exact hqueue
  obtain ⟨hq₂, hw₂⟩ := mallocSegmentQueueEnqueue_spec hq₁ hself.isSegment hself.heapApart
  rw [hm'] at hq₂ hw₂
  have hpages₁ : PagesInv E ⟨m, s.osCalls + 1⟩ live := h.toPagesInv.newSegment hne hw₁ hnew
  have hpages₂ : PagesInv E ⟨m', s.osCalls + 1⟩ live := by
    refine hpages₁.frameQueue (b := E.os s.osCalls) (fun _ => hself) ?_
    rw [if_neg hne]
    exact hw₂.mono fun d hd => by simpa [or_comm] using hd
  have hw : WritesOnly [segmentSpan (E.os s.osCalls), queueSpan E.heap] s.mem m' := by
    refine (hw₁.mono (by simp)).trans (hw₂.widen ?_)
    intro d hd
    rcases List.mem_cons.mp hd with rfl | hd
    · exact ⟨_, List.mem_cons_self, le_rfl, by simp [segmentSpan, mallocSegmentSize]⟩
    · exact ⟨d, List.mem_cons_of_mem _ hd, le_rfl, le_rfl⟩
  refine ⟨?_, hq₂, hw, fun i hi => ?_⟩
  · refine h.rebuild hpages₂ hw ?_ ⟨Nat.le_succ _, fun b hb i hi _ => ?_⟩ ⟨_, hq₂, fun _ => hself⟩
    · simp only [List.forall_mem_cons, List.not_mem_nil, false_implies, implies_true, and_true]
      exact ⟨(apart_slots_of_heap hself.heapApart).1, queue_apart_slots⟩
    · refine blockSize_kept hw ?_
      have hbne : b ≠ E.os s.osCalls := fun heq => E.not_obtained hne (heq ▸ hb)
      simp only [List.forall_mem_cons, List.not_mem_nil, false_implies, implies_true, and_true]
      exact ⟨header_apart_of_segment hi (hb.isSegment.apart hself.isSegment hbne),
        header_apart_of_segment hi (apart_slots_of_heap hb.heapApart).2⟩
  · refine (blockSize_kept hw₂ ?_).trans (hnew.page i hi).blockSize
    simp only [List.forall_mem_cons, List.not_mem_nil, false_implies, implies_true, and_true]
    refine ⟨?_, header_apart_of_segment hi hqueue⟩
    have hhdr := (pageHeader_bounds (E.os s.osCalls) hi).1
    simp only [Span.Apart]
    omega

/-- **The segment to look in**: the one in the queue, or a new one. -/
theorem HeapInv.getSegment (h : HeapInv E s live) :
    (∃ b, b ≠ 0 ∧ QueueHolds s.mem E.heap b ∧ E.Obtained s.osCalls b ∧
      mallocHeapGetSegment E.os E.heap s = (b, s)) ∨
    (QueueHolds s.mem E.heap 0 ∧ E.os s.osCalls = 0 ∧
      mallocHeapGetSegment E.os E.heap s = (0, { s with osCalls := s.osCalls + 1 })) ∨
    (QueueHolds s.mem E.heap 0 ∧ E.os s.osCalls ≠ 0 ∧ ∃ m',
      mallocHeapGetSegment E.os E.heap s = (E.os s.osCalls, ⟨m', s.osCalls + 1⟩) ∧
      HeapInv E ⟨m', s.osCalls + 1⟩ live ∧ QueueHolds m' E.heap (E.os s.osCalls) ∧
      WritesOnly [segmentSpan (E.os s.osCalls), queueSpan E.heap] s.mem m' ∧
      ∀ i < 32, pageBlockSize m' (segmentPage (E.os s.osCalls) i) = 0) := by
  obtain ⟨b, hq, hobt⟩ := h.queue
  by_cases hb : b = 0
  · subst hb
    by_cases hnull : E.os s.osCalls = 0
    · refine Or.inr (Or.inl ⟨hq, hnull, ?_⟩)
      simp only [mallocHeapGetSegment, hq.head, if_true, mallocHeapAllocSegment, hnull]
    · obtain ⟨m₁, hseg, hw₁, hnew⟩ := mallocHeapAllocSegment_spec s hnull
      refine Or.inr (Or.inr ⟨hq, hnull, _, ?_, h.enqueueNew hq hnull hw₁ hnew rfl⟩)
      simp only [mallocHeapGetSegment, hq.head, if_true, hseg, if_neg hnull]
  · refine Or.inl ⟨b, hb, hq, hobt hb, ?_⟩
    simp only [mallocHeapGetSegment, hq.head, if_neg hb]

theorem HeapInv.pop (h : HeapInv E s live) (hq : QueueHolds s.mem E.heap b) (hb : b ≠ 0)
    (hobt : E.Obtained s.osCalls b) (hm' : mallocSegmentQueuePop s.mem E.heap = m') :
    HeapInv E { s with mem := m' } live ∧ QueueHolds m' E.heap 0 ∧
      WritesOnly [queueSpan E.heap] s.mem m' := by
  obtain ⟨hq', hw⟩ := mallocSegmentQueuePop_spec hq hb hobt.heapApart
  rw [hm'] at hq' hw
  refine ⟨h.rebuild ?_ hw ?_ ⟨le_rfl, fun b hb i hi _ => ?_⟩ ⟨0, hq', fun h0 => absurd rfl h0⟩,
    hq', hw⟩
  · exact h.toPagesInv.frameQueue (b := 0) (fun h0 => absurd rfl h0) hw
  · simp only [List.forall_mem_cons, List.not_mem_nil, false_implies, implies_true, and_true]
    exact queue_apart_slots
  · refine blockSize_kept hw ?_
    simp only [List.forall_mem_cons, List.not_mem_nil, false_implies, implies_true, and_true]
    exact header_apart_of_segment hi (apart_slots_of_heap hb.heapApart).2

/-! ## Pages -/

/-- Page `i` of the segment at `b` can give a block of `size` bytes. -/
def PageReady (m : Mem) (live : List MallocObj) (b i size : ℕ) : Prop :=
  ∃ x fl, PageOk m b i (handedOut live (segmentPage b i)) size (x :: fl)

theorem HeapPage.sizes {live₁ fl : List ℕ} (h : HeapPage m live b i)
    (hp : PageOk m b i live₁ size fl) :
    ∀ o ∈ live, o.page = segmentPage b i → toBlockSize (smallSize o.size) = size := by
  obtain ⟨size', fl', hp', hsizes⟩ := h
  rw [← hp.blockSize, hp'.blockSize]
  exact hsizes

theorem HeapInv.segmentOk (h : HeapInv E s live) (hb : E.Obtained s.osCalls b) :
    SegmentOk s.mem b fun i => handedOut live (segmentPage b i) := by
  refine ⟨h.nrPages b hb, fun i hi => ?_⟩
  obtain ⟨size, fl, hp, -⟩ := h.page b hb i hi
  exact ⟨size, fl, hp⟩

/-- **The search through the pages of a segment.** -/
theorem HeapInv.findPage (h : HeapInv E s live) (hb : E.Obtained s.osCalls b)
    (hsize : IsBlockSize size) :
    (mallocSegmentFindPage b size (List.range (segmentNrPages s.mem b)) s.mem = some (0, s.mem) ∧
      ∀ i < 32, Exhausted s.mem b i size) ∨
    ∃ i < 32, ∃ m', mallocSegmentFindPage b size (List.range (segmentNrPages s.mem b)) s.mem =
        some (segmentPage b i, m') ∧ HeapInv E { s with mem := m' } live ∧
      PageReady m' live b i size ∧ WritesOnly [pageHeader b i, pageData b i] s.mem m' := by
  rw [h.nrPages b hb]
  rcases mallocSegmentFindPage_spec hb.isSegment hsize (h.segmentOk hb) (l := List.range 32)
    fun i hi => List.mem_range.mp hi with ⟨hnone, hall⟩ | ⟨i, hi, m', hfound, hready⟩
  · exact Or.inl ⟨hnone, fun i hi => hall i (List.mem_range.mpr hi)⟩
  · have hi := List.mem_range.mp hi
    obtain ⟨x, fl, hp⟩ := hready.page
    refine Or.inr ⟨i, hi, m', hfound, ?_, ⟨x, fl, hp⟩, hready.writes⟩
    refine h.update hb hi hready.writes hp (fun hne => ?_) ?_ h.small fun _ _ => rfl
    · rw [← hready.kept hne]
      exact hp.blockSize
    · intro o ho hpage
      -- a page with something in use is claimed, and so unchanged
      obtain ⟨size', fl', hp', hsizes⟩ := h.page b hb i hi
      have hclaimed : size' ≠ 0 := by
        intro hz
        have hin : o.ptr ∈ handedOut live (segmentPage b i) :=
          List.mem_map_of_mem (List.mem_filter.mpr ⟨ho, by simpa using hpage⟩)
        rw [(hp'.unclaimed hz).2] at hin
        exact List.not_mem_nil hin
      have hkept := hready.kept (by rw [hp'.blockSize]; exact hclaimed)
      rw [hkept] at hp
      exact (h.page b hb i hi).sizes hp o ho hpage

end Manticore
