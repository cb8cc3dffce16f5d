import Manticore.Usr.MallocReuse

/-!
# The user-space heap: the last block freed

`malloc` puts the page it takes a block from into the slot of its size, and `free` puts the block at
the front of the free list of that page.  So a block that is freed at once is the next one of its
size, and a `malloc` with its `free` leaves no trace elsewhere: it writes the slot of its own size,
the queue, the header of its page, the block itself, and a page that was not in use.
-/

namespace Manticore

variable {E : HeapEnv} {fuel : ℕ} {s s' : UserMem} {live : List MallocObj} {o : MallocObj}
  {b i n p : ℕ} {m m' m'' : Mem} {w : List Span}

open HeapState (block)

/-! ## What is in use keeps its bytes -/

/-- The bytes of all blocks in use are the same. -/
def LiveKept (live : List MallocObj) (m m' : Mem) : Prop :=
  ∀ o ∈ live, ∀ x, (block o).Contains x → m' x = m x

theorem LiveKept.refl (live : List MallocObj) (m : Mem) : LiveKept live m m := fun _ _ _ _ => rfl

theorem LiveKept.trans (h : LiveKept live m m') (h' : LiveKept live m' m'') :
    LiveKept live m m'' :=
  fun o ho x hx => (h' o ho x hx).trans (h o ho x hx)

theorem liveKept_of_writes (hw : WritesOnly w m m') (hd : ∀ o ∈ live, ∀ d ∈ w, d.Apart (block o)) :
    LiveKept live m m' :=
  fun o ho _ hx => hw.eq_of_apart (hd o ho) hx

theorem PagesInv.block_in_page (h : PagesInv E s live) (ho : o ∈ live) :
    ∃ b, E.Obtained s.osCalls b ∧ ∃ i < 32, o.page = segmentPage b i ∧
      (pageData b i).base ≤ (block o).base ∧
      (block o).base + (block o).size ≤ (pageData b i).base + (pageData b i).size := by
  obtain ⟨b, hb, i, hi, hpage, hblock, -⟩ := h.block_of_live ho
  rw [← HeapState.block_size (h.small o ho)] at hblock
  exact ⟨b, hb, i, hi, hpage, block_in_data hblock⟩

theorem PagesInv.apart_block_of_segments (h : PagesInv E s live) (ho : o ∈ live) {d : Span}
    (hd : ∀ b, E.Obtained s.osCalls b → (segmentSpan b).Apart d) : d.Apart (block o) := by
  obtain ⟨b, hb, i, hi, -, hblock⟩ := h.block_in_page ho
  have hpage := page_apart_of_segment hi (hd b hb) (pageData b i) (by simp)
  simp only [Span.Apart] at hpage ⊢
  omega

theorem PagesInv.apart_block_of_page (h : PagesInv E s live) (ho : o ∈ live)
    (hb : E.Obtained s.osCalls b) (hi : i < 32) :
    (pageHeader b i).Apart (block o) ∧
      (o.page ≠ segmentPage b i → (pageData b i).Apart (block o)) := by
  obtain ⟨b', hb', i', hi', hpage, hblock⟩ := h.block_in_page ho
  by_cases hsame : (b, i) = (b', i')
  · obtain ⟨rfl, rfl⟩ := Prod.mk.inj hsame
    have hheader := header_apart_data b i hi
    refine ⟨?_, fun hne => absurd hpage hne⟩
    simp only [Span.Apart] at hheader ⊢
    omega
  · have hapart := page_apart hb.isSegment hb'.isSegment hi hi' hsame
    have hheader := hapart (pageHeader b i) (by simp) (pageData b' i') (by simp)
    have hdata := hapart (pageData b i) (by simp) (pageData b' i') (by simp)
    simp only [Span.Apart] at hheader hdata ⊢
    omega

/-! ## `malloc` -/

theorem HeapInv.findPage_kept (h : HeapInv E s live) (hb : E.Obtained s.osCalls b)
    {size : ℕ} (hsize : IsBlockSize size)
    (hfind : mallocSegmentFindPage b size (List.range (segmentNrPages s.mem b)) s.mem =
      some (p, m')) : LiveKept live s.mem m' := by
  rw [h.nrPages b hb] at hfind
  rcases mallocSegmentFindPage_spec hb.isSegment hsize (h.segmentOk hb) (l := List.range 32)
    fun i hi => List.mem_range.mp hi with ⟨hnone, -⟩ | ⟨i, hi, m₁, hfound, hready⟩
  · obtain ⟨-, rfl⟩ := Prod.mk.inj (Option.some.inj (hnone.symm.trans hfind))
    exact LiveKept.refl live _
  · obtain ⟨-, rfl⟩ := Prod.mk.inj (Option.some.inj (hfound.symm.trans hfind))
    have hi := List.mem_range.mp hi
    by_cases hz : pageBlockSize s.mem (segmentPage b i) = 0
    · -- The page was not claimed.
      refine liveKept_of_writes hready.writes fun o ho => ?_
      obtain ⟨hheader, hdata⟩ := h.toPagesInv.apart_block_of_page ho hb hi
      have hother : o.page ≠ segmentPage b i := fun hpage => by
        obtain ⟨size', fl, hp, -⟩ := h.page b hb i hi
        have hin : o.ptr ∈ handedOut live (segmentPage b i) :=
          List.mem_map_of_mem (List.mem_filter.mpr ⟨ho, by simpa using hpage⟩)
        rw [(hp.unclaimed (hp.blockSize.symm.trans hz)).2] at hin
        exact List.not_mem_nil hin
      simp only [List.forall_mem_cons, List.not_mem_nil, false_implies, implies_true, and_true]
      exact ⟨hheader, hdata hother⟩
    · rw [hready.kept hz]
      exact LiveKept.refl live _

theorem PagesInv.queue_apart_block (h : PagesInv E s live) (ho : o ∈ live) :
    (queueSpan E.heap).Apart (block o) :=
  h.apart_block_of_segments ho fun _ hb => (apart_slots_of_heap hb.heapApart).2

theorem HeapInv.searchSegment_kept (h : HeapInv E s live) (hq : QueueHolds s.mem E.heap b)
    (hb : E.Obtained s.osCalls b) (hsize : IsBlockSize (toBlockSize n))
    (ih : ∀ {s : UserMem}, HeapInv E s live →
      mallocHeapAllocPage E.os E.heap fuel s n = some (p, s') → LiveKept live s.mem s'.mem)
    (hcall : (mallocSegmentFindPage b (toBlockSize n) (List.range (segmentNrPages s.mem b))
      s.mem).bind (fun r => if r.1 ≠ 0 then some (r.1, { s with mem := r.2 })
        else mallocHeapAllocPage E.os E.heap fuel
          { s with mem := mallocSegmentQueuePop r.2 E.heap } n) = some (p, s')) :
    LiveKept live s.mem s'.mem := by
  rcases h.findPage hb hsize with ⟨hfind, -⟩ | ⟨i, hi, m₂, hfind, -⟩
  · obtain ⟨m₁, hm₁⟩ : ∃ m₁, mallocSegmentQueuePop s.mem E.heap = m₁ := ⟨_, rfl⟩
    simp only [hfind, Option.bind_some, ne_eq, not_true_eq_false, if_false, hm₁] at hcall
    obtain ⟨hinv, -, hw⟩ := h.pop hq hb.1 hb hm₁
    refine LiveKept.trans (liveKept_of_writes hw fun o ho => ?_) (ih hinv hcall)
    simp only [List.mem_singleton, forall_eq]
    exact h.toPagesInv.queue_apart_block ho
  · have hkept := h.findPage_kept hb hsize hfind
    rw [hfind, Option.bind_some, if_pos (page_ne_zero hb.isSegment)] at hcall
    obtain ⟨-, rfl⟩ := some_pair_inj hcall
    exact hkept

theorem HeapInv.allocPage_kept (h : HeapInv E s live) (hsize : IsBlockSize (toBlockSize n))
    (hcall : mallocHeapAllocPage E.os E.heap fuel s n = some (p, s')) :
    LiveKept live s.mem s'.mem := by
  induction fuel generalizing s with
  | zero => cases hcall
  | succ fuel ih =>
      rw [mallocHeapAllocPage] at hcall
      rcases h.getSegment with ⟨b, hne, hq, hb, hget⟩ | ⟨-, -, hget⟩ |
        ⟨-, hos, m₁, hget, hinv, hq, hw, -⟩
      · rw [hget] at hcall
        simp only [if_neg hne] at hcall
        exact h.searchSegment_kept hq hb hsize ih hcall
      · rw [hget] at hcall
        simp only [if_true] at hcall
        obtain ⟨-, rfl⟩ := some_pair_inj hcall
        exact LiveKept.refl live _
      · rw [hget] at hcall
        simp only [if_neg hos] at hcall
        have hobt : E.Obtained (s.osCalls + 1) (E.os s.osCalls) :=
          ⟨hos, _, Nat.lt_succ_self _, rfl⟩
        refine LiveKept.trans (liveKept_of_writes hw fun o ho => ?_)
          (hinv.searchSegment_kept hq hobt hsize ih hcall)
        simp only [List.forall_mem_cons, List.not_mem_nil, false_implies, implies_true, and_true]
        refine ⟨h.toPagesInv.apart_block_of_segments ho fun b hb => ?_,
          h.toPagesInv.queue_apart_block ho⟩
        -- The new segment is none of those that are in use.
        exact hb.isSegment.apart hobt.isSegment fun heq => E.not_obtained hos (heq ▸ hb)

theorem HeapInv.getPage_kept (h : HeapInv E s live) (hn : n ≤ 1016)
    (hcall : mallocHeapGetPage E.os E.heap fuel s (smallSize n) = some (p, s')) :
    LiveKept live s.mem s'.mem := by
  unfold mallocHeapGetPage at hcall
  dsimp only at hcall
  split at hcall
  · obtain ⟨-, rfl⟩ := some_pair_inj hcall
    exact LiveKept.refl live _
  · obtain ⟨⟨page, s₁⟩, hpage, hrest⟩ := Option.bind_eq_some_iff.mp hcall
    have hkept := h.allocPage_kept (isBlockSize_smallSize hn) hpage
    split at hrest
    · obtain ⟨-, rfl⟩ := some_pair_inj hrest
      have hin := slotSpan_in_heap (E := E) (toSizeClass_smallSize hn).2.1
      have hw : WritesOnly [⟨heapSlot E.heap (toSizeClass (smallSize n)), 8⟩] s₁.mem
          (store s₁.mem (heapSlot E.heap (toSizeClass (smallSize n))) 8 page) :=
        (WritesOnly.refl _ _).store (List.mem_singleton_self _) le_rfl le_rfl
      refine hkept.trans (liveKept_of_writes hw fun o ho => ?_)
      simp only [List.mem_singleton, forall_eq]
      exact h.toPagesInv.apart_block_of_segments ho fun b hb => hb.apart_of_heap hin.1 hin.2
    · obtain ⟨-, rfl⟩ := some_pair_inj hrest
      exact hkept

/-- **`malloc` leaves the blocks in use alone.** -/
theorem AllocOk.kept {x : ℕ} (hok : AllocOk E fuel live n s s' x b i) (h : HeapInv E s live)
    (hn : n ≤ 1016) : LiveKept live s.mem s'.mem := by
  obtain ⟨s₁, hcall, hpage, -, hw⟩ := hok.source
  refine (h.getPage_kept hn hcall).trans (liveKept_of_writes hw fun o ho => ?_)
  simp only [List.mem_singleton, forall_eq]
  exact (hpage.inv.toPagesInv.apart_block_of_page ho hpage.obtained hpage.lt).1

/-! ## `free` -/

/-- **`free` leaves the other blocks in use alone.** -/
theorem HeapInv.free_kept (h : HeapInv E s (o :: live)) (hcall : freeObj s o.ptr = some s') :
    LiveKept live s.mem s'.mem := by
  obtain ⟨m', b, i, size, fl, hcall', hb, hi, hpage, hp, hw, -⟩ :=
    h.freeObj_spec List.mem_cons_self
  obtain rfl := Option.some.inj (hcall'.symm.trans hcall)
  refine liveKept_of_writes hw fun o' ho' => ?_
  have hstate : HeapInv E (HeapState.mk s (o :: live)).user (HeapState.mk s (o :: live)).live := h
  have hdisjoint := (List.pairwise_cons.mp (HeapState.disjoint_of_inv hstate)).1 o' ho'
  have hapart : (⟨o.ptr, 8⟩ : Span).Apart (block o') := by
    have hbase : (block o).base = o.ptr := rfl
    have hsize : 8 ≤ (block o).size := le_max_right _ _
    simp only [Span.Apart] at hdisjoint ⊢
    omega
  simp only [List.forall_mem_cons, List.not_mem_nil, false_implies, implies_true, and_true]
  exact ⟨(h.toPagesInv.apart_block_of_page (List.mem_cons_of_mem _ ho') hb hi).1, hapart⟩

/-! ## `malloc` and `free` in turn -/

namespace HeapState

variable {st st' : HeapState} {ms : List ℕ}

/-- A request of the same size class, with 0 treated as 8. -/
def SameClass (n k : ℕ) : Prop := k < 2 ^ 64 ∧ toSizeClass (smallSize k) = toSizeClass (smallSize n)

/-- `malloc(n)` returns `p`. -/
def Returns (E : HeapEnv) (fuel : ℕ) (st : HeapState) (n p : ℕ) : Prop :=
  ∃ s, mallocHeapAlloc E.os E.heap (fuel + 2) st.user n = some (p, s)

/-- For each of the sizes a `malloc`, and a `free` of `p`. -/
def pairs (p : ℕ) (ms : List ℕ) : List HeapOp := ms.flatMap fun k => [.malloc k, .free p]

/-- Outside of the slot of `n`, the heap is as it was: the other slots, the blocks in use and their
bytes. -/
structure SameElsewhere (E : HeapEnv) (n : ℕ) (st st' : HeapState) : Prop where
  slots : ∀ c < numSizeClasses, c ≠ toSizeClass (smallSize n) →
    load st'.user.mem (heapSlot E.heap c) 8 = load st.user.mem (heapSlot E.heap c) 8
  live : st'.live = st.live
  bytes : LiveKept st.live st.user.mem st'.user.mem

/-- **The last block freed is recycled**: if `malloc(n)` returns `p`, then `p` can be freed, and after
`free(p)` and any number of pairs of the same size class `malloc` of that class returns `p`, and the
heap is the same elsewhere. -/
def Recycles (E : HeapEnv) (fuel : ℕ) (st : HeapState) (n : ℕ) : Prop :=
  ∀ p, p ≠ 0 → Returns E fuel st n p →
    (freeObj (st.step E fuel (.malloc n)).user p).isSome ∧
    ∀ ms, (∀ k ∈ ms, SameClass n k) →
      let st' := run (step E fuel) st (.malloc n :: .free p :: pairs p ms)
      (∀ k, SameClass n k → Returns E fuel st' k p) ∧ SameElsewhere E n st st'

theorem SameClass.le {k : ℕ} (h : SameClass n k) (hn : n ≤ 1016) : k ≤ 1016 := by
  obtain ⟨hlt, hclass⟩ := h
  obtain ⟨hpos, hmax, -⟩ := toSizeClass_smallSize hn
  rw [numSizeClasses_eq] at hmax
  by_contra hk
  have hsmall : smallSize k = k := if_neg (by omega)
  have hblock : toBlockSize k = (k + 7) % 2 ^ 64 / 8 * 8 :=
    and_not64_two_pow (k := 3) (by decide) (Nat.mod_lt _ (Nat.two_pow_pos 64))
  rw [hsmall, toSizeClass, hblock] at hclass
  omega

theorem SameElsewhere.refl (E : HeapEnv) (n : ℕ) (st : HeapState) : SameElsewhere E n st st :=
  ⟨fun _ _ _ => rfl, rfl, LiveKept.refl _ _⟩

theorem SameElsewhere.trans {st'' : HeapState} (h : SameElsewhere E n st st')
    (h' : SameElsewhere E n st' st'') : SameElsewhere E n st st'' where
  slots c hc hne := (h'.slots c hc hne).trans (h.slots c hc hne)
  live := h'.live.trans h.live
  bytes := h.bytes.trans (h.live ▸ h'.bytes)

/-- The block `p` is first in the free list of the page in the slot of `n`. -/
structure Recycled (E : HeapEnv) (n p : ℕ) (st : HeapState) : Prop where
  inv : HeapInv E st.user st.live
  first : pageFree st.user.mem (slotPage E st.user n) = p

theorem slotPage_congr {k : ℕ} (h : SameClass n k) (s : UserMem) :
    slotPage E s k = slotPage E s n := by
  rw [slotPage, slotPage, h.2]

theorem Recycled.returns (h : Recycled E n p st) (hp : p ≠ 0) (hn : n ≤ 1016) {k : ℕ}
    (hk : SameClass n k) : Returns E fuel st k p := by
  have hk' := hk.le hn
  have hsmall : k < smallObjSizeMax := lt_of_le_of_lt hk' (by decide)
  have hfirst : pageFree st.user.mem (slotPage E st.user k) = p := by
    rw [slotPage_congr hk, h.first]
  have hfree : pageFree st.user.mem (slotPage E st.user k) ≠ 0 := hfirst ▸ hp
  obtain ⟨b, i, hb, -, hpage, -⟩ := h.inv.slot_ready hk' hfree
  have hget : mallocHeapGetPage E.os E.heap (fuel + 2) st.user (smallSize k) =
      some (slotPage E st.user k, st.user) := by
    simp only [mallocHeapGetPage]
    rw [← slotPage, if_pos hfree]
  have hne : slotPage E st.user k ≠ 0 := hpage ▸ page_ne_zero hb.isSegment
  have halloc : (mallocPageAllocObj st.user.mem (slotPage E st.user k)).1 = p := by
    rw [mallocPageAllocObj]
    simp only [if_pos hfree]
    exact hfirst
  refine ⟨{ st.user with mem := (mallocPageAllocObj st.user.mem (slotPage E st.user k)).2 }, ?_⟩
  simp only [mallocHeapAlloc, if_pos hsmall, mallocHeapAllocSmall, hget, Option.bind_eq_bind,
    Option.bind_some, if_neg hne, halloc]

/-- **One pair**: the block that `malloc` took is back at the front of its free list. -/
theorem recycled_of_pair (h : HeapInv E st.user st.live) (hn : n ≤ 1016) (hp : p ≠ 0)
    (hret : Returns E fuel st n p) :
    (freeObj (st.step E fuel (.malloc n)).user p).isSome ∧
      Recycled E n p ((st.step E fuel (.malloc n)).step E fuel (.free p)) ∧
      SameElsewhere E n st ((st.step E fuel (.malloc n)).step E fuel (.free p)) := by
  obtain ⟨s₁, hcall⟩ := hret
  rcases h.alloc fuel hn with ⟨s', hnull, -⟩ | ⟨x, b, i, s', hcall', hok⟩
  · exact absurd (Prod.mk.inj (Option.some.inj (hcall.symm.trans hnull))).1 hp
  obtain ⟨rfl, rfl⟩ := Prod.mk.inj (Option.some.inj (hcall.symm.trans hcall'))
  have hstep := step_malloc_ok hcall' hok
  have heff := hok.effect h hn
  obtain ⟨s₂, b', i', hfree, hfreed⟩ := hok.inv.free List.mem_cons_self
  have hrelease : release (⟨p, n, segmentPage b i⟩ :: st.live) p =
      (⟨p, n, segmentPage b i⟩ :: st.live).erase ⟨p, n, segmentPage b i⟩ := by
    rw [release, List.find?_cons_of_pos (by simp)]
  have hstep₂ : step E fuel ⟨s₁, ⟨p, n, segmentPage b i⟩ :: st.live⟩ (.free p) =
      ⟨s₂, st.live⟩ := by
    have hfreeStep := @step_free_ok E fuel ⟨s₁, ⟨p, n, segmentPage b i⟩ :: st.live⟩
      ⟨p, n, segmentPage b i⟩ s₂ hfree hrelease
    rwa [List.erase_cons_head] at hfreeStep
  have hclass := (toSizeClass_smallSize hn).2.1
  rw [hstep]
  refine ⟨by rw [hfree]; rfl, ?_⟩
  rw [hstep₂]
  have hinv := hfreed.inv
  rw [List.erase_cons_head] at hinv
  refine ⟨⟨hinv, ?_⟩, fun c hc hne => ?_, rfl, ?_⟩
  · have hslot : slotPage E s₂ n = segmentPage b i := (hfreed.slots hclass).trans heff.slot
    have hpage : segmentPage b i = segmentPage b' i' := hfreed.page
    show pageFree s₂.mem (slotPage E s₂ n) = p
    rw [hslot, hpage]
    exact hfreed.freed
  · exact (hfreed.slots hc).trans (heff.slots c hc hne)
  · exact (hok.kept h hn).trans (hok.inv.free_kept hfree)

theorem recycled_run (h : Recycled E n p st) (hn : n ≤ 1016) (hp : p ≠ 0)
    (hms : ∀ k ∈ ms, SameClass n k) :
    Recycled E n p (run (step E fuel) st (pairs p ms)) ∧
      SameElsewhere E n st (run (step E fuel) st (pairs p ms)) := by
  induction ms generalizing st with
  | nil => exact ⟨h, SameElsewhere.refl E n st⟩
  | cons k ms ih =>
      have hk := hms k List.mem_cons_self
      obtain ⟨-, hrec, hsame⟩ := recycled_of_pair h.inv (hk.le hn) hp (h.returns hp hn hk)
      have hrec' : Recycled E n p ((st.step E fuel (.malloc k)).step E fuel (.free p)) :=
        ⟨hrec.inv, slotPage_congr hk _ ▸ hrec.first⟩
      have hsame' : SameElsewhere E n st ((st.step E fuel (.malloc k)).step E fuel (.free p)) :=
        ⟨fun c hc hne => hsame.slots c hc (hk.2 ▸ hne), hsame.live, hsame.bytes⟩
      obtain ⟨hlast, hrest⟩ := ih hrec' fun k' hk' => hms k' (List.mem_cons_of_mem _ hk')
      exact ⟨hlast, hsame'.trans hrest⟩

/-- **The last block freed is recycled** after every run without a request of 1017 to 1023 bytes. -/
theorem malloc_recycles {m : Mem} (hzero : HeapZero E m) {ops : List HeapOp}
    (hok : Guarded (step E fuel) NotJustBelow (start E m) ops) (n : ℕ) (hn : n ≤ 1016) :
    Recycles E fuel (run (step E fuel) (start E m) ops) n := by
  have h : HeapInv E (run (step E fuel) (start E m) ops).user
      (run (step E fuel) (start E m) ops).live :=
    run_invariant_of_guarded (P := fun st => HeapInv E st.user st.live)
      (fun _ _ hop h => inv_step fuel h hop) hok (heapInv_init hzero)
  intro p hp hret
  obtain ⟨hfree, hrec, hsame⟩ := recycled_of_pair h hn hp hret
  refine ⟨hfree, fun ms hms => ?_⟩
  obtain ⟨hlast, hrest⟩ := recycled_run hrec hn hp hms
  exact ⟨fun k hk => hlast.returns hp hn hk, hsame.trans hrest⟩

/-- Other sizes of the class of 1016 bytes. -/
theorem malloc_recycles_class :
    let st := run (step oneSegment 0) (start oneSegment fun _ => 0) [.malloc 1016]
    Returns oneSegment 0 st 1010 0x200910 ∧
      Returns oneSegment 0 (run (step oneSegment 0) st
        (.malloc 1010 :: .free 0x200910 :: pairs 0x200910 [1009, 1016])) 1012 0x200910 := by
  intro st
  have hok : Guarded (step oneSegment 0) NotJustBelow (start oneSegment fun _ => 0)
      [.malloc 1016] := ⟨Or.inl (by decide), trivial⟩
  have hfirst : (mallocHeapAlloc oneSegment.os oneSegment.heap 2 st.user 1010).map Prod.fst =
      some 0x200910 := by decide +kernel
  obtain ⟨⟨p, s⟩, hret, rfl⟩ := Option.map_eq_some_iff.mp hfirst
  have hclass : ∀ k ∈ [1009, 1016], SameClass 1010 k :=
    List.forall_mem_cons.mpr ⟨⟨by decide, by decide⟩,
      List.forall_mem_singleton.mpr ⟨by decide, by decide⟩⟩
  exact ⟨⟨s, hret⟩, ((malloc_recycles (heapZero_zero _) hok 1010 (by decide) _ (by decide)
    ⟨s, hret⟩).2 _ hclass).1 1012 ⟨by decide, by decide⟩⟩
/-- **A block that is not recycled.** A request of 1017 bytes has put a page into the queue of
segments; after `free` of the block that `malloc(1008)` took, `malloc(1008)` takes another. -/
theorem malloc_after_1017_not_recycled :
    let st := run (step oneSegment 0) (start oneSegment fun _ => 0) [.malloc 1016, .malloc 1017]
    let st₁ := step oneSegment 0 st (.malloc 1008)
    let st₂ := step oneSegment 0 (step oneSegment 0 st₁ (.free 0x200a58)) (.malloc 1008)
    (st₁.live.head?.map MallocObj.ptr, st₂.live.head?.map MallocObj.ptr, st₂.live.length) =
      (some 0x200a58, some 0x200e48, 3) := by
  decide +kernel

end HeapState

end Manticore
