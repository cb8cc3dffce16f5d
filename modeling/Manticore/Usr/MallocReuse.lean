import Manticore.Usr.MallocRun

/-!
# The user-space heap: reuse of freed memory

`malloc_heap_alloc_page` asks the system for a segment when the segment in the queue has no
page to offer.  A segment that has left the queue is never looked at again, and neither is a
page that has left its slot; what is freed there is lost.  As long as blocks are freed to the
page that stands in the slot of their size, no memory is lost.
-/

namespace Manticore

open Relation

variable {E : HeapEnv} {fuel : ℕ} {s s' : UserMem} {live : List MallocObj}
  {b i j c n x : ℕ} {m m' : Mem} {w : List Span}

/-! ## The law -/

/-- **Freed memory is reused**: the next `malloc` asks the system for a segment only if no page
of any segment has a block of its size, and none is unclaimed. -/
def ReusesAll (E : HeapEnv) (fuel : ℕ) (st : HeapState) : Prop :=
  ∀ n ≤ 1016, (st.step E fuel (.malloc n)).user.osCalls ≠ st.user.osCalls →
    ∀ b, E.Obtained st.user.osCalls b → ∀ i < 32,
      Exhausted st.user.mem b i (toBlockSize (smallSize n))

/-- Requests of at most 1016 bytes, and frees of blocks whose page stands in the slot of their
size. -/
def FreesInSlot (E : HeapEnv) (st : HeapState) : HeapOp → Prop
  | .malloc n => n ≤ 1016
  | .free ptr => ptr = 0 ∨ ∃ o ∈ st.live, o.ptr = ptr ∧ o.page = slotPage E st.user o.size

/-- Nothing is lost: a page with a free block stands in the slot of its size, and a segment
with an unclaimed page is in the queue. -/
structure Tight (E : HeapEnv) (s : UserMem) : Prop where
  inSlot : ∀ b, E.Obtained s.osCalls b → ∀ i < 32, pageFree s.mem (segmentPage b i) ≠ 0 →
    load s.mem (heapSlot E.heap (pageBlockSize s.mem (segmentPage b i) / 8)) 8 = segmentPage b i
  inQueue : ∀ b, E.Obtained s.osCalls b → ∀ i < 32, pageBlockSize s.mem (segmentPage b i) = 0 →
    QueueHolds s.mem E.heap b

theorem HeapInv.class_lt (h : HeapInv E s live) (hb : E.Obtained s.osCalls b) (hi : i < 32) :
    pageBlockSize s.mem (segmentPage b i) / 8 < numSizeClasses ∧
      8 ∣ pageBlockSize s.mem (segmentPage b i) := by
  obtain ⟨size, fl, hp, -⟩ := h.page b hb i hi
  rw [hp.blockSize, numSizeClasses_eq]
  by_cases hz : size = 0
  · subst hz
    exact ⟨by decide, by decide⟩
  · obtain ⟨hdvd, hle, -⟩ := hp.claimed hz
    exact ⟨by omega, hdvd⟩

theorem Tight.exhausted (h : Tight E s)
    (hfull : pageFree s.mem (slotPage E s n) = 0) (hdry : QueueDry E s (toBlockSize (smallSize n)))
    (hb : E.Obtained s.osCalls b) (hi : i < 32) :
    Exhausted s.mem b i (toBlockSize (smallSize n)) := by
  have hclaimed : pageBlockSize s.mem (segmentPage b i) ≠ 0 := by
    intro hz
    exact (hdry b (h.inQueue b hb i hi hz) hb.1 i hi).1 hz
  refine ⟨hclaimed, fun hsize => ?_⟩
  by_contra hfree
  have hslot := h.inSlot b hb i hi hfree
  rw [hsize] at hslot
  have hpage : slotPage E s n = segmentPage b i := hslot
  rw [hpage] at hfull
  exact hfree hfull

theorem tight_zero : Tight E ⟨m, 0⟩ := by
  have hnone : ∀ b, ¬ E.Obtained 0 b := by
    rintro b ⟨-, n, hn, -⟩
    exact absurd hn (Nat.not_lt_zero n)
  exact ⟨fun b hb => absurd hb (hnone b), fun b hb => absurd hb (hnone b)⟩

theorem Tight.alloc (h : Tight E s) (hn : n ≤ 1016) (heff : AllocEffect E n s s' b i)
    (hinv : HeapInv E s live) {live' : List MallocObj} (hinv' : HeapInv E s' live') :
    Tight E s' := by
  obtain ⟨hpos, hclass, hsize⟩ := toSizeClass_smallSize hn
  -- another page with a free block keeps its slot: the slot that changes held a full page
  have hothers : ∀ b', E.Obtained s.osCalls b' → ∀ j < 32, (b, i) ≠ (b', j) →
      pageFree s'.mem (segmentPage b' j) ≠ 0 →
      load s'.mem (heapSlot E.heap (pageBlockSize s'.mem (segmentPage b' j) / 8)) 8 =
        segmentPage b' j := by
    intro b' hb' j hj hne hfree
    obtain ⟨hbs, hfr⟩ := heff.others b' hb' j hj hne
    rw [hfr] at hfree
    have hslot := h.inSlot b' hb' j hj hfree
    rw [hbs]
    by_cases hc : pageBlockSize s.mem (segmentPage b' j) / 8 = toSizeClass (smallSize n)
    · rw [hc] at hslot ⊢
      have hslot' : slotPage E s n = segmentPage b' j := hslot
      rcases heff.source with ⟨-, -, hsame | ⟨hfull, -⟩⟩ | ⟨-, -, -, -, hfull, -⟩
      · exact heff.slot.trans (hsame.symm.trans hslot')
      · exact absurd (hslot' ▸ hfull) hfree
      · exact absurd (hslot' ▸ hfull) hfree
    · rw [heff.slots _ (hinv.class_lt hb' hj).1 hc]
      exact hslot
  have hself : load s'.mem (heapSlot E.heap (pageBlockSize s'.mem (segmentPage b i) / 8)) 8 =
      segmentPage b i := by
    rw [heff.blockSize]
    exact heff.slot
  rcases heff.source with ⟨hcalls, hqueue, -⟩ | ⟨hcalls, hos, hq', hdry, -, hnew⟩
  · refine ⟨fun b' hb' j hj hfree => ?_, fun b' hb' j hj hz => ?_⟩ <;>
      rw [hcalls] at hb' <;> by_cases hpair : (b, i) = (b', j)
    · obtain ⟨rfl, rfl⟩ := Prod.mk.inj hpair
      exact hself
    · exact hothers b' hb' j hj hpair hfree
    · obtain ⟨rfl, rfl⟩ := Prod.mk.inj hpair
      rw [heff.blockSize] at hz
      omega
    · rw [(heff.others b' hb' j hj hpair).1] at hz
      exact hqueue b' (h.inQueue b' hb' j hj hz)
  · have hcases : ∀ b', E.Obtained s'.osCalls b' → E.Obtained s.osCalls b' ∨ b' = b := by
      intro b' hb'
      rw [hcalls] at hb'
      exact (HeapEnv.obtained_succ.mp hb').imp id fun heq => heq.2.symm.trans hos.symm
    refine ⟨fun b' hb' j hj hfree => ?_, fun b' hb' j hj hz => ?_⟩ <;>
      by_cases hpair : (b, i) = (b', j)
    · obtain ⟨rfl, rfl⟩ := Prod.mk.inj hpair
      exact hself
    · rcases hcases b' hb' with hold | rfl
      · exact hothers b' hold j hj hpair hfree
      · -- the other pages of the new segment are unclaimed
        obtain ⟨size, fl, hp, -⟩ := hinv'.page b' hb' j hj
        have hz : size = 0 :=
          hp.blockSize.symm.trans (hnew j hj fun heq => hpair (by rw [heq]))
        obtain ⟨rfl, -⟩ := hp.unclaimed hz
        exact absurd hp.list hfree
    · obtain ⟨rfl, rfl⟩ := Prod.mk.inj hpair
      exact hq'
    · rcases hcases b' hb' with hold | rfl
      · rw [(heff.others b' hold j hj hpair).1] at hz
        exact absurd hz (hdry b' (h.inQueue b' hold j hj hz) hold.1 j hj).1
      · exact hq'

theorem Tight.fail {size : ℕ} (h : Tight E s) (hinv : HeapInv E s live)
    (hfail : AllocPageFail E live size s s') : Tight E s' := by
  have hcalls := hfail.calls
  have hold : ∀ b, E.Obtained s'.osCalls b → E.Obtained s.osCalls b := by
    intro b hb
    rw [hcalls] at hb
    exact (HeapEnv.obtained_succ_of_null hfail.null).mp hb
  have hsame : ∀ b, E.Obtained s.osCalls b → ∀ i < 32, PageSame s.mem s'.mem b i := by
    intro b hb i hi
    refine pageSame_of_writes hfail.writes ?_
    simp only [List.mem_singleton, forall_eq]
    exact header_apart_of_segment hi (apart_slots_of_heap hb.heapApart).2
  refine ⟨fun b hb i hi hfree => ?_, fun b hb i hi hz => ?_⟩
  · have hb := hold b hb
    obtain ⟨hbs, hfr⟩ := hsame b hb i hi
    rw [hfr] at hfree
    have hslot : load s'.mem (heapSlot E.heap (pageBlockSize s.mem (segmentPage b i) / 8)) 8 =
        load s.mem (heapSlot E.heap (pageBlockSize s.mem (segmentPage b i) / 8)) 8 := by
      refine slots_of_writes hfail.writes ?_
      simp only [List.mem_singleton, forall_eq]
      exact apart_slot_of_slots (hinv.class_lt hb hi).1 queue_apart_slots
    rw [hbs, hslot]
    exact h.inSlot b hb i hi hfree
  · have hb := hold b hb
    rw [(hsame b hb i hi).1] at hz
    exact absurd hz (hfail.dry b (h.inQueue b hb i hi hz) hb.1 i hi).1

theorem FreeOk.pageSize {o : MallocObj} (h : FreeOk E live o s s' b i) (hinv : HeapInv E s live)
    (ho : o ∈ live) :
    pageBlockSize s.mem (segmentPage b i) = toBlockSize (smallSize o.size) := by
  obtain ⟨size, fl, hp, hsizes⟩ := hinv.page b h.obtained i h.lt
  exact hp.blockSize.trans (hsizes o ho h.page).symm

theorem Tight.free {o : MallocObj} (h : Tight E s) (hinv : HeapInv E s live) (ho : o ∈ live)
    (hslot : o.page = slotPage E s o.size) (hfree : FreeOk E live o s s' b i) : Tight E s' := by
  have hi := hfree.lt
  have hb := hfree.obtained
  refine ⟨fun b' hb' j hj hfr => ?_, fun b' hb' j hj hz => ?_⟩ <;>
    rw [hfree.calls] at hb' <;> by_cases hpair : (b, i) = (b', j)
  · obtain ⟨rfl, rfl⟩ := Prod.mk.inj hpair
    rw [hfree.blockSize, hfree.slots (hinv.class_lt hb hi).1, hfree.pageSize hinv ho]
    exact hslot.symm.trans hfree.page
  · obtain ⟨hbs, hfr'⟩ := pageSame_of_writes hfree.writes fun d hd =>
      page_apart hb.isSegment hb'.isSegment hi hj hpair d hd _ List.mem_cons_self
    rw [hfr'] at hfr
    rw [hbs, hfree.slots (hinv.class_lt hb' hj).1]
    exact h.inSlot b' hb' j hj hfr
  · obtain ⟨rfl, rfl⟩ := Prod.mk.inj hpair
    rw [hfree.blockSize] at hz
    exact hfree.queue (h.inQueue b hb i hi hz) fun _ => hb
  · have hbs := (pageSame_of_writes hfree.writes fun d hd =>
      page_apart hb.isSegment hb'.isSegment hi hj hpair d hd _ List.mem_cons_self).1
    rw [hbs] at hz
    exact hfree.queue (h.inQueue b' hb' j hj hz) fun _ => hb'

/-! ## Runs -/

section runs

variable {st : HeapState} {op : HeapOp}

theorem FreesInSlot.notJustBelow (h : FreesInSlot E st op) : st.NotJustBelow op := by
  cases op with
  | malloc n => exact Or.inl h
  | free ptr => exact h.imp id fun ⟨o, ho, hptr, _⟩ => ⟨o, ho, hptr⟩

theorem ReusesAll.of_tight (hinv : HeapInv E st.user st.live) (h : Tight E st.user) :
    ReusesAll E fuel st := by
  intro n hn hask b hb i hi
  rcases HeapState.step_malloc_cases fuel hinv hn with
    ⟨s', hstep, hfull, hfail⟩ | ⟨x, b', i', s', hstep, hok⟩
  · exact h.exhausted hfull hfail.dry hb hi
  · rw [hstep] at hask
    rcases (hok.effect hinv hn).source with ⟨hcalls, -⟩ | ⟨-, -, -, hdry, hfull, -⟩
    · exact absurd hcalls hask
    · exact h.exhausted hfull hdry hb hi

theorem live_ptr_inj {o o' : MallocObj} (h : HeapInv E st.user st.live) (ho : o ∈ st.live)
    (ho' : o' ∈ st.live) (hptr : o'.ptr = o.ptr) : o' = o := by
  by_contra hne
  have : Std.Symm fun o o' => (HeapState.block o).Apart (HeapState.block o') :=
    ⟨fun _ _ => Span.Apart.symm⟩
  have hapart := (HeapState.disjoint_of_inv h).forall ho' ho hne
  simp only [Span.Apart, HeapState.block, hptr] at hapart
  omega

theorem release_live {o : MallocObj} (h : HeapInv E st.user st.live) (ho : o ∈ st.live) :
    HeapState.release st.live o.ptr = st.live.erase o := by
  obtain ⟨o', ho', hptr, hrel⟩ := HeapState.release_eq ⟨o, ho, rfl⟩
  rwa [live_ptr_inj h ho ho' hptr] at hrel

/-- **One step loses no memory.** -/
theorem Tight.step (h : Tight E st.user) (hinv : HeapInv E st.user st.live)
    (hok : FreesInSlot E st op) : Tight E (st.step E fuel op).user := by
  cases op with
  | malloc n =>
      have hn : n ≤ 1016 := hok
      rcases HeapState.step_malloc_cases fuel hinv hn with
        ⟨s', hstep, -, hfail⟩ | ⟨x, b, i, s', hstep, halloc⟩
      · rw [hstep]
        exact h.fail hinv hfail
      · rw [hstep]
        exact h.alloc hn (halloc.effect hinv hn) hinv halloc.inv
  | free ptr =>
      rcases hok with rfl | ⟨o, ho, rfl, hslot⟩
      · rw [HeapState.step_free_null hinv]
        exact h
      · obtain ⟨s', b, i, hcall, hfree⟩ := hinv.free ho
        rw [HeapState.step_free_ok hcall (release_live hinv ho)]
        exact h.free hinv ho hslot hfree

/-- **Freed memory is reused** in every run in which each block is freed while its page stands in
the slot of its size. -/
theorem malloc_run_reuses {m : Mem} (hzero : HeapZero E m) {ops : List HeapOp}
    (hok : Guarded (HeapState.step E fuel) (FreesInSlot E) (HeapState.start E m) ops) :
    ReusesAll E fuel (run (HeapState.step E fuel) (HeapState.start E m) ops) := by
  have h := run_invariant_of_guarded
    (P := fun st : HeapState => HeapInv E st.user st.live ∧ Tight E st.user)
    (fun _ _ hop h => ⟨HeapState.inv_step fuel h.1 hop.notJustBelow, h.2.step h.1 hop⟩) hok
    ⟨heapInv_init hzero, tight_zero⟩
  exact ReusesAll.of_tight h.1 h.2

end runs

/-- A block freed while its page is in the slot is handed out again. -/
theorem malloc_run_reuses_slot :
    let ops := [HeapOp.malloc 1016, .malloc 1016, .free 0x200518, .malloc 1016]
    let st := run (HeapState.step HeapState.oneSegment 0)
      (HeapState.start HeapState.oneSegment fun _ => 0) ops
    ReusesAll HeapState.oneSegment 0 st ∧
      st.live.map MallocObj.ptr = [0x200518, 0x200910] := by
  have hlive : (run (HeapState.step HeapState.oneSegment 0)
      (HeapState.start HeapState.oneSegment fun _ => 0) [.malloc 1016, .malloc 1016]).live =
      [⟨0x200910, 1016, 0x200018⟩, ⟨0x200518, 1016, 0x200018⟩] := by decide +kernel
  have hslot : slotPage HeapState.oneSegment (run (HeapState.step HeapState.oneSegment 0)
      (HeapState.start HeapState.oneSegment fun _ => 0) [.malloc 1016, .malloc 1016]).user 1016 =
      0x200018 := by decide +kernel
  have hfree : ∀ st : HeapState,
      st.live = [⟨0x200910, 1016, 0x200018⟩, ⟨0x200518, 1016, 0x200018⟩] →
      slotPage HeapState.oneSegment st.user 1016 = 0x200018 →
      FreesInSlot HeapState.oneSegment st (.free 0x200518) := by
    intro st hst hpage
    exact Or.inr ⟨⟨0x200518, 1016, 0x200018⟩, by rw [hst]; decide, rfl, hpage.symm⟩
  have hguard := hfree _ hlive hslot
  simp only [run_cons, run_nil] at hguard
  have hok : Guarded (HeapState.step HeapState.oneSegment 0) (FreesInSlot HeapState.oneSegment)
      (HeapState.start HeapState.oneSegment fun _ => 0)
      [.malloc 1016, .malloc 1016, .free 0x200518, .malloc 1016] :=
    ⟨le_refl 1016, le_refl 1016, hguard, le_refl 1016, trivial⟩
  exact ⟨malloc_run_reuses (HeapState.heapZero_zero _) hok, by decide +kernel⟩

/-! ## A segment that is lost -/

section lost

variable (E fuel) in
/-- The state is reached by requests of at most 1016 bytes and frees of blocks in use. -/
def Reached (m : Mem) (st : HeapState) : Prop :=
  ∃ ops, Guarded (HeapState.step E fuel) HeapState.SmallOnly (HeapState.start E m) ops ∧
    run (HeapState.step E fuel) (HeapState.start E m) ops = st

variable {st : HeapState} {op : HeapOp}

theorem Reached.step (h : Reached E fuel m st) (hok : st.SmallOnly op) :
    Reached E fuel m (st.step E fuel op) := by
  obtain ⟨ops, hguard, rfl⟩ := h
  exact ⟨ops ++ [op], guarded_concat hguard hok, run_append ..⟩

theorem Reached.inv (h : Reached E fuel m st) (hzero : HeapZero E m) :
    HeapInv E st.user st.live := by
  obtain ⟨ops, hguard, rfl⟩ := h
  exact run_invariant_of_guarded (P := fun st => HeapInv E st.user st.live)
    (fun _ _ hop h => HeapState.inv_step fuel h hop.notJustBelow) hguard (heapInv_init hzero)

theorem exists_ask {N : ℕ} {J : HeapState → Prop} (hinv : ∀ st, J st → HeapInv E st.user st.live)
    (hbound : ∀ st, J st → st.live.length ≤ N)
    (hstep : ∀ st, J st → (st.step E fuel (.malloc n)).user.osCalls = st.user.osCalls →
      J (st.step E fuel (.malloc n))) (hn : n ≤ 1016) (h : J st) :
    ∃ st', J st' ∧ (st'.step E fuel (.malloc n)).user.osCalls ≠ st'.user.osCalls := by
  by_contra hno
  have hsame : ∀ st, J st → (st.step E fuel (.malloc n)).user.osCalls = st.user.osCalls :=
    fun st hst => not_not.mp fun hne => hno ⟨st, hst, hne⟩
  have hgrow : ∀ k : ℕ, ∃ st', J st' ∧ st'.live.length = st.live.length + k := by
    intro k
    induction k with
    | zero => exact ⟨st, h, rfl⟩
    | succ k ih =>
        obtain ⟨st', hJ, hlen⟩ := ih
        refine ⟨_, hstep st' hJ (hsame st' hJ), ?_⟩
        have hcalls := hsame st' hJ
        rcases HeapState.step_malloc_cases fuel (hinv st' hJ) hn with
          ⟨s', heq, -, hfail⟩ | ⟨x, b, i, s', heq, hok⟩
        · rw [heq, hfail.calls] at hcalls
          omega
        · rw [heq, List.length_cons, hlen]
          rfl
  obtain ⟨st', hJ, hlen⟩ := hgrow (N + 1)
  have := hbound st' hJ
  omega

/-- A system with two segments. -/
def twoSegments : HeapEnv := HeapState.segments 2 (by decide)

theorem length_live_le (h : HeapInv twoSegments st.user st.live) :
    st.live.length ≤ 0x600000 := by
  have hnodup : (st.live.map MallocObj.ptr).Nodup := by
    refine List.pairwise_map.mpr ((HeapState.disjoint_of_inv h).imp ?_)
    intro o o' hapart heq
    simp only [Span.Apart, HeapState.block, heq] at hapart
    omega
  have hsub : (st.live.map MallocObj.ptr).toFinset ⊆ Finset.range 0x600000 := by
    intro p hp
    obtain ⟨o, ho, rfl⟩ := List.mem_map.mp (List.mem_toFinset.mp hp)
    obtain ⟨b, hb, i, hi, -, hblock, -⟩ := h.toPagesInv.block_of_live ho
    have hdata := block_in_data hblock
    have hseg := page_in_segment b hi (pageData b i) (by simp)
    have hsize := (isBlockSize_smallSize (h.small o ho)).pos
    obtain ⟨hne, k, -, rfl⟩ := hb
    have hos : twoSegments.os k ≤ 0x400000 := by
      have hk := HeapState.segmentAt_of_ne_zero hne
      exact hk.2.trans_le (by omega)
    rw [Finset.mem_range]
    simp only [mallocSegmentSize] at hseg
    omega
  have hcard := Finset.card_le_card hsub
  rwa [List.toFinset_card_of_nodup hnodup, List.length_map, Finset.card_range] at hcard

theorem mem_live_malloc {o : MallocObj} (h : HeapInv E st.user st.live) (hn : n ≤ 1016)
    (ho : o ∈ st.live) : o ∈ (st.step E fuel (.malloc n)).live := by
  rcases HeapState.step_malloc_cases fuel h hn with
    ⟨s', hstep, -⟩ | ⟨x, b, i, s', hstep, hok⟩
  · rw [hstep]
    exact ho
  · rw [hstep]
    exact List.mem_cons_of_mem _ ho

theorem effect_of_ask (h : HeapInv E st.user st.live) (hn : n ≤ 1016)
    (hos : E.os st.user.osCalls ≠ 0)
    (hask : (st.step E fuel (.malloc n)).user.osCalls ≠ st.user.osCalls) :
    ∃ x i, (st.step E fuel (.malloc n)).live =
        ⟨x, n, segmentPage (E.os st.user.osCalls) i⟩ :: st.live ∧
      (st.step E fuel (.malloc n)).user.osCalls = st.user.osCalls + 1 ∧
      QueueHolds (st.step E fuel (.malloc n)).user.mem E.heap (E.os st.user.osCalls) ∧ i < 32 ∧
      slotPage E (st.step E fuel (.malloc n)).user n = segmentPage (E.os st.user.osCalls) i := by
  rcases HeapState.step_malloc_cases fuel h hn with
    ⟨s', hstep, -, hfail⟩ | ⟨x, b, i, s', hstep, hok⟩
  · exact absurd hfail.null hos
  · have heff := hok.effect h hn
    rw [hstep] at hask ⊢
    rcases heff.source with ⟨hcalls, -⟩ | ⟨hcalls, rfl, hq, -⟩
    · exact absurd hcalls hask
    · exact ⟨x, i, rfl, hcalls, hq, heff.lt, heff.slot⟩

/-- The second segment serves all requests, and a block of the first one is free. -/
structure FirstLost (E : HeapEnv) (i₀ : ℕ) (s : UserMem) : Prop where
  calls : s.osCalls = 2
  queue : QueueHolds s.mem E.heap (E.os 1)
  slot : ∃ i < 32, slotPage E s 1016 = segmentPage (E.os 1) i
  lt : i₀ < 32
  blockSize : pageBlockSize s.mem (segmentPage (E.os 0) i₀) = toBlockSize (smallSize 1016)
  free : pageFree s.mem (segmentPage (E.os 0) i₀) ≠ 0

theorem FirstLost.malloc {i₀ : ℕ} (h : FirstLost twoSegments i₀ st.user)
    (hinv : HeapInv twoSegments st.user st.live)
    (hsame : (st.step twoSegments fuel (.malloc 1016)).user.osCalls = st.user.osCalls) :
    FirstLost twoSegments i₀ (st.step twoSegments fuel (.malloc 1016)).user := by
  have hfirst : twoSegments.Obtained st.user.osCalls (twoSegments.os 0) :=
    ⟨by decide, 0, by rw [h.calls]; decide, rfl⟩
  have hsecond : IsSegment (twoSegments.os 1) := twoSegments.segment 1 (by decide)
  rcases HeapState.step_malloc_cases fuel hinv (le_refl 1016) with
    ⟨s', hstep, -, hfail⟩ | ⟨x, b, i, s', hstep, hok⟩
  · rw [hstep, hfail.calls] at hsame
    omega
  · have heff := hok.effect hinv (le_refl 1016)
    rw [hstep] at hsame ⊢
    rcases heff.source with ⟨-, hqueue, hsource⟩ | ⟨hcalls, -⟩
    · have hb : b = twoSegments.os 1 := by
        rcases hsource with hslot | ⟨-, hq⟩
        · obtain ⟨i', hi', hslot'⟩ := h.slot
          exact (segmentPage_inj heff.obtained.isSegment hsecond heff.lt hi'
            (hslot.symm.trans hslot')).1
        · exact hq.unique h.queue
      subst hb
      obtain ⟨hbs, hfr⟩ := heff.others _ hfirst i₀ h.lt fun heq =>
        absurd (Prod.mk.inj heq).1 (by decide)
      exact ⟨hsame.trans h.calls, hqueue _ h.queue, ⟨i, heff.lt, heff.slot⟩, h.lt,
        hbs.trans h.blockSize, by rw [hfr]; exact h.free⟩
    · simp only at hsame
      omega

theorem firstLost_of_free {o : MallocObj} {i₀ : ℕ} (hinv : HeapInv E st.user st.live)
    (ho : o ∈ st.live) (hsize : o.size = 1016) (hpage : o.page = segmentPage (E.os 0) i₀)
    (hos : E.os 0 ≠ 0 ∧ i₀ < 32) (hcalls : st.user.osCalls = 2)
    (hqueue : QueueHolds st.user.mem E.heap (E.os 1))
    (hslot : ∃ i < 32, slotPage E st.user 1016 = segmentPage (E.os 1) i) :
    FirstLost E i₀ (st.step E fuel (.free o.ptr)).user := by
  obtain ⟨s', b, i, hcall, hok⟩ := hinv.free ho
  have hb : IsSegment b := hok.obtained.isSegment
  obtain ⟨rfl, rfl⟩ := segmentPage_inj hb (E.segment 0 hos.1) hok.lt hos.2
    (hok.page.symm.trans hpage)
  rw [HeapState.step_free_ok hcall (release_live hinv ho)]
  have hsecond : E.os 1 ≠ 0 → E.Obtained st.user.osCalls (E.os 1) :=
    fun hne => ⟨hne, 1, by rw [hcalls]; decide, rfl⟩
  refine ⟨hok.calls.trans hcalls, hok.queue hqueue hsecond, ?_, hos.2, ?_, ?_⟩
  · rw [slotPage, hok.slots (by decide)]
    exact hslot
  · rw [hok.blockSize, hok.pageSize hinv ho, hsize]
  · rw [hok.freed]
    exact HeapState.ptr_ne_zero hinv ho

/-- **A segment is lost**: with requests of 1016 bytes and one free, a run reaches a state in
which `malloc` asks for a third segment, while a page of the first has a free block of just
that size. -/
theorem malloc_run_loses_segment :
    ∃ ops, Guarded (HeapState.step twoSegments 0) HeapState.SmallOnly
        (HeapState.start twoSegments fun _ => 0) ops ∧
      ¬ ReusesAll twoSegments 0 (run (HeapState.step twoSegments 0)
        (HeapState.start twoSegments fun _ => 0) ops) := by
  have hzero : HeapZero twoSegments fun _ => 0 := HeapState.heapZero_zero _
  have hinv : ∀ st, Reached twoSegments 0 (fun _ => 0) st → HeapInv twoSegments st.user st.live :=
    fun st h => h.inv hzero
  have hstart : Reached twoSegments 0 (fun _ => 0) (HeapState.start twoSegments fun _ => 0) :=
    ⟨[], trivial, rfl⟩
  -- the first segment, and a block `o` of it
  obtain ⟨st, ⟨hst, hcalls⟩, hask⟩ := exists_ask (E := twoSegments) (n := 1016)
    (J := fun st => Reached twoSegments 0 (fun _ => 0) st ∧ st.user.osCalls = 0)
    (fun st h => hinv st h.1) (fun st h => length_live_le (hinv st h.1))
    (fun st h hsame => ⟨h.1.step (le_refl 1016), hsame.trans h.2⟩) (le_refl 1016) ⟨hstart, rfl⟩
  obtain ⟨x, i₀, hlive, hcalls₁, -, hi₀, -⟩ := effect_of_ask (hinv st hst) (le_refl 1016)
    (by rw [hcalls]; decide) hask
  rw [hcalls] at hlive hcalls₁
  obtain ⟨o, ho⟩ : ∃ o : MallocObj, o = ⟨x, 1016, segmentPage (twoSegments.os 0) i₀⟩ := ⟨_, rfl⟩
  rw [← ho] at hlive
  -- the second segment
  obtain ⟨st₁, ⟨hst₁, hcalls', ho₁⟩, hask₁⟩ := exists_ask (E := twoSegments) (n := 1016)
    (J := fun st => Reached twoSegments 0 (fun _ => 0) st ∧ st.user.osCalls = 1 ∧ o ∈ st.live)
    (fun st h => hinv st h.1) (fun st h => length_live_le (hinv st h.1))
    (fun st h hsame => ⟨h.1.step (le_refl 1016), hsame.trans h.2.1,
      mem_live_malloc (hinv st h.1) (le_refl 1016) h.2.2⟩) (le_refl 1016)
    ⟨hst.step (le_refl 1016), hcalls₁, by rw [hlive]; exact List.mem_cons_self⟩
  obtain ⟨-, i₁, -, hcalls₂, hqueue, hi₁, hslot⟩ := effect_of_ask (hinv st₁ hst₁)
    (le_refl 1016) (by rw [hcalls']; decide) hask₁
  rw [hcalls'] at hqueue hslot hcalls₂
  obtain ⟨st₂, hstep⟩ : ∃ st₂, st₁.step twoSegments 0 (.malloc 1016) = st₂ := ⟨_, rfl⟩
  have hst₂ : Reached twoSegments 0 (fun _ => 0) st₂ := hstep ▸ hst₁.step (le_refl 1016)
  have ho₂ : o ∈ st₂.live := hstep ▸ mem_live_malloc (hinv st₁ hst₁) (le_refl 1016) ho₁
  rw [hstep] at hcalls₂ hqueue hslot
  -- the block is freed, and the second segment serves requests until it is full
  have hlost : FirstLost twoSegments i₀ (st₂.step twoSegments 0 (.free o.ptr)).user :=
    firstLost_of_free (hinv st₂ hst₂) ho₂ (by rw [ho]) (by rw [ho]) ⟨by decide, hi₀⟩ hcalls₂
      hqueue ⟨i₁, hi₁, hslot⟩
  have hfree : st₂.SmallOnly (.free o.ptr) := Or.inr ⟨o, ho₂, rfl⟩
  obtain ⟨st₃, ⟨⟨ops, hguard, hrun⟩, hlost₃⟩, hask₃⟩ := exists_ask (E := twoSegments) (n := 1016)
    (J := fun st => Reached twoSegments 0 (fun _ => 0) st ∧ FirstLost twoSegments i₀ st.user)
    (fun st h => hinv st h.1) (fun st h => length_live_le (hinv st h.1))
    (fun st h hsame => ⟨h.1.step (le_refl 1016), h.2.malloc (hinv st h.1) hsame⟩) (le_refl 1016)
    ⟨hst₂.step hfree, hlost⟩
  refine ⟨ops, hguard, fun hall => ?_⟩
  rw [hrun] at hall
  have hfirst : twoSegments.Obtained st₃.user.osCalls (twoSegments.os 0) :=
    ⟨by decide, 0, by rw [hlost₃.calls]; decide, rfl⟩
  exact hlost₃.free ((hall 1016 (le_refl _) hask₃ _ hfirst i₀ hi₀).2 hlost₃.blockSize)

end lost

end Manticore
