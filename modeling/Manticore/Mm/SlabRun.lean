import Manticore.Base.Run
import Manticore.Mm.KmemLayout

/-!
# The life of one slab

A slab from `kmem_slab_create` on: objects are taken from it and given back in any order, and whoever
has an object writes to it.  The nodes of the free list are in the blocks themselves, so what is
written to an object destroys the node that was there; `kmem_slab_free_object` makes it anew.

The invariant separates the blocks in use, of which nothing is known, from the free ones and the
header.  Nothing is asked of the size and alignment of the cache beyond what `kmem_cache_init` tests.
-/

namespace Manticore

/-! ## Runs -/

/-- What is done with a slab: the two calls, and writing `contents` to an object in use, `o` bytes from
its start. -/
inductive SlabOp where
  | alloc
  | free (obj : ℕ)
  | overwrite (obj o : ℕ) (contents : List UInt8)
deriving DecidableEq, Repr

/-- The memory, and the objects in use. -/
structure SlabState where
  mem : Mem
  live : List ℕ

namespace SlabState

/-- `none` is a fault. -/
def step (slab : ℕ) (s : SlabState) : SlabOp → Option SlabState
  | .alloc => (kmemSlabAllocObject s.mem slab).map fun r =>
      ⟨r.2, if r.1 = 0 then s.live else r.1 :: s.live⟩
  | .free obj => (kmemSlabFreeObject s.mem slab obj).map fun m => ⟨m, s.live.erase obj⟩
  | .overwrite obj o contents =>
      some ⟨memcpy s.mem (obj + o) (fun i => contents.getD i 0) contents.length, s.live⟩

/-- Only objects in use are freed and written, within their block. -/
def Allowed (v : CacheView) (s : SlabState) : SlabOp → Prop
  | .alloc => True
  | .free obj => obj ∈ s.live
  | .overwrite obj o contents => obj ∈ s.live ∧ o + contents.length ≤ v.block

end SlabState

/-- **What the slab has to account for**: the free list holds exactly the blocks that are not in use,
each once, and the counters and the two tests agree with it. -/
structure Accounted (v : CacheView) (slab base : ℕ) (s : SlabState) : Prop where
  freeList : ∃ free : List ℕ, Linked (bufctlNext s.mem) (slabHead s.mem slab) (free.map (· + v.off)) ∧
    free.Nodup ∧ (∀ x, x ∈ free ↔ x ∈ v.blocks base ∧ x ∉ s.live) ∧
    slabNrFree s.mem slab = free.length
  live : s.live.Nodup ∧ ∀ x ∈ s.live, x ∈ v.blocks base
  capacity : slabCapacity s.mem slab = (v.blocks base).length
  nrFree_le : slabNrFree s.mem slab ≤ slabCapacity s.mem slab
  allocNull : ∃ obj m, kmemSlabAllocObject s.mem slab = some (obj, m) ∧
    (obj = 0 ↔ ∀ x ∈ v.blocks base, x ∈ s.live)
  isFull : kmemSlabIsFull s.mem slab = true ↔ ∀ x ∈ v.blocks base, x ∉ s.live

/-! ## The invariant -/

/-- The slab as it stands in memory, with the free blocks in the order of the list. -/
structure SlabInv (v : CacheView) (slab base : ℕ) (s : SlabState) (free : List ℕ) : Prop where
  ok : SlabOk s.mem v ⟨slab, base, free⟩
  bufctl : cacheBufctl s.mem v.addr = v.off
  perm : (free ++ s.live).Perm (v.blocks base)

namespace SlabInv

variable {v : CacheView} {slab base obj x y o : ℕ} {s : SlabState} {free : List ℕ}

section Blocks

variable (hroom : SlabRoom v slab base)
include hroom

theorem header_apart_block (hx : x ∈ v.blocks base) :
    Span.Apart ⟨slab, sizeofKmemSlab⟩ (v.blockAt x) := by
  have hin := CacheView.block_in_page hroom.carved hx
  have hsep := hroom.hdr_page
  simp only [Span.Apart, CacheView.blockAt] at hsep ⊢
  omega

theorem cache_apart_block (hx : x ∈ v.blocks base) :
    Span.Apart (v.blockAt x) ⟨v.addr, sizeofKmemCache⟩ := by
  have hin := CacheView.block_in_page hroom.carved hx
  have hsep := hroom.cache_page
  simp only [Span.Apart, CacheView.blockAt] at hsep ⊢
  omega

theorem block_bounds (hx : x ∈ v.blocks base) : x ≠ 0 ∧ x + v.block ≤ 2 ^ 64 := by
  have hin := CacheView.block_in_page hroom.carved hx
  have hne := hroom.base_ne
  have hle := hroom.base_le
  have husable := v.usable_le
  omega

end Blocks

variable (h : SlabInv v slab base s free)
include h

theorem mem_blocks (hx : x ∈ free ++ s.live) : x ∈ v.blocks base := h.perm.mem_iff.mp hx

theorem live_apart_free (hx : x ∈ s.live) (hy : y ∈ free) : (v.blockAt x).Apart (v.blockAt y) := by
  have hpairs : ((free ++ s.live).map v.blockAt).Pairwise Span.Apart :=
    (v.blocks_pairwise base).perm (h.perm.map v.blockAt).symm fun hor => Or.symm hor
  rw [List.map_append, List.pairwise_append] at hpairs
  exact (hpairs.2.2 _ (List.mem_map_of_mem hy) _ (List.mem_map_of_mem hx)).symm

theorem nodup (hcarved : v.Carved) : (free ++ s.live).Nodup :=
  h.perm.nodup_iff.mpr (hcarved.blocks_nodup base)

theorem length_le : free.length ≤ v.capacity := by
  have hlen := h.perm.length_eq
  simp only [List.length_append, CacheView.blocks, List.length_map, List.length_range] at hlen
  omega

/-! ### One step -/

theorem bufctl_kept {m : Mem} {w : List Span} (hw : WritesOnly w s.mem m)
    (hapart : ∀ d ∈ w, d.Apart ⟨v.addr, sizeofKmemCache⟩) : cacheBufctl m v.addr = v.off :=
  (hw.load_eq hapart le_rfl (by simp [sizeofKmemCache])).trans h.bufctl

theorem alloc (hroom : SlabRoom v slab base) :
    ∃ s' free', s.step slab .alloc = some s' ∧ SlabInv v slab base s' free' := by
  have hheader : ∀ x ∈ free, Span.Apart ⟨slab, sizeofKmemSlab⟩ (v.blockAt x) := fun x hx =>
    header_apart_block hroom (h.mem_blocks (List.mem_append_left _ hx))
  cases hfree : free with
  | nil =>
      subst hfree
      refine ⟨s, [], ?_, h⟩
      simp only [SlabState.step, kmemSlabAllocObject_empty h.ok rfl hroom.hdr_ne, Option.map_some,
        if_true]
  | cons x xs =>
      subst hfree
      obtain ⟨m', hrun, hw, hok, -⟩ := kmemSlabAllocObject_spec h.ok hroom.carved rfl hroom.hdr_ne
        (by rw [← h.ok.nrFree]; exact load_lt _ _ 4) hheader
      have hx : x ≠ 0 := (block_bounds hroom (h.mem_blocks List.mem_cons_self)).1
      refine ⟨⟨m', x :: s.live⟩, xs, ?_, hok, h.bufctl_kept hw ?_, ?_⟩
      · simp only [SlabState.step, hrun, Option.map_some, if_neg hx]
      · simp only [List.mem_singleton, forall_eq]
        exact hroom.cache_hdr.symm
      · exact List.perm_middle.trans h.perm

theorem freeObj (hroom : SlabRoom v slab base) (hobj : obj ∈ s.live) :
    ∃ s' free', s.step slab (.free obj) = some s' ∧ SlabInv v slab base s' free' := by
  have hblock : obj ∈ v.blocks base := h.mem_blocks (List.mem_append_right _ hobj)
  obtain ⟨hne, hlt⟩ := block_bounds hroom hblock
  have hlen : free.length + 1 < 2 ^ 32 := by
    have hle := h.length_le
    have hcap := hroom.carved.capacity_le
    omega
  obtain ⟨m', hrun, hw, hok, -⟩ := kmemSlabFreeObject_spec h.ok hroom.carved hroom.hdr_ne h.bufctl
    hlen hne hlt
    (by
      intro y hy
      rcases List.mem_cons.mp hy with rfl | hy
      · exact header_apart_block hroom hblock
      · exact header_apart_block hroom (h.mem_blocks (List.mem_append_left _ hy)))
    (fun y hy => h.live_apart_free hobj hy)
  refine ⟨⟨m', s.live.erase obj⟩, obj :: free, ?_, hok, h.bufctl_kept hw ?_, ?_⟩
  · simp only [SlabState.step, hrun, Option.map_some]
  · simp only [List.mem_cons, List.not_mem_nil, or_false, forall_eq_or_imp, forall_eq]
    exact ⟨hroom.cache_hdr.symm, cache_apart_block hroom hblock⟩
  · calc (obj :: free ++ s.live.erase obj).Perm (free ++ obj :: s.live.erase obj) :=
          List.perm_middle.symm
      List.Perm _ (free ++ s.live) := (List.perm_cons_erase hobj).symm.append_left free
      List.Perm _ (v.blocks base) := h.perm

theorem overwrite (hroom : SlabRoom v slab base) (hobj : obj ∈ s.live) {contents : List UInt8}
    (hin : o + contents.length ≤ v.block) :
    ∃ s' free', s.step slab (.overwrite obj o contents) = some s' ∧ SlabInv v slab base s' free' := by
  have hblock : obj ∈ v.blocks base := h.mem_blocks (List.mem_append_right _ hobj)
  have hw : WritesOnly [v.blockAt obj] s.mem
      (memcpy s.mem (obj + o) (fun i => contents.getD i 0) contents.length) := by
    refine (WritesOnly.refl _ s.mem).memcpy List.mem_cons_self (Nat.le_add_right obj o) ?_
    simp only [CacheView.blockAt]
    omega
  obtain ⟨hok, -⟩ := h.ok.frame hroom.carved hw
    (by
      simp only [List.mem_singleton, forall_eq]
      exact (header_apart_block hroom hblock).symm)
    (by
      intro y hy
      simp only [List.mem_singleton, forall_eq]
      exact h.live_apart_free hobj hy)
  refine ⟨_, free, rfl, hok, h.bufctl_kept hw ?_, h.perm⟩
  simp only [List.mem_singleton, forall_eq]
  exact cache_apart_block hroom hblock

theorem step {op : SlabOp} (hroom : SlabRoom v slab base) (hallowed : s.Allowed v op) :
    ∃ s' free', s.step slab op = some s' ∧ SlabInv v slab base s' free' := by
  cases op with
  | alloc => exact h.alloc hroom
  | free obj => exact h.freeObj hroom hallowed
  | overwrite obj o contents => exact h.overwrite hroom hallowed.1 hallowed.2

/-! ### What follows -/

theorem mem_free_iff (hcarved : v.Carved) : x ∈ free ↔ x ∈ v.blocks base ∧ x ∉ s.live := by
  have hnodup := List.nodup_append'.mp (h.nodup hcarved)
  constructor
  · exact fun hx => ⟨h.mem_blocks (List.mem_append_left _ hx), fun hl => hnodup.2.2 hx hl⟩
  · rintro ⟨hx, hl⟩
    exact (List.mem_append.mp (h.perm.mem_iff.mpr hx)).resolve_right hl

theorem alloc_null (hroom : SlabRoom v slab base) :
    ∃ obj m, kmemSlabAllocObject s.mem slab = some (obj, m) ∧
      (obj = 0 ↔ ∀ x ∈ v.blocks base, x ∈ s.live) := by
  have hiff := fun x => h.mem_free_iff (x := x) hroom.carved
  cases hfree : free with
  | nil =>
      subst hfree
      refine ⟨0, s.mem, kmemSlabAllocObject_empty h.ok rfl hroom.hdr_ne, ?_⟩
      refine iff_of_true rfl fun x hx => ?_
      by_contra hl
      exact absurd ((hiff x).mpr ⟨hx, hl⟩) List.not_mem_nil
  | cons x xs =>
      subst hfree
      obtain ⟨m', hrun, -⟩ := kmemSlabAllocObject_spec h.ok hroom.carved rfl hroom.hdr_ne
        (by rw [← h.ok.nrFree]; exact load_lt _ _ 4)
        fun x hx => header_apart_block hroom (h.mem_blocks (List.mem_append_left _ hx))
      obtain ⟨hx, hl⟩ := (hiff x).mp List.mem_cons_self
      refine ⟨x, m', hrun, iff_of_false (block_bounds hroom hx).1 fun hall => hl (hall x hx)⟩

theorem isFull_iff :
    kmemSlabIsFull s.mem slab = true ↔ ∀ x ∈ v.blocks base, x ∉ s.live := by
  have hlen := h.perm.length_eq
  have hcap : slabCapacity s.mem slab = v.capacity := h.ok.capacity
  have hnr : slabNrFree s.mem slab = free.length := h.ok.nrFree
  have hblocks : (v.blocks base).length = v.capacity := by simp [CacheView.blocks]
  rw [kmemSlabIsFull, beq_iff_eq, hcap, hnr]
  rw [List.length_append, hblocks] at hlen
  have hempty : s.live.length = 0 ↔ ∀ x ∈ v.blocks base, x ∉ s.live := by
    rw [List.length_eq_zero_iff, List.eq_nil_iff_forall_not_mem]
    exact ⟨fun hl x _ => hl x, fun hl x hx => hl x (h.mem_blocks (List.mem_append_right _ hx)) hx⟩
  rw [← hempty]
  omega

theorem accounted (hroom : SlabRoom v slab base) : Accounted v slab base s := by
  have hnodup := List.nodup_append'.mp (h.nodup hroom.carved)
  have hcap : slabCapacity s.mem slab = v.capacity := h.ok.capacity
  have hnr : slabNrFree s.mem slab = free.length := h.ok.nrFree
  refine ⟨⟨free, h.ok.list, hnodup.1, fun x => h.mem_free_iff hroom.carved, hnr⟩,
    ⟨hnodup.2.1, fun x hx => h.mem_blocks (List.mem_append_right _ hx)⟩, ?_, ?_,
    h.alloc_null hroom, h.isFull_iff⟩
  · rw [hcap]
    simp [CacheView.blocks]
  · rw [hcap, hnr]
    exact h.length_le

end SlabInv

/-! ## From `kmem_slab_create` on -/

/-- The cache structure as `kmem_cache_init` leaves it. -/
structure CacheReady (m : Mem) (v : CacheView) : Prop where
  addr_lt : v.addr < 2 ^ 64
  bufctl : cacheBufctl m v.addr = v.off
  size : cacheSize m v.addr = v.size
  align : cacheAlign m v.addr = v.align
  block : sizeofKmemBufctl ≤ v.block

section Create

variable {σ : Type} {A : PageAllocator σ} {allocSlab : Kmem σ → Option (ℕ × Kmem σ)}
  {k k' : Kmem σ} {v : CacheView} {slab : ℕ}

/-- What `kmem_slab_create` gets is memory of its own: a page, and, for large objects, a header from
`kmem_slab_cache`. -/
structure SlabSources (A : PageAllocator σ) (allocSlab : Kmem σ → Option (ℕ × Kmem σ)) (k : Kmem σ)
    (v : CacheView) : Prop where
  page : (A.alloc k.pages).1 ≠ 0 → (A.alloc k.pages).1 + pageSizeSmall ≤ 2 ^ 64 ∧
    v.struct.Apart ⟨(A.alloc k.pages).1, pageSizeSmall⟩
  header : ¬ v.InPage → (A.alloc k.pages).1 ≠ 0 → ∀ hdr k₁,
    allocSlab { k with pages := (A.alloc k.pages).2 } = some (hdr, k₁) → hdr ≠ 0 →
      hdr < 2 ^ 64 ∧ Span.Apart ⟨hdr, sizeofKmemSlab⟩ ⟨(A.alloc k.pages).1, pageSizeSmall⟩ ∧
      v.struct.Apart ⟨hdr, sizeofKmemSlab⟩ ∧ CacheReady k₁.mem v

/-- The memory in which the rest of `kmem_slab_create` runs. -/
structure SetupFor (v : CacheView) (m m' : Mem) (slab base : ℕ) : Prop where
  ready : CacheReady m v
  run : kmemSlabSetup m v.addr base slab v.usable = some m'
  room : v.Carved → SlabRoom v slab base
  cache_hdr : v.struct.Apart ⟨slab, sizeofKmemSlab⟩

theorem setupFor_inPage {m m' : Mem} {base : ℕ} (hready : CacheReady m v) (hin : v.InPage)
    (hbase : base ≠ 0) (hle : base + pageSizeSmall ≤ 2 ^ 64)
    (hcache : v.struct.Apart ⟨base, pageSizeSmall⟩)
    (hne : base + pageSizeSmall - sizeofKmemSlab ≠ 0)
    (hrun : kmemSlabSetup m v.addr base (base + pageSizeSmall - sizeofKmemSlab)
      (pageSizeSmall - sizeofKmemSlab) = some m') :
    SetupFor v m m' (base + pageSizeSmall - sizeofKmemSlab) base := by
  have husable : v.usable = pageSizeSmall - sizeofKmemSlab := if_pos hin
  have hsep : v.struct.Apart ⟨base + pageSizeSmall - sizeofKmemSlab, sizeofKmemSlab⟩ := by
    simp only [Span.Apart, pageSizeSmall, sizeofKmemSlab] at hcache ⊢
    omega
  refine ⟨hready, husable ▸ hrun, fun hcarved => ?_, hsep⟩
  refine ⟨hcarved, hne, ?_, hbase, hle, hready.addr_lt, ?_, hsep, ?_⟩
  all_goals
    simp only [husable, Span.Apart, CacheView.struct, pageSizeSmall, sizeofKmemSlab] at *
    omega

theorem setupFor_header {m m' : Mem} {base : ℕ} (hready : CacheReady m v) (hout : ¬ v.InPage)
    (hbase : base ≠ 0) (hle : base + pageSizeSmall ≤ 2 ^ 64)
    (hcache : v.struct.Apart ⟨base, pageSizeSmall⟩) (hne : slab ≠ 0) (hlt : slab < 2 ^ 64)
    (hpage : Span.Apart ⟨slab, sizeofKmemSlab⟩ ⟨base, pageSizeSmall⟩)
    (hsep : v.struct.Apart ⟨slab, sizeofKmemSlab⟩)
    (hrun : kmemSlabSetup m v.addr base slab pageSizeSmall = some m') :
    SetupFor v m m' slab base := by
  have husable : v.usable = pageSizeSmall := if_neg hout
  refine ⟨hready, husable ▸ hrun, fun hcarved => ?_, hsep⟩
  refine ⟨hcarved, hne, hlt, hbase, hle, hready.addr_lt, ?_, hsep, ?_⟩
  · rw [husable]
    exact hpage
  · rw [husable]
    exact hcache

theorem exists_setupFor (hready : CacheReady k.mem v) (hsrc : SlabSources A allocSlab k v)
    (hmade : kmemSlabCreate A allocSlab k v.addr = some (slab, k')) (hne : slab ≠ 0) :
    ∃ m base, SetupFor v m k'.mem slab base := by
  obtain ⟨base, pages, halloc⟩ : ∃ base pages, A.alloc k.pages = (base, pages) := ⟨_, _, rfl⟩
  obtain ⟨hpage, hheader⟩ := hsrc
  rw [kmemSlabCreate, halloc] at hmade
  rw [halloc] at hpage hheader
  dsimp only at hmade hpage hheader
  have hbase : base ≠ 0 := by
    rintro rfl
    rw [if_pos rfl] at hmade
    exact hne (some_pair_inj hmade).1.symm
  obtain ⟨hle, hcache⟩ := hpage hbase
  rw [if_neg hbase, hready.size] at hmade
  by_cases hin : v.InPage
  · rw [if_pos (show v.size < pageSizeSmall / 8 from hin)] at hmade
    obtain ⟨m', hrun, heq⟩ := Option.bind_eq_some_iff.mp hmade
    cases heq
    exact ⟨k.mem, base, setupFor_inPage hready hin hbase hle hcache hne hrun⟩
  · rw [if_neg (show ¬ v.size < pageSizeSmall / 8 from hin)] at hmade
    obtain ⟨⟨hdr, k₁⟩, hhdr, hmade⟩ := Option.bind_eq_some_iff.mp hmade
    dsimp only at hmade
    have hhdrne : hdr ≠ 0 := by
      rintro rfl
      rw [if_pos rfl] at hmade
      exact hne (some_pair_inj hmade).1.symm
    rw [if_neg hhdrne] at hmade
    obtain ⟨m', hrun, heq⟩ := Option.bind_eq_some_iff.mp hmade
    cases heq
    obtain ⟨hlt, hpageapart, hcacheapart, hready₁⟩ := hheader hin hbase _ k₁ hhdr hhdrne
    exact ⟨k₁.mem, base,
      setupFor_header hready₁ hin hbase hle hcache hne hlt hpageapart hcacheapart hrun⟩

theorem CacheView.block_lt (v : CacheView) : v.block < 2 ^ 64 :=
  lt_of_le_of_lt Nat.and_le_left (sub64_lt _ _)

theorem SetupFor.carved {m m' : Mem} {base : ℕ} (h : SetupFor v m m' slab base)
    (hcap : 0 < slabCapacity m' slab) : v.Carved := by
  refine ⟨h.ready.block, ?_⟩
  by_contra hlarge
  have hrun := h.run
  have hsep := h.cache_hdr
  simp only [Span.Apart, CacheView.struct, sizeofKmemCache, sizeofKmemSlab] at hsep
  rw [kmemSlabSetup] at hrun
  -- without a block the loop ends at once, and the capacity is still 0
  obtain ⟨m₅, hm₅⟩ : ∃ m₅, m₅ = store (store (store (store (store m slab 8 v.addr) (slab + 16) 8 base)
    (slab + 8) 8 (kmemObjectToBufctl (store (store m slab 8 v.addr) (slab + 16) 8 base) v.addr base))
    (slab + 24) 8 0) (slab + 32) 4 0 := ⟨_, rfl⟩
  rw [← hm₅] at hrun
  have hcell : ∀ o n, o + n ≤ 64 →
      load (store m₅ (slab + 36) 4 0) (v.addr + o) n = load m (v.addr + o) n := by
    intro o n ho
    rw [load_store_of_disjoint (by omega), hm₅, load_store_of_disjoint (by omega),
      load_store_of_disjoint (by omega), load_store_of_disjoint (by omega),
      load_store_of_disjoint (by omega), load_store_of_disjoint (by omega)]
  have hsize : cacheSize (store m₅ (slab + 36) 4 0) v.addr = v.size :=
    (hcell 8 8 (by omega)).trans h.ready.size
  have halign : cacheAlign (store m₅ (slab + 36) 4 0) v.addr = v.align :=
    (hcell 16 8 (by omega)).trans h.ready.align
  have hblock : alignUp v.size v.align = v.block := rfl
  have hadd : add64 0 v.block = v.block := by
    rw [add64_of_lt (by simpa using v.block_lt), Nat.zero_add]
  rw [hsize, halign, hblock, kmemSlabInitBlocks, hadd, if_neg hlarge] at hrun
  obtain rfl := Option.some.inj hrun
  rw [slabCapacity, load_store_same (by decide)] at hcap
  exact absurd hcap (lt_irrefl 0)

theorem SetupFor.slabInv {m m' : Mem} {base : ℕ} (h : SetupFor v m m' slab base) (hcarved : v.Carved) :
    SlabInv v slab base ⟨m', []⟩ (v.blocks base) := by
  have hroom := h.room hcarved
  obtain ⟨m₁, hrun, hw, hok, -⟩ := kmemSlabSetup_spec hroom h.ready.bufctl h.ready.size h.ready.align
  obtain rfl : m' = m₁ := Option.some.inj (h.run.symm.trans hrun)
  refine ⟨hok, ?_, by rw [List.append_nil]⟩
  refine (hw.load_eq (d := ⟨v.addr, sizeofKmemCache⟩) ?_ le_rfl (by simp [sizeofKmemCache])).trans
    h.ready.bufctl
  simp only [List.mem_cons, List.not_mem_nil, or_false, forall_eq_or_imp, forall_eq]
  exact ⟨hroom.cache_hdr.symm, hroom.cache_page.symm⟩

/-- **One slab is accounted for.** Along every sequence of allocations, frees of objects in use and
writes to objects in use, from `kmem_slab_create` on. -/
theorem slab_accounting (hready : CacheReady k.mem v) (hsrc : SlabSources A allocSlab k v)
    (hmade : kmemSlabCreate A allocSlab k v.addr = some (slab, k')) (hne : slab ≠ 0)
    (hcap : 0 < slabCapacity k'.mem slab) (ops : List SlabOp)
    (hops : GuardedM (SlabState.step slab) (SlabState.Allowed v) ⟨k'.mem, []⟩ ops) :
    ∃ s, ops.foldlM (SlabState.step slab) ⟨k'.mem, []⟩ = some s ∧
      Accounted v slab (slabBase k'.mem slab) s := by
  obtain ⟨m, base, hsetup⟩ := exists_setupFor hready hsrc hmade hne
  have hcarved := hsetup.carved hcap
  have hroom := hsetup.room hcarved
  have hstart := hsetup.slabInv hcarved
  have hbase : slabBase k'.mem slab = base := hstart.ok.base
  obtain ⟨s, hrun, free, hinv⟩ := foldlM_invariant_of_guarded
    (P := fun s => ∃ free, SlabInv v slab base s free)
    (fun s op hallowed hs => by
      obtain ⟨free, hs⟩ := hs
      obtain ⟨s', free', hstep, hs'⟩ := hs.step hroom hallowed
      exact ⟨s', hstep, free', hs'⟩) hops ⟨_, hstart⟩
  rw [hbase]
  exact ⟨s, hrun, hinv.accounted hroom⟩

end Create

/-! ## In the kernel -/

namespace KmemInv

variable {σ : Type} {A : PageAllocator σ} {sc : ℕ} {F O : Set ℕ} {k : Kmem σ} {v : CacheView}
  {vs pre post : List CacheView} {lost : List ℕ}

theorem cacheReady (h : KmemInv A sc F O k vs lost) (hv : v ∈ vs) : CacheReady k.mem v :=
  ⟨(h.view v hv).addr.2, (h.ok v hv).bufctl, (h.ok v hv).size, (h.ok v hv).align,
    (h.fits v hv).bufctl⟩

/-- **The kernel's caches get memory of their own.** -/
theorem slabSources (fuel : ℕ) (h : KmemInv A sc F O k (pre ++ v :: post) lost)
    (hch : ∀ u ∈ pre ++ v :: post, Chained k.mem u) :
    SlabSources A (fun k => kmemCacheAlloc A sc (fuel + 2) k sc) k v := by
  have hvmem : v ∈ pre ++ v :: post := by simp
  have hstruct : ∀ {vs : List CacheView} {l : List Span}, v ∈ vs →
      v.struct ∈ vs.flatMap CacheView.spans ++ l := fun hv =>
    List.mem_append_left _ (List.mem_flatMap.mpr ⟨v, hv, List.mem_cons_self⟩)
  constructor
  · intro hz
    obtain ⟨hmem, hun, -⟩ := h.takePage hz
    exact ⟨(A.page h.owns (.inl hmem)).le, h.fresh_page (.inl hmem) hun (hstruct hvmem)⟩
  · intro hin hz hdr k₁ hrun hne
    obtain ⟨-, hun, htaken, -⟩ := h.takePage hz
    obtain ⟨hdr', k₂, hrun', hres⟩ := htaken.allocates_header fuel hch hvmem hin
    obtain ⟨rfl, rfl⟩ := Prod.mk.inj (Option.some.inj (hrun'.symm.trans hrun))
    rcases hres with ⟨hzero, -⟩ | ⟨-, F₂, O₂, vs₂, hinv₂, hch₂, -, hgrown⟩
    · exact absurd hzero hne
    · -- the object becomes a header, and the cache is as it was
      obtain ⟨vs₃, hlost, -, hgrown₃⟩ :=
        hinv₂.header_of_object hch₂ hgrown (h.ready v hvmem hin)
      have hvsc : v.addr ≠ sc := fun hsc => hin (h.block_slabCache hvmem hsc).2
      obtain ⟨v₃, hv₃, hkv⟩ := hgrown₃.kept.mem_left hvmem
      obtain rfl := hkv.other hvsc hvsc
      have hheader : headerAt hdr' ∈ (hdr' :: lost).map headerAt :=
        List.mem_map_of_mem List.mem_cons_self
      have hpage := hlost.fresh_page (.inr (hgrown₃.sub (Set.mem_insert _ _)))
        (hgrown₃.unslabbed _ (Set.mem_insert _ _) hun) (List.mem_append_right _ hheader)
      refine ⟨(hlost.lost_bounds List.mem_cons_self).2, hpage, ?_, hlost.cacheReady hv₃⟩
      exact (List.pairwise_append.mp hlost.sep).2.2 _
        (List.mem_flatMap.mpr ⟨_, hv₃, List.mem_cons_self⟩) _ hheader

end KmemInv

/-- A slab with blocks of 1024 bytes: an object is taken, the end of its block with the node is
overwritten, and it is given back. -/
theorem slab_accounting_sparse :
    ∃ slab k', kmemSlabCreate PageArenas.smallPages
        (fun k => kmemCacheAlloc PageArenas.smallPages 0x2000 2 k 0x2000) sparseKmem sparse.addr =
        some (slab, k') ∧ slab ≠ 0 ∧ 0 < slabCapacity k'.mem slab ∧
      ∃ s, [SlabOp.alloc, .overwrite 0x100000 1000 (List.replicate 24 0xff), .free 0x100000].foldlM
          (SlabState.step slab) ⟨k'.mem, []⟩ = some s ∧
        Accounted sparse slab (slabBase k'.mem slab) s := by
  have hmade : (kmemSlabCreate PageArenas.smallPages
      (fun k => kmemCacheAlloc PageArenas.smallPages 0x2000 2 k 0x2000) sparseKmem sparse.addr).map
        (fun r => (r.1, slabCapacity r.2.mem r.1,
          (SlabState.step r.1 ⟨r.2.mem, []⟩ .alloc).map SlabState.live)) =
      some (0x100fd8, 3, some [0x100000]) := by decide +kernel
  obtain ⟨⟨slab, k'⟩, hrun, heq⟩ := Option.map_eq_some_iff.mp hmade
  obtain ⟨hslab, heq⟩ := Prod.mk.inj heq
  obtain ⟨hcap, hlive⟩ := Prod.mk.inj heq
  have hne : slab ≠ 0 := hslab.trans_ne (by decide)
  have hpos : 0 < slabCapacity k'.mem slab := hcap.symm ▸ (by decide)
  have hsparse : sparse ∈ [] ++ sparse :: [] := List.mem_singleton_self _
  refine ⟨slab, k', hrun, hne, hpos, slab_accounting (kmemInv_sparse.cacheReady hsparse)
    (kmemInv_sparse.slabSources 0 ?_) hrun hne hpos _ ⟨trivial, fun s₁ hs₁ => ?_⟩⟩
  · intro u hu hslabs
    obtain rfl := List.mem_singleton.mp hu
    exact absurd rfl hslabs
  · rw [hs₁] at hlive
    have hmem : 0x100000 ∈ s₁.live := by
      rw [Option.some.inj hlive]
      exact List.mem_singleton_self _
    refine ⟨⟨hmem, by decide⟩, fun s₂ hs₂ => ⟨?_, fun _ _ => trivial⟩⟩
    obtain rfl := Option.some.inj hs₂
    exact hmem

end Manticore
