import Manticore.Mm.KmemRun

/-!
# The layout of a new slab

What `kmem_slab_create` leaves in memory, read from the memory itself: a free list through all
the blocks that fit in front of the header, in address order.
-/

namespace Manticore

variable {σ : Type} {A : PageAllocator σ} {sc : ℕ} {F O : Set ℕ} {k : Kmem σ}
  {pre post : List CacheView} {lost : List ℕ} {v : CacheView} {m : Mem} {slab base size i a : ℕ}

/-! ## Rounding to a power of two -/

theorem dvd_alignUp_two_pow (ha : a < 64) (x : ℕ) : 2 ^ a ∣ alignUp x (2 ^ a) := by
  have hlt : sub64 (add64 x (2 ^ a)) 1 < 2 ^ 64 := Nat.mod_lt _ (by decide)
  rw [alignUp, alignDown_two_pow ha hlt]
  exact Nat.dvd_mul_left _ _

theorem le_alignUp_two_pow (ha : a < 64) (hsize : size < 2 ^ 64)
    (hpos : alignUp size (2 ^ a) ≠ 0) : size ≤ alignUp size (2 ^ a) := by
  have hone : 1 ≤ 2 ^ a := Nat.one_le_two_pow
  have ha64 : 2 ^ a < 2 ^ 64 := Nat.pow_lt_pow_right (by norm_num) ha
  rcases Nat.lt_or_ge (size + 2 ^ a - 1) (2 ^ 64) with hlt | hge
  · exact le_alignUp hone (by omega)
  · -- the sum wraps to less than one unit, which is rounded down to 0
    refine absurd ?_ hpos
    have hinner : sub64 (add64 size (2 ^ a)) 1 = size + 2 ^ a - 1 - 2 ^ 64 := by
      simp only [sub64, add64]
      omega
    rw [alignUp, hinner, alignDown_two_pow ha (by omega), Nat.div_eq_of_lt (by omega),
      Nat.zero_mul]

theorem CacheView.fits_of_accepted (ha : a < 64) (halign : v.align = 2 ^ a)
    (hsize : v.size < 2 ^ 64) (haccept : sizeofKmemBufctl ≤ v.block) (hfit : v.block ≤ v.usable) :
    v.Fits := by
  refine ⟨haccept, ?_, hfit⟩
  have hblock : v.block = alignUp v.size (2 ^ a) := by rw [CacheView.block, halign]
  rw [hblock] at haccept ⊢
  refine le_alignUp_two_pow ha hsize ?_
  intro hzero
  rw [hzero] at haccept
  exact absurd haccept (by decide)

/-! ## The layout -/

/-- The slab at `slab` over the page `base`: the blocks are `v.block` bytes each, and as many as
fit into the `v.usable` bytes in front of the header. -/
structure SlabLayout (m : Mem) (v : CacheView) (slab base : ℕ) : Prop where
  page : IsPage base
  /-- The free list has all nodes, in address order, and ends in `NULL`. -/
  list : ∃ nodes, nodes = (List.range (v.usable / v.block)).map (v.node base) ∧
    Linked (bufctlNext m) (slabHead m slab) nodes
  addr : ∀ i < v.usable / v.block, bufctlAddr m (v.node base i) = base + i * v.block
  owner : ∀ i < v.usable / v.block, bufctlSlab m (v.node base i) = slab
  node : ∀ i < v.usable / v.block, base + i * v.block ≤ v.node base i ∧
    v.node base i + sizeofKmemBufctl ≤ base + i * v.block + v.block
  disjoint : ∀ i j, i < j → base + i * v.block + v.block ≤ base + j * v.block
  aligned : ∀ i < v.usable / v.block, v.align ∣ base + i * v.block
  inside : ∀ i < v.usable / v.block, base + i * v.block + v.block ≤ base + pageSizeSmall
  header : ∀ i < v.usable / v.block,
    Span.Apart ⟨slab, sizeofKmemSlab⟩ ⟨base + i * v.block, v.block⟩
  /-- A header in the page is behind the blocks. -/
  inPage : v.InPage → slab = base + (pageSizeSmall - sizeofKmemSlab)
  nrFree : slabNrFree m slab = v.usable / v.block
  capacity : slabCapacity m slab = v.usable / v.block

theorem CacheView.Fits.node_in_block (h : v.Fits) (base i : ℕ) :
    base + i * v.block ≤ v.node base i ∧
      v.node base i + sizeofKmemBufctl ≤ base + i * v.block + v.block := by
  have hoff := h.carved.off_add
  rw [CacheView.node]
  omega

theorem CacheView.aligned_block (ha : a ≤ 12) (halign : v.align = 2 ^ a) (hbase : 4096 ∣ base)
    (i : ℕ) : v.align ∣ base + i * v.block := by
  have hpage : 2 ^ a ∣ base := by
    rw [show 4096 = 2 ^ 12 by norm_num] at hbase
    exact (pow_dvd_pow 2 ha).trans hbase
  have hblock : 2 ^ a ∣ v.block := by
    rw [CacheView.block, halign]
    exact dvd_alignUp_two_pow (by omega) v.size
  rw [halign]
  exact dvd_add hpage (hblock.mul_left i)

theorem KmemInv.slabLayout (ha : a ≤ 12) (halign : v.align = 2 ^ a)
    (h : KmemInv A sc F O k
      (pre ++ { v with slabs := v.newSlab slab base :: v.slabs } :: post) lost)
    (hnew : IsNewSlab k.mem v slab base) : SlabLayout k.mem v slab base := by
  have hvmem := List.mem_append_right pre (List.mem_cons_self (l := post)
    (a := { v with slabs := v.newSlab slab base :: v.slabs }))
  have hslab := (h.ok _ hvmem).slabs _ List.mem_cons_self
  obtain ⟨hbufctl, hle, hblock⟩ := h.fits _ hvmem
  have hfits : v.Fits := ⟨hbufctl, hle, hblock⟩
  have hpage : IsPage base := h.isPage hvmem (List.mem_cons_self (a := v.newSlab slab base))
  have hmem : ∀ i < v.capacity, base + i * v.block ∈ v.blocks base :=
    fun i hi => CacheView.mem_blocks.mpr ⟨i, hi, rfl⟩
  constructor
  · exact hpage
  · have hlist : Linked (bufctlNext k.mem) (slabHead k.mem slab)
        ((v.blocks base).map (· + v.off)) := hslab.list
    refine ⟨_, ?_, hlist⟩
    rw [CacheView.blocks, List.map_map]
    rfl
  · intro i hi
    exact hslab.addr _ (hmem i hi)
  · exact hnew.nodes
  · exact fun i _ => hfits.node_in_block base i
  · intro i j hij
    have hmul := Nat.mul_le_mul_right v.block hij
    rw [Nat.succ_mul] at hmul
    omega
  · exact fun i _ => CacheView.aligned_block ha halign hpage.dvd i
  · intro i hi
    have hin := CacheView.block_in_page hfits.carved (hmem i hi)
    have husable := v.usable_le
    omega
  · intro i hi
    have hfree : base + i * v.block ∈
        ({ v with slabs := v.newSlab slab base :: v.slabs } : CacheView).free ++ v.live :=
      List.mem_append_left _ (CacheView.mem_free.mpr ⟨_, List.mem_cons_self, hmem i hi⟩)
    exact (h.header_apart rfl).2.2 _ hfree
  · intro hin
    exact h.inPage _ hvmem hin _ List.mem_cons_self
  · refine hslab.nrFree.trans ?_
    simp [CacheView.newSlab, CacheView.blocks, CacheView.capacity]
  · exact hslab.capacity

/-- **`kmem_slab_create`**, for a cache that `kmem_cache_init` accepts and whose blocks fit into
a page: it returns `NULL`, or a slab over a new page of the cache with all of the layout. -/
theorem kmem_slab_create_layout (fuel : ℕ) (h : KmemInv A sc F O k (pre ++ v :: post) lost)
    (hch : ∀ u ∈ pre ++ v :: post, Chained k.mem u) (ha : a ≤ 12) (halign : v.align = 2 ^ a) :
    ∃ slab k', kmemSlabCreate A (fun k => kmemCacheAlloc A sc (fuel + 2) k sc) k v.addr =
        some (slab, k') ∧
      (slab ≠ 0 → ∃ base, (v.addr, base) ∈ k'.held ∧ SlabLayout k'.mem v slab base) := by
  obtain ⟨slab, k', hrun, hres⟩ := kmemSlabCreate_spec fuel h hch
  refine ⟨slab, k', hrun, fun hne => ?_⟩
  rcases hres with ⟨hzero, -⟩ | ⟨-, F', O', pre', post', base, hinv, -, hnew, -⟩
  · exact absurd hzero hne
  · refine ⟨base, ?_, hinv.slabLayout ha halign hnew⟩
    exact (hinv.held _).mpr ⟨_, List.mem_append_right _ List.mem_cons_self, _, List.mem_cons_self,
      rfl⟩

/-- A static cache of 64-byte objects, aligned to 1024 bytes. -/
def sparse : CacheView := ⟨0x1000, 64, 1024, [], [], none⟩

/-- Four free pages, and `sparse` as `kmem_cache_init` sets it up. -/
def sparseKmem : Kmem PageArenas :=
  { fourFree.k with
    mem := store (store (store fourFree.k.mem (sparse.addr + 8) 8 sparse.size) (sparse.addr + 16) 8
      sparse.align) sparse.addr 8 (sparse.block - sizeofKmemBufctl) }

theorem kmemInv_sparse : KmemInv PageArenas.smallPages 0x2000
    {p | pageSizeSmall ∣ p ∧ Span.Contains ⟨0x100000, 0x4000⟩ p} ∅ sparseKmem
    ([] ++ sparse :: []) [] := by
  have hfits : sparse.Fits := ⟨by decide, by decide, by decide⟩
  have howns : PageArenas.smallPages.Owns (PageArenas.ofSpan ⟨0x100000, 0x4000⟩)
      {p | pageSizeSmall ∣ p ∧ Span.Contains ⟨0x100000, 0x4000⟩ p} ∅ :=
    PageArenas.owns_ofSpan ⟨by decide, by decide, by decide, by decide, by decide⟩
  have hstart := (KmemState.backed_start PageArenas.smallPages 0x2000 (fun _ => 0) howns).inv
  refine hstart.addCache (v := sparse) ⟨⟨by decide, by decide⟩, hfits, ?_, by decide⟩ rfl rfl
    (fun u hu => by cases hu) (fun hin => absurd (by decide) hin)
    (cacheOk_init hfits rfl (by decide) (by decide)) (fun u hu => by cases hu)
  rintro - p (⟨-, hlo, -⟩ | hp)
  · left
    exact le_trans (by decide) hlo
  · cases hp

/-- Three blocks of 1024 bytes in front of the header. -/
theorem kmem_slab_create_layout_sparse :
    ∃ slab k', kmemSlabCreate PageArenas.smallPages
        (fun k => kmemCacheAlloc PageArenas.smallPages 0x2000 2 k 0x2000) sparseKmem sparse.addr =
        some (slab, k') ∧ slab ≠ 0 ∧
      ∃ base, SlabLayout k'.mem sparse slab base ∧ sparse.usable / sparse.block = 3 := by
  have hslab : (kmemSlabCreate PageArenas.smallPages
      (fun k => kmemCacheAlloc PageArenas.smallPages 0x2000 2 k 0x2000) sparseKmem
      sparse.addr).map Prod.fst = some 0x100fd8 := by decide +kernel
  obtain ⟨slab, k', hrun, hlayout⟩ := kmem_slab_create_layout (a := 10) 0 kmemInv_sparse
    (fun u hu hne => by
      rw [List.nil_append, List.mem_singleton] at hu
      exact absurd (hu ▸ rfl) hne) (by decide) rfl
  rw [hrun, Option.map_some, Option.some.injEq] at hslab
  have hne : slab ≠ 0 := hslab.trans_ne (by decide)
  obtain ⟨base, -, hbase⟩ := hlayout hne
  exact ⟨slab, k', hrun, hne, base, hbase, by decide⟩

end Manticore
