import Manticore.Mm.Slab
import Manticore.Base.Run

/-!
# Object caches

`kmem_cache_init`, `kmem_cache_alloc` and `kmem_cache_free` of `mm/kmem.c`, for any
number of caches that share the page allocator and `kmem_slab_cache`, from which the
caches of large objects take their slab headers.

A free goes to the first slab of the chain, whichever slab the object came from, and
the first slab is given back as soon as its counter says that all its blocks are free.
So the caches are sound as long as each freed object lies in the first slab's page.
-/

namespace Manticore

/-- The kernel's memory, with two records that the code does not keep: which pages each
cache has obtained and not yet passed to `page_free_small`, and which objects of
`kmem_slab_cache` were taken as slab headers. -/
structure Kmem (σ : Type) where
  pages : σ
  mem : Mem
  held : List (ℕ × ℕ)
  headers : List ℕ

variable {σ : Type} (A : PageAllocator σ)

/-- `kmem_slab_create`; `allocSlab` is `kmem_cache_alloc(&kmem_slab_cache)`. Returns `0`
for no slab; `none` is a fault. -/
def kmemSlabCreate (allocSlab : Kmem σ → Option (ℕ × Kmem σ)) (k : Kmem σ) (cache : ℕ) :
    Option (ℕ × Kmem σ) :=
  let (base, pages) := A.alloc k.pages
  let k := { k with pages := pages }
  if base = 0 then some (0, k)
  else if cacheSize k.mem cache < pageSizeSmall / 8 then do
    let slab := base + pageSizeSmall - sizeofKmemSlab
    let m ← kmemSlabSetup k.mem cache base slab (pageSizeSmall - sizeofKmemSlab)
    some (slab, { k with mem := m, held := (cache, base) :: k.held })
  else do
    let (slab, k) ← allocSlab k
    if slab = 0 then some (0, { k with pages := A.free k.pages base })
    else
      let m ← kmemSlabSetup k.mem cache base slab pageSizeSmall
      some (slab, { k with mem := m, held := (cache, base) :: k.held, headers := slab :: k.headers })

/-- `kmem_cache_alloc`, with `kmem_slab_cache` at `sc`. Returns `0` for out of memory;
`none` is a fault or out of fuel. -/
def kmemCacheAlloc (sc : ℕ) : ℕ → Kmem σ → ℕ → Option (ℕ × Kmem σ)
  | 0, _, _ => none
  | fuel + 1, k, cache => do
      let (obj, m) ← kmemSlabAllocObject k.mem (cacheSlab k.mem cache)
      let k := { k with mem := m }
      if obj ≠ 0 then some (obj, k)
      else
        let (slab, k) ← kmemSlabCreate A (fun k => kmemCacheAlloc sc fuel k sc) k cache
        if slab = 0 then some (0, k)
        else
          let m := store k.mem (slab + 24) 8 (cacheSlab k.mem cache)
          let m := store m (cache + 24) 8 slab
          kmemCacheAlloc sc fuel { k with mem := m } cache

def kmemSlabDestroy (k : Kmem σ) (slab : ℕ) : Kmem σ :=
  let base := slabBase k.mem slab
  { k with pages := A.free k.pages base, held := k.held.filter fun h => h.2 ≠ base }

/-- `kmem_cache_free`; `none` is a fault. -/
def kmemCacheFree (k : Kmem σ) (cache obj : ℕ) : Option (Kmem σ) := do
  let m ← kmemSlabFreeObject k.mem (cacheSlab k.mem cache) obj
  let k := { k with mem := m }
  let slab := cacheSlab m cache
  if kmemSlabIsFull m slab = false then some k
  else if slabNext m slab ≠ 0 then
    some (kmemSlabDestroy A { k with mem := store m (cache + 24) 8 (slabNext m slab) } slab)
  else some k

/-- `kmem_cache_init`; the name is not kept. -/
def kmemCacheInit (sc fuel : ℕ) (k : Kmem σ) (cache size align : ℕ) : Option (ℤ × Kmem σ) :=
  if alignUp size align < sizeofKmemBufctl then some (-einval, k)
  else do
    let m := store k.mem (cache + 8) 8 size
    let m := store m (cache + 16) 8 align
    let m := store m cache 8 (alignUp size align - sizeofKmemBufctl)
    let (slab, k) ← kmemSlabCreate A (fun k => kmemCacheAlloc A sc fuel k sc)
      { k with mem := m } cache
    some (0, { k with mem := store k.mem (cache + 24) 8 slab })

/-! ## What the caches own -/

namespace CacheView

variable (v : CacheView)

/-- The cache structure. -/
def struct : Span := ⟨v.addr, sizeofKmemCache⟩

def free : List ℕ := v.slabs.flatMap SlabView.free

/-- The memory of a cache: its structure, its slab headers and its blocks. -/
def spans : List Span :=
  v.struct :: (v.slabs.map SlabView.header ++ (v.free ++ v.live).map v.blockAt)

/-- What the cache's own bookkeeping is stored in: everything but the objects in use. -/
def deps : List Span := v.struct :: (v.slabs.map SlabView.header ++ v.free.map v.blockAt)

end CacheView

/-- The cache structure and the slabs, as they stand in memory. -/
structure CacheOk (m : Mem) (v : CacheView) : Prop where
  bufctl : cacheBufctl m v.addr = v.off
  size : cacheSize m v.addr = v.size
  align : cacheAlign m v.addr = v.align
  slabs : ∀ s ∈ v.slabs, SlabOk m v s

/-- The chain of slabs, from the cache structure on, once the cache has a slab. -/
def Chained (m : Mem) (v : CacheView) : Prop :=
  v.slabs ≠ [] → Linked (slabNext m) (cacheSlab m v.addr) (v.slabs.map SlabView.hdr)

/-- The slab headers kept outside the slabs' own pages. -/
def extHeaders (vs : List CacheView) : List ℕ :=
  vs.flatMap fun v => if v.InPage then [] else v.slabs.map SlabView.hdr

/-- The slab header at `x`. -/
def headerAt (x : ℕ) : Span := ⟨x, sizeofKmemSlab⟩

/-- `x` is a block of a held page of the cache at `c`, of `n` bytes or more. -/
def IsBlock (vs : List CacheView) (c n x : ℕ) : Prop :=
  ∃ v ∈ vs, v.addr = c ∧ n ≤ v.block ∧ ∃ s ∈ v.slabs, x ∈ v.blocks s.base

/-- `x` is an object of the cache at `c` that serves as a cache structure. -/
def IsStruct (vs : List CacheView) (c x : ℕ) : Prop := ∃ u ∈ vs, u.home = some c ∧ u.addr = x

/-- What holds of a cache `v` from its initialisation on, `P` being all pages. -/
structure ViewOk (sc : ℕ) (P : Set ℕ) (v : CacheView) : Prop where
  addr : v.addr ≠ 0 ∧ v.addr < 2 ^ 64
  fits : v.Fits
  /-- A static structure is not in a page. -/
  static : v.home = none → ∀ p ∈ P, v.struct.Apart ⟨p, pageSizeSmall⟩
  /-- `kmem_slab_cache` serves slab headers, which it keeps in its pages. -/
  slabCache : v.addr = sc → v.size = sizeofKmemSlab ∧ v.align = 8

/-- **The caches `vs` over memory `k`.** The pages `O` of the allocator are in use, and
`lost` are the headers of slabs given back, which nobody frees. -/
structure KmemInv (sc : ℕ) (F O : Set ℕ) (k : Kmem σ) (vs : List CacheView) (lost : List ℕ) :
    Prop where
  owns : A.Owns k.pages F O
  view : ∀ v ∈ vs, ViewOk sc (F ∪ O) v
  /-- No page is shared. -/
  bases : (vs.flatMap fun v => v.slabs.map SlabView.base).Nodup
  taken : ∀ v ∈ vs, ∀ s ∈ v.slabs, s.base ∈ O
  held : ∀ h, h ∈ k.held ↔ ∃ v ∈ vs, ∃ s ∈ v.slabs, h = (v.addr, s.base)
  ok : ∀ v ∈ vs, CacheOk k.mem v
  /-- Nothing overlaps. -/
  sep : (vs.flatMap CacheView.spans ++ lost.map headerAt).Pairwise Span.Apart
  inPage : ∀ v ∈ vs, v.InPage → ∀ s ∈ v.slabs, s.hdr = s.base + (pageSizeSmall - sizeofKmemSlab)
  headers : k.headers.Perm (extHeaders vs ++ lost)
  /-- Headers outside are blocks of `kmem_slab_cache`. -/
  outside : ∀ x ∈ extHeaders vs ++ lost, IsBlock vs sc sizeofKmemSlab x
  /-- Structures that are not static are blocks of their home. -/
  homed : ∀ v ∈ vs, ∀ c, v.home = some c → IsBlock vs c sizeofKmemCache v.addr
  free_sub : ∀ v ∈ vs, ∀ s ∈ v.slabs, ∀ x ∈ s.free, x ∈ v.blocks s.base
  live_sub : ∀ v ∈ vs, ∀ x ∈ v.live, IsBlock vs v.addr 0 x
  /-- Every block is free or in use. -/
  cover : ∀ v ∈ vs, ∀ s ∈ v.slabs, ∀ x ∈ v.blocks s.base,
    x ∈ s.free ∨ x ∈ v.live ∨ v.addr = sc ∧ x ∈ extHeaders vs ++ lost ∨ IsStruct vs v.addr x
  /-- Caches with headers outside come after `kmem_slab_cache`. -/
  ready : ∀ v ∈ vs, ¬ v.InPage → ∃ u ∈ vs, u.addr = sc ∧ u.slabs ≠ []

/-! ## Frames -/

variable {A} {sc c : ℕ} {F O : Set ℕ} {k : Kmem σ} {vs pre post : List CacheView}
  {lost : List ℕ} {v v' u : CacheView} {s : SlabView} {m m' : Mem} {w : List Span} {x p : ℕ}

theorem CacheView.struct_mem_deps (v : CacheView) : v.struct ∈ v.deps := List.mem_cons_self

theorem CacheView.header_mem_deps (hs : s ∈ v.slabs) : s.header ∈ v.deps :=
  List.mem_cons_of_mem _ (List.mem_append_left _ (List.mem_map_of_mem hs))

theorem CacheView.mem_free : x ∈ v.free ↔ ∃ s ∈ v.slabs, x ∈ s.free := List.mem_flatMap

theorem CacheView.free_mem_deps (hs : s ∈ v.slabs) (hx : x ∈ s.free) : v.blockAt x ∈ v.deps :=
  List.mem_cons_of_mem _ (List.mem_append_right _
    (List.mem_map_of_mem (CacheView.mem_free.mpr ⟨s, hs, hx⟩)))

theorem CacheView.deps_sub_spans {d : Span} (h : d ∈ v.deps) : d ∈ v.spans := by
  simp only [CacheView.deps, CacheView.spans, List.map_append, List.mem_cons,
    List.mem_append] at h ⊢
  tauto

theorem CacheView.live_mem_spans (hx : x ∈ v.live) : v.blockAt x ∈ v.spans :=
  List.mem_cons_of_mem _ (List.mem_append_right _
    (List.mem_map_of_mem (List.mem_append_right _ hx)))

theorem CacheOk.frame (h : CacheOk m v) (hfits : v.Fits) (hw : WritesOnly w m m')
    (hd : ∀ d ∈ w, ∀ e ∈ v.deps, d.Apart e) :
    CacheOk m' v ∧ cacheSlab m' v.addr = cacheSlab m v.addr ∧
      ∀ s ∈ v.slabs, slabNext m' s.hdr = slabNext m s.hdr := by
  have hcell : ∀ o, o + 8 ≤ 64 → load m' (v.addr + o) 8 = load m (v.addr + o) 8 := by
    intro o ho
    refine hw.load_eq (fun d hdw => hd d hdw _ v.struct_mem_deps) ?_ ?_ <;>
      simp only [CacheView.struct, sizeofKmemCache] <;> omega
  have hslab : ∀ s ∈ v.slabs, SlabOk m' v s ∧ slabNext m' s.hdr = slabNext m s.hdr := by
    intro s hs
    exact (h.slabs s hs).frame hfits.carved hw (fun d hdw => hd d hdw _ (CacheView.header_mem_deps hs))
      (fun x hx d hdw => hd d hdw _ (CacheView.free_mem_deps hs hx))
  have hbufctl := hcell 0 (by omega)
  rw [Nat.add_zero] at hbufctl
  refine ⟨⟨hbufctl.trans h.bufctl, (hcell 8 (by omega)).trans h.size,
    (hcell 16 (by omega)).trans h.align, fun s hs => (hslab s hs).1⟩, hcell 24 (by omega),
    fun s hs => (hslab s hs).2⟩

theorem Chained.frame (h : Chained m v) (hslab : cacheSlab m' v.addr = cacheSlab m v.addr)
    (hnext : ∀ s ∈ v.slabs, slabNext m' s.hdr = slabNext m s.hdr) : Chained m' v := by
  intro hne
  rw [hslab]
  refine (h hne).congr ?_
  intro b hb
  obtain ⟨s, hs, rfl⟩ := List.mem_map.mp hb
  exact hnext s hs

namespace KmemInv

theorem fits (h : KmemInv A sc F O k vs lost) (v : CacheView) (hv : v ∈ vs) : v.Fits :=
  (h.view v hv).fits

theorem split (h : KmemInv A sc F O k (pre ++ v :: post) lost) :
    v.spans.Pairwise Span.Apart ∧ (∀ d ∈ v.spans, ∀ u ∈ pre ++ post, ∀ e ∈ u.spans, d.Apart e) ∧
      ∀ d ∈ v.spans, ∀ x ∈ lost, d.Apart (headerAt x) := by
  have hsep := h.sep
  simp only [List.flatMap_append, List.flatMap_cons, List.append_assoc] at hsep
  obtain ⟨-, hrest, hpre⟩ := List.pairwise_append.mp hsep
  obtain ⟨hv, -, hpost⟩ := List.pairwise_append.mp hrest
  refine ⟨hv, ?_, ?_⟩
  · intro d hd u hu e he
    rcases List.mem_append.mp hu with hu | hu
    · exact (hpre e (List.mem_flatMap.mpr ⟨u, hu, he⟩) d (List.mem_append_left _ hd)).symm
    · exact hpost d hd e (List.mem_append_left _ (List.mem_flatMap.mpr ⟨u, hu, he⟩))
  · intro d hd x hx
    exact hpost d hd _ (List.mem_append_right _ (List.mem_map_of_mem hx))

theorem sep_append {ws ds : List Span} (h : KmemInv A sc F O k (pre ++ v :: post) lost)
    (hl : v.spans.Perm (ws ++ ds)) : ws.Pairwise Span.Apart ∧ ∀ d ∈ ws, ∀ e ∈ ds, d.Apart e := by
  have hp : (ws ++ ds).Pairwise Span.Apart := hl.pairwise h.split.1 fun hab => hab.symm
  obtain ⟨hws, -, hcross⟩ := List.pairwise_append.mp hp
  exact ⟨hws, hcross⟩

end KmemInv

/-! ## Changing the free lists of one cache -/

theorem ViewOk.mono {P P' : Set ℕ} (h : ViewOk sc P v) (hsub : P' ⊆ P) : ViewOk sc P' v :=
  ⟨h.addr, h.fits, fun hn p hp => h.static hn p (hsub hp), h.slabCache⟩

theorem ViewOk.reslab {P : Set ℕ} {sl : List SlabView} {lv : List ℕ} (h : ViewOk sc P v) :
    ViewOk sc P { v with slabs := sl, live := lv } :=
  ⟨h.addr, ⟨h.fits.1, h.fits.2, h.fits.3⟩, h.static, h.slabCache⟩

theorem SlabOk.reslab {sl : List SlabView} {lv : List ℕ} (h : SlabOk m v s) :
    SlabOk m { v with slabs := sl, live := lv } s :=
  ⟨h.cache, h.base, h.nrFree, h.capacity, h.list, h.addr⟩

/-- The slabs of a cache, by where they are. -/
def CacheView.places (v : CacheView) : List (ℕ × ℕ) := v.slabs.map fun s => (s.hdr, s.base)

section Places

variable {sl : List SlabView} {lv : List ℕ}
  (hp : sl.map (fun s => (s.hdr, s.base)) = v.places)

include hp

theorem map_hdr_of_places : sl.map SlabView.hdr = v.slabs.map SlabView.hdr := by
  have := congrArg (List.map Prod.fst) hp
  simpa [CacheView.places, Function.comp_def] using this

theorem map_base_of_places : sl.map SlabView.base = v.slabs.map SlabView.base := by
  have := congrArg (List.map Prod.snd) hp
  simpa [CacheView.places, Function.comp_def] using this

theorem extHeaders_of_places : extHeaders (pre ++ { v with slabs := sl, live := lv } :: post) =
    extHeaders (pre ++ v :: post) := by
  have hif : (if ({ v with slabs := sl, live := lv } : CacheView).InPage then []
      else sl.map SlabView.hdr) = if v.InPage then [] else v.slabs.map SlabView.hdr := by
    rw [map_hdr_of_places hp]
    rfl
  simp only [extHeaders, List.flatMap_append, List.flatMap_cons]
  rw [hif]

theorem place_of_mem (hs : s ∈ sl) : ∃ t ∈ v.slabs, t.hdr = s.hdr ∧ t.base = s.base := by
  have hmem : (s.hdr, s.base) ∈ v.places := hp ▸ List.mem_map_of_mem hs
  obtain ⟨t, ht, heq⟩ := List.mem_map.mp hmem
  exact ⟨t, ht, congrArg Prod.fst heq, congrArg Prod.snd heq⟩

theorem mem_base_of_places {b : ℕ} : (∃ s ∈ sl, s.base = b) ↔ ∃ s ∈ v.slabs, s.base = b := by
  have hmem : b ∈ sl.map SlabView.base ↔ b ∈ v.slabs.map SlabView.base := by
    rw [map_base_of_places hp]
  simpa using hmem

theorem isBlock_of_places {n : ℕ} :
    IsBlock (pre ++ { v with slabs := sl, live := lv } :: post) c n x ↔
      IsBlock (pre ++ v :: post) c n x := by
  have hv : (∃ s ∈ sl, x ∈ v.blocks s.base) ↔ ∃ s ∈ v.slabs, x ∈ v.blocks s.base := by
    constructor
    · rintro ⟨s, hs, hx⟩
      obtain ⟨t, ht, hb⟩ := (mem_base_of_places hp).mp ⟨s, hs, rfl⟩
      exact ⟨t, ht, hb ▸ hx⟩
    · rintro ⟨s, hs, hx⟩
      obtain ⟨t, ht, hb⟩ := (mem_base_of_places hp).mpr ⟨s, hs, rfl⟩
      exact ⟨t, ht, hb ▸ hx⟩
  have hv' : (n ≤ ({ v with slabs := sl, live := lv } : CacheView).block ∧
      ∃ s ∈ sl, x ∈ ({ v with slabs := sl, live := lv } : CacheView).blocks s.base) ↔
      n ≤ v.block ∧ ∃ s ∈ v.slabs, x ∈ v.blocks s.base := and_congr_right fun _ => hv
  simp only [IsBlock, List.mem_append, List.mem_cons, or_and_right, exists_or, exists_eq_left,
    hv']

theorem exists_place_of_places {e : ℕ × ℕ} :
    (∃ u ∈ pre ++ { v with slabs := sl, live := lv } :: post, ∃ s ∈ u.slabs,
      e = (u.addr, s.base)) ↔ ∃ u ∈ pre ++ v :: post, ∃ s ∈ u.slabs, e = (u.addr, s.base) := by
  have hv : (∃ s ∈ sl, e = (v.addr, s.base)) ↔ ∃ s ∈ v.slabs, e = (v.addr, s.base) := by
    constructor
    · rintro ⟨s, hs, rfl⟩
      obtain ⟨t, ht, hb⟩ := (mem_base_of_places hp).mp ⟨s, hs, rfl⟩
      exact ⟨t, ht, by rw [hb]⟩
    · rintro ⟨s, hs, rfl⟩
      obtain ⟨t, ht, hb⟩ := (mem_base_of_places hp).mpr ⟨s, hs, rfl⟩
      exact ⟨t, ht, by rw [hb]⟩
  simp only [List.mem_append, List.mem_cons, or_and_right, exists_or, exists_eq_left, hv]

end Places

theorem forall_mem_replace {P : CacheView → Prop} (hv : P v') (h : ∀ u ∈ pre ++ post, P u) :
    ∀ u ∈ pre ++ v' :: post, P u := by
  intro u hu
  simp only [List.mem_append, List.mem_cons] at hu h
  rcases hu with hu | rfl | hu
  · exact h u (Or.inl hu)
  · exact hv
  · exact h u (Or.inr hu)

theorem mem_of_others (hu : u ∈ pre ++ post) : u ∈ pre ++ v :: post := by
  simp only [List.mem_append, List.mem_cons] at hu ⊢
  tauto

theorem isStruct_reslab {sl : List SlabView} {lv : List ℕ} :
    IsStruct (pre ++ { v with slabs := sl, live := lv } :: post) c x ↔
      IsStruct (pre ++ v :: post) c x := by
  simp only [IsStruct, List.mem_append, List.mem_cons, or_and_right, exists_or, exists_eq_left]

theorem exists_addr_replace {a : ℕ} (haddr : v'.addr = v.addr)
    (hslabs : v.slabs ≠ [] → v'.slabs ≠ [])
    (h : ∃ u ∈ pre ++ v :: post, u.addr = a ∧ u.slabs ≠ []) :
    ∃ u ∈ pre ++ v' :: post, u.addr = a ∧ u.slabs ≠ [] := by
  obtain ⟨u, hu, ha, hne⟩ := h
  simp only [List.mem_append, List.mem_cons] at hu
  rcases hu with hu | rfl | hu
  · exact ⟨u, by simp [hu], ha, hne⟩
  · exact ⟨v', by simp, haddr.trans ha, hslabs hne⟩
  · exact ⟨u, by simp [hu], ha, hne⟩

/-- **Moving blocks between the free lists and the objects of one cache**, the slabs
staying where they are. -/
theorem KmemInv.update {sl : List SlabView} {lv : List ℕ}
    (h : KmemInv A sc F O k (pre ++ v :: post) lost) (hch : ∀ u ∈ pre ++ post, Chained k.mem u)
    (hp : sl.map (fun s => (s.hdr, s.base)) = v.places)
    (hspans : ({ v with slabs := sl, live := lv } : CacheView).spans.Perm v.spans)
    (hw : WritesOnly w k.mem m') (hout : ∀ d ∈ w, d ∈ v.spans)
    (hok : CacheOk m' { v with slabs := sl, live := lv })
    (hchain : Chained m' { v with slabs := sl, live := lv })
    (hfree : ∀ s ∈ sl, ∀ x ∈ s.free, x ∈ v.blocks s.base)
    (hlive : ∀ x ∈ lv, IsBlock (pre ++ v :: post) v.addr 0 x)
    (hcover : ∀ s ∈ sl, ∀ x ∈ v.blocks s.base,
      x ∈ s.free ∨ x ∈ lv ∨ v.addr = sc ∧ x ∈ extHeaders (pre ++ v :: post) ++ lost ∨
        IsStruct (pre ++ v :: post) v.addr x) :
    KmemInv A sc F O { k with mem := m' } (pre ++ { v with slabs := sl, live := lv } :: post) lost ∧
      ∀ u ∈ pre ++ { v with slabs := sl, live := lv } :: post, Chained m' u := by
  have hvmem : v ∈ pre ++ v :: post := by simp
  have hother : ∀ u ∈ pre ++ post, CacheOk m' u ∧ Chained m' u := by
    intro u hu
    obtain ⟨hcok, hslab, hnext⟩ := (h.ok u (mem_of_others hu)).frame (h.fits u (mem_of_others hu))
      hw fun d hd e he => h.split.2.1 d (hout d hd) u hu e (CacheView.deps_sub_spans he)
    exact ⟨hcok, (hch u hu).frame hslab hnext⟩
  have hbase : ∀ s ∈ sl, ∃ t ∈ v.slabs, t.base = s.base := fun s hs =>
    (mem_base_of_places hp).mp ⟨s, hs, rfl⟩
  have hslabs : v.slabs ≠ [] → sl ≠ [] := by
    rintro hne rfl
    exact hne (List.map_eq_nil_iff.mp hp.symm)
  refine ⟨?_, forall_mem_replace hchain fun u hu => (hother u hu).2⟩
  constructor
  · exact h.owns
  · exact forall_mem_replace (h.view v hvmem).reslab fun u hu => h.view u (mem_of_others hu)
  · have hb := h.bases
    simp only [List.flatMap_append, List.flatMap_cons] at hb ⊢
    rw [map_base_of_places hp]
    exact hb
  · refine forall_mem_replace (fun s hs => ?_) fun u hu => h.taken u (mem_of_others hu)
    obtain ⟨t, ht, hb⟩ := hbase s hs
    exact hb ▸ h.taken v hvmem t ht
  · intro e
    exact (h.held e).trans (exists_place_of_places hp).symm
  · exact forall_mem_replace hok fun u hu => (hother u hu).1
  · refine List.Perm.pairwise ?_ h.sep fun hab => hab.symm
    simp only [List.flatMap_append, List.flatMap_cons]
    exact ((hspans.symm.append_right _).append_left _).append_right _
  · refine forall_mem_replace (fun hin s hs => ?_) fun u hu => h.inPage u (mem_of_others hu)
    obtain ⟨t, ht, hhdr, hb⟩ := place_of_mem hp hs
    rw [← hhdr, ← hb]
    exact h.inPage v hvmem hin t ht
  · rw [extHeaders_of_places hp]
    exact h.headers
  · rw [extHeaders_of_places hp]
    intro x hx
    exact (isBlock_of_places hp).mpr (h.outside x hx)
  · refine forall_mem_replace (fun c hc => ?_) fun u hu c hc => ?_
    · exact (isBlock_of_places hp).mpr (h.homed v hvmem c hc)
    · exact (isBlock_of_places hp).mpr (h.homed u (mem_of_others hu) c hc)
  · exact forall_mem_replace hfree fun u hu => h.free_sub u (mem_of_others hu)
  · refine forall_mem_replace (fun x hx => (isBlock_of_places hp).mpr (hlive x hx))
      fun u hu x hx => ?_
    exact (isBlock_of_places hp).mpr (h.live_sub u (mem_of_others hu) x hx)
  · rw [extHeaders_of_places hp]
    simp only [isStruct_reslab]
    exact forall_mem_replace hcover fun u hu => h.cover u (mem_of_others hu)
  · exact forall_mem_replace
      (fun hv => exists_addr_replace (v := v) rfl hslabs (h.ready v hvmem hv))
      fun u hu hn => exists_addr_replace (v := v) rfl hslabs (h.ready u (mem_of_others hu) hn)

/-! ## Pages and blocks -/

namespace KmemInv

theorem isPage (h : KmemInv A sc F O k vs lost) (hv : v ∈ vs) (hs : s ∈ v.slabs) :
    IsPage s.base :=
  A.page h.owns (Or.inr (h.taken v hv s hs))

theorem base_eq {t : SlabView} (h : KmemInv A sc F O k vs lost) (hv : v ∈ vs) (hs : s ∈ v.slabs)
    (hu : u ∈ vs) (ht : t ∈ u.slabs) (hx : s.base ≤ x ∧ x < s.base + pageSizeSmall)
    (hx' : t.base ≤ x ∧ x < t.base + pageSizeSmall) : s.base = t.base := by
  by_contra hne
  have := (h.isPage hv hs).apart (h.isPage hu ht) hne
  omega

theorem in_page (h : KmemInv A sc F O k vs lost) (hv : v ∈ vs) {b : ℕ} (hx : x ∈ v.blocks b) :
    b ≤ x ∧ x < b + pageSizeSmall := by
  have hfits := h.fits v hv
  have hin := CacheView.block_in_page hfits.carved hx
  have husable := v.usable_le
  have hpos := hfits.bufctl
  simp only [sizeofKmemBufctl] at hpos
  omega

theorem base_ne {rest : List SlabView} (h : KmemInv A sc F O k (pre ++ v :: post) lost)
    (hslabs : v.slabs = s :: rest) {t : SlabView} (ht : t ∈ rest) : s.base ≠ t.base := by
  have hb := h.bases
  simp only [List.flatMap_append, List.flatMap_cons, hslabs, List.map_cons,
    List.cons_append] at hb
  have hnd := (List.nodup_append.mp hb).2.1
  intro heq
  refine (List.nodup_cons.mp hnd).1 (List.mem_append_left _ ?_)
  rw [heq]
  exact List.mem_map_of_mem ht

end KmemInv

/-! ## The first slab -/

variable {rest : List SlabView} {xs : List ℕ} {obj : ℕ}

theorem Chained.hdr_ne_zero (hch : Chained m v) (hs : s ∈ v.slabs) : s.hdr ≠ 0 :=
  (hch (List.ne_nil_of_mem hs)).ne_zero_of_mem (List.mem_map_of_mem hs)

theorem Chained.head (hch : Chained m v) (hslabs : v.slabs = s :: rest) :
    cacheSlab m v.addr = s.hdr := by
  rw [Chained, hslabs, List.map_cons] at hch
  exact (hch (List.cons_ne_nil _ _)).1

/-- **Moving blocks between the first slab's free list and the objects.** -/
theorem KmemInv.updateHead {fr lv : List ℕ} (h : KmemInv A sc F O k (pre ++ v :: post) lost)
    (hch : ∀ u ∈ pre ++ v :: post, Chained k.mem u) (hslabs : v.slabs = s :: rest)
    (hperm : (fr ++ lv).Perm (s.free ++ v.live)) (hw : WritesOnly w k.mem m')
    (hsub : ∀ d ∈ w, d ∈ v.spans) (hstruct : ∀ d ∈ w, d.Apart v.struct)
    (hrest : ∀ d ∈ w, ∀ t ∈ rest, d.Apart t.header ∧ ∀ x ∈ t.free, d.Apart (v.blockAt x))
    (hslab : SlabOk m' v { s with free := fr }) (hnext : slabNext m' s.hdr = slabNext k.mem s.hdr)
    (hfr : ∀ x ∈ fr, x ∈ v.blocks s.base) :
    KmemInv A sc F O { k with mem := m' }
        (pre ++ { v with slabs := { s with free := fr } :: rest, live := lv } :: post) lost ∧
      ∀ u ∈ pre ++ { v with slabs := { s with free := fr } :: rest, live := lv } :: post,
        Chained m' u := by
  have hvmem : v ∈ pre ++ v :: post := by simp
  have hok := h.ok v hvmem
  have hs : s ∈ v.slabs := hslabs ▸ List.mem_cons_self
  have hrestv : ∀ t ∈ rest, t ∈ v.slabs := fun t ht => hslabs ▸ List.mem_cons_of_mem _ ht
  have hrest' : ∀ t ∈ rest, SlabOk m' v t ∧ slabNext m' t.hdr = slabNext k.mem t.hdr := by
    intro t ht
    exact (hok.slabs t (hrestv t ht)).frame (h.fits v hvmem).carved hw
      (fun d hd => (hrest d hd t ht).1) fun x hx d hd => (hrest d hd t ht).2 x hx
  have hcell : ∀ o, o + 8 ≤ 64 → load m' (v.addr + o) 8 = load k.mem (v.addr + o) 8 := by
    intro o ho
    refine hw.load_eq hstruct ?_ ?_ <;> simp only [CacheView.struct, sizeofKmemCache] <;> omega
  have hmem : ∀ x, x ∈ fr ∨ x ∈ lv ↔ x ∈ s.free ∨ x ∈ v.live := by
    intro x
    rw [← List.mem_append, hperm.mem_iff, List.mem_append]
  refine h.update (fun u hu => hch u (mem_of_others hu)) ?_ ?_ hw hsub ?_ ?_ ?_ ?_ ?_
  · simp [CacheView.places, hslabs]
  · refine List.Perm.cons _ ?_
    simp only [hslabs, List.map_cons]
    refine List.Perm.append (List.Perm.refl _) (List.Perm.map _ ?_)
    rw [List.perm_iff_count]
    intro a
    have := hperm.count_eq a
    simp only [CacheView.free, hslabs, List.flatMap_cons, List.count_append] at this ⊢
    omega
  · have hbufctl := hcell 0 (by omega)
    rw [Nat.add_zero] at hbufctl
    refine ⟨hbufctl.trans hok.bufctl, (hcell 8 (by omega)).trans hok.size,
      (hcell 16 (by omega)).trans hok.align, ?_⟩
    intro t ht
    rcases List.mem_cons.mp ht with rfl | ht
    · exact hslab.reslab
    · exact (hrest' t ht).1.reslab
  · intro _
    have hchain := hch v hvmem (hslabs ▸ List.cons_ne_nil _ _)
    rw [hslabs] at hchain
    have hcs : cacheSlab m' v.addr = cacheSlab k.mem v.addr := hcell 24 (by omega)
    simp only [List.map_cons, hcs] at hchain ⊢
    refine hchain.congr ?_
    intro b hb
    rcases List.mem_cons.mp hb with rfl | hb
    · exact hnext
    · obtain ⟨t, ht, rfl⟩ := List.mem_map.mp hb
      exact (hrest' t ht).2
  · intro t ht x hx
    rcases List.mem_cons.mp ht with rfl | ht
    · exact hfr x hx
    · exact h.free_sub v hvmem t (hrestv t ht) x hx
  · intro x hx
    rcases (hmem x).mp (Or.inr hx) with hx | hx
    · exact ⟨v, hvmem, rfl, Nat.zero_le _, s, hs, h.free_sub v hvmem s hs x hx⟩
    · exact h.live_sub v hvmem x hx
  · intro t ht x hx
    rcases List.mem_cons.mp ht with rfl | ht
    · rcases h.cover v hvmem s hs x hx with hc | hc | hc
      · exact (hmem x).mpr (Or.inl hc) |>.imp_right Or.inl
      · exact (hmem x).mpr (Or.inr hc) |>.imp_right Or.inl
      · exact Or.inr (Or.inr hc)
    · rcases h.cover v hvmem t (hrestv t ht) x hx with hc | hc | hc
      · exact Or.inl hc
      · rcases (hmem x).mpr (Or.inr hc) with hfx | hlx
        · exact absurd (h.base_eq hvmem hs hvmem (hrestv t ht) (h.in_page hvmem (hfr x hfx))
            (h.in_page hvmem hx)) (h.base_ne hslabs ht)
        · exact Or.inr (Or.inl hlx)
      · exact Or.inr (Or.inr hc)

namespace KmemInv

theorem header_apart (h : KmemInv A sc F O k (pre ++ v :: post) lost)
    (hslabs : v.slabs = s :: rest) :
    s.header.Apart v.struct ∧ (∀ t ∈ rest, s.header.Apart t.header) ∧
      ∀ x ∈ v.free ++ v.live, s.header.Apart (v.blockAt x) := by
  have hperm : v.spans.Perm ([s.header] ++ (v.struct :: (rest.map SlabView.header ++
      (v.free ++ v.live).map v.blockAt))) := by
    simp only [CacheView.spans, hslabs, List.map_cons, List.cons_append, List.nil_append]
    exact List.Perm.swap _ _ _
  have hsep := (h.sep_append hperm).2 s.header (List.mem_singleton_self _)
  refine ⟨hsep _ List.mem_cons_self, fun t ht => hsep _ ?_, fun x hx => hsep _ ?_⟩
  · exact List.mem_cons_of_mem _ (List.mem_append_left _ (List.mem_map_of_mem ht))
  · exact List.mem_cons_of_mem _ (List.mem_append_right _ (List.mem_map_of_mem hx))

theorem live_apart (h : KmemInv A sc F O k (pre ++ v :: post) lost) (hobj : obj ∈ v.live) :
    (∀ e ∈ v.deps, (v.blockAt obj).Apart e) ∧
      ∀ x ∈ v.live.erase obj, (v.blockAt obj).Apart (v.blockAt x) := by
  have hlive : (v.free ++ v.live).Perm (obj :: (v.free ++ v.live.erase obj)) :=
    ((List.perm_cons_erase hobj).append_left _).trans List.perm_middle
  have hperm : v.spans.Perm ([v.blockAt obj] ++ (v.struct :: (v.slabs.map SlabView.header ++
      (v.free ++ v.live.erase obj).map v.blockAt))) := by
    simp only [CacheView.spans, List.cons_append, List.nil_append]
    refine (List.Perm.cons _ ?_).trans (List.Perm.swap _ _ _)
    have hmap := hlive.map v.blockAt
    rw [List.map_cons] at hmap
    exact (hmap.append_left _).trans List.perm_middle
  have hsep := (h.sep_append hperm).2 (v.blockAt obj) (List.mem_singleton_self _)
  refine ⟨fun e he => hsep e ?_, fun x hx => hsep _ ?_⟩
  · simp only [CacheView.deps, List.mem_cons, List.mem_append, List.map_append] at he ⊢
    tauto
  · exact List.mem_cons_of_mem _ (List.mem_append_right _
      (List.mem_map_of_mem (List.mem_append_right _ hx)))

theorem free_live_nodup (h : KmemInv A sc F O k (pre ++ v :: post) lost) :
    (v.free ++ v.live).Nodup := by
  have hpos : 0 < v.block :=
    lt_of_lt_of_le (by decide) (h.fits v (by simp)).bufctl
  have hsep := h.split.1
  rw [CacheView.spans, List.pairwise_cons, List.pairwise_append, List.pairwise_map,
    List.pairwise_map] at hsep
  refine hsep.2.2.1.imp ?_
  rintro x y hxy rfl
  simp only [Span.Apart, CacheView.blockAt] at hxy
  omega

theorem free_length_le (h : KmemInv A sc F O k (pre ++ v :: post) lost) (hs : s ∈ v.slabs) :
    s.free.length ≤ v.capacity := by
  have hvmem : v ∈ pre ++ v :: post := by simp
  have hnd : s.free.Nodup := by
    have hfree := (List.nodup_append.mp h.free_live_nodup).1
    exact (List.nodup_flatMap.mp hfree).1 s hs
  have hsub : s.free.Subperm (v.blocks s.base) :=
    hnd.subperm fun x hx => h.free_sub v hvmem s hs x hx
  simpa [CacheView.blocks] using hsub.length_le

theorem block_ne_zero (h : KmemInv A sc F O k vs lost) (hv : v ∈ vs) (hs : s ∈ v.slabs)
    (hx : x ∈ v.blocks s.base) : x ≠ 0 ∧ x + v.block ≤ 2 ^ 64 := by
  have hin := CacheView.block_in_page (h.fits v hv).carved hx
  have hpage := h.isPage hv hs
  have husable := v.usable_le
  have hpos := hpage.pos
  have hle := hpage.le
  omega

/-- **Allocation** from a first slab that has a free block. -/
theorem allocObject (h : KmemInv A sc F O k (pre ++ v :: post) lost)
    (hch : ∀ u ∈ pre ++ v :: post, Chained k.mem u) (hslabs : v.slabs = s :: rest)
    (hxs : s.free = x :: xs) :
    ∃ m', kmemSlabAllocObject k.mem (cacheSlab k.mem v.addr) = some (x, m') ∧ x ≠ 0 ∧
      KmemInv A sc F O { k with mem := m' }
        (pre ++ { v with slabs := { s with free := xs } :: rest, live := x :: v.live } :: post)
        lost ∧
      ∀ u ∈ pre ++ { v with slabs := { s with free := xs } :: rest, live := x :: v.live } :: post,
        Chained m' u := by
  have hvmem : v ∈ pre ++ v :: post := by simp
  have hs : s ∈ v.slabs := hslabs ▸ List.mem_cons_self
  have hchv := hch v hvmem
  obtain ⟨hstruct, hrest, hblocks⟩ := h.header_apart hslabs
  have hfree : ∀ t ∈ v.slabs, ∀ y ∈ t.free, s.header.Apart (v.blockAt y) := fun t ht y hy =>
    hblocks y (List.mem_append_left _ (CacheView.mem_free.mpr ⟨t, ht, hy⟩))
  obtain ⟨m', halloc, hw, hslab', hnext'⟩ := kmemSlabAllocObject_spec
    ((h.ok v hvmem).slabs s hs) (h.fits v hvmem).carved hxs (hchv.hdr_ne_zero hs)
    (by rw [← ((h.ok v hvmem).slabs s hs).nrFree]; exact load_lt _ _ 4) (hfree s hs)
  have hx : x ∈ v.blocks s.base := h.free_sub v hvmem s hs x (hxs ▸ List.mem_cons_self)
  refine ⟨m', (hchv.head hslabs).symm ▸ halloc, (h.block_ne_zero hvmem hs hx).1,
    h.updateHead hch hslabs ?_ hw ?_ ?_ ?_ hslab' hnext' ?_⟩
  · rw [hxs]
    exact List.perm_middle
  · intro d hd
    rw [List.mem_singleton.mp hd]
    exact CacheView.deps_sub_spans (CacheView.header_mem_deps hs)
  · intro d hd
    rw [List.mem_singleton.mp hd]
    exact hstruct
  · intro d hd t ht
    rw [List.mem_singleton.mp hd]
    exact ⟨hrest t ht, hfree t (hslabs ▸ List.mem_cons_of_mem _ ht)⟩
  · intro y hy
    exact h.free_sub v hvmem s hs y (hxs ▸ List.mem_cons_of_mem _ hy)

/-- **Freeing** an object that lies in the first slab's page. -/
theorem freeObject (h : KmemInv A sc F O k (pre ++ v :: post) lost)
    (hch : ∀ u ∈ pre ++ v :: post, Chained k.mem u) (hslabs : v.slabs = s :: rest)
    (hobj : obj ∈ v.live) (hblock : obj ∈ v.blocks s.base) :
    ∃ m', kmemSlabFreeObject k.mem (cacheSlab k.mem v.addr) obj = some m' ∧
      KmemInv A sc F O { k with mem := m' }
        (pre ++ { v with slabs := { s with free := obj :: s.free } :: rest,
                         live := v.live.erase obj } :: post) lost ∧
      ∀ u ∈ pre ++ { v with slabs := { s with free := obj :: s.free } :: rest,
                            live := v.live.erase obj } :: post, Chained m' u := by
  have hvmem : v ∈ pre ++ v :: post := by simp
  have hs : s ∈ v.slabs := hslabs ▸ List.mem_cons_self
  have hrestv : ∀ t ∈ rest, t ∈ v.slabs := fun t ht => hslabs ▸ List.mem_cons_of_mem _ ht
  have hchv := hch v hvmem
  have hfits := h.fits v hvmem
  obtain ⟨hstruct, hrest, hblocks⟩ := h.header_apart hslabs
  obtain ⟨hobjsep, -⟩ := h.live_apart hobj
  have hfree : ∀ t ∈ v.slabs, ∀ y ∈ t.free, s.header.Apart (v.blockAt y) := fun t ht y hy =>
    hblocks y (List.mem_append_left _ (CacheView.mem_free.mpr ⟨t, ht, hy⟩))
  obtain ⟨hne, hlt⟩ := h.block_ne_zero hvmem hs hblock
  have hlen : s.free.length + 1 < 2 ^ 32 := by
    have hle := h.free_length_le hs
    have hcap := hfits.carved.capacity_le
    omega
  obtain ⟨m', hrun, hw, hslab', hnext'⟩ := kmemSlabFreeObject_spec ((h.ok v hvmem).slabs s hs)
    hfits.carved (hchv.hdr_ne_zero hs) (h.ok v hvmem).bufctl hlen hne hlt
    (by
      intro y hy
      rcases List.mem_cons.mp hy with rfl | hy
      · exact hblocks y (List.mem_append_right _ hobj)
      · exact hfree s hs y hy)
    (fun y hy => hobjsep _ (CacheView.free_mem_deps hs hy))
  refine ⟨m', (hchv.head hslabs).symm ▸ hrun, h.updateHead hch hslabs ?_ hw ?_ ?_ ?_ hslab' hnext' ?_⟩
  · exact ((List.perm_cons_erase hobj).append_left _ |>.trans List.perm_middle).symm
  · intro d hd
    rcases List.mem_cons.mp hd with rfl | hd
    · exact CacheView.deps_sub_spans (CacheView.header_mem_deps hs)
    · rw [List.mem_singleton.mp hd]
      exact CacheView.live_mem_spans hobj
  · intro d hd
    rcases List.mem_cons.mp hd with rfl | hd
    · exact hstruct
    · rw [List.mem_singleton.mp hd]
      exact hobjsep _ v.struct_mem_deps
  · intro d hd t ht
    rcases List.mem_cons.mp hd with rfl | hd
    · exact ⟨hrest t ht, hfree t (hrestv t ht)⟩
    · rw [List.mem_singleton.mp hd]
      exact ⟨hobjsep _ (CacheView.header_mem_deps (hrestv t ht)),
        fun y hy => hobjsep _ (CacheView.free_mem_deps (hrestv t ht) hy)⟩
  · intro y hy
    rcases List.mem_cons.mp hy with rfl | hy
    · exact hblock
    · exact h.free_sub v hvmem s hs y hy

/-- **The owner writes** into an object in use. -/
theorem writeObject (h : KmemInv A sc F O k (pre ++ v :: post) lost)
    (hch : ∀ u ∈ pre ++ v :: post, Chained k.mem u) (hobj : obj ∈ v.live)
    (hw : WritesOnly [v.blockAt obj] k.mem m') :
    KmemInv A sc F O { k with mem := m' } (pre ++ v :: post) lost ∧
      ∀ u ∈ pre ++ v :: post, Chained m' u := by
  have hvmem : v ∈ pre ++ v :: post := by simp
  obtain ⟨hobjsep, -⟩ := h.live_apart hobj
  obtain ⟨hok, hslab, hnext⟩ := (h.ok v hvmem).frame (h.fits v hvmem) hw (by
    intro d hd e he
    rw [List.mem_singleton.mp hd]
    exact hobjsep e he)
  refine h.update (fun u hu => hch u (mem_of_others hu)) rfl
    (List.Perm.refl _) hw ?_ hok ((hch v hvmem).frame hslab hnext) (h.free_sub v hvmem)
    (h.live_sub v hvmem) (h.cover v hvmem)
  intro d hd
  rw [List.mem_singleton.mp hd]
  exact CacheView.live_mem_spans hobj

end KmemInv

end Manticore
