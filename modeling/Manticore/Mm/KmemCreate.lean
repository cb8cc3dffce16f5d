import Manticore.Mm.KmemLayout

/-!
# Creating a cache

`kmem_cache_create` takes the structure of the new cache from `kmem_cache_cache` and gives it
back when `kmem_cache_init` refuses the size. A first slab that could not be made is not
noticed: the cache is returned with no slab, and the first allocation from it dereferences
`NULL`. In every other case the cache serves any number of allocations.
-/

namespace Manticore

variable {σ : Type} (A : PageAllocator σ) (sc cc : ℕ)

/-- `kmem_cache_create`, with `kmem_cache_cache` at `cc`. Returns `0` for `NULL`; `none` is a
fault. -/
def kmemCacheCreate (fuel : ℕ) (k : Kmem σ) (size align : ℕ) : Option (ℕ × Kmem σ) := do
  let (cache, k) ← kmemCacheAlloc A sc fuel k cc
  if cache = 0 then some (0, k)
  else
    let (err, k) ← kmemCacheInit A sc fuel k cache size align
    if err < 0 then
      let k ← kmemCacheFree A k cc cache
      some (0, k)
    else some (cache, k)

/-- What `kmem_init` leaves when it finds memory: `kmem_cache_cache` and `kmem_slab_cache`
have slabs. Any number of other caches may have been created since. -/
structure KmemReady (F O : Set ℕ) (k : Kmem σ) (vs : List CacheView) (lost : List ℕ) : Prop where
  inv : KmemInv A sc F O k vs lost
  chained : ∀ u ∈ vs, Chained k.mem u
  cacheCache : ∃ u ∈ vs, u.addr = cc ∧ u.size = sizeofKmemCache ∧ u.align = 8 ∧ u.slabs ≠ []
  slabCache : ∃ u ∈ vs, u.addr = sc ∧ u.slabs ≠ []
  ne : cc ≠ sc

/-- `n` calls of `kmem_cache_alloc` on the cache at `c` do not fault, and return `NULL` or a
block of `b` bytes in a page the cache holds. -/
def Serves (c b : ℕ) : ℕ → Kmem σ → Prop
  | 0, _ => True
  | n + 1, k => ∃ obj k', kmemCacheAlloc A sc 3 k c = some (obj, k') ∧
      (obj = 0 ∨ ∃ p, (c, p) ∈ k'.held ∧ p ≤ obj ∧ obj + b ≤ p + pageSizeSmall) ∧
      Serves c b n k'

/-- The caches `vs` are in the state `k` as far as their callers can tell: the invariant
holds, and each has the objects in use that it had. -/
def SameLive (vs : List CacheView) (k : Kmem σ) : Prop :=
  ∃ F O vs' lost, KmemInv A sc F O k vs' lost ∧ (∀ u ∈ vs', Chained k.mem u) ∧
    ∀ u ∈ vs, ∃ u' ∈ vs', u'.addr = u.addr ∧ u'.live = u.live

/-- `r` is `NULL` and nothing is lost, or a usable cache. -/
def CreateOk (vs : List CacheView) (b : ℕ) (r : Option (ℕ × Kmem σ)) : Prop :=
  ∃ cache k', r = some (cache, k') ∧
    (cache = 0 ∧ SameLive A sc vs k' ∨ cache ≠ 0 ∧ ∀ n, Serves A sc cache b n k')

/-- The object `x` of the cache at `c` is in use, and lies in the cache's first slab. -/
def InFirstSlab (vs : List CacheView) (c x : ℕ) : Prop :=
  ∃ v ∈ vs, v.addr = c ∧ x ∈ v.live ∧ ∃ s rest, v.slabs = s :: rest ∧ x ∈ v.blocks s.base

/-- The allocator can give `n` pages. -/
def PageAllocator.Gives : ℕ → σ → Prop
  | 0, _ => True
  | n + 1, π => (A.alloc π).1 ≠ 0 ∧ Gives n (A.alloc π).2

instance PageAllocator.decidableGives : ∀ n π, Decidable (A.Gives n π)
  | 0, _ => isTrue trivial
  | n + 1, π =>
      have := decidableGives n (A.alloc π).2
      inferInstanceAs (Decidable (_ ∧ _))

/-- The pages that a new cache with a slab takes: one for the structure and one for the header, if
the first slabs of `kmem_cache_cache` and `kmem_slab_cache` are used up, and one for the slab. -/
def pagesNeeded (m : Mem) (size : ℕ) : ℕ :=
  (if HasFree m cc then 0 else 1) + 1 + (if size < pageSizeSmall / 8 ∨ HasFree m sc then 0 else 1)

/-- The size is refused, or there is no structure to be had, or the blocks fit into a page and the
cache and its slab can be made. -/
def CanCreate (k : Kmem σ) (size align : ℕ) : Prop :=
  alignUp size align < sizeofKmemBufctl ∨ ¬ HasFree k.mem cc ∧ ¬ A.Gives 1 k.pages ∨
    alignUp size align ≤ KmemState.usable size ∧ A.Gives (pagesNeeded sc cc k.mem size) k.pages

variable {A sc cc} {F O F' O' : Set ℕ} {k k' : Kmem σ} {vs vs' : List CacheView} {lost : List ℕ}
  {u v : CacheView} {a c obj size align cache : ℕ}

/-! ## Allocating from a cache -/

theorem KmemInv.serves (h : KmemInv A sc F O k vs lost) (hch : ∀ u ∈ vs, Chained k.mem u)
    (hu : u ∈ vs) (hne : u.slabs ≠ []) (n : ℕ) : Serves A sc u.addr u.block n k := by
  induction n generalizing F O k vs lost u with
  | zero => trivial
  | succ n ih =>
    obtain ⟨pre, post, rfl⟩ := List.append_of_mem hu
    obtain ⟨obj, k', hrun, hres⟩ := kmemCacheAlloc_spec 0 h hch hne
    refine ⟨obj, k', hrun, ?_⟩
    rcases hres with ⟨rfl, π, hπ, rfl⟩ | ⟨-, F', O', vs', hinv, hch', hfirst, hgrown⟩
    · refine ⟨Or.inl rfl, ?_⟩
      exact ih (h.setPages hπ subset_rfl h.taken) hch hu hne
    · obtain ⟨w, hw, haddr, s, rest, hslabs, hblock⟩ := hfirst
      obtain ⟨u', hu', hkv⟩ := hgrown.kept.mem_left hu
      obtain rfl : w = u' := hinv.view_eq hu' hw (haddr.trans hkv.addr.symm)
      have hb : w.block = u.block := by
        rw [CacheView.block, CacheView.block, hkv.size, hkv.align]
      have hin := CacheView.block_in_page (hinv.fits w hw).carved hblock
      have husable := w.usable_le
      refine ⟨Or.inr ⟨s.base, ?_, hin.1, ?_⟩, ?_⟩
      · refine (hinv.held _).mpr ⟨w, hw, s, ?_, by rw [haddr]⟩
        rw [hslabs]
        exact List.mem_cons_self
      · rw [← hb]
        omega
      · rw [← hb, ← haddr]
        exact ih hinv hch' hw (hkv.slabs hne)

theorem kmemCacheAlloc_no_slab (fuel : ℕ) (h : cacheSlab k.mem c = 0) :
    kmemCacheAlloc A sc fuel k c = none := by
  cases fuel with
  | zero => rfl
  | succ fuel => simp [kmemCacheAlloc, h, kmemSlabAllocObject]

/-! ## The structure of a new cache -/

theorem KmemInv.live_apart_deps (h : KmemInv A sc F O k vs lost) (hv : v ∈ vs)
    (hobj : obj ∈ v.live) : ∀ u ∈ vs, ∀ e ∈ u.deps, (v.blockAt obj).Apart e := by
  intro u hu e he
  obtain ⟨pre, post, rfl⟩ := List.append_of_mem hv
  by_cases huv : u = v
  · rw [huv] at he
    exact (h.live_apart hobj).1 e he
  · have hother : u ∈ pre ++ post := by
      rcases List.mem_append.mp hu with hu | hu
      · exact List.mem_append_left _ hu
      · exact List.mem_append_right _ ((List.mem_cons.mp hu).resolve_left huv)
    exact h.split.2.1 _ (CacheView.live_mem_spans hobj) u hother _ (CacheView.deps_sub_spans he)

theorem KmemInv.live_ne_addr (h : KmemInv A sc F O k vs lost) (hv : v ∈ vs) (hobj : obj ∈ v.live)
    (hu : u ∈ vs) : u.addr ≠ obj := by
  have hpos := (h.fits v hv).bufctl
  have hap : (v.blockAt obj).Apart u.struct := h.live_apart_deps hv hobj u hu _ u.struct_mem_deps
  rintro rfl
  simp only [Span.Apart, CacheView.blockAt, CacheView.struct, sizeofKmemCache,
    sizeofKmemBufctl] at hap hpos
  omega

namespace KmemReady

theorem of_kept {c : ℕ} {f : List ℕ → List ℕ} {lost' : List ℕ}
    (h : KmemReady A sc cc F O k vs lost) (hinv : KmemInv A sc F' O' k' vs' lost')
    (hch : ∀ u ∈ vs', Chained k'.mem u) (hk : Kept sc c f vs vs') :
    KmemReady A sc cc F' O' k' vs' lost' := by
  refine ⟨hinv, hch, ?_, ?_, h.ne⟩
  · obtain ⟨u, hu, haddr, hsize, halign, hslabs⟩ := h.cacheCache
    obtain ⟨u', hu', hkv⟩ := hk.mem_left hu
    exact ⟨u', hu', hkv.addr.trans haddr, hkv.size.trans hsize, hkv.align.trans halign,
      hkv.slabs hslabs⟩
  · obtain ⟨u, hu, haddr, hslabs⟩ := h.slabCache
    obtain ⟨u', hu', hkv⟩ := hk.mem_left hu
    exact ⟨u', hu', hkv.addr.trans haddr, hkv.slabs hslabs⟩

theorem alloc (fuel : ℕ) (h : KmemReady A sc cc F O k vs lost) :
    ∃ cache k₁, kmemCacheAlloc A sc (fuel + 3) k cc = some (cache, k₁) ∧
      (cache = 0 ∧ KmemReady A sc cc F O k₁ vs lost ∨
        cache ≠ 0 ∧ ∃ F₁ O₁ vs₁, KmemReady A sc cc F₁ O₁ k₁ vs₁ lost ∧
          Grown sc cc (cache :: ·) F O F₁ O₁ vs vs₁ ∧ InFirstSlab vs₁ cc cache) := by
  obtain ⟨u, hu, rfl, -, -, hslabs⟩ := h.cacheCache
  obtain ⟨pre, post, rfl⟩ := List.append_of_mem hu
  obtain ⟨cache, k₁, hrun, hres⟩ := kmemCacheAlloc_spec fuel h.inv h.chained hslabs
  refine ⟨cache, k₁, hrun, ?_⟩
  rcases hres with ⟨rfl, π, hπ, rfl⟩ | ⟨hne, F₁, O₁, vs₁, hinv, hch, hfirst, hgrown⟩
  · exact Or.inl ⟨rfl, { h with inv := h.inv.setPages hπ subset_rfl h.inv.taken }⟩
  · refine Or.inr ⟨hne, F₁, O₁, vs₁, h.of_kept hinv hch hgrown.kept, hgrown, ?_⟩
    obtain ⟨w, hw, haddr, hfirst⟩ := hfirst
    obtain ⟨v, hv, hkv⟩ := hgrown.kept.mem_left hu
    obtain rfl : w = v := hinv.view_eq hv hw (haddr.trans hkv.addr.symm)
    refine ⟨w, hw, haddr, ?_, hfirst⟩
    rw [hkv.live, if_pos rfl]
    exact List.mem_cons_self

theorem alloc_pages {fuel : ℕ} {k₁ : Kmem σ} (h : KmemReady A sc cc F O k vs lost)
    (hrun : kmemCacheAlloc A sc (fuel + 3) k cc = some (cache, k₁)) :
    (cache ≠ 0 ↔ HasFree k.mem cc ∨ (A.alloc k.pages).1 ≠ 0) ∧
      k₁.pages = (if HasFree k.mem cc then k.pages else (A.alloc k.pages).2) ∧
      (HasFree k₁.mem sc ↔ HasFree k.mem sc) := by
  obtain ⟨u, hu, rfl, hsize, -, hslabs⟩ := h.cacheCache
  obtain ⟨w, hw, rfl, hwslabs⟩ := h.slabCache
  have hin : u.InPage := by
    rw [CacheView.InPage, hsize]
    decide
  obtain ⟨pre, post, rfl⟩ := List.append_of_mem hu
  obtain ⟨hcache, hpages, F', O', vs', hinv, hch, hothers⟩ :=
    kmemCacheAlloc_pages h.inv h.chained hslabs hin hrun
  refine ⟨hcache, hpages, ?_⟩
  have hwother : w ∈ pre ++ post := by
    have hne : w ≠ u := fun heq => h.ne (heq ▸ rfl)
    rcases List.mem_append.mp hw with hw | hw
    · exact List.mem_append_left _ hw
    · exact List.mem_append_right _ ((List.mem_cons.mp hw).resolve_left hne)
  exact h.inv.hasFree_congr h.chained hw hinv hch (hothers w hwother) rfl rfl hwslabs

theorem viewOk_new (h : KmemReady A sc cc F O k vs lost) (hv : v ∈ vs) (hobj : obj ∈ v.live)
    (hfits : (KmemState.Backed.newView obj size align (some cc)).Fits) :
    ViewOk sc (F ∪ O) (KmemState.Backed.newView obj size align (some cc)) := by
  obtain ⟨s, hs, hblk⟩ := h.inv.live_block hv hobj
  obtain ⟨hne, hle⟩ := h.inv.block_ne_zero hv hs hblk
  have hpos := (h.inv.fits v hv).bufctl
  refine ⟨⟨hne, ?_⟩, hfits, fun hnone => ?_, fun hsc => ?_⟩
  · refine lt_of_lt_of_le (Nat.lt_add_of_pos_right ?_) hle
    exact lt_of_lt_of_le (by decide) hpos
  · cases hnone
  · obtain ⟨u, hu, haddr, -⟩ := h.slabCache
    exact absurd (haddr.trans hsc.symm) (h.inv.live_ne_addr hv hobj hu)

theorem sameLive (h : KmemReady A sc cc F O k vs lost) : SameLive A sc vs k :=
  ⟨F, O, vs, lost, h.inv, h.chained, fun u hu => ⟨u, hu, rfl, rfl⟩⟩

end KmemReady

/-! ## The three ways through `kmem_cache_create` -/

/-- The cache at `cache` is in use: its structure is an object that `vs₁` has in use, and `vs'`
are the caches with the new one. -/
structure Created (sc cc cache size align : ℕ) (vs vs₁ vs' : List CacheView) : Prop where
  taken : Kept sc cc (cache :: ·) vs vs₁
  first : InFirstSlab vs₁ cc cache
  fresh : ∀ u ∈ vs₁, u.addr ≠ cache
  kept : Kept sc cache id (KmemState.Backed.newView cache size align (some cc) ::
    vs₁.map (CacheView.without (some cc) cache)) vs'
  slabs : ∀ u ∈ vs', u.addr = cache → u.slabs ≠ []

theorem kmemCacheCreate_null {fuel : ℕ}
    (hrun : kmemCacheAlloc A sc fuel k cc = some (0, k')) :
    kmemCacheCreate A sc cc fuel k size align = some (0, k') := by
  simp [kmemCacheCreate, hrun]

theorem kmemCacheCreate_refused {fuel : ℕ} {F₁ O₁ : Set ℕ} {vs₁ : List CacheView}
    {lost₁ : List ℕ} {k₁ : Kmem σ} (hb : alignUp size align < sizeofKmemBufctl)
    (hrun : kmemCacheAlloc A sc fuel k cc = some (cache, k₁)) (hne : cache ≠ 0)
    (h : KmemReady A sc cc F₁ O₁ k₁ vs₁ lost₁) (hk : Kept sc cc (cache :: ·) vs vs₁)
    (hfirst : InFirstSlab vs₁ cc cache) :
    ∃ k', kmemCacheCreate A sc cc fuel k size align = some (0, k') ∧ SameLive A sc vs k' := by
  obtain ⟨v, hv, rfl, hlive, s, rest, hslabs, hblock⟩ := hfirst
  obtain ⟨pre, post, rfl⟩ := List.append_of_mem hv
  obtain ⟨k', hfree, F', O', vs', lost', hinv, hch, hk', -⟩ :=
    kmemCacheFree_spec h.inv h.chained hslabs hlive hblock
  have hinit : kmemCacheInit A sc fuel k₁ cache size align = some (-einval, k₁) := by
    rw [kmemCacheInit, if_pos hb]
  have hpos : 0 < einval := by decide
  refine ⟨k', ?_, F', O', vs', lost', hinv, hch, fun u hu => ?_⟩
  · simp [kmemCacheCreate, hrun, hne, hinit, hpos, hfree]
  · -- the object that was taken from `kmem_cache_cache` is the one that is erased
    obtain ⟨u', hu', hkv⟩ := (hk.trans hk').mem_left hu
    refine ⟨u', hu', hkv.addr, ?_⟩
    rw [hkv.live]
    simp

theorem kmemCacheCreate_accepted {fuel : ℕ} {F₁ O₁ : Set ℕ} {vs₁ : List CacheView}
    {lost₁ : List ℕ} {k₁ : Kmem σ}
    (hfits : (KmemState.Backed.newView cache size align (some cc)).Fits)
    (hsize : size < 2 ^ 64) (halign : align < 2 ^ 64)
    (hrun : kmemCacheAlloc A sc (fuel + 3) k cc = some (cache, k₁)) (hne : cache ≠ 0)
    (h : KmemReady A sc cc F₁ O₁ k₁ vs₁ lost₁) (hk : Kept sc cc (cache :: ·) vs vs₁)
    (hfirst : InFirstSlab vs₁ cc cache) :
    ∃ slab k₂ k', kmemSlabCreate A (fun k => kmemCacheAlloc A sc (fuel + 3) k sc)
        { k₁ with mem := cacheStruct k₁.mem cache size align } cache = some (slab, k₂) ∧
      kmemCacheCreate A sc cc (fuel + 3) k size align = some (cache, k') ∧
      cacheSlab k'.mem cache = slab ∧
      (slab ≠ 0 ↔ (A.alloc k₁.pages).1 ≠ 0 ∧ (size < pageSizeSmall / 8 ∨ HasFree k₁.mem sc ∨
        (A.alloc (A.alloc k₁.pages).2).1 ≠ 0)) ∧
      (slab ≠ 0 → ∃ F' O' vs', KmemInv A sc F' O' k' vs' lost₁ ∧
        (∀ u ∈ vs', Chained k'.mem u) ∧ Created sc cc cache size align vs vs₁ vs') := by
  obtain ⟨v, hv, haddr, hlive, hslab⟩ := hfirst
  have hview := h.viewOk_new hv hlive hfits
  have hplaced : (KmemState.Backed.newView cache size align (some cc)).Placed vs₁ := by
    obtain ⟨w, hw, hcc, hwsize, -⟩ := h.cacheCache
    obtain rfl : w = v := h.inv.view_eq hv hw (hcc.trans haddr.symm)
    exact ⟨w, hw, hcc, hwsize ▸ (h.inv.fits w hw).size, hlive⟩
  obtain ⟨slab, k₂, k', hmade, hinit, hcs, hres⟩ := kmemCacheInit_spec (fuel + 1) h.inv h.chained
    hview rfl rfl hplaced (fun _ => h.slabCache) hsize halign
  refine ⟨slab, k₂, k', hmade, ?_, hcs, h.inv.init_slab_iff h.chained hview rfl rfl hplaced
    h.slabCache hsize halign hmade, fun hslab0 => ?_⟩
  · have hinit' : kmemCacheInit A sc (fuel + 3) k₁ cache size align = some (0, k') := hinit
    simp [kmemCacheCreate, hrun, hne, hinit']
  · rcases hres with ⟨hzero, -⟩ | ⟨-, F', O', vs', hinv, hch, -, hk', hslabs⟩
    · exact absurd hzero hslab0
    · exact ⟨F', O', vs', hinv, hch, hk, ⟨v, hv, haddr, hlive, hslab⟩,
        fun u hu => h.inv.live_ne_addr hv hlive hu, hk', hslabs⟩

theorem gives_pagesNeeded_iff {m m₁ : Mem} {π₁ π : σ}
    (hcache : HasFree m cc ∨ (A.alloc π).1 ≠ 0)
    (hπ : π₁ = if HasFree m cc then π else (A.alloc π).2) (hsc : HasFree m₁ sc ↔ HasFree m sc) :
    A.Gives (pagesNeeded sc cc m size) π ↔ (A.alloc π₁).1 ≠ 0 ∧
      (size < pageSizeSmall / 8 ∨ HasFree m₁ sc ∨ (A.alloc (A.alloc π₁).2).1 ≠ 0) := by
  rw [hsc, hπ, pagesNeeded]
  by_cases hcc : HasFree m cc
  · by_cases hhdr : size < pageSizeSmall / 8 ∨ HasFree m sc
    · rw [if_pos hcc, if_pos hcc, if_pos hhdr, ← or_assoc]
      simp [PageAllocator.Gives, hhdr]
    · rw [if_pos hcc, if_pos hcc, if_neg hhdr, ← or_assoc]
      simp [PageAllocator.Gives, hhdr]
  · have hpage := hcache.resolve_left hcc
    by_cases hhdr : size < pageSizeSmall / 8 ∨ HasFree m sc
    · rw [if_neg hcc, if_neg hcc, if_pos hhdr, ← or_assoc]
      simp [PageAllocator.Gives, hhdr, hpage]
    · rw [if_neg hcc, if_neg hcc, if_neg hhdr, ← or_assoc]
      simp [PageAllocator.Gives, hhdr, hpage]

theorem KmemReady.create (fuel : ℕ) (h : KmemReady A sc cc F O k vs lost)
    (hsize : size < 2 ^ 64) (ha : a < 64) (halign : align = 2 ^ a) :
    (alignUp size align < sizeofKmemBufctl ∨ ¬ HasFree k.mem cc ∧ ¬ A.Gives 1 k.pages) ∧
        (∃ k', kmemCacheCreate A sc cc (fuel + 3) k size align = some (0, k') ∧
          SameLive A sc vs k') ∨
      ¬ alignUp size align < sizeofKmemBufctl ∧ (HasFree k.mem cc ∨ A.Gives 1 k.pages) ∧
        (alignUp size align ≤ KmemState.usable size → ∃ cache k₁ F₁ O₁ vs₁ k',
          KmemReady A sc cc F₁ O₁ k₁ vs₁ lost ∧ cache ≠ 0 ∧
          kmemCacheCreate A sc cc (fuel + 3) k size align = some (cache, k') ∧
          (cacheSlab k'.mem cache ≠ 0 ↔ A.Gives (pagesNeeded sc cc k.mem size) k.pages) ∧
          (cacheSlab k'.mem cache ≠ 0 → ∃ F' O' vs', KmemInv A sc F' O' k' vs' lost ∧
            (∀ u ∈ vs', Chained k'.mem u) ∧ Created sc cc cache size align vs vs₁ vs')) := by
  obtain ⟨cache, k₁, hrun, hres⟩ := h.alloc fuel
  obtain ⟨hcache, hpages, hsc⟩ := h.alloc_pages hrun
  have hgives : A.Gives 1 k.pages ↔ (A.alloc k.pages).1 ≠ 0 := and_iff_left trivial
  rw [hgives, ← not_or, ← hcache]
  rcases hres with ⟨rfl, hready⟩ | ⟨hne, F₁, O₁, vs₁, hready, hgrown, hfirst⟩
  · exact Or.inl ⟨Or.inr (not_not.mpr rfl), k₁, kmemCacheCreate_null hrun, hready.sameLive⟩
  · by_cases hb : alignUp size align < sizeofKmemBufctl
    · exact Or.inl ⟨Or.inl hb,
        kmemCacheCreate_refused hb hrun hne hready hgrown.kept hfirst⟩
    · refine Or.inr ⟨hb, hne, fun hfit => ?_⟩
      have hfits : (KmemState.Backed.newView cache size align (some cc)).Fits :=
        CacheView.fits_of_accepted ha halign hsize (not_lt.mp hb) hfit
      have halign64 : align < 2 ^ 64 := halign ▸ Nat.pow_lt_pow_right (by norm_num) ha
      obtain ⟨slab, k₂, k', -, hcreate, rfl, hslab, hok⟩ :=
        kmemCacheCreate_accepted hfits hsize halign64 hrun hne hready hgrown.kept hfirst
      exact ⟨cache, k₁, F₁, O₁, vs₁, k', hready, hne, hcreate,
        hslab.trans (gives_pagesNeeded_iff (hcache.mp hne) hpages hsc).symm, hok⟩

/-- **`kmem_cache_create`** fails cleanly or the cache is usable, if the size is refused, or there is
no structure to be had, or the blocks fit into a page and there are pages enough.  For blocks that fit
that is also necessary; other blocks have no place in the slab, and what allocating returns is what
happens to be in memory. -/
theorem kmem_cache_create_ok_iff (fuel : ℕ) (h : KmemReady A sc cc F O k vs lost)
    (hsize : size < 2 ^ 64) (ha : a < 64) (halign : align = 2 ^ a) :
    (CanCreate A sc cc k size align → CreateOk A sc vs (alignUp size align)
        (kmemCacheCreate A sc cc (fuel + 3) k size align)) ∧
      (alignUp size align ≤ KmemState.usable size → CreateOk A sc vs (alignUp size align)
        (kmemCacheCreate A sc cc (fuel + 3) k size align) → CanCreate A sc cc k size align) := by
  unfold CanCreate
  rcases h.create fuel hsize ha halign with ⟨hcase, k', hcreate, hsame⟩ | ⟨hb, hstruct, hmade⟩
  · exact ⟨fun _ => ⟨0, k', hcreate, Or.inl ⟨rfl, hsame⟩⟩, fun _ _ => hcase.imp_right Or.inl⟩
  · constructor
    · intro hcan
      obtain ⟨hfit, hgives⟩ :=
        (hcan.resolve_left hb).resolve_left fun hnone => hstruct.elim hnone.1 hnone.2
      obtain ⟨cache, k₁, F₁, O₁, vs₁, k', -, hne, hcreate, hslab, hok⟩ := hmade hfit
      obtain ⟨F', O', vs', hinv, hch, hmk⟩ := hok (hslab.mpr hgives)
      obtain ⟨u, hu, hkv⟩ := hmk.kept.mem_left List.mem_cons_self
      have haddr : u.addr = cache := hkv.addr
      have hblock : u.block = alignUp size align := by
        rw [CacheView.block, hkv.size, hkv.align]
        rfl
      refine ⟨cache, k', hcreate, Or.inr ⟨hne, fun n => ?_⟩⟩
      rw [← haddr, ← hblock]
      exact hinv.serves hch hu (hmk.slabs u hu haddr) n
    · rintro hfit ⟨cache', k'', hcreate', hcase⟩
      obtain ⟨cache, k₁, F₁, O₁, vs₁, k', -, hne, hcreate, hslab, -⟩ := hmade hfit
      rw [hcreate] at hcreate'
      obtain ⟨rfl, rfl⟩ := Prod.mk.inj (Option.some.inj hcreate')
      refine Or.inr (Or.inr ⟨hfit, hslab.mp fun hzero => ?_⟩)
      -- without a slab the first allocation faults
      obtain ⟨-, hserves⟩ := hcase.resolve_left fun hz => hne hz.1
      obtain ⟨obj, k₃, hobj, -⟩ := hserves 1
      rw [kmemCacheAlloc_no_slab 3 hzero] at hobj
      cases hobj

/-! ## After `kmem_init` -/

theorem KmemState.Backed.kmemReady {s : KmemState σ} {P : Set ℕ}
    (h : KmemState.Backed A sc P F O s vs lost) (hne : cc ≠ sc) (hcc : cc ∈ s.caches)
    (hsc : sc ∈ s.caches) (hsize : cacheSize s.k.mem cc = sizeofKmemCache)
    (halign : cacheAlign s.k.mem cc = 8) : KmemReady A sc cc F O s.k vs lost := by
  refine ⟨h.inv, h.chained, ?_, ?_, hne⟩
  · obtain ⟨u, hu, rfl⟩ := (h.caches cc).mp hcc
    rw [(h.inv.ok u hu).size] at hsize
    rw [(h.inv.ok u hu).align] at halign
    exact ⟨u, hu, rfl, hsize, halign, h.slabs u hu⟩
  · obtain ⟨u, hu, haddr⟩ := (h.caches sc).mp hsc
    exact ⟨u, hu, haddr, h.slabs u hu⟩

theorem KmemState.mem_caches_of_init {s s' : KmemState σ} {home : Option ℕ} {d : ℕ}
    (h : s.exec A sc (.init c size align home) = some s') (hd : d ∈ s'.caches) :
    d = c ∨ d ∈ s.caches := by
  rw [KmemState.exec, Option.bind_eq_bind] at h
  obtain ⟨⟨err, k'⟩, -, h⟩ := Option.bind_eq_some_iff.mp h
  dsimp only at h
  split_ifs at h
  · obtain rfl := Option.some.inj h
    cases home <;> exact List.mem_cons.mp hd
  · obtain rfl := Option.some.inj h
    exact Or.inr hd

section Boot

/-- The first two calls of `kmem_init`, with `kmem_cache_cache` at `0x1000` and
`kmem_slab_cache` at `0x2000`, over `n` bytes of pages. -/
def bootKmem (n : ℕ) (mem : Mem) : Option (KmemState PageArenas) :=
  run (KmemState.step PageArenas.smallPages 0x2000)
    (some (KmemState.start (PageArenas.ofSpan ⟨0x100000, n⟩) mem))
    [.init 0x1000 sizeofKmemCache 8 none, .init 0x2000 sizeofKmemSlab 8 none]

theorem kmemReady_boot {n : ℕ} {mem : Mem}
    (hseg : MemoryArena.PageSegment pageSizeSmall ⟨0x100000, n⟩)
    (hboot : (bootKmem n mem).map (fun s => (s.caches, cacheSize s.k.mem 0x1000,
      cacheAlign s.k.mem 0x1000)) = some ([0x2000, 0x1000], sizeofKmemCache, 8)) :
    ∃ s F O vs lost, bootKmem n mem = some s ∧
      KmemReady PageArenas.smallPages 0x2000 0x1000 F O s.k vs lost := by
  have hstatic : ∀ c, c + sizeofKmemCache ≤ 0x100000 → ∀ p ∈ {p | pageSizeSmall ∣ p ∧
      Span.Contains ⟨0x100000, n⟩ p} ∪ (∅ : Set ℕ),
      Span.Apart ⟨c, sizeofKmemCache⟩ ⟨p, pageSizeSmall⟩ := by
    rintro c hc p (⟨-, hlo, -⟩ | hp)
    · exact Or.inl (le_trans hc hlo)
    · cases hp
  have hstart := KmemState.backed_start PageArenas.smallPages 0x2000 mem
    (PageArenas.owns_ofSpan hseg)
  have hlegal₁ : (KmemState.start (PageArenas.ofSpan ⟨0x100000, n⟩) mem).Legal 0x2000
      ({p | pageSizeSmall ∣ p ∧ Span.Contains ⟨0x100000, n⟩ p} ∪ ∅)
      (.init 0x1000 sizeofKmemCache 8 none) :=
    ⟨by decide, by decide, by decide, by decide, fun hc => absurd hc (by decide),
      fun hle => absurd hle (by decide), hstatic _ (by decide), fun d hd => by cases hd⟩
  obtain ⟨s₁, F₁, O₁, vs₁, lost₁, hrun₁, hback₁⟩ :=
    hstart.next hlegal₁ (Or.inr ⟨by decide, by decide⟩)
  have hstep : KmemState.step PageArenas.smallPages 0x2000
      (some (KmemState.start (PageArenas.ofSpan ⟨0x100000, n⟩) mem))
      (.init 0x1000 sizeofKmemCache 8 none) = some s₁ := hrun₁
  have hlegal₂ : s₁.Legal 0x2000 ({p | pageSizeSmall ∣ p ∧ Span.Contains ⟨0x100000, n⟩ p} ∪ ∅)
      (.init 0x2000 sizeofKmemSlab 8 none) := by
    refine ⟨by decide, by decide, by decide, by decide, fun _ => ⟨rfl, rfl⟩,
      fun hle => absurd hle (by decide), hstatic _ (by decide), fun d hd => ?_⟩
    rcases KmemState.mem_caches_of_init hrun₁ hd with rfl | hd
    · exact Or.inr (by decide)
    · cases hd
  obtain ⟨s₂, F₂, O₂, vs₂, lost₂, hrun₂, hback₂⟩ :=
    hback₁.next hlegal₂ (Or.inr ⟨by decide, by decide⟩)
  have hend : bootKmem n mem = some s₂ := by
    rw [bootKmem, run_cons, hstep]
    exact hrun₂
  rw [hend, Option.map_some, Option.some.injEq] at hboot
  obtain ⟨hcaches, hmem⟩ := Prod.mk.inj hboot
  obtain ⟨hsize, halign⟩ := Prod.mk.inj hmem
  exact ⟨s₂, F₂, O₂, vs₂, lost₂, hend, hback₂.kmemReady (by decide) (by rw [hcaches]; decide)
    (by rw [hcaches]; decide) hsize halign⟩

theorem kmemReady_four_pages : ∃ s F O vs lost, bootKmem 0x4000 (fun _ => 0) = some s ∧
    KmemReady PageArenas.smallPages 0x2000 0x1000 F O s.k vs lost :=
  kmemReady_boot ⟨by decide, by decide, by decide, by decide, by decide⟩ (by decide +kernel)

/-- Four pages: the new cache has its slab in the third. -/
theorem kmem_cache_create_ok_four_pages :
    ∃ s F O vs lost, bootKmem 0x4000 (fun _ => 0) = some s ∧
      KmemReady PageArenas.smallPages 0x2000 0x1000 F O s.k vs lost ∧
      (kmemCacheCreate PageArenas.smallPages 0x2000 0x1000 3 s.k 128 8).map Prod.fst =
        some 0x100000 ∧
      CreateOk PageArenas.smallPages 0x2000 vs 128
        (kmemCacheCreate PageArenas.smallPages 0x2000 0x1000 3 s.k 128 8) := by
  have heval : (bootKmem 0x4000 fun _ => 0).bind (fun s =>
      (kmemCacheCreate PageArenas.smallPages 0x2000 0x1000 3 s.k 128 8).map fun r => (r.1,
        decide (PageArenas.smallPages.Gives (pagesNeeded 0x2000 0x1000 s.k.mem 128) s.k.pages))) =
        some (0x100000, true) := by decide +kernel
  obtain ⟨s, F, O, vs, lost, hs, hready⟩ := kmemReady_four_pages
  rw [hs, Option.bind_some] at heval
  obtain ⟨⟨cache, k₁⟩, hcreate, heval⟩ := Option.map_eq_some_iff.mp heval
  obtain ⟨hcache, hgives⟩ := Prod.mk.inj heval
  refine ⟨s, F, O, vs, lost, hs, hready, by rw [hcreate]; exact congrArg some hcache, ?_⟩
  have hok := (kmem_cache_create_ok_iff 0 hready (show 128 < 2 ^ 64 by decide)
    (show 3 < 64 by decide) (show 8 = 2 ^ 3 by norm_num)).1
    (Or.inr (Or.inr ⟨by decide, of_decide_eq_true hgives⟩))
  rwa [show alignUp 128 8 = 128 by decide] at hok

/-- With two pages the cache is returned without a slab, and allocating from it faults. With
blocks larger than a page the slab has no block, and allocating returns what happens to be in
memory. -/
theorem kmem_cache_create_unusable :
    (∃ s F O vs lost cache k', bootKmem 0x2000 (fun _ => 0) = some s ∧
      KmemReady PageArenas.smallPages 0x2000 0x1000 F O s.k vs lost ∧
      kmemCacheCreate PageArenas.smallPages 0x2000 0x1000 3 s.k 128 8 = some (cache, k') ∧
      cache ≠ 0 ∧ (∀ fuel, kmemCacheAlloc PageArenas.smallPages 0x2000 fuel k' cache = none) ∧
      ¬ CreateOk PageArenas.smallPages 0x2000 vs 128 (some (cache, k'))) ∧
    ∃ s F O vs lost cache k' obj, bootKmem 0x4000 (fun _ => 0x41) = some s ∧
      KmemReady PageArenas.smallPages 0x2000 0x1000 F O s.k vs lost ∧
      kmemCacheCreate PageArenas.smallPages 0x2000 0x1000 3 s.k 5000 8 = some (cache, k') ∧
      cache ≠ 0 ∧ obj ≠ 0 ∧ (∃ k'', kmemCacheAlloc PageArenas.smallPages 0x2000 3 k' cache =
        some (obj, k'')) ∧
      ¬ CreateOk PageArenas.smallPages 0x2000 vs 5000 (some (cache, k')) := by
  constructor
  · obtain ⟨s, F, O, vs, lost, hs, hready⟩ : ∃ s F O vs lost,
        bootKmem 0x2000 (fun _ => 0) = some s ∧
          KmemReady PageArenas.smallPages 0x2000 0x1000 F O s.k vs lost := kmemReady_boot
      ⟨by decide, by decide, by decide, by decide, by decide⟩ (by decide +kernel)
    have hcreate : (bootKmem 0x2000 fun _ => 0).bind (fun s =>
        (kmemCacheCreate PageArenas.smallPages 0x2000 0x1000 3 s.k 128 8).map fun r =>
          (r.1, cacheSlab r.2.mem r.1)) = some (0x100000, 0) := by decide +kernel
    rw [hs, Option.bind_some] at hcreate
    obtain ⟨⟨cache, k'⟩, hrun, hres⟩ := Option.map_eq_some_iff.mp hcreate
    obtain ⟨hcache, hslab⟩ := Prod.mk.inj hres
    have hfault : ∀ fuel, kmemCacheAlloc PageArenas.smallPages 0x2000 fuel k' cache = none :=
      fun fuel => kmemCacheAlloc_no_slab fuel hslab
    have hne : cache ≠ 0 := hcache.trans_ne (by decide)
    refine ⟨s, F, O, vs, lost, cache, k', hs, hready, hrun, hne, hfault, ?_⟩
    rintro ⟨cache', k'', heq, hcase⟩
    obtain ⟨rfl, rfl⟩ := some_pair_inj heq
    obtain ⟨-, hserves⟩ := hcase.resolve_left fun hz => hne hz.1
    obtain ⟨obj, k₃, hobj, -⟩ := hserves 1
    rw [hfault 3] at hobj
    cases hobj
  · obtain ⟨s, F, O, vs, lost, hs, hready⟩ : ∃ s F O vs lost,
        bootKmem 0x4000 (fun _ => 0x41) = some s ∧
          KmemReady PageArenas.smallPages 0x2000 0x1000 F O s.k vs lost := kmemReady_boot
      ⟨by decide, by decide, by decide, by decide, by decide⟩ (by decide +kernel)
    have hcreate : (bootKmem 0x4000 fun _ => 0x41).bind (fun s =>
        (kmemCacheCreate PageArenas.smallPages 0x2000 0x1000 3 s.k 5000 8).bind fun r =>
          (kmemCacheAlloc PageArenas.smallPages 0x2000 3 r.2 r.1).map fun q => (r.1, q.1)) =
        some (0x100000, 0x4141414141414141) := by decide +kernel
    rw [hs, Option.bind_some] at hcreate
    obtain ⟨⟨cache, k'⟩, hrun, hres⟩ := Option.bind_eq_some_iff.mp hcreate
    obtain ⟨⟨obj, k''⟩, halloc, hres⟩ := Option.map_eq_some_iff.mp hres
    obtain ⟨hcache, hobj⟩ := Prod.mk.inj hres
    have hne : cache ≠ 0 := hcache.trans_ne (by decide)
    have hobj0 : obj ≠ 0 := hobj.trans_ne (by decide)
    refine ⟨s, F, O, vs, lost, cache, k', obj, hs, hready, hrun, hne, hobj0, ⟨k'', halloc⟩, ?_⟩
    rintro ⟨cache', k₁, heq, hcase⟩
    obtain ⟨rfl, rfl⟩ := some_pair_inj heq
    obtain ⟨-, hserves⟩ := hcase.resolve_left fun hz => hne hz.1
    obtain ⟨obj', k₃, halloc', hin, -⟩ := hserves 1
    rw [halloc] at halloc'
    obtain ⟨rfl, rfl⟩ := Prod.mk.inj (Option.some.inj halloc')
    rcases hin with hz | ⟨p, -, hlo, hhi⟩
    · exact hobj0 hz
    · simp only [pageSizeSmall] at hhi
      omega

end Boot

end Manticore
