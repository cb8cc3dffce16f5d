import Manticore.Mm.KmemRun

/-!
# Allocation by size

`kmem_alloc`, `kmem_zalloc` and `kmem_free` of `mm/kmem.c`: a size selects one of eight caches,
and what the caller gets is a block of that cache.
-/

namespace Manticore

def kmemAllocSizes : List ℕ := [32, 64, 128, 256, 512, 1024, 2048, 4096]

def kmemDefaultAlign : ℕ := 8

def kmemCacheIndex (size : ℕ) : ℕ :=
  if size ≤ 32 then 0
  else if size ≤ 64 then 1
  else if size ≤ 128 then 2
  else if size ≤ 256 then 3
  else if size ≤ 512 then 4
  else if size ≤ 1024 then 5
  else if size ≤ 2048 then 6
  else if size ≤ 4096 then 7
  else not64 0

/-- The array `kmalloc_caches` is at `kc`. -/
def kmemSizeToCache (kc size : ℕ) : Option ℕ :=
  let idx := kmemCacheIndex size
  if idx ≥ kmemAllocSizes.length then none else some (kc + idx * sizeofKmemCache)

namespace KmemState

variable {σ : Type} (A : PageAllocator σ) (sc kc : ℕ)

/-- `kmem_alloc`. Returns `0` for `NULL`; `none` is a fault. -/
def kmemAlloc (s : KmemState σ) (size : ℕ) : Option (ℕ × KmemState σ) :=
  match kmemSizeToCache kc size with
  | none => some (0, s)
  | some cache => do
      let (obj, k) ← kmemCacheAlloc A sc 3 s.k cache
      if obj = 0 then some (0, { s with k := k })
      else some (obj, { s with k := k, live := (cache, obj) :: s.live })

def kmemZalloc (s : KmemState σ) (size : ℕ) : Option (ℕ × KmemState σ) := do
  let (p, s) ← s.kmemAlloc A sc kc size
  if p = 0 then some (0, s)
  else some (p, { s with k := { s.k with mem := memset s.k.mem p 0 size } })

def kmemFree (s : KmemState σ) (ptr size : ℕ) : Option (KmemState σ) :=
  match kmemSizeToCache kc size with
  | none => some s
  | some cache => do
      let k ← kmemCacheFree A s.k cache ptr
      some { s with k := k, live := s.live.erase (cache, ptr) }

/-- The bytes of a block of the cache at `c`. -/
def blockBytes (s : KmemState σ) (c : ℕ) : ℕ := alignUp (cacheSize s.k.mem c) (cacheAlign s.k.mem c)

end KmemState

/-- The size class of a request. -/
def kmemClass (size : ℕ) : ℕ := (kmemAllocSizes[kmemCacheIndex size]?).getD 0

/-! ## Size classes -/

theorem kmemSizeToCache_of_lt {size : ℕ} (kc : ℕ) (h : 4096 < size) :
    kmemSizeToCache kc size = none := by
  have hidx : kmemCacheIndex size = not64 0 := by
    unfold kmemCacheIndex
    split_ifs <;> omega
  refine if_pos ?_
  rw [hidx]
  decide

theorem le_kmemClass {size : ℕ} (h : size ≤ 4096) : size ≤ kmemClass size := by
  unfold kmemClass kmemCacheIndex kmemAllocSizes
  split_ifs <;> first | exact absurd h ‹_› | (simp; omega)

theorem kmemClass_of_forall {P : ℕ → Prop} (hzero : P 0) (h : ∀ n ∈ kmemAllocSizes, P n)
    (size : ℕ) : P (kmemClass size) := by
  unfold kmemClass
  cases hget : kmemAllocSizes[kmemCacheIndex size]? with
  | none => exact hzero
  | some n => exact h n (List.mem_of_getElem? hget)

theorem kmemClass_le (size : ℕ) : kmemClass size ≤ 4096 :=
  kmemClass_of_forall (P := fun n => n ≤ 4096) (by decide) (by decide) size

theorem kmemClass_pow {size : ℕ} (h : size ≤ 4096) : ∃ j ≤ 12, kmemClass size = 2 ^ j := by
  unfold kmemClass kmemCacheIndex
  split_ifs
  exacts [⟨5, by decide, rfl⟩, ⟨6, by decide, rfl⟩, ⟨7, by decide, rfl⟩, ⟨8, by decide, rfl⟩,
    ⟨9, by decide, rfl⟩, ⟨10, by decide, rfl⟩, ⟨11, by decide, rfl⟩, ⟨12, by decide, rfl⟩]

theorem le_of_kmemSizeToCache {kc size c : ℕ} (h : kmemSizeToCache kc size = some c) :
    size ≤ 4096 := by
  by_contra hlt
  rw [kmemSizeToCache_of_lt kc (not_le.mp hlt)] at h
  cases h

theorem kmemCacheIndex_lt {size : ℕ} (h : size ≤ 4096) : kmemCacheIndex size < 8 := by
  unfold kmemCacheIndex
  split_ifs <;> decide

theorem kmemSizeToCache_of_le {size : ℕ} (kc : ℕ) (h : size ≤ 4096) :
    kmemSizeToCache kc size = some (kc + kmemCacheIndex size * sizeofKmemCache) :=
  if_neg (not_le.mpr (kmemCacheIndex_lt h))

theorem kmemCacheIndex_kmemClass {size : ℕ} (h : size ≤ 4096) :
    kmemCacheIndex (kmemClass size) = kmemCacheIndex size := by
  have hall : ∀ i < 8, kmemCacheIndex ((kmemAllocSizes[i]?).getD 0) = i := by decide
  exact hall _ (kmemCacheIndex_lt h)

theorem alignUp_kmemClass (size : ℕ) :
    alignUp (kmemClass size) kmemDefaultAlign = kmemClass size :=
  kmemClass_of_forall (P := fun n => alignUp n kmemDefaultAlign = n) (by decide) (by decide) size

namespace KmemState

variable {σ : Type} {A : PageAllocator σ} {sc kc size : ℕ} {P F O : Set ℕ} {s s' : KmemState σ}
  {vs : List CacheView} {lost : List ℕ}

/-- `kmem_init` has made the cache that serves requests of `size` bytes, if one does. -/
def Serving (kc size : ℕ) (s : KmemState σ) : Prop :=
  ∀ c, kmemSizeToCache kc size = some c → c ∈ s.caches ∧
    cacheSize s.k.mem c = kmemClass size ∧ cacheAlign s.k.mem c = kmemDefaultAlign

/-- The caches of `s'` are those of `s`, and no object has been freed. -/
structure Extends (s s' : KmemState σ) : Prop where
  caches : s'.caches = s.caches
  size : ∀ c ∈ s.caches, cacheSize s'.k.mem c = cacheSize s.k.mem c
  align : ∀ c ∈ s.caches, cacheAlign s'.k.mem c = cacheAlign s.k.mem c
  live : ∀ e ∈ s.live, e ∈ s'.live

theorem Extends.refl (s : KmemState σ) : s.Extends s :=
  ⟨rfl, fun _ _ => rfl, fun _ _ => rfl, fun _ h => h⟩

theorem Extends.trans {s₁ s₂ s₃ : KmemState σ} (h : s₁.Extends s₂) (h' : s₂.Extends s₃) :
    s₁.Extends s₃ :=
  ⟨h'.caches.trans h.caches,
    fun c hc => (h'.size c (h.caches.symm ▸ hc)).trans (h.size c hc),
    fun c hc => (h'.align c (h.caches.symm ▸ hc)).trans (h.align c hc),
    fun e he => h'.live e (h.live e he)⟩

theorem Serving.extends (h : Serving kc size s) (hext : s.Extends s') : Serving kc size s' := by
  intro c hc
  obtain ⟨hmem, hsize, halign⟩ := h c hc
  exact ⟨hext.caches.symm ▸ hmem, (hext.size c hmem).trans hsize,
    (hext.align c hmem).trans halign⟩

theorem Serving.blockBytes_eq (h : Serving kc size s) {c : ℕ}
    (hc : kmemSizeToCache kc size = some c) : s.blockBytes c = kmemClass size := by
  obtain ⟨-, hsize, halign⟩ := h c hc
  rw [blockBytes, hsize, halign, alignUp_kmemClass]

theorem Backed.cells_of_views {F' O' : Set ℕ} {vs' : List CacheView} {lost' : List ℕ}
    (h : s.Backed A sc P F O vs lost) (h' : s'.Backed A sc P F' O' vs' lost')
    (hviews : ∀ u ∈ vs, ∃ u' ∈ vs', u'.addr = u.addr ∧ u'.size = u.size ∧ u'.align = u.align) :
    ∀ c ∈ s.caches, cacheSize s'.k.mem c = cacheSize s.k.mem c ∧
      cacheAlign s'.k.mem c = cacheAlign s.k.mem c := by
  intro c hc
  obtain ⟨u, hu, rfl⟩ := (h.caches c).mp hc
  obtain ⟨u', hu', haddr, hsize, halign⟩ := hviews u hu
  rw [(h.inv.ok u hu).size, (h.inv.ok u hu).align, ← haddr, (h'.inv.ok u' hu').size,
    (h'.inv.ok u' hu').align]
  exact ⟨hsize, halign⟩

theorem Backed.extends_of_views {F' O' : Set ℕ} {vs' : List CacheView} {lost' : List ℕ}
    (h : s.Backed A sc P F O vs lost) (h' : s'.Backed A sc P F' O' vs' lost')
    (hcaches : s'.caches = s.caches) (hlive : ∀ e ∈ s.live, e ∈ s'.live)
    (hviews : ∀ u ∈ vs, ∃ u' ∈ vs', u'.addr = u.addr ∧ u'.size = u.size ∧ u'.align = u.align) :
    s.Extends s' :=
  have hcell := h.cells_of_views h' hviews
  ⟨hcaches, fun c hc => (hcell c hc).1, fun c hc => (hcell c hc).2, hlive⟩

theorem Backed.memset_object {c obj n : ℕ} (h : s.Backed A sc P F O vs lost)
    (hobj : (c, obj) ∈ s.live) (hn : n ≤ cacheSize s.k.mem c) :
    Backed A sc P F O { s with k := { s.k with mem := memset s.k.mem obj 0 n } } vs lost ∧
      s.Extends { s with k := { s.k with mem := memset s.k.mem obj 0 n } } := by
  obtain ⟨v, hv, rfl, hlive⟩ := h.exists_live hobj
  have hsize := (h.inv.fits v hv).size
  rw [(h.inv.ok v hv).size] at hn
  obtain ⟨pre, post, rfl⟩ := List.append_of_mem hv
  have hw : WritesOnly [v.blockAt obj] s.k.mem (memset s.k.mem obj 0 n) := by
    intro x hx
    apply memset_of_disjoint
    by_contra hin
    refine hx ⟨_, List.mem_singleton_self _, ?_⟩
    simp only [Span.Contains, CacheView.blockAt]
    omega
  obtain ⟨hinv, hch⟩ := h.inv.writeObject h.chained hlive hw
  have hback : Backed A sc P F O { s with k := { s.k with mem := memset s.k.mem obj 0 n } }
      (pre ++ v :: post) lost := { h with inv := hinv, chained := hch }
  exact ⟨hback, h.extends_of_views hback rfl (fun _ he => he)
    fun u hu => ⟨u, hu, rfl, rfl, rfl⟩⟩

theorem Backed.cacheAlloc {c : ℕ} (h : s.Backed A sc P F O vs lost) (hc : c ∈ s.caches) :
    ∃ obj k', kmemCacheAlloc A sc 3 s.k c = some (obj, k') ∧
      (obj = 0 ∧ (∃ F' O' vs', Backed A sc P F' O' { s with k := k' } vs' lost) ∧
          s.Extends { s with k := k' } ∨
        obj ≠ 0 ∧ (∃ F' O' vs',
          Backed A sc P F' O' { s with k := k', live := (c, obj) :: s.live } vs' lost) ∧
          s.Extends { s with k := k', live := (c, obj) :: s.live }) := by
  obtain ⟨v, hv, rfl⟩ := (h.caches c).mp hc
  have hslabs := h.slabs v hv
  obtain ⟨pre, post, rfl⟩ := List.append_of_mem hv
  obtain ⟨obj, k', hrun, hres⟩ := kmemCacheAlloc_spec 0 h.inv h.chained hslabs
  refine ⟨obj, k', hrun, ?_⟩
  rcases hres with ⟨rfl, π, hπ, rfl⟩ | ⟨hne, F', O', vs', hinv, hch, -, hgrown⟩
  · have hback : Backed A sc P F O { s with k := { s.k with pages := π } } (pre ++ v :: post)
        lost := { h with inv := h.inv.setPages hπ subset_rfl h.inv.taken }
    exact Or.inl ⟨rfl, ⟨F, O, _, hback⟩, rfl, fun _ _ => rfl, fun _ _ => rfl, fun _ he => he⟩
  · have hback := h.of_alloc hv hinv hch hgrown
    refine Or.inr ⟨hne, ⟨F', O', vs', hback⟩, h.extends_of_views hback rfl
      (fun e he => List.mem_cons_of_mem _ he) fun u hu => ?_⟩
    obtain ⟨u', hu', hkv⟩ := hgrown.kept.mem_left hu
    exact ⟨u', hu', hkv.addr, hkv.size, hkv.align⟩

/-- **`kmem_zalloc`** does not fault: it returns `NULL`, or a block of the cache that the size
selects. -/
theorem Backed.kmemZalloc (h : s.Backed A sc P F O vs lost) (hserving : Serving kc size s) :
    ∃ p s' F' O' vs', s.kmemZalloc A sc kc size = some (p, s') ∧
      s'.Backed A sc P F' O' vs' lost ∧ s.Extends s' ∧
      (p ≠ 0 → ∃ c, kmemSizeToCache kc size = some c ∧ (c, p) ∈ s'.live) := by
  cases hcache : kmemSizeToCache kc size with
  | none =>
      refine ⟨0, s, F, O, vs, ?_, h, Extends.refl s, fun hne => absurd rfl hne⟩
      simp only [KmemState.kmemZalloc, kmemAlloc, hcache]
      rfl
  | some c =>
      obtain ⟨hmem, hsize, halign⟩ := hserving c hcache
      obtain ⟨obj, k', hrun, hres⟩ := h.cacheAlloc hmem
      rcases hres with ⟨rfl, ⟨F', O', vs', hback⟩, hext⟩ | ⟨hne, ⟨F', O', vs', hback⟩, hext⟩
      · refine ⟨0, _, F', O', vs', ?_, hback, hext, fun hne => absurd rfl hne⟩
        simp only [KmemState.kmemZalloc, kmemAlloc, hcache, hrun]
        rfl
      · -- the bytes cleared are bytes of the block
        have hle : size ≤ kmemClass size := le_kmemClass (le_of_kmemSizeToCache hcache)
        have hsize' : size ≤ cacheSize k'.mem c := by
          rw [hext.size c hmem, hsize]
          exact hle
        obtain ⟨hback', hext'⟩ := hback.memset_object List.mem_cons_self hsize'
        refine ⟨obj, _, F', O', vs', ?_, hback', hext.trans hext', fun _ =>
          ⟨c, rfl, List.mem_cons_self⟩⟩
        simp [KmemState.kmemZalloc, kmemAlloc, hcache, hrun, hne]

end KmemState

/-! ## After `kmem_init` -/

section Boot

/-- Some of the calls of `kmem_init`, with `kmem_slab_cache` at `0x2000`, over `n` bytes of
pages: the addresses of static caches and their sizes. -/
def bootKmalloc (n : ℕ) (caches : List (ℕ × ℕ)) : Option (KmemState PageArenas) :=
  run (KmemState.step PageArenas.smallPages 0x2000)
    (some (KmemState.start (PageArenas.ofSpan ⟨0x100000, n⟩) fun _ => 0))
    (caches.map fun e => .init e.1 e.2 kmemDefaultAlign none)

/-- What `kmem_init` looks after: its caches are apart from each other and below the pages, their
blocks fit, and `kmem_slab_cache` is there before it is needed. -/
def StaticCache (made : List ℕ) (c size : ℕ) : Prop :=
  c ≠ 0 ∧ c + sizeofKmemCache ≤ 0x100000 ∧ (c = 0x2000 → size = sizeofKmemSlab) ∧
    (pageSizeSmall / 8 ≤ size → 0x2000 ∈ made) ∧
    (∀ d ∈ made, Span.Apart ⟨c, sizeofKmemCache⟩ ⟨d, sizeofKmemCache⟩) ∧
    size ≤ alignUp size kmemDefaultAlign ∧ alignUp size kmemDefaultAlign ≤ KmemState.usable size

instance (made : List ℕ) (c size : ℕ) : Decidable (StaticCache made c size) := by
  unfold StaticCache Span.Apart
  infer_instance

/-- The pages of `n` bytes. -/
def bootPages (n : ℕ) : Set ℕ := {p | pageSizeSmall ∣ p ∧ Span.Contains ⟨0x100000, n⟩ p} ∪ ∅

theorem backed_bootKmalloc_nil {n : ℕ}
    (hseg : MemoryArena.PageSegment pageSizeSmall ⟨0x100000, n⟩) :
    KmemState.Backed.Next PageArenas.smallPages 0x2000 (bootPages n) (bootKmalloc n []) :=
  ⟨_, _, _, [], [], rfl, KmemState.backed_start PageArenas.smallPages 0x2000 _
    (PageArenas.owns_ofSpan hseg)⟩

theorem backed_bootKmalloc_concat {n c size : ℕ} {caches : List (ℕ × ℕ)} {made : List ℕ}
    (h : KmemState.Backed.Next PageArenas.smallPages 0x2000 (bootPages n) (bootKmalloc n caches))
    (hmade : (bootKmalloc n caches).map KmemState.caches = some made)
    (hstatic : StaticCache made c size) :
    KmemState.Backed.Next PageArenas.smallPages 0x2000 (bootPages n)
      (bootKmalloc n (caches ++ [(c, size)])) := by
  obtain ⟨s, F, O, vs, lost, hs, hback⟩ := h
  obtain ⟨hne, hlow, hsc, hbig, hapart, hsize, hblock⟩ := hstatic
  rw [hs, Option.map_some, Option.some.injEq] at hmade
  have hrun : bootKmalloc n (caches ++ [(c, size)]) =
      s.exec PageArenas.smallPages 0x2000 (.init c size kmemDefaultAlign none) := by
    unfold bootKmalloc at hs ⊢
    rw [List.map_append, run_append, hs, List.map_singleton, run_cons, run_nil, KmemState.step,
      Option.bind_some]
  have hle : size ≤ pageSizeSmall := by
    refine hsize.trans (hblock.trans ?_)
    unfold KmemState.usable
    split
    · exact Nat.sub_le _ _
    · exact le_rfl
  rw [hrun]
  refine hback.next ⟨hne, ?_, ?_, by decide, fun heq => ⟨hsc heq, rfl⟩, ?_, ?_, ?_⟩
    (Or.inr ⟨hsize, hblock⟩)
  · simp only [sizeofKmemCache] at hlow
    omega
  · simp only [pageSizeSmall] at hle
    omega
  · rw [hmade]
    exact hbig
  · rintro p (⟨-, hlo, -⟩ | hp)
    · exact Or.inl (hlow.trans hlo)
    · cases hp
  · rw [hmade]
    exact hapart

/-- The caches of `table`, by address and size, are there. -/
def KmemState.HasCaches (s : KmemState PageArenas) (table : List (ℕ × ℕ)) : Prop :=
  ∀ e ∈ table, e.1 ∈ s.caches ∧ cacheSize s.k.mem e.1 = e.2 ∧
    cacheAlign s.k.mem e.1 = kmemDefaultAlign

instance (s : KmemState PageArenas) (table : List (ℕ × ℕ)) : Decidable (s.HasCaches table) :=
  inferInstanceAs (Decidable (∀ e ∈ table, _))

theorem KmemState.HasCaches.serving {s : KmemState PageArenas} {table : List (ℕ × ℕ)} {kc size : ℕ}
    (h : s.HasCaches table)
    (hsel : ∃ e ∈ table, kmemSizeToCache kc size = some e.1 ∧ kmemClass size = e.2) :
    KmemState.Serving kc size s := by
  obtain ⟨e, he, hcache, hclass⟩ := hsel
  intro c hc
  obtain rfl := Option.some.inj (hcache.symm.trans hc)
  rw [hclass]
  exact h e he

end Boot

end Manticore
