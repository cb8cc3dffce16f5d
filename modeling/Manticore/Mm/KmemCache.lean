import Manticore.Mm.KmemSlabs

/-!
# Cache operations

What `kmem_slab_create`, `kmem_cache_alloc`, `kmem_cache_free` and `kmem_cache_init`
do to the caches.  An allocation that finds no free block takes a page for a new slab,
and for a cache of large objects also an object of `kmem_slab_cache` for the header.
-/

namespace Manticore

variable {σ : Type} {A : PageAllocator σ} {sc c : ℕ} {F O F' O' : Set ℕ} {k k' : Kmem σ}
  {vs vs' vs'' pre post : List CacheView} {lost : List ℕ} {v v' u : CacheView} {s : SlabView}
  {rest : List SlabView} {m m' : Mem} {w : List Span} {x p fuel : ℕ} {xs : List ℕ}
  {f g : List ℕ → List ℕ}

/-! ## What an operation may change -/

/-- The cache `u'` is the cache `u` after an operation on the cache at `c` that turns its
objects in use by `f`. Slabs come and go at `c` and at `kmem_slab_cache` only. -/
structure KeptView (sc c : ℕ) (f : List ℕ → List ℕ) (u u' : CacheView) : Prop where
  addr : u'.addr = u.addr
  size : u'.size = u.size
  align : u'.align = u.align
  home : u'.home = u.home
  slabs : u.slabs ≠ [] → u'.slabs ≠ []
  live : u'.live = if u.addr = c then f u.live else u.live
  other : u.addr ≠ c → u.addr ≠ sc → u' = u

/-- The caches `vs'` are the caches `vs` after an operation on the cache at `c`. -/
def Kept (sc c : ℕ) (f : List ℕ → List ℕ) : List CacheView → List CacheView → Prop :=
  List.Forall₂ (KeptView sc c f)

theorem KeptView.refl (sc c : ℕ) (u : CacheView) : KeptView sc c id u u :=
  ⟨rfl, rfl, rfl, rfl, id, by simp, fun _ _ => rfl⟩

theorem KeptView.trans (h : KeptView sc c f v u) (h' : KeptView sc c g u v') :
    KeptView sc c (g ∘ f) v v' := by
  refine ⟨h'.addr.trans h.addr, h'.size.trans h.size, h'.align.trans h.align,
    h'.home.trans h.home, h'.slabs ∘ h.slabs, ?_, ?_⟩
  · rw [h'.live, h.live, h.addr]
    split <;> rfl
  · intro hc hsc
    obtain rfl := h.other hc hsc
    exact h'.other hc hsc

namespace Kept

theorem refl (sc c : ℕ) (vs : List CacheView) : Kept sc c id vs vs :=
  List.forall₂_same.mpr fun u _ => KeptView.refl sc c u

theorem trans : ∀ {vs vs' vs'' : List CacheView}, Kept sc c f vs vs' → Kept sc c g vs' vs'' →
    Kept sc c (g ∘ f) vs vs''
  | _, _, _, .nil, .nil => .nil
  | _, _, _, .cons h ht, .cons h' ht' => .cons (h.trans h') (trans ht ht')

theorem of_slabCache (h : Kept sc sc id vs vs') : Kept sc c id vs vs' := by
  refine List.Forall₂.imp ?_ h
  intro u u' hu
  refine ⟨hu.addr, hu.size, hu.align, hu.home, hu.slabs, ?_, fun _ hsc => hu.other hsc hsc⟩
  rw [hu.live]
  simp

theorem mem_left : ∀ {vs vs' : List CacheView}, Kept sc c f vs vs' → u ∈ vs →
    ∃ u' ∈ vs', KeptView sc c f u u'
  | _, _, .cons h ht, hu => by
      rcases List.mem_cons.mp hu with rfl | hu
      · exact ⟨_, List.mem_cons_self, h⟩
      · obtain ⟨u', hu', hk⟩ := mem_left ht hu
        exact ⟨u', List.mem_cons_of_mem _ hu', hk⟩

theorem mem_right : ∀ {vs vs' : List CacheView}, Kept sc c f vs vs' → u ∈ vs' →
    ∃ u' ∈ vs, KeptView sc c f u' u
  | _, _, .cons h ht, hu => by
      rcases List.mem_cons.mp hu with rfl | hu
      · exact ⟨_, List.mem_cons_self, h⟩
      · obtain ⟨u', hu', hk⟩ := mem_right ht hu
        exact ⟨u', List.mem_cons_of_mem _ hu', hk⟩

end Kept

/-- No slab of the caches has the page `p`. -/
def Unslabbed (vs : List CacheView) (p : ℕ) : Prop := ∀ u ∈ vs, ∀ s ∈ u.slabs, s.base ≠ p

/-- What an allocation does to the caches and the pages. -/
structure Grown (sc c : ℕ) (f : List ℕ → List ℕ) (F O F' O' : Set ℕ)
    (vs vs' : List CacheView) : Prop where
  kept : Kept sc c f vs vs'
  sub : O ⊆ O'
  same : F' ∪ O' = F ∪ O
  unslabbed : ∀ p ∈ O, Unslabbed vs p → Unslabbed vs' p

theorem Grown.trans {F'' O'' : Set ℕ} (h : Grown sc c f F O F' O' vs vs')
    (h' : Grown sc c g F' O' F'' O'' vs' vs'') : Grown sc c (g ∘ f) F O F'' O'' vs vs'' :=
  ⟨h.kept.trans h'.kept, h.sub.trans h'.sub, h'.same.trans h.same,
    fun p hp hu => h'.unslabbed p (h.sub hp) (h.unslabbed p hp hu)⟩

namespace KmemInv

theorem addr_ne (h : KmemInv A sc F O k (pre ++ v :: post) lost) (hu : u ∈ pre ++ post) :
    u.addr ≠ v.addr := by
  intro heq
  have hsep := h.split.2.1 v.struct List.mem_cons_self u hu u.struct List.mem_cons_self
  simp only [Span.Apart, CacheView.struct, heq, sizeofKmemCache] at hsep
  omega

theorem kept_replace (h : KmemInv A sc F O k (pre ++ v :: post) lost)
    (hv : KeptView sc v.addr f v v') :
    Kept sc v.addr f (pre ++ v :: post) (pre ++ v' :: post) := by
  have hsame : ∀ l : List CacheView, (∀ u ∈ l, u ∈ pre ++ post) → Kept sc v.addr f l l := by
    intro l hl
    refine List.forall₂_same.mpr fun u hu => ⟨rfl, rfl, rfl, rfl, id, ?_, fun _ _ => rfl⟩
    rw [if_neg (h.addr_ne (hl u hu))]
  exact List.rel_append (hsame pre fun u hu => List.mem_append_left _ hu)
    (.cons hv (hsame post fun u hu => List.mem_append_right _ hu))

theorem setPages {π : σ} (h : KmemInv A sc F O k vs lost) (hπ : A.Owns π F' O')
    (hsub : F' ∪ O' ⊆ F ∪ O) (hkeep : ∀ v ∈ vs, ∀ s ∈ v.slabs, s.base ∈ O') :
    KmemInv A sc F' O' { k with pages := π } vs lost :=
  { h with owns := hπ, view := fun v hv => (h.view v hv).mono hsub, taken := hkeep }

theorem setMem (h : KmemInv A sc F O k vs lost) (hw : WritesOnly w k.mem m')
    (hd : ∀ d ∈ w, ∀ u ∈ vs, ∀ e ∈ u.deps, d.Apart e) :
    KmemInv A sc F O { k with mem := m' } vs lost ∧
      ∀ u ∈ vs, Chained k.mem u → Chained m' u := by
  have hframe := fun u hu => (h.ok u hu).frame (h.fits u hu) hw fun d hdw => hd d hdw u hu
  exact ⟨{ h with ok := fun u hu => (hframe u hu).1 },
    fun u hu hch => hch.frame (hframe u hu).2.1 (hframe u hu).2.2⟩

theorem takePage (h : KmemInv A sc F O k vs lost) (hne : (A.alloc k.pages).1 ≠ 0) :
    (A.alloc k.pages).1 ∈ F ∧ Unslabbed vs (A.alloc k.pages).1 ∧
      KmemInv A sc (F \ {(A.alloc k.pages).1}) (insert (A.alloc k.pages).1 O)
        { k with pages := (A.alloc k.pages).2 } vs lost ∧
      F \ {(A.alloc k.pages).1} ∪ insert (A.alloc k.pages).1 O = F ∪ O := by
  obtain ⟨hmem, howns⟩ := A.alloc_page h.owns hne
  have hdisj := A.disjoint h.owns
  generalize A.alloc k.pages = r at *
  have hset : F \ {r.1} ∪ insert r.1 O = F ∪ O := by
    rw [Set.union_insert, ← Set.insert_union, Set.insert_sdiff_singleton,
      Set.insert_eq_of_mem hmem]
  refine ⟨hmem, ?_, h.setPages howns hset.le fun v hv s hs => Or.inr (h.taken v hv s hs), hset⟩
  intro u hu s hs hb
  exact Set.disjoint_left.mp hdisj hmem (hb ▸ h.taken u hu s hs)

end KmemInv

/-! ## Making a slab -/

/-- An operation stopped for want of memory: no page changed hands. -/
def Failed (A : PageAllocator σ) (F O : Set ℕ) (k k' : Kmem σ) : Prop :=
  ∃ π, A.Owns π F O ∧ k' = { k with pages := π }

/-- The object `x` lies in the first slab of the cache at `c`. -/
def FirstHas (vs : List CacheView) (c x : ℕ) : Prop :=
  ∃ u ∈ vs, u.addr = c ∧ ∃ s rest, u.slabs = s :: rest ∧ x ∈ u.blocks s.base

/-- `r` is a result of allocating from the cache at `c`. -/
def Allocates (A : PageAllocator σ) (sc : ℕ) (F O : Set ℕ) (k : Kmem σ) (vs : List CacheView)
    (lost : List ℕ) (c : ℕ) (r : Option (ℕ × Kmem σ)) : Prop :=
  ∃ obj k', r = some (obj, k') ∧
    (obj = 0 ∧ Failed A F O k k' ∨
      obj ≠ 0 ∧ ∃ F' O' vs', KmemInv A sc F' O' k' vs' lost ∧
        (∀ u ∈ vs', Chained k'.mem u) ∧ FirstHas vs' c obj ∧
        Grown sc c (obj :: ·) F O F' O' vs vs')

/-- `r` is a result of making a slab for the cache `v`. -/
def CreatesSlab (A : PageAllocator σ) (sc : ℕ) (F O : Set ℕ) (k : Kmem σ) (vs : List CacheView)
    (lost : List ℕ) (v : CacheView) (r : Option (ℕ × Kmem σ)) : Prop :=
  ∃ slab k', r = some (slab, k') ∧
    (slab = 0 ∧ Failed A F O k k' ∨
      slab ≠ 0 ∧ ∃ F' O' pre post p,
        KmemInv A sc F' O' k' (pre ++ { v with slabs := v.newSlab slab p :: v.slabs } :: post)
          lost ∧
        (∀ u ∈ pre ++ v :: post, Chained k'.mem u) ∧ IsNewSlab k'.mem v slab p ∧
        Grown sc v.addr id F O F' O' vs
          (pre ++ { v with slabs := v.newSlab slab p :: v.slabs } :: post))

theorem KmemInv.grown_addSlab {hdr : ℕ} (h : KmemInv A sc F O k (pre ++ v :: post) lost)
    (hp : p ∈ F) :
    Grown sc v.addr id F O (F \ {p}) (insert p O) (pre ++ v :: post)
      (pre ++ { v with slabs := v.newSlab hdr p :: v.slabs } :: post) := by
  refine ⟨h.kept_replace ⟨rfl, rfl, rfl, rfl, fun _ => List.cons_ne_nil _ _, by simp,
    fun hne => absurd rfl hne⟩, Set.subset_insert _ _, ?_, ?_⟩
  · rw [Set.union_insert, ← Set.insert_union, Set.insert_sdiff_singleton,
      Set.insert_eq_of_mem hp]
  · intro q hq hun
    refine forall_mem_replace (fun s hs => ?_) fun u hu => hun u (mem_of_others hu)
    rcases List.mem_cons.mp hs with rfl | hs
    · rintro rfl
      exact Set.disjoint_left.mp (A.disjoint h.owns) hp hq
    · exact hun v (by simp) s hs

variable {allocSlab : Kmem σ → Option (ℕ × Kmem σ)}

theorem kmemSlabCreate_null (h : KmemInv A sc F O k vs lost) (hz : (A.alloc k.pages).1 = 0) :
    CreatesSlab A sc F O k vs lost v (kmemSlabCreate A allocSlab k v.addr) := by
  refine ⟨0, { k with pages := (A.alloc k.pages).2 }, ?_, Or.inl ⟨rfl, _, A.alloc_null h.owns hz, rfl⟩⟩
  simp [kmemSlabCreate, hz]

theorem kmemSlabCreate_made (h : KmemInv A sc F O k (pre ++ v :: post) lost)
    (hch : ∀ u ∈ pre ++ v :: post, Chained k.mem u) (hin : v.InPage)
    (hz : (A.alloc k.pages).1 ≠ 0) :
    ∃ slab k', kmemSlabCreate A allocSlab k v.addr = some (slab, k') ∧ slab ≠ 0 ∧
      k'.pages = (A.alloc k.pages).2 ∧
      KmemInv A sc (F \ {(A.alloc k.pages).1}) (insert (A.alloc k.pages).1 O) k'
        (pre ++ { v with slabs := v.newSlab slab (A.alloc k.pages).1 :: v.slabs } :: post) lost ∧
      (∀ u ∈ pre ++ v :: post, Chained k'.mem u) ∧
      IsNewSlab k'.mem v slab (A.alloc k.pages).1 := by
  obtain ⟨-, hun, htaken, -⟩ := h.takePage hz
  obtain ⟨m', hrun, hne, hnext, hinv, hchain⟩ := htaken.addSlab (Set.mem_insert _ _) hun
    (fun _ => rfl) (show lost = (if v.InPage then [] else [_]) ++ lost by simp [hin])
  refine ⟨_, _, ?_, hne, rfl, hinv, fun u hu => hchain u hu (hch u hu), hnext⟩
  have hsize : cacheSize k.mem v.addr < pageSizeSmall / 8 := by
    rw [(h.ok v (by simp)).size]
    exact hin
  have husable : v.usable = pageSizeSmall - sizeofKmemSlab := if_pos hin
  have hhdr : (A.alloc k.pages).1 + pageSizeSmall - sizeofKmemSlab =
      (A.alloc k.pages).1 + (pageSizeSmall - sizeofKmemSlab) := Nat.add_sub_assoc (by decide) _
  rw [husable] at hrun
  simp only [kmemSlabCreate, if_neg hz, hsize, if_true, hhdr, hrun, Option.bind_eq_bind,
    Option.bind_some]

theorem kmemSlabCreate_inPage (h : KmemInv A sc F O k (pre ++ v :: post) lost)
    (hch : ∀ u ∈ pre ++ v :: post, Chained k.mem u) (hin : v.InPage) :
    CreatesSlab A sc F O k (pre ++ v :: post) lost v (kmemSlabCreate A allocSlab k v.addr) := by
  by_cases hz : (A.alloc k.pages).1 = 0
  · exact kmemSlabCreate_null h hz
  obtain ⟨slab, k', hrun, hne, -, hinv, hchain, hnext⟩ := kmemSlabCreate_made h hch hin hz
  exact ⟨slab, k', hrun, Or.inr ⟨hne, _, _, pre, post, _, hinv, hchain, hnext,
    h.grown_addSlab (h.takePage hz).1⟩⟩

theorem KmemInv.header_of_object {hdr : ℕ} (h : KmemInv A sc F' O' k vs' lost)
    (hch : ∀ u ∈ vs', Chained k.mem u) (hgrown : Grown sc sc (hdr :: ·) F O F' O' vs vs')
    (hready : ∃ u ∈ vs, u.addr = sc ∧ u.slabs ≠ []) :
    ∃ vs'', KmemInv A sc F' O' { k with headers := hdr :: k.headers } vs'' (hdr :: lost) ∧
      (∀ u ∈ vs'', Chained k.mem u) ∧ Grown sc sc id F O F' O' vs vs'' := by
  obtain ⟨u, hu, husc, -⟩ := hready
  obtain ⟨u', hu', hkv⟩ := hgrown.kept.mem_left hu
  obtain ⟨pre, post, rfl⟩ := List.append_of_mem hu'
  have haddr : u'.addr = sc := hkv.addr.trans husc
  have hlive : u'.live = hdr :: u.live := by
    rw [hkv.live, if_pos husc]
  have hlast : KeptView sc u'.addr List.tail u' { u' with live := u.live } :=
    ⟨rfl, rfl, rfl, rfl, id, by simp [hlive], fun hne => absurd rfl hne⟩
  have htail : Kept sc sc List.tail (pre ++ u' :: post)
      (pre ++ { u' with live := u.live } :: post) := by
    simpa only [haddr] using h.kept_replace hlast
  refine ⟨_, h.lose haddr hlive, ?_, hgrown.kept.trans htail, hgrown.sub, hgrown.same, ?_⟩
  · exact forall_mem_replace (hch u' hu') fun w hw => hch w (mem_of_others hw)
  · intro q hq hun
    have hun' := hgrown.unslabbed q hq hun
    exact forall_mem_replace (hun' u' hu') fun w hw => hun' w (mem_of_others hw)

theorem kmemSlabCreate_outside (h : KmemInv A sc F O k (pre ++ v :: post) lost)
    (hch : ∀ u ∈ pre ++ v :: post, Chained k.mem u) (hin : ¬ v.InPage)
    (hnest : ∀ {F O k lost}, KmemInv A sc F O k (pre ++ v :: post) lost →
      (∀ u ∈ pre ++ v :: post, Chained k.mem u) →
      Allocates A sc F O k (pre ++ v :: post) lost sc (allocSlab k)) :
    CreatesSlab A sc F O k (pre ++ v :: post) lost v (kmemSlabCreate A allocSlab k v.addr) := by
  by_cases hz : (A.alloc k.pages).1 = 0
  · exact kmemSlabCreate_null h hz
  have hvmem : v ∈ pre ++ v :: post := by simp
  obtain ⟨hmem, hun, htaken, hset⟩ := h.takePage hz
  have hsize : ¬ cacheSize k.mem v.addr < pageSizeSmall / 8 := by
    rw [(h.ok v hvmem).size]
    exact hin
  have hdisj := A.disjoint h.owns
  generalize hp : (A.alloc k.pages).1 = p at *
  obtain ⟨hdr, k₂, halloc, hres⟩ := hnest htaken hch
  rcases hres with ⟨rfl, π, hπ, rfl⟩ |
    ⟨hne, F₂, O₂, vs₂, hinv₂, hch₂, -, hgrown⟩
  · -- No header: the page goes back.
    have hback := A.free_page hπ (Set.mem_insert p O)
    rw [Set.insert_sdiff_singleton, Set.insert_eq_of_mem hmem,
      Set.insert_sdiff_self_of_notMem (Set.disjoint_left.mp hdisj hmem)] at hback
    refine ⟨0, { k with pages := A.free π p }, ?_, Or.inl ⟨rfl, _, hback, rfl⟩⟩
    simp only [kmemSlabCreate, hp, if_neg hz, if_neg hsize, halloc, Option.bind_eq_bind,
      Option.bind_some, if_true]
  · -- The object of `kmem_slab_cache` becomes the header of the new slab.
    obtain ⟨vs₃, hlost, hch₃, hgrown₃⟩ :=
      hinv₂.header_of_object hch₂ hgrown (h.ready v hvmem hin)
    have hvsc : v.addr ≠ sc := fun hsc => hin (h.block_slabCache hvmem hsc).2
    obtain ⟨v₃, hv₃, hkv⟩ := hgrown₃.kept.mem_left hvmem
    obtain rfl := hkv.other hvsc hvsc
    have hun₃ := hgrown₃.unslabbed p (Set.mem_insert _ _) hun
    obtain ⟨pre₃, post₃, rfl⟩ := List.append_of_mem hv₃
    obtain ⟨m', hrun, -, hnext, hinv, hchain⟩ := hlost.addSlab (hgrown₃.sub (Set.mem_insert _ _))
      hun₃
      (fun hc => absurd hc hin)
      (show hdr :: lost = (if v₃.InPage then [] else [hdr]) ++ lost by simp [hin])
    have husable : v₃.usable = pageSizeSmall := if_neg hin
    rw [husable] at hrun
    refine ⟨hdr, _, ?_, Or.inr ⟨hne, F₂, O₂, pre₃, post₃, p, hinv,
      fun w hw => hchain w hw (hch₃ w hw), hnext, ?_⟩⟩
    · simp only [kmemSlabCreate, hp, if_neg hz, if_neg hsize, halloc, Option.bind_eq_bind,
        Option.bind_some, if_neg hne, hrun]
    · have hlast : KeptView sc v₃.addr id v₃
          { v₃ with slabs := v₃.newSlab hdr p :: v₃.slabs } :=
        ⟨rfl, rfl, rfl, rfl, fun _ => List.cons_ne_nil _ _, by simp, fun hne => absurd rfl hne⟩
      refine ⟨hgrown₃.kept.of_slabCache.trans (hlost.kept_replace hlast),
        (Set.subset_insert _ _).trans hgrown₃.sub, hgrown₃.same.trans hset, ?_⟩
      intro q hq hunq
      have hqp : p ≠ q := by
        rintro rfl
        exact Set.disjoint_left.mp hdisj hmem hq
      have hunq₃ := hgrown₃.unslabbed q (Set.mem_insert_of_mem _ hq) hunq
      refine forall_mem_replace (fun t ht => ?_) fun w hw => hunq₃ w (mem_of_others hw)
      rcases List.mem_cons.mp ht with rfl | ht
      · exact hqp
      · exact hunq₃ v₃ (by simp) t ht

/-! ## Allocation -/

theorem kmemCacheAlloc_head (fuel : ℕ) (h : KmemInv A sc F O k (pre ++ v :: post) lost)
    (hch : ∀ u ∈ pre ++ v :: post, Chained k.mem u) (hslabs : v.slabs = s :: rest)
    (hxs : s.free = x :: xs) :
    ∃ k', kmemCacheAlloc A sc (fuel + 1) k v.addr = some (x, k') ∧ x ≠ 0 ∧ k'.pages = k.pages ∧
      ∃ vs', KmemInv A sc F O k' vs' lost ∧ (∀ u ∈ vs', Chained k'.mem u) ∧
        FirstHas vs' v.addr x ∧ Grown sc v.addr (x :: ·) F O F O (pre ++ v :: post) vs' ∧
        ∀ u ∈ pre ++ post, u ∈ vs' := by
  obtain ⟨m', hrun, hne, hinv, hch'⟩ := h.allocObject hch hslabs hxs
  have hs : s ∈ v.slabs := hslabs ▸ List.mem_cons_self
  have hblock : x ∈ v.blocks s.base :=
    h.free_sub v (by simp) s hs x (hxs ▸ List.mem_cons_self)
  refine ⟨{ k with mem := m' }, ?_, hne, rfl, _, hinv, hch',
    ⟨_, List.mem_append_right _ List.mem_cons_self, rfl, _, _, rfl, hblock⟩,
    ⟨?_, subset_rfl, rfl, ?_⟩, fun u hu => mem_of_others hu⟩
  · simp only [kmemCacheAlloc, hrun, Option.bind_eq_bind, Option.bind_some, ne_eq, hne,
      not_false_eq_true, if_true]
  · exact h.kept_replace ⟨rfl, rfl, rfl, rfl, fun _ => List.cons_ne_nil _ _, by simp,
      fun hne => absurd rfl hne⟩
  · intro p _ hun
    refine forall_mem_replace (fun t ht => ?_) fun u hu => hun u (mem_of_others hu)
    rcases List.mem_cons.mp ht with rfl | ht
    · exact hun v (by simp) s (hslabs ▸ List.mem_cons_self)
    · exact hun v (by simp) t (hslabs ▸ List.mem_cons_of_mem _ ht)

theorem KmemInv.hdr_le (h : KmemInv A sc F O k vs lost) (hv : v ∈ vs) (hs : s ∈ v.slabs) :
    s.hdr + sizeofKmemSlab ≤ 2 ^ 64 := by
  have hmem : s.header ∈ vs.flatMap CacheView.spans := List.mem_flatMap.mpr
    ⟨v, hv, CacheView.deps_sub_spans (CacheView.header_mem_deps hs)⟩
  rcases h.located (List.mem_append_left _ hmem) with ⟨u, -, -, heq⟩ | ⟨u, hu, t, ht, -, hhi⟩
  · have := congrArg Span.size heq
    simp [SlabView.header, CacheView.struct, sizeofKmemSlab, sizeofKmemCache] at this
  · exact le_trans hhi (h.isPage hu ht).le

theorem KmemInv.link_new {slab : ℕ}
    (h : KmemInv A sc F O k (pre ++ { v with slabs := v.newSlab slab p :: v.slabs } :: post) lost)
    (hch : ∀ u ∈ pre ++ v :: post, Chained k.mem u) (hne : slab ≠ 0) (hslabs : v.slabs ≠ []) :
    let m := store (store k.mem (slab + 24) 8 (cacheSlab k.mem v.addr)) (v.addr + 24) 8 slab
    KmemInv A sc F O { k with mem := m }
        (pre ++ { v with slabs := v.newSlab slab p :: v.slabs } :: post) lost ∧
      ∀ u ∈ pre ++ { v with slabs := v.newSlab slab p :: v.slabs } :: post, Chained m u := by
  intro m
  have hle := h.hdr_le (List.mem_append_right _ List.mem_cons_self) (List.mem_cons_self
    (a := v.newSlab slab p))
  have hlt : slab < 2 ^ (8 * 8) := by
    have : slab + sizeofKmemSlab ≤ 2 ^ 64 := hle
    simp only [sizeofKmemSlab] at this
    omega
  have hsep : slab + 40 ≤ v.addr ∨ v.addr + 64 ≤ slab := (h.header_apart rfl).1
  have hw : WritesOnly [⟨slab + 24, 8⟩, ⟨v.addr + 24, 8⟩] k.mem m :=
    ((WritesOnly.refl _ _).store (s := ⟨slab + 24, 8⟩) (by simp) le_rfl le_rfl).store
      (s := ⟨v.addr + 24, 8⟩) (by simp) le_rfl le_rfl
  refine h.link rfl (fun u hu => hch u (mem_of_others hu)) hw (load_store_same hlt) hne ?_
  have hnext : slabNext m slab = cacheSlab k.mem v.addr := by
    refine (load_store_of_disjoint ?_).trans (load_store_same (load_lt _ _ 8))
    omega
  rw [show (v.newSlab slab p).hdr = slab from rfl, hnext]
  exact hch v (by simp) hslabs

theorem KmemInv.blocks_ne_nil (h : KmemInv A sc F O k vs lost) (hv : v ∈ vs) (p : ℕ) :
    v.blocks p ≠ [] := by
  have hpos := (h.fits v hv).carved.capacity_pos
  simp only [CacheView.blocks, ne_eq, List.map_eq_nil_iff, List.range_eq_nil]
  omega

theorem KmemInv.allocObject_empty (h : KmemInv A sc F O k vs lost)
    (hch : ∀ u ∈ vs, Chained k.mem u) (hv : v ∈ vs) (hslabs : v.slabs = s :: rest)
    (hfree : s.free = []) :
    kmemSlabAllocObject k.mem (cacheSlab k.mem v.addr) = some (0, k.mem) := by
  have hs : s ∈ v.slabs := hslabs ▸ List.mem_cons_self
  rw [(hch v hv).head hslabs]
  exact kmemSlabAllocObject_empty ((h.ok v hv).slabs s hs) hfree ((hch v hv).hdr_ne_zero hs)

theorem kmemCacheAlloc_of_creates (h : KmemInv A sc F O k (pre ++ v :: post) lost)
    (hch : ∀ u ∈ pre ++ v :: post, Chained k.mem u) (hne : v.slabs ≠ [])
    (hcreate : CreatesSlab A sc F O k (pre ++ v :: post) lost v
      (kmemSlabCreate A (fun k => kmemCacheAlloc A sc (fuel + 1) k sc) k v.addr)) :
    Allocates A sc F O k (pre ++ v :: post) lost v.addr (kmemCacheAlloc A sc (fuel + 2) k v.addr) := by
  obtain ⟨s, rest, hslabs⟩ := List.exists_cons_of_ne_nil hne
  cases hfree : s.free with
  | cons x xs =>
      obtain ⟨k', hrun, hx, -, vs', hinv, hch', hfirst, hgrown, -⟩ :=
        kmemCacheAlloc_head _ h hch hslabs hfree
      exact ⟨x, k', hrun, Or.inr ⟨hx, F, O, vs', hinv, hch', hfirst, hgrown⟩⟩
  | nil =>
      have hvmem : v ∈ pre ++ v :: post := by simp
      have hempty := h.allocObject_empty hch hvmem hslabs hfree
      obtain ⟨slab, k₁, hmade, hres⟩ := hcreate
      rcases hres with ⟨rfl, hfail⟩ | ⟨hz, F₁, O₁, pre₁, post₁, p, hinv₁, hch₁, -, hgrown⟩
      · refine ⟨0, k₁, ?_, Or.inl ⟨rfl, hfail⟩⟩
        rw [kmemCacheAlloc]
        simp only [hempty, Option.bind_eq_bind, Option.bind_some, ne_eq, not_true_eq_false,
          if_false, hmade, if_true]
      · -- The new slab is in front now, and has a free block.
        obtain ⟨hinv₂, hch₂⟩ := hinv₁.link_new hch₁ hz hne
        obtain ⟨x, xs, hblocks⟩ := List.exists_cons_of_ne_nil (h.blocks_ne_nil hvmem p)
        obtain ⟨k', hrun, hx, -, vs', hinv, hch', hfirst, hgrown', -⟩ := kmemCacheAlloc_head fuel
          (s := v.newSlab slab p) hinv₂ hch₂ rfl hblocks
        refine ⟨x, k', ?_, Or.inr ⟨hx, F₁, O₁, vs', hinv, hch', hfirst,
          hgrown.trans hgrown'⟩⟩
        rw [kmemCacheAlloc]
        simp only [hempty, Option.bind_eq_bind, Option.bind_some, ne_eq, not_true_eq_false,
          if_false, hmade, if_neg hz]
        exact hrun

theorem kmemCacheAlloc_inPage (h : KmemInv A sc F O k (pre ++ v :: post) lost)
    (hch : ∀ u ∈ pre ++ v :: post, Chained k.mem u) (hne : v.slabs ≠ []) (hin : v.InPage) :
    Allocates A sc F O k (pre ++ v :: post) lost v.addr (kmemCacheAlloc A sc (fuel + 2) k v.addr) :=
  kmemCacheAlloc_of_creates h hch hne (kmemSlabCreate_inPage h hch hin)

theorem KmemInv.allocates_header (fuel : ℕ) (h : KmemInv A sc F O k vs lost)
    (hch : ∀ u ∈ vs, Chained k.mem u) (hv : v ∈ vs) (hin : ¬ v.InPage) :
    Allocates A sc F O k vs lost sc (kmemCacheAlloc A sc (fuel + 2) k sc) := by
  obtain ⟨u, hu, rfl, hslabs⟩ := h.ready v hv hin
  obtain ⟨pre, post, rfl⟩ := List.append_of_mem hu
  exact kmemCacheAlloc_inPage h hch hslabs (h.block_slabCache (by simp) rfl).2

theorem kmemSlabCreate_spec (fuel : ℕ) (h : KmemInv A sc F O k (pre ++ v :: post) lost)
    (hch : ∀ u ∈ pre ++ v :: post, Chained k.mem u) :
    CreatesSlab A sc F O k (pre ++ v :: post) lost v
      (kmemSlabCreate A (fun k => kmemCacheAlloc A sc (fuel + 2) k sc) k v.addr) := by
  by_cases hin : v.InPage
  · exact kmemSlabCreate_inPage h hch hin
  · refine kmemSlabCreate_outside h hch hin ?_
    intro F O k lost h hch
    exact h.allocates_header fuel hch (by simp) hin

/-- **`kmem_cache_alloc`**: out of memory, or a new object in use. -/
theorem kmemCacheAlloc_spec (fuel : ℕ) (h : KmemInv A sc F O k (pre ++ v :: post) lost)
    (hch : ∀ u ∈ pre ++ v :: post, Chained k.mem u) (hne : v.slabs ≠ []) :
    Allocates A sc F O k (pre ++ v :: post) lost v.addr (kmemCacheAlloc A sc (fuel + 3) k v.addr) :=
  kmemCacheAlloc_of_creates h hch hne (kmemSlabCreate_spec fuel h hch)

/-! ## What is needed from the page allocator -/

/-- The first slab of the cache at `c` has a free object. -/
def HasFree (m : Mem) (c : ℕ) : Prop := slabHead m (cacheSlab m c) ≠ 0

instance (m : Mem) (c : ℕ) : Decidable (HasFree m c) := inferInstanceAs (Decidable (_ ≠ _))

theorem KmemInv.hasFree_iff (h : KmemInv A sc F O k vs lost) (hch : ∀ u ∈ vs, Chained k.mem u)
    (hv : v ∈ vs) (hslabs : v.slabs = s :: rest) : HasFree k.mem v.addr ↔ s.free ≠ [] := by
  have hlist := ((h.ok v hv).slabs s (hslabs ▸ List.mem_cons_self)).list
  rw [HasFree, (hch v hv).head hslabs]
  cases hfree : s.free with
  | nil =>
      rw [hfree] at hlist
      exact iff_of_false (not_not.mpr hlist) (not_not.mpr rfl)
  | cons x xs =>
      rw [hfree] at hlist
      exact iff_of_true (hlist.1.trans_ne hlist.2.1) (List.cons_ne_nil _ _)

theorem KmemInv.hasFree_congr {k₁ : Kmem σ} {vs₁ : List CacheView} {lost₁ : List ℕ}
    (h : KmemInv A sc F O k vs lost) (hch : ∀ u ∈ vs, Chained k.mem u) (hv : v ∈ vs)
    (h₁ : KmemInv A sc F' O' k₁ vs₁ lost₁) (hch₁ : ∀ u ∈ vs₁, Chained k₁.mem u) (hu : u ∈ vs₁)
    (haddr : u.addr = v.addr) (hslabs : u.slabs = v.slabs) (hne : v.slabs ≠ []) :
    HasFree k₁.mem v.addr ↔ HasFree k.mem v.addr := by
  obtain ⟨s, rest, hs⟩ := List.exists_cons_of_ne_nil hne
  rw [h.hasFree_iff hch hv hs, ← haddr, h₁.hasFree_iff hch₁ hu (hslabs.trans hs)]

/-- **The pages that an allocation takes**, from a cache with its headers in its pages: none if the
first slab has a free object, and one otherwise. -/
theorem kmemCacheAlloc_pages (h : KmemInv A sc F O k (pre ++ v :: post) lost)
    (hch : ∀ u ∈ pre ++ v :: post, Chained k.mem u) (hne : v.slabs ≠ []) (hin : v.InPage)
    {obj : ℕ} {k' : Kmem σ} (hrun : kmemCacheAlloc A sc (fuel + 2) k v.addr = some (obj, k')) :
    (obj ≠ 0 ↔ HasFree k.mem v.addr ∨ (A.alloc k.pages).1 ≠ 0) ∧
      k'.pages = (if HasFree k.mem v.addr then k.pages else (A.alloc k.pages).2) ∧
      ∃ F' O' vs', KmemInv A sc F' O' k' vs' lost ∧ (∀ u ∈ vs', Chained k'.mem u) ∧
        ∀ u ∈ pre ++ post, u ∈ vs' := by
  have hvmem : v ∈ pre ++ v :: post := by simp
  obtain ⟨s, rest, hslabs⟩ := List.exists_cons_of_ne_nil hne
  have hiff := h.hasFree_iff hch hvmem hslabs
  cases hfree : s.free with
  | cons x xs =>
      have hhas : HasFree k.mem v.addr := hiff.mpr (hfree ▸ List.cons_ne_nil _ _)
      obtain ⟨k₁, hrun₁, hx, hpages, vs', hinv, hch', -, -, hothers⟩ :=
        kmemCacheAlloc_head (fuel + 1) h hch hslabs hfree
      rw [hrun₁] at hrun
      obtain ⟨rfl, rfl⟩ := some_pair_inj hrun
      rw [if_pos hhas]
      exact ⟨iff_of_true hx (.inl hhas), hpages, F, O, vs', hinv, hch', hothers⟩
  | nil =>
      have hempty := h.allocObject_empty hch hvmem hslabs hfree
      have hhas : ¬ HasFree k.mem v.addr := fun hhas => hiff.mp hhas hfree
      rw [if_neg hhas, or_iff_right hhas]
      rw [kmemCacheAlloc] at hrun
      simp only [hempty, Option.bind_eq_bind, Option.bind_some, ne_eq, not_true_eq_false,
        if_false] at hrun
      by_cases hz : (A.alloc k.pages).1 = 0
      · have hmade : kmemSlabCreate A (fun k => kmemCacheAlloc A sc (fuel + 1) k sc) k v.addr =
            some (0, { k with pages := (A.alloc k.pages).2 }) := by simp [kmemSlabCreate, hz]
        rw [hmade, Option.bind_some] at hrun
        obtain ⟨rfl, rfl⟩ := some_pair_inj hrun
        exact ⟨iff_of_false (not_not.mpr rfl) (not_not.mpr hz), rfl, F, O, _,
          h.setPages (A.alloc_null h.owns hz) subset_rfl h.taken, hch,
          fun u hu => mem_of_others hu⟩
      · obtain ⟨slab, k₁, hmade, hslab, hpages, hinv₁, hch₁, -⟩ := kmemSlabCreate_made h hch hin hz
        obtain ⟨hinv₂, hch₂⟩ := hinv₁.link_new hch₁ hslab hne
        obtain ⟨x, xs, hblocks⟩ :=
          List.exists_cons_of_ne_nil (h.blocks_ne_nil hvmem (A.alloc k.pages).1)
        obtain ⟨k₂, hrun₂, hx, hpages₂, vs', hinv, hch', -, -, hothers⟩ := kmemCacheAlloc_head fuel
          (s := v.newSlab slab (A.alloc k.pages).1) hinv₂ hch₂ rfl hblocks
        rw [hmade, Option.bind_some] at hrun
        dsimp only at hrun
        rw [if_neg hslab] at hrun
        have hrun₂' := hrun₂.symm.trans hrun
        obtain ⟨rfl, rfl⟩ := Prod.mk.inj (Option.some.inj hrun₂')
        exact ⟨iff_of_true hx hz, hpages₂.trans hpages, _, _, vs', hinv, hch', hothers⟩

/-- **When a slab can be made**: there is a page for it, and for a header outside an object of
`kmem_slab_cache` or another page. -/
theorem kmemSlabCreate_ne_zero_iff (h : KmemInv A sc F O k (pre ++ v :: post) lost)
    (hch : ∀ u ∈ pre ++ v :: post, Chained k.mem u) {slab : ℕ} {k' : Kmem σ}
    (hrun : kmemSlabCreate A (fun k => kmemCacheAlloc A sc (fuel + 2) k sc) k v.addr =
      some (slab, k')) :
    slab ≠ 0 ↔ (A.alloc k.pages).1 ≠ 0 ∧
      (v.InPage ∨ HasFree k.mem sc ∨ (A.alloc (A.alloc k.pages).2).1 ≠ 0) := by
  by_cases hz : (A.alloc k.pages).1 = 0
  · have hnull : kmemSlabCreate A (fun k => kmemCacheAlloc A sc (fuel + 2) k sc) k v.addr =
        some (0, { k with pages := (A.alloc k.pages).2 }) := by simp [kmemSlabCreate, hz]
    rw [hnull] at hrun
    obtain ⟨rfl, -⟩ := some_pair_inj hrun
    exact iff_of_false (not_not.mpr rfl) fun hpage => hpage.1 hz
  rw [and_iff_right hz]
  by_cases hin : v.InPage
  · obtain ⟨slab', k₁, hmade, hslab, -⟩ := kmemSlabCreate_made h hch hin hz
    rw [hmade] at hrun
    obtain ⟨rfl, -⟩ := some_pair_inj hrun
    exact iff_of_true hslab (.inl hin)
  · have hvmem : v ∈ pre ++ v :: post := by simp
    obtain ⟨-, -, htaken, -⟩ := h.takePage hz
    have hsize : ¬ cacheSize k.mem v.addr < pageSizeSmall / 8 := by
      rw [(h.ok v hvmem).size]
      exact hin
    obtain ⟨u, hu, rfl, hne⟩ := h.ready v hvmem hin
    simp only [kmemSlabCreate, if_neg hz, if_neg hsize, Option.bind_eq_bind] at hrun
    obtain ⟨⟨hdr, k₁⟩, halloc, hrun⟩ := Option.bind_eq_some_iff.mp hrun
    obtain ⟨pre', post', hvs⟩ := List.append_of_mem hu
    rw [hvs] at htaken hch
    have hpages := (kmemCacheAlloc_pages htaken hch hne
      (htaken.block_slabCache (by simp) rfl).2 halloc).1
    dsimp only at hpages hrun
    rw [or_iff_right hin, ← hpages]
    by_cases hhdr : hdr = 0
    · rw [if_pos hhdr] at hrun
      obtain ⟨rfl, -⟩ := some_pair_inj hrun
      exact iff_of_false (not_not.mpr rfl) (not_not.mpr hhdr)
    · rw [if_neg hhdr] at hrun
      obtain ⟨m, -, hrun⟩ := Option.bind_eq_some_iff.mp hrun
      obtain ⟨rfl, -⟩ := some_pair_inj hrun
      exact Iff.rfl

/-! ## Freeing -/

theorem KmemInv.full_of_length (h : KmemInv A sc F O k (pre ++ v :: post) lost) (hs : s ∈ v.slabs)
    (hlen : s.free.length = v.capacity) : ∀ x ∈ v.blocks s.base, x ∈ s.free := by
  have hfree := (List.nodup_append.mp h.free_live_nodup).1
  have hnd : s.free.Nodup := (List.nodup_flatMap.mp hfree).1 s hs
  have hsub : s.free.Subperm (v.blocks s.base) :=
    hnd.subperm fun x hx => h.free_sub v (by simp) s hs x hx
  have hperm : s.free.Perm (v.blocks s.base) :=
    hsub.perm_of_length_le (by simp [CacheView.blocks, hlen])
  exact fun x hx => hperm.mem_iff.mpr hx

/-- **Giving back the first slab**, all of whose blocks are free. -/
theorem KmemInv.destroy (h : KmemInv A sc F O k (pre ++ v :: post) lost)
    (hch : ∀ u ∈ pre ++ v :: post, Chained k.mem u) (hslabs : v.slabs = s :: rest)
    (hrest : rest ≠ []) (hlen : s.free.length = v.capacity) :
    let k' := kmemSlabDestroy A
      { k with mem := store k.mem (v.addr + 24) 8 (slabNext k.mem s.hdr) } s.hdr
    ∃ F' O' lost', KmemInv A sc F' O' k' (pre ++ { v with slabs := rest } :: post) lost' ∧
      (∀ u ∈ pre ++ { v with slabs := rest } :: post, Chained k'.mem u) ∧ F' ∪ O' = F ∪ O := by
  have hvmem : v ∈ pre ++ v :: post := by simp
  have hs : s ∈ v.slabs := hslabs ▸ List.mem_cons_self
  have hbase := h.taken v hvmem s hs
  generalize hm : store k.mem (v.addr + 24) 8 (slabNext k.mem s.hdr) = m'
  have hw : WritesOnly [⟨v.addr + 24, 8⟩] k.mem m' := by
    rw [← hm]
    exact (WritesOnly.refl _ _).store (s := ⟨v.addr + 24, 8⟩) (by simp) le_rfl le_rfl
  obtain ⟨hok, hnext⟩ := h.link_ok hslabs (hw.mono fun d hd => List.mem_cons_of_mem _ hd)
  have hstruct : WritesOnly [v.struct] k.mem m' := hw.widen fun d hd =>
    ⟨v.struct, by simp, by rw [List.mem_singleton.mp hd]; simp [CacheView.struct],
      by rw [List.mem_singleton.mp hd]; simp [CacheView.struct, sizeofKmemCache]⟩
  have hother : ∀ u ∈ pre ++ post, CacheOk m' u ∧ Chained m' u := by
    intro u hu
    obtain ⟨hcok, hslab, hnx⟩ := (h.ok u (mem_of_others hu)).frame (h.fits u (mem_of_others hu))
      hstruct fun d hd e he => by
        rw [List.mem_singleton.mp hd]
        exact h.split.2.1 _ List.mem_cons_self u hu e (CacheView.deps_sub_spans he)
    exact ⟨hcok, (hch u (mem_of_others hu)).frame hslab hnx⟩
  have hb : slabBase m' s.hdr = s.base := (hok.slabs s hs).base
  have hinv := h.dropSlab hslabs hrest (h.full_of_length hs hlen)
    (A.free_page h.owns hbase) hok fun u hu => (hother u hu).1
  refine ⟨insert s.base F, O \ {s.base}, (if v.InPage then [] else [s.hdr]) ++ lost, ?_, ?_, ?_⟩
  · rw [kmemSlabDestroy, hb]
    exact hinv
  · refine forall_mem_replace ?_ fun u hu => (hother u hu).2
    have hchain := hch v hvmem (hslabs ▸ List.cons_ne_nil _ _)
    rw [hslabs, List.map_cons] at hchain
    obtain ⟨-, -, htail⟩ := hchain
    have hslab : cacheSlab m' v.addr = slabNext k.mem s.hdr := by
      rw [← hm]
      exact load_store_same (load_lt k.mem _ 8)
    intro _
    have hgoal : Linked (slabNext m') (cacheSlab m' v.addr) (rest.map SlabView.hdr) := by
      rw [hslab]
      refine htail.congr ?_
      intro b hb
      obtain ⟨t, ht, rfl⟩ := List.mem_map.mp hb
      exact hnext t ht
    exact hgoal
  · rw [Set.insert_union, ← Set.union_insert, Set.insert_sdiff_singleton,
      Set.insert_eq_of_mem hbase]

/-- **`kmem_cache_free`** of an object that lies in the first slab's page. -/
theorem kmemCacheFree_spec {obj : ℕ} (h : KmemInv A sc F O k (pre ++ v :: post) lost)
    (hch : ∀ u ∈ pre ++ v :: post, Chained k.mem u) (hslabs : v.slabs = s :: rest)
    (hobj : obj ∈ v.live) (hblock : obj ∈ v.blocks s.base) :
    ∃ k', kmemCacheFree A k v.addr obj = some k' ∧ ∃ F' O' vs' lost',
      KmemInv A sc F' O' k' vs' lost' ∧ (∀ u ∈ vs', Chained k'.mem u) ∧
      Kept sc v.addr (·.erase obj) (pre ++ v :: post) vs' ∧ F' ∪ O' = F ∪ O := by
  obtain ⟨m', hrun, hinv, hch'⟩ := h.freeObject hch hslabs hobj hblock
  have hkept : ∀ sl : List SlabView, sl ≠ [] → KeptView sc v.addr (·.erase obj) v
      { v with slabs := sl, live := v.live.erase obj } := fun sl hsl =>
    ⟨rfl, rfl, rfl, rfl, fun _ => hsl, by simp, fun hne => absurd rfl hne⟩
  have hvmem' := List.mem_append_right pre (List.mem_cons_self (l := post)
    (a := { v with slabs := { s with free := obj :: s.free } :: rest, live := v.live.erase obj }))
  have hslab := (hinv.ok _ hvmem').slabs _ List.mem_cons_self
  have hhead : cacheSlab m' v.addr = s.hdr :=
    (hch' _ hvmem').head (s := { s with free := obj :: s.free }) rfl
  have hfull : kmemSlabIsFull m' s.hdr = decide ((obj :: s.free).length = v.capacity) := by
    have hn : slabNrFree m' s.hdr = (obj :: s.free).length := hslab.nrFree
    have hc : slabCapacity m' s.hdr = v.capacity := hslab.capacity
    rw [kmemSlabIsFull, hn, hc]
    rfl
  have hchain := hch' _ hvmem' (List.cons_ne_nil _ _)
  rw [List.map_cons] at hchain
  have hnext : slabNext m' s.hdr = 0 ↔ rest = [] := by
    rw [hchain.2.2.eq_zero_iff, List.map_eq_nil_iff]
  by_cases hlen : (obj :: s.free).length = v.capacity
  · by_cases hrest : rest = []
    · refine ⟨{ k with mem := m' }, ?_, F, O, _, lost, hinv, hch',
        h.kept_replace (hkept _ (List.cons_ne_nil _ _)), rfl⟩
      have hz := hnext.mpr hrest
      simp only [kmemCacheFree, hrun, Option.bind_eq_bind, Option.bind_some, hhead, hfull, hlen,
        decide_true, Bool.true_eq_false, if_false, hz, ne_eq, not_true_eq_false]
    · obtain ⟨F', O', lost', hinv', hch'', hsame⟩ := hinv.destroy hch' rfl hrest hlen
      refine ⟨_, ?_, F', O', _, lost', hinv', hch'', h.kept_replace (hkept _ hrest), hsame⟩
      have hz : slabNext m' s.hdr ≠ 0 := fun hz => hrest (hnext.mp hz)
      simp only [kmemCacheFree, hrun, Option.bind_eq_bind, Option.bind_some, hhead, hfull, hlen,
        decide_true, Bool.true_eq_false, if_false, hz, ne_eq, not_false_eq_true, if_true]
  · refine ⟨{ k with mem := m' }, ?_, F, O, _, lost, hinv, hch',
      h.kept_replace (hkept _ (List.cons_ne_nil _ _)), rfl⟩
    simp only [kmemCacheFree, hrun, Option.bind_eq_bind, Option.bind_some, hhead, hfull, hlen,
      decide_false, if_true]

/-! ## A new cache -/

/-- The cache without the object `a`, if that is one of `home`. -/
def CacheView.without (home : Option ℕ) (a : ℕ) (u : CacheView) : CacheView :=
  { u with live := if home = some u.addr then u.live.erase a else u.live }

theorem CacheView.without_of_ne {home : Option ℕ} {a : ℕ} (h : home ≠ some u.addr) :
    u.without home a = u := by
  rw [CacheView.without, if_neg h]

theorem CacheView.without_live_sublist (home : Option ℕ) (a : ℕ) (u : CacheView) :
    (u.without home a).live.Sublist u.live := by
  simp only [CacheView.without]
  split
  · exact List.erase_sublist
  · exact List.Sublist.refl _

/-- There is room for the structure of the new cache `v`: it is static and apart from the
other structures, or an object in use. -/
def CacheView.Placed (vs : List CacheView) (v : CacheView) : Prop :=
  match v.home with
  | none => ∀ u ∈ vs, v.struct.Apart u.struct
  | some c => ∃ u ∈ vs, u.addr = c ∧ sizeofKmemCache ≤ u.block ∧ v.addr ∈ u.live

namespace KmemInv

theorem map_without {a : ℕ} (h : KmemInv A sc F O k (pre ++ u :: post) lost) :
    (pre ++ u :: post).map (CacheView.without (some u.addr) a) =
      pre ++ { u with live := u.live.erase a } :: post := by
  have hsame : ∀ l : List CacheView, (∀ w ∈ l, w ∈ pre ++ post) →
      l.map (CacheView.without (some u.addr) a) = l := by
    intro l hl
    refine (List.map_congr_left fun w hw => ?_).trans (List.map_id l)
    exact CacheView.without_of_ne fun heq => h.addr_ne (hl w hw) (Option.some.inj heq).symm
  rw [List.map_append, List.map_cons, hsame pre fun w hw => List.mem_append_left _ hw,
    hsame post fun w hw => List.mem_append_right _ hw]
  simp [CacheView.without]

theorem placed_apart (h : KmemInv A sc F O k vs lost) (hv : ViewOk sc (F ∪ O) v)
    (hplaced : v.Placed vs) :
    ∀ e ∈ (vs.map (CacheView.without v.home v.addr)).flatMap CacheView.spans ++ lost.map headerAt,
      v.struct.Apart e := by
  intro e he
  rw [CacheView.Placed] at hplaced
  cases hhome : v.home with
  | none =>
      have hid : vs.map (CacheView.without none v.addr) = vs := by
        refine (List.map_congr_left fun w _ => ?_).trans (List.map_id vs)
        exact CacheView.without_of_ne (by simp)
      rw [hhome] at hplaced he
      rw [hid] at he
      rcases h.located he with ⟨u, hu, -, rfl⟩ | ⟨u, hu, s, hs, hlo, hhi⟩
      · exact hplaced u hu
      · have hst := hv.static hhome s.base (Or.inr (h.taken u hu s hs))
        simp only [Span.Apart] at hst ⊢
        omega
  | some c =>
      rw [hhome] at hplaced he
      obtain ⟨u, hu, rfl, hblock, hlive⟩ := hplaced
      obtain ⟨pre, post, rfl⟩ := List.append_of_mem hu
      rw [h.map_without] at he
      -- The object is one of the spans, and the structure is inside it.
      have hperm : ((pre ++ u :: post).flatMap CacheView.spans ++ lost.map headerAt).Perm
          (u.blockAt v.addr :: ((pre ++ { u with live := u.live.erase v.addr } :: post).flatMap
            CacheView.spans ++ lost.map headerAt)) := by
        rw [List.perm_iff_count]
        intro a
        have hspans : ({ u with live := u.live.erase v.addr } : CacheView).spans = u.struct ::
            (u.slabs.map SlabView.header ++
              (u.free ++ u.live.erase v.addr).map u.blockAt) := rfl
        have hcount := ((List.perm_cons_erase hlive).map u.blockAt).count_eq a
        rw [List.map_cons, List.count_cons] at hcount
        simp only [List.flatMap_append, List.flatMap_cons, hspans]
        simp only [CacheView.spans, List.map_append, List.count_append, List.count_cons,
          List.cons_append, hcount]
        omega
      have hapart := (List.pairwise_cons.mp (hperm.pairwise h.sep fun hab => hab.symm)).1 e he
      simp only [Span.Apart, CacheView.blockAt, CacheView.struct] at hapart ⊢
      omega

theorem without_pairwise (h : KmemInv A sc F O k vs lost) (home : Option ℕ) (a : ℕ) :
    ((vs.map (CacheView.without home a)).flatMap CacheView.spans ++
      lost.map headerAt).Pairwise Span.Apart := by
  have hview : ∀ u : CacheView, (u.without home a).spans.Sublist u.spans := fun u =>
    List.Sublist.cons_cons _ (List.Sublist.append (List.Sublist.refl _) (List.Sublist.map _
      (List.Sublist.append (List.Sublist.refl _) (CacheView.without_live_sublist home a u))))
  have hall : ∀ l : List CacheView, ((l.map (CacheView.without home a)).flatMap
      CacheView.spans).Sublist (l.flatMap CacheView.spans) := by
    intro l
    induction l with
    | nil => exact List.Sublist.refl _
    | cons u l ih => exact (hview u).append ih
  exact h.sep.sublist ((hall vs).append (List.Sublist.refl _))

/-- **A new cache**, before it has a slab. Its structure may be an object taken from
another cache. -/
theorem addCache (h : KmemInv A sc F O k vs lost) (hv : ViewOk sc (F ∪ O) v)
    (hslabs : v.slabs = []) (hlive : v.live = []) (hplaced : v.Placed vs)
    (hready : ¬ v.InPage → ∃ u ∈ vs, u.addr = sc ∧ u.slabs ≠ [])
    (hok : CacheOk m' v) (hkeep : ∀ u ∈ vs, CacheOk m' u) :
    KmemInv A sc F O { k with mem := m' } (v :: vs.map (CacheView.without v.home v.addr)) lost := by
  have hspans : v.spans = [v.struct] := by
    simp [CacheView.spans, CacheView.free, hslabs, hlive]
  have hext : extHeaders (v :: vs.map (CacheView.without v.home v.addr)) = extHeaders vs := by
    rw [extHeaders_cons, hslabs, extHeaders, List.flatMap_map]
    simp only [List.map_nil, ite_self, List.nil_append]
    rfl
  have hblock : ∀ {c n x}, IsBlock vs c n x →
      IsBlock (v :: vs.map (CacheView.without v.home v.addr)) c n x := by
    rintro c n x ⟨u, hu, hc, hn, s, hs, hx⟩
    exact ⟨_, List.mem_cons_of_mem _ (List.mem_map_of_mem hu), hc, hn, s, hs, hx⟩
  have hstruct : ∀ {c x}, IsStruct vs c x →
      IsStruct (v :: vs.map (CacheView.without v.home v.addr)) c x := by
    rintro c x ⟨u, hu, hh, ha⟩
    exact ⟨_, List.mem_cons_of_mem _ (List.mem_map_of_mem hu), hh, ha⟩
  have hsc : ∀ a, (∃ u ∈ vs, u.addr = a ∧ u.slabs ≠ []) →
      ∃ u ∈ v :: vs.map (CacheView.without v.home v.addr), u.addr = a ∧ u.slabs ≠ [] := by
    rintro a ⟨u, hu, ha, hne⟩
    exact ⟨_, List.mem_cons_of_mem _ (List.mem_map_of_mem hu), ha, hne⟩
  constructor
  · exact h.owns
  · rw [List.forall_mem_cons, List.forall_mem_map]
    exact ⟨hv, fun u hu => (h.view u hu).reslab⟩
  · have hb := h.bases
    rw [List.flatMap_cons, hslabs, List.flatMap_map]
    exact hb
  · rw [List.forall_mem_cons, List.forall_mem_map, hslabs]
    exact ⟨fun s hs => absurd hs List.not_mem_nil, h.taken⟩
  · intro e
    rw [h.held e]
    simp only [List.mem_cons, List.mem_map, exists_eq_or_imp, hslabs, List.not_mem_nil,
      false_and, exists_false, false_or, exists_exists_and_eq_and]
    rfl
  · rw [List.forall_mem_cons, List.forall_mem_map]
    refine ⟨hok, fun u hu => ?_⟩
    have hu := hkeep u hu
    exact ⟨hu.bufctl, hu.size, hu.align, fun s hs => (hu.slabs s hs).reslab⟩
  · rw [List.flatMap_cons, hspans, List.singleton_append, List.cons_append, List.pairwise_cons]
    exact ⟨h.placed_apart hv hplaced, h.without_pairwise _ _⟩
  · rw [List.forall_mem_cons, List.forall_mem_map, hslabs]
    exact ⟨fun _ s hs => absurd hs List.not_mem_nil, h.inPage⟩
  · rw [hext]
    exact h.headers
  · rw [hext]
    exact fun x hx => hblock (h.outside x hx)
  · rw [List.forall_mem_cons, List.forall_mem_map]
    refine ⟨fun c hc => ?_, fun u hu c hc => hblock (h.homed u hu c hc)⟩
    rw [CacheView.Placed, hc] at hplaced
    obtain ⟨u, hu, rfl, hn, hx⟩ := hplaced
    obtain ⟨s, hs, hblk⟩ := h.live_block hu hx
    exact hblock ⟨u, hu, rfl, hn, s, hs, hblk⟩
  · rw [List.forall_mem_cons, List.forall_mem_map, hslabs]
    exact ⟨fun s hs => absurd hs List.not_mem_nil, h.free_sub⟩
  · rw [List.forall_mem_cons, List.forall_mem_map, hlive]
    exact ⟨fun x hx => absurd hx List.not_mem_nil, fun u hu x hx =>
      hblock (h.live_sub u hu x ((CacheView.without_live_sublist _ _ u).subset hx))⟩
  · rw [hext, List.forall_mem_cons, List.forall_mem_map, hslabs]
    refine ⟨fun s hs => absurd hs List.not_mem_nil, fun u hu s hs x hx => ?_⟩
    rcases h.cover u hu s hs x hx with hc | hc | hc | hc
    · exact Or.inl hc
    · -- The object may be the new structure.
      by_cases hx : v.home = some u.addr ∧ x = v.addr
      · exact Or.inr (Or.inr (Or.inr ⟨v, List.mem_cons_self, hx.1, hx.2.symm⟩))
      · refine Or.inr (Or.inl ?_)
        simp only [CacheView.without]
        split
        · rename_i hhome
          exact (List.mem_erase_of_ne fun heq => hx ⟨hhome, heq⟩).mpr hc
        · exact hc
    · exact Or.inr (Or.inr (Or.inl hc))
    · exact Or.inr (Or.inr (Or.inr (hstruct hc)))
  · rw [List.forall_mem_cons, List.forall_mem_map]
    exact ⟨fun hin => hsc sc (hready hin), fun u hu hin => hsc sc (h.ready u hu hin)⟩

end KmemInv

theorem cacheOk_init (hfits : v.Fits) (hslabs : v.slabs = []) (hsize : v.size < 2 ^ 64)
    (halign : v.align < 2 ^ 64) :
    CacheOk (store (store (store m (v.addr + 8) 8 v.size) (v.addr + 16) 8 v.align) v.addr 8
      (v.block - sizeofKmemBufctl)) v := by
  have hoff : v.block - sizeofKmemBufctl < 256 ^ 8 := by
    have hblock := hfits.block
    have husable := v.usable_le
    simp only [pageSizeSmall] at husable
    omega
  refine ⟨load_store_same hoff, ?_, ?_, fun s hs => ?_⟩
  · refine (load_store_of_disjoint ?_).trans ((load_store_of_disjoint ?_).trans
      (load_store_same hsize)) <;> omega
  · refine (load_store_of_disjoint ?_).trans (load_store_same halign)
    omega
  · rw [hslabs] at hs
    cases hs

theorem KmemInv.placed_deps (h : KmemInv A sc F O k vs lost) (hv : ViewOk sc (F ∪ O) v)
    (hplaced : v.Placed vs) : ∀ u ∈ vs, ∀ e ∈ u.deps, v.struct.Apart e := by
  intro u hu e he
  refine h.placed_apart hv hplaced e (List.mem_append_left _ (List.mem_flatMap.mpr ?_))
  exact ⟨u.without v.home v.addr, List.mem_map_of_mem hu, CacheView.deps_sub_spans he⟩

/-- The memory in which `kmem_cache_init` makes the first slab. -/
def cacheStruct (m : Mem) (cache size align : ℕ) : Mem :=
  store (store (store m (cache + 8) 8 size) (cache + 16) 8 align) cache 8
    (alignUp size align - sizeofKmemBufctl)

theorem writesOnly_cacheStruct (m : Mem) (c size align : ℕ) :
    WritesOnly [⟨c, sizeofKmemCache⟩] m (cacheStruct m c size align) := by
  refine (((WritesOnly.refl _ _).store (s := ⟨c, sizeofKmemCache⟩) ?_ ?_ ?_).store
    (s := ⟨c, sizeofKmemCache⟩) ?_ ?_ ?_).store (s := ⟨c, sizeofKmemCache⟩) ?_ ?_ ?_ <;>
    simp [sizeofKmemCache]

theorem KmemInv.initStruct (h : KmemInv A sc F O k vs lost) (hch : ∀ u ∈ vs, Chained k.mem u)
    (hv : ViewOk sc (F ∪ O) v) (hslabs : v.slabs = []) (hlive : v.live = [])
    (hplaced : v.Placed vs) (hready : ¬ v.InPage → ∃ u ∈ vs, u.addr = sc ∧ u.slabs ≠ [])
    (hsize : v.size < 2 ^ 64) (halign : v.align < 2 ^ 64) :
    KmemInv A sc F O { k with mem := cacheStruct k.mem v.addr v.size v.align }
        ([] ++ v :: vs.map (CacheView.without v.home v.addr)) lost ∧
      ∀ u ∈ v :: vs.map (CacheView.without v.home v.addr),
        Chained (cacheStruct k.mem v.addr v.size v.align) u := by
  have happart : ∀ d ∈ [v.struct], ∀ u ∈ vs, ∀ e ∈ u.deps, d.Apart e := by
    intro d hd
    rw [List.mem_singleton.mp hd]
    exact h.placed_deps hv hplaced
  obtain ⟨hinv₁, hch₁⟩ := h.setMem (writesOnly_cacheStruct k.mem v.addr v.size v.align) happart
  refine ⟨h.addCache hv hslabs hlive hplaced hready (cacheOk_init hv.fits hslabs hsize halign)
    hinv₁.ok, ?_⟩
  rw [List.forall_mem_cons, List.forall_mem_map]
  exact ⟨fun hne => absurd hslabs hne, fun u hu => hch₁ u hu (hch u hu)⟩

theorem KmemInv.init_slab_iff {slab : ℕ} {k₁ : Kmem σ} (h : KmemInv A sc F O k vs lost)
    (hch : ∀ u ∈ vs, Chained k.mem u) (hv : ViewOk sc (F ∪ O) v) (hslabs : v.slabs = [])
    (hlive : v.live = []) (hplaced : v.Placed vs)
    (hready : ∃ u ∈ vs, u.addr = sc ∧ u.slabs ≠ [])
    (hsize : v.size < 2 ^ 64) (halign : v.align < 2 ^ 64)
    (hmade : kmemSlabCreate A (fun k => kmemCacheAlloc A sc (fuel + 2) k sc)
      { k with mem := cacheStruct k.mem v.addr v.size v.align } v.addr = some (slab, k₁)) :
    slab ≠ 0 ↔ (A.alloc k.pages).1 ≠ 0 ∧
      (v.InPage ∨ HasFree k.mem sc ∨ (A.alloc (A.alloc k.pages).2).1 ≠ 0) := by
  obtain ⟨hinv, hchv⟩ := h.initStruct hch hv hslabs hlive hplaced (fun _ => hready) hsize halign
  obtain ⟨u, hu, rfl, hne⟩ := hready
  rw [kmemSlabCreate_ne_zero_iff hinv hchv hmade,
    h.hasFree_congr hch hu hinv hchv (List.mem_cons_of_mem _ (List.mem_map_of_mem hu)) rfl rfl hne]

/-- **`kmem_cache_init`** of a cache whose blocks fit into a page: the cache has its first
slab, or no slab and nothing is changed but the structure. -/
theorem kmemCacheInit_spec (fuel : ℕ) (h : KmemInv A sc F O k vs lost) (hch : ∀ u ∈ vs, Chained k.mem u)
    (hv : ViewOk sc (F ∪ O) v) (hslabs : v.slabs = []) (hlive : v.live = [])
    (hplaced : v.Placed vs) (hready : ¬ v.InPage → ∃ u ∈ vs, u.addr = sc ∧ u.slabs ≠ [])
    (hsize : v.size < 2 ^ 64) (halign : v.align < 2 ^ 64) :
    ∃ slab k₁ k', kmemSlabCreate A (fun k => kmemCacheAlloc A sc (fuel + 2) k sc)
        { k with mem := cacheStruct k.mem v.addr v.size v.align } v.addr = some (slab, k₁) ∧
      kmemCacheInit A sc (fuel + 2) k v.addr v.size v.align = some (0, k') ∧
      cacheSlab k'.mem v.addr = slab ∧
      (slab = 0 ∧ KmemInv A sc F O k' vs lost ∧ (∀ u ∈ vs, Chained k'.mem u) ∨
        slab ≠ 0 ∧ ∃ F' O' vs', KmemInv A sc F' O' k' vs' lost ∧
          (∀ u ∈ vs', Chained k'.mem u) ∧ F' ∪ O' = F ∪ O ∧
          Kept sc v.addr id (v :: vs.map (CacheView.without v.home v.addr)) vs' ∧
          ∀ u ∈ vs', u.addr = v.addr → u.slabs ≠ []) := by
  obtain ⟨hinv, hchv⟩ := h.initStruct hch hv hslabs hlive hplaced hready hsize halign
  have hw : WritesOnly [v.struct] k.mem (cacheStruct k.mem v.addr v.size v.align) :=
    writesOnly_cacheStruct k.mem v.addr v.size v.align
  have happart : ∀ d ∈ [v.struct], ∀ u ∈ vs, ∀ e ∈ u.deps, d.Apart e := by
    intro d hd
    rw [List.mem_singleton.mp hd]
    exact h.placed_deps hv hplaced
  generalize hm : cacheStruct k.mem v.addr v.size v.align = m₁ at hinv hchv hw
  have hnot : ¬ alignUp v.size v.align < sizeofKmemBufctl := not_lt.mpr hv.fits.bufctl
  obtain ⟨slab, k₁, hmade, hres⟩ := kmemSlabCreate_spec fuel hinv hchv
  have hrun : kmemCacheInit A sc (fuel + 2) k v.addr v.size v.align =
      some (0, { k₁ with mem := store k₁.mem (v.addr + 24) 8 slab }) := by
    rw [kmemCacheInit, if_neg hnot]
    simp only [Option.bind_eq_bind]
    rw [cacheStruct] at hm
    rw [hm, hmade]
    rfl
  refine ⟨slab, k₁, _, hmade, hrun, ?_⟩
  rcases hres with ⟨rfl, π, hπ, rfl⟩ | ⟨hne, F', O', pre, post, p, hinv', hch', hnext, hgrown⟩
  · refine ⟨load_store_same (by norm_num), Or.inl ⟨rfl, ?_⟩⟩
    have hw₂ : WritesOnly [v.struct] k.mem (store m₁ (v.addr + 24) 8 0) := by
      refine hw.store (s := v.struct) (by simp) ?_ ?_ <;> simp [CacheView.struct, sizeofKmemCache]
    obtain ⟨hinv₂, hch₂⟩ := h.setMem hw₂ happart
    refine ⟨?_, fun u hu => hch₂ u hu (hch u hu)⟩
    exact hinv₂.setPages hπ subset_rfl h.taken
  · have hle := hinv'.hdr_le (List.mem_append_right _ List.mem_cons_self) (List.mem_cons_self
      (a := v.newSlab slab p))
    have hlt : slab < 256 ^ 8 := by
      have : slab + sizeofKmemSlab ≤ 2 ^ 64 := hle
      simp only [sizeofKmemSlab] at this
      omega
    have hsep : slab + 40 ≤ v.addr ∨ v.addr + 64 ≤ slab := (hinv'.header_apart rfl).1
    have hslab : cacheSlab (store k₁.mem (v.addr + 24) 8 slab) v.addr = slab := load_store_same hlt
    obtain ⟨hinv₂, hch₂⟩ := hinv'.link rfl
      (fun u hu => hch' u (mem_of_others hu))
      ((WritesOnly.refl _ _).store (s := ⟨v.addr + 24, 8⟩) (by simp) le_rfl le_rfl) hslab hne (by
        rw [hslabs]
        refine (load_store_of_disjoint ?_).trans hnext.next
        show slab + 24 + 8 ≤ v.addr + 24 ∨ v.addr + 24 + 8 ≤ slab + 24
        omega)
    refine ⟨hslab, Or.inr ⟨hne, F', O', _, hinv₂, hch₂, hgrown.same, hgrown.kept, ?_⟩⟩
    intro u hu haddr
    rw [hinv₂.view_eq (List.mem_append_right _ List.mem_cons_self) hu haddr]
    exact List.cons_ne_nil _ _

end Manticore
