import Manticore.Mm.KmemCache

/-!
# Runs of the kernel memory allocator

Any number of caches, initialised, allocated from and freed to in any order, over one
page allocator.  In a run in which the blocks of every cache fit into a page and every
freed object lies in the page of its cache's first slab, no object overlaps another, no
page with an object in it is given back, and every block is in use or on one free list.
-/

namespace Manticore

variable {σ : Type} (A : PageAllocator σ) (sc : ℕ)

/-- The allocator, with what its callers know: the caches that have a slab, the objects
handed out and not freed, and those of them that serve as cache structures. An object is
written with the cache it came from. -/
structure KmemState (σ : Type) where
  k : Kmem σ
  caches : List ℕ
  live : List (ℕ × ℕ)
  structs : List (ℕ × ℕ)

/-- A call, or a write by the owner of an object. The structure of a new cache is static,
or an object of the cache `home`. -/
inductive KmemOp where
  | init (c size align : ℕ) (home : Option ℕ)
  | alloc (c : ℕ)
  | free (c obj : ℕ)
  | write (c obj off : ℕ) (b : UInt8)
deriving DecidableEq, Repr

namespace KmemState

/-- Before the first call. -/
def start (pages : σ) (mem : Mem) : KmemState σ := ⟨⟨pages, mem, [], []⟩, [], [], []⟩

/-- The cache at `c` has got its first slab. -/
def addCache (s : KmemState σ) (k : Kmem σ) (c : ℕ) : Option ℕ → KmemState σ
  | none => { s with k := k, caches := c :: s.caches }
  | some home =>
      { s with k := k, caches := c :: s.caches, live := s.live.erase (home, c)
               structs := (home, c) :: s.structs }

/-- One operation; `none` is a fault. -/
def exec (s : KmemState σ) : KmemOp → Option (KmemState σ)
  | .init c size align home => do
      let (err, k) ← kmemCacheInit A sc 2 s.k c size align
      if err = 0 ∧ cacheSlab k.mem c ≠ 0 then some (s.addCache k c home)
      else some { s with k := k }
  | .alloc c => do
      let (obj, k) ← kmemCacheAlloc A sc 3 s.k c
      if obj = 0 then some { s with k := k }
      else some { s with k := k, live := (c, obj) :: s.live }
  | .free c obj => do
      let k ← kmemCacheFree A s.k c obj
      some { s with k := k, live := s.live.erase (c, obj) }
  | .write _ obj off b =>
      some { s with k := { s.k with mem := store s.k.mem (obj + off) 1 b.toNat } }

def step (s : Option (KmemState σ)) (op : KmemOp) : Option (KmemState σ) :=
  s.bind fun s => s.exec A sc op

/-- What the callers promise, `P` being all pages of the allocator. -/
def Legal (P : Set ℕ) (s : KmemState σ) : KmemOp → Prop
  | .init c size align home =>
      c ≠ 0 ∧ c < 2 ^ 64 ∧ size < 2 ^ 64 ∧ align < 2 ^ 64 ∧
      (c = sc → size = sizeofKmemSlab ∧ align = 8) ∧ (pageSizeSmall / 8 ≤ size → sc ∈ s.caches) ∧
      match home with
      | none => (∀ p ∈ P, Span.Apart ⟨c, sizeofKmemCache⟩ ⟨p, pageSizeSmall⟩) ∧
          ∀ d ∈ s.caches, Span.Apart ⟨c, sizeofKmemCache⟩ ⟨d, sizeofKmemCache⟩
      | some h => (h, c) ∈ s.live ∧ sizeofKmemCache ≤ cacheSize s.k.mem h
  | .alloc c => c ∈ s.caches
  | .free c obj => (c, obj) ∈ s.live
  | .write c obj off _ => (c, obj) ∈ s.live ∧ off < cacheSize s.k.mem c

/-- Bytes of a slab's page that hold blocks, for objects of `size` bytes. -/
def usable (size : ℕ) : ℕ :=
  if size < pageSizeSmall / 8 then pageSizeSmall - sizeofKmemSlab else pageSizeSmall

/-- What `kmem_cache_init` and `kmem_cache_free` leave unchecked: a block is no smaller
than its object and fits into a page, and an object is freed while the first slab of its
cache is the one it came from. -/
def Confined (s : KmemState σ) : KmemOp → Prop
  | .init _ size align _ => alignUp size align < sizeofKmemBufctl ∨
      size ≤ alignUp size align ∧ alignUp size align ≤ usable size
  | .free c obj =>
      let base := slabBase s.k.mem (cacheSlab s.k.mem c)
      base ≤ obj ∧ obj < base + pageSizeSmall
  | .alloc _ => True
  | .write .. => True

/-- The objects in use: those of the callers, and the slab headers. -/
def objects (s : KmemState σ) : List (ℕ × ℕ) :=
  s.live ++ s.structs ++ s.k.headers.map fun x => (sc, x)

end KmemState

/-- The memory of an object. -/
def objectSpan (m : Mem) (e : ℕ × ℕ) : Span := ⟨e.2, cacheSize m e.1⟩

/-- `x` is a block of the page `b` of the cache at `c`. -/
def BlockOf (m : Mem) (c b x : ℕ) : Prop :=
  ∃ i, x = b + i * alignUp (cacheSize m c) (cacheAlign m c) ∧
    (i + 1) * alignUp (cacheSize m c) (cacheAlign m c) ≤ KmemState.usable (cacheSize m c)

/-- The free list of `slab` is `l`. -/
def FreeList (m : Mem) (c slab : ℕ) (l : List ℕ) : Prop :=
  Linked (bufctlNext m) (slabHead m slab) (l.map (· + cacheBufctl m c)) ∧
    ∀ x ∈ l, bufctlAddr m (x + cacheBufctl m c) = x

/-- **Safety of the caches.** Objects in use do not overlap, each lies in a page its cache
has not given back, and a block of such a page is in use or on one free list, once. -/
structure KmemState.Safe (s : KmemState σ) : Prop where
  disjoint : (s.objects sc).Pairwise fun a b =>
    (objectSpan s.k.mem a).Apart (objectSpan s.k.mem b)
  inside : ∀ e ∈ s.objects sc, ∃ b, (e.1, b) ∈ s.k.held ∧ b ≤ e.2 ∧
    e.2 + cacheSize s.k.mem e.1 ≤ b + pageSizeSmall
  blocks : ∀ c b, (c, b) ∈ s.k.held → ∃ slabs : List (ℕ × List ℕ),
    Linked (slabNext s.k.mem) (cacheSlab s.k.mem c) (slabs.map Prod.fst) ∧
      (∀ e ∈ slabs, FreeList s.k.mem c e.1 e.2) ∧
      ∀ x, BlockOf s.k.mem c b x →
        (((s.objects sc).filter (·.1 = c)).map Prod.snd ++ slabs.flatMap Prod.snd).count x = 1

/-! ## Blocks are apart -/

namespace KmemInv

variable {A sc} {F O : Set ℕ} {k : Kmem σ} {vs pre post : List CacheView} {lost : List ℕ}
  {u v : CacheView} {s t : SlabView} {c d x y : ℕ}

theorem view_of_base (h : KmemInv A sc F O k vs lost) (hv : v ∈ vs) (hs : s ∈ v.slabs) (hu : u ∈ vs)
    (ht : t ∈ u.slabs) (hb : t.base = s.base) : u = v := by
  obtain ⟨pre, post, rfl⟩ := List.append_of_mem hv
  by_contra hne
  have hother : u ∈ pre ++ post := by
    simp only [List.mem_append, List.mem_cons] at hu ⊢
    tauto
  have hbases := h.bases
  simp only [List.flatMap_append, List.flatMap_cons] at hbases
  have hperm := (List.perm_append_comm_assoc _ _ _).nodup_iff.mp hbases
  refine (List.nodup_append.mp hperm).2.2 s.base (List.mem_map_of_mem hs) s.base ?_ rfl
  rw [← List.flatMap_append]
  exact List.mem_flatMap.mpr ⟨u, hother, hb ▸ List.mem_map_of_mem ht⟩

theorem isBlock_apart (h : KmemInv A sc F O k vs lost) (hx : IsBlock vs c 0 x)
    (hy : IsBlock vs d 0 y) (hne : (c, x) ≠ (d, y)) :
    (objectSpan k.mem (c, x)).Apart (objectSpan k.mem (d, y)) := by
  obtain ⟨v, hv, rfl, -, s, hs, hx⟩ := hx
  obtain ⟨u, hu, rfl, -, t, ht, hy⟩ := hy
  have hxin := CacheView.block_in_page (h.fits v hv).carved hx
  have hyin := CacheView.block_in_page (h.fits u hu).carved hy
  have hxsize := (h.fits v hv).size
  have hysize := (h.fits u hu).size
  have hvu := v.usable_le
  have huu := u.usable_le
  simp only [objectSpan, Span.Apart, (h.ok v hv).size, (h.ok u hu).size]
  by_cases hb : t.base = s.base
  · obtain rfl := h.view_of_base hv hs hu ht hb
    obtain ⟨i, -, rfl⟩ := CacheView.mem_blocks.mp hx
    obtain ⟨j, -, rfl⟩ := CacheView.mem_blocks.mp hy
    have hij : i ≠ j := by
      rintro rfl
      exact hne (by rw [hb])
    rw [hb]
    rcases Nat.lt_or_gt_of_ne hij with hlt | hlt
    · have := Nat.mul_le_mul_right u.block hlt
      rw [Nat.succ_mul] at this
      omega
    · have := Nat.mul_le_mul_right u.block hlt
      rw [Nat.succ_mul] at this
      omega
  · have := (h.isPage hu ht).apart (h.isPage hv hs) hb
    omega

theorem starts_nodup (h : KmemInv A sc F O k vs lost) :
    (vs.map CacheView.addr ++ (vs.flatMap (fun v => v.slabs.map SlabView.hdr) ++ lost) ++
      vs.flatMap fun v => v.free ++ v.live).Nodup := by
  have hperm : ((vs.map CacheView.struct ++
      (vs.flatMap (fun v => v.slabs.map SlabView.header) ++ lost.map headerAt)) ++
      vs.flatMap fun v => (v.free ++ v.live).map v.blockAt).Perm
      (vs.flatMap CacheView.spans ++ lost.map headerAt) := by
    rw [List.perm_iff_count]
    intro a
    have hsum : ∀ l : List CacheView, (l.flatMap CacheView.spans).count a =
        (l.map CacheView.struct).count a +
          (l.flatMap fun v => v.slabs.map SlabView.header).count a +
          (l.flatMap fun v => (v.free ++ v.live).map v.blockAt).count a := by
      intro l
      induction l with
      | nil => rfl
      | cons v l ih =>
          simp only [List.flatMap_cons, List.map_cons, List.count_append, List.count_cons, ih,
            CacheView.spans, List.cons_append]
          omega
    simp only [List.count_append, hsum]
    omega
  have hpos : ∀ d ∈ vs.flatMap CacheView.spans ++ lost.map headerAt, 0 < d.size := by
    intro d hd
    rcases List.mem_append.mp hd with hd | hd
    · obtain ⟨v, hv, hd⟩ := List.mem_flatMap.mp hd
      have hblock := (h.fits v hv).bufctl
      simp only [CacheView.spans, List.mem_cons, List.mem_append, List.mem_map] at hd
      rcases hd with rfl | ⟨s, -, rfl⟩ | ⟨x, -, rfl⟩
      · exact (by decide : 0 < sizeofKmemCache)
      · exact (by decide : 0 < sizeofKmemSlab)
      · exact lt_of_lt_of_le (by decide) hblock
    · obtain ⟨x, -, rfl⟩ := List.mem_map.mp hd
      exact (by decide : 0 < sizeofKmemSlab)
  have hbases : ((vs.flatMap CacheView.spans ++ lost.map headerAt).map Span.base).Nodup := by
    rw [List.Nodup, List.pairwise_map]
    refine h.sep.imp_of_mem ?_
    intro d e hd he hapart heq
    have := hpos d hd
    have := hpos e he
    simp only [Span.Apart] at hapart
    omega
  have hnd := (hperm.map Span.base).nodup_iff.mpr hbases
  simp only [List.map_append, List.map_map, List.map_flatMap] at hnd
  have hid : lost.map (Span.base ∘ headerAt) = lost := List.map_id'' (fun _ => rfl) lost
  rw [hid] at hnd
  have hfree : (fun v : CacheView => v.free.map (Span.base ∘ v.blockAt) ++
      v.live.map (Span.base ∘ v.blockAt)) = fun v => v.free ++ v.live := by
    funext v
    have hl : ∀ l : List ℕ, l.map (Span.base ∘ v.blockAt) = l := List.map_id'' fun _ => rfl
    rw [hl, hl]
  rw [hfree] at hnd
  exact hnd

end KmemInv

/-! ## What the callers know, against the caches -/

/-- The caches `vs` are behind the state `s`, `P` being all pages. -/
structure KmemState.Backed (P F O : Set ℕ) (s : KmemState σ) (vs : List CacheView)
    (lost : List ℕ) : Prop where
  inv : KmemInv A sc F O s.k vs lost
  chained : ∀ v ∈ vs, Chained s.k.mem v
  slabs : ∀ v ∈ vs, v.slabs ≠ []
  pages : F ∪ O = P
  caches : ∀ c, c ∈ s.caches ↔ ∃ v ∈ vs, v.addr = c
  live : ∀ v ∈ vs, ∀ x, s.live.count (v.addr, x) = v.live.count x
  owner : ∀ e ∈ s.live, ∃ v ∈ vs, v.addr = e.1
  structs : ∀ c x, (c, x) ∈ s.structs ↔ IsStruct vs c x
  structs_nodup : s.structs.Nodup

namespace KmemState.Backed

variable {A sc} {P F O : Set ℕ} {s : KmemState σ} {vs : List CacheView} {lost : List ℕ}
  {v : CacheView} {c x : ℕ}

theorem mem_live (h : s.Backed A sc P F O vs lost) (hv : v ∈ vs) :
    (v.addr, x) ∈ s.live ↔ x ∈ v.live := by
  rw [← List.count_pos_iff, h.live v hv x, List.count_pos_iff]

theorem exists_live (h : s.Backed A sc P F O vs lost) (he : (c, x) ∈ s.live) :
    ∃ v ∈ vs, v.addr = c ∧ x ∈ v.live := by
  obtain ⟨v, hv, rfl⟩ := h.owner _ he
  exact ⟨v, hv, rfl, (h.mem_live hv).mp he⟩

theorem isBlock_of_object (h : s.Backed A sc P F O vs lost) (he : (c, x) ∈ s.objects sc) :
    IsBlock vs c 0 x := by
  simp only [KmemState.objects, List.mem_append, List.mem_map] at he
  rcases he with (he | he) | ⟨y, hy, heq⟩
  · obtain ⟨v, hv, rfl, hx⟩ := h.exists_live he
    exact h.inv.live_sub v hv x hx
  · obtain ⟨u, hu, hhome, rfl⟩ := (h.structs c x).mp he
    obtain ⟨v, hv, hc, -, s, hs, hx⟩ := h.inv.homed u hu c hhome
    exact ⟨v, hv, hc, Nat.zero_le _, s, hs, hx⟩
  · obtain ⟨rfl, rfl⟩ := Prod.mk.inj heq
    obtain ⟨v, hv, hc, -, s, hs, hx⟩ := h.inv.outside y (h.inv.headers.mem_iff.mp hy)
    exact ⟨v, hv, hc, Nat.zero_le _, s, hs, hx⟩

theorem headers_sublist (vs : List CacheView) (lost : List ℕ) :
    (extHeaders vs ++ lost).Sublist (vs.flatMap (fun v => v.slabs.map SlabView.hdr) ++ lost) := by
  refine List.Sublist.append ?_ (List.Sublist.refl _)
  induction vs with
  | nil => exact List.Sublist.refl _
  | cons v vs ih =>
      rw [extHeaders_cons, List.flatMap_cons]
      refine List.Sublist.append ?_ ih
      split
      · exact List.nil_sublist _
      · exact List.Sublist.refl _

theorem objects_nodup (h : s.Backed A sc P F O vs lost) :
    (s.objects sc).Nodup ∧ ∀ c x, (c, x) ∈ s.objects sc → ∀ v ∈ vs, v.addr = c → x ∉ v.free := by
  obtain ⟨hsh, hblocks, hcross⟩ := List.nodup_append.mp h.inv.starts_nodup
  obtain ⟨-, hheads, hstruct⟩ := List.nodup_append.mp hsh
  have hsub := headers_sublist vs lost
  have hheader : ∀ {x}, x ∈ s.k.headers →
      x ∈ vs.flatMap (fun v => v.slabs.map SlabView.hdr) ++ lost := fun hx =>
    hsub.subset (h.inv.headers.mem_iff.mp hx)
  have hlive : ∀ {c x}, (c, x) ∈ s.live → x ∈ vs.flatMap fun v => v.free ++ v.live := by
    intro c x he
    obtain ⟨v, hv, -, hx⟩ := h.exists_live he
    exact List.mem_flatMap.mpr ⟨v, hv, List.mem_append_right _ hx⟩
  have haddr : ∀ {c x}, (c, x) ∈ s.structs → x ∈ vs.map CacheView.addr := by
    intro c x he
    obtain ⟨u, hu, -, rfl⟩ := (h.structs c x).mp he
    exact List.mem_map_of_mem hu
  have hview : ∀ v ∈ vs, (v.free ++ v.live).Nodup := fun v hv =>
    (List.nodup_flatMap.mp hblocks).1 v hv
  refine ⟨?_, ?_⟩
  · rw [KmemState.objects, List.nodup_append, List.nodup_append]
    refine ⟨⟨?_, h.structs_nodup, ?_⟩, ?_, ?_⟩
    · rw [List.nodup_iff_count_le_one]
      rintro ⟨c, x⟩
      by_cases he : (c, x) ∈ s.live
      · obtain ⟨v, hv, rfl, -⟩ := h.exists_live he
        rw [h.live v hv x]
        exact List.nodup_iff_count_le_one.mp (List.nodup_append.mp (hview v hv)).2.1 x
      · rw [List.count_eq_zero_of_not_mem he]
        exact Nat.zero_le _
    · rintro ⟨c, x⟩ he ⟨d, y⟩ he' heq
      obtain ⟨rfl, rfl⟩ := Prod.mk.inj heq
      exact hcross x (List.mem_append_left _ (haddr he')) x (hlive he) rfl
    · refine List.Nodup.map (fun a b hab => (Prod.mk.inj hab).2) ?_
      exact h.inv.headers.nodup_iff.mpr (hheads.sublist hsub)
    · rintro ⟨c, x⟩ he ⟨d, y⟩ he' heq
      obtain ⟨z, hz, hpair⟩ := List.mem_map.mp he'
      obtain ⟨rfl, rfl⟩ := Prod.mk.inj (hpair.trans heq.symm)
      rcases List.mem_append.mp he with he | he
      · exact hcross z (List.mem_append_right _ (hheader hz)) z (hlive he) rfl
      · exact hstruct z (haddr he) z (hheader hz) rfl
  · intro c x he v hv hc hfree
    have hx : x ∈ vs.flatMap fun v => v.free ++ v.live :=
      List.mem_flatMap.mpr ⟨v, hv, List.mem_append_left _ hfree⟩
    simp only [KmemState.objects, List.mem_append, List.mem_map] at he
    rcases he with (he | he) | ⟨y, hy, heq⟩
    · obtain rfl := hc
      exact (List.nodup_append.mp (hview v hv)).2.2 x hfree x ((h.mem_live hv).mp he) rfl
    · exact hcross x (List.mem_append_left _ (haddr he)) x hx rfl
    · obtain ⟨rfl, rfl⟩ := Prod.mk.inj heq
      exact hcross y (List.mem_append_right _ (hheader hy)) y hx rfl

/-- **The callers are safe** over caches that are in order. -/
theorem safe (h : s.Backed A sc P F O vs lost) : s.Safe sc := by
  obtain ⟨hnodup, hnotfree⟩ := h.objects_nodup
  constructor
  · refine List.Pairwise.imp_of_mem ?_ hnodup
    rintro ⟨c, x⟩ ⟨d, y⟩ hx hy hne
    exact h.inv.isBlock_apart (h.isBlock_of_object hx) (h.isBlock_of_object hy) hne
  · rintro ⟨c, x⟩ he
    obtain ⟨v, hv, rfl, -, t, ht, hx⟩ := h.isBlock_of_object he
    have hin := CacheView.block_in_page (h.inv.fits v hv).carved hx
    have hsize := (h.inv.fits v hv).size
    have husable := v.usable_le
    refine ⟨t.base, (h.inv.held _).mpr ⟨v, hv, t, ht, rfl⟩, hin.1, ?_⟩
    show x + cacheSize s.k.mem v.addr ≤ _
    rw [(h.inv.ok v hv).size]
    omega
  · intro c b hb
    obtain ⟨v, hv, t, ht, heq⟩ := (h.inv.held _).mp hb
    obtain ⟨rfl, rfl⟩ := Prod.mk.inj heq
    have hok := h.inv.ok v hv
    refine ⟨v.slabs.map fun t => (t.hdr, t.free), ?_, ?_, ?_⟩
    · have hchain := h.chained v hv (h.slabs v hv)
      rw [List.map_map]
      exact hchain
    · intro e he
      obtain ⟨t', ht', rfl⟩ := List.mem_map.mp he
      rw [FreeList, hok.bufctl]
      exact ⟨(hok.slabs t' ht').list, (hok.slabs t' ht').addr⟩
    · rintro x ⟨i, rfl, hi⟩
      rw [hok.size, hok.align] at hi ⊢
      have hx : t.base + i * v.block ∈ v.blocks t.base :=
        CacheView.mem_blocks.mpr ⟨i, (h.inv.fits v hv).carved.lt_capacity_iff.mpr hi, rfl⟩
      have hfree : (v.slabs.map fun t => (t.hdr, t.free)).flatMap Prod.snd = v.free := by
        rw [List.flatMap_map]
        rfl
      rw [hfree]
      refine List.count_eq_one_of_mem ?_ ?_
      · rw [List.nodup_append]
        refine ⟨?_, ?_, ?_⟩
        · refine List.Nodup.map_on ?_ (hnodup.filter _)
          rintro ⟨c, x⟩ hx ⟨d, y⟩ hy heq
          have hc := of_decide_eq_true (List.mem_filter.mp hx).2
          have hd := of_decide_eq_true (List.mem_filter.mp hy).2
          exact Prod.ext (hc.trans hd.symm) heq
        · obtain ⟨pre, post, rfl⟩ := List.append_of_mem hv
          exact (List.nodup_append.mp h.inv.free_live_nodup).1
        · rintro y hy z hz rfl
          obtain ⟨⟨c, y'⟩, he, rfl⟩ := List.mem_map.mp hy
          obtain ⟨he, hc⟩ := List.mem_filter.mp he
          exact hnotfree c y' he v hv (of_decide_eq_true hc).symm hz
      · have hobj : ∀ y, (v.addr, y) ∈ s.objects sc →
            y ∈ ((s.objects sc).filter (·.1 = v.addr)).map Prod.snd := fun y hy =>
          List.mem_map.mpr ⟨(v.addr, y), List.mem_filter.mpr ⟨hy, by simp⟩, rfl⟩
        rw [List.mem_append]
        rcases h.inv.cover v hv t ht _ hx with hc | hc | ⟨hsc, hc⟩ | hc
        · exact Or.inr (CacheView.mem_free.mpr ⟨t, ht, hc⟩)
        · exact Or.inl (hobj _ (List.mem_append_left _ (List.mem_append_left _
            ((h.mem_live hv).mpr hc))))
        · refine Or.inl (hobj _ (List.mem_append_right _ ?_))
          rw [hsc]
          exact List.mem_map_of_mem (h.inv.headers.mem_iff.mpr hc)
        · exact Or.inl (hobj _ (List.mem_append_left _ (List.mem_append_right _
            ((h.structs _ _).mpr hc))))

/-! ## One operation -/

/-- The state after an operation has caches behind it, too. -/
def Next (A : PageAllocator σ) (sc : ℕ) (P : Set ℕ) (r : Option (KmemState σ)) : Prop :=
  ∃ s F O vs lost, r = some s ∧ KmemState.Backed A sc P F O s vs lost

theorem isStruct_of_kept {f : List ℕ → List ℕ} {vs' : List CacheView} {d : ℕ}
    (hk : Kept sc c f vs vs') : IsStruct vs' d x ↔ IsStruct vs d x := by
  constructor
  · rintro ⟨u', hu', hhome, haddr⟩
    obtain ⟨u, hu, hkv⟩ := hk.mem_right hu'
    exact ⟨u, hu, hkv.home.symm.trans hhome, hkv.addr.symm.trans haddr⟩
  · rintro ⟨u, hu, hhome, haddr⟩
    obtain ⟨u', hu', hkv⟩ := hk.mem_left hu
    exact ⟨u', hu', hkv.home.trans hhome, hkv.addr.trans haddr⟩

theorem of_kept {f : List ℕ → List ℕ} {k' : Kmem σ} {F' O' : Set ℕ} {vs' : List CacheView}
    {lost' : List ℕ} {live' : List (ℕ × ℕ)} (h : s.Backed A sc P F O vs lost)
    (hinv : KmemInv A sc F' O' k' vs' lost') (hch : ∀ v ∈ vs', Chained k'.mem v)
    (hpages : F' ∪ O' = F ∪ O) (hk : Kept sc c f vs vs')
    (hcount : ∀ v ∈ vs, ∀ x, live'.count (v.addr, x) =
      (if v.addr = c then f v.live else v.live).count x)
    (howner : ∀ e ∈ live', ∃ v ∈ vs, v.addr = e.1) :
    KmemState.Backed A sc P F' O' { s with k := k', live := live' } vs' lost' := by
  have hex : ∀ a, (∃ v ∈ vs', v.addr = a) ↔ ∃ v ∈ vs, v.addr = a := by
    intro a
    constructor
    · rintro ⟨u', hu', rfl⟩
      obtain ⟨u, hu, hkv⟩ := hk.mem_right hu'
      exact ⟨u, hu, hkv.addr.symm⟩
    · rintro ⟨u, hu, rfl⟩
      obtain ⟨u', hu', hkv⟩ := hk.mem_left hu
      exact ⟨u', hu', hkv.addr⟩
  refine ⟨hinv, hch, ?_, hpages.trans h.pages, fun a => (h.caches a).trans (hex a).symm, ?_,
    fun e he => (hex e.1).mpr (howner e he), fun d x => ?_, h.structs_nodup⟩
  · intro u' hu'
    obtain ⟨u, hu, hkv⟩ := hk.mem_right hu'
    exact hkv.slabs (h.slabs u hu)
  · intro u' hu' x
    obtain ⟨u, hu, hkv⟩ := hk.mem_right hu'
    rw [hkv.addr, hkv.live]
    exact hcount u hu x
  · exact (h.structs d x).trans (isStruct_of_kept hk).symm

theorem of_alloc {obj : ℕ} {k' : Kmem σ} {F' O' : Set ℕ} {vs' : List CacheView}
    (h : s.Backed A sc P F O vs lost) (hv : v ∈ vs) (hinv : KmemInv A sc F' O' k' vs' lost)
    (hch : ∀ u ∈ vs', Chained k'.mem u)
    (hgrown : Grown sc v.addr (obj :: ·) F O F' O' vs vs') :
    KmemState.Backed A sc P F' O' { s with k := k', live := (v.addr, obj) :: s.live } vs' lost := by
  refine h.of_kept hinv hch hgrown.same hgrown.kept ?_ ?_
  · intro u hu x
    rw [List.count_cons, h.live u hu x]
    by_cases hua : u.addr = v.addr
    · rw [if_pos hua, List.count_cons, hua]
      simp
    · rw [if_neg hua]
      simp [Ne.symm hua]
  · intro e he
    rcases List.mem_cons.mp he with rfl | he
    · exact ⟨v, hv, rfl⟩
    · exact h.owner e he

theorem next_alloc (h : s.Backed A sc P F O vs lost) (hc : c ∈ s.caches) :
    Next A sc P (s.exec A sc (.alloc c)) := by
  obtain ⟨v, hv, rfl⟩ := (h.caches c).mp hc
  have hslabs := h.slabs v hv
  obtain ⟨pre, post, rfl⟩ := List.append_of_mem hv
  obtain ⟨obj, k', hrun, hres⟩ := kmemCacheAlloc_spec 0 h.inv h.chained hslabs
  rcases hres with ⟨rfl, π, hπ, rfl⟩ |
    ⟨hne, F', O', vs', hinv, hch, -, hgrown⟩
  · refine ⟨{ s with k := { s.k with pages := π } }, F, O, pre ++ v :: post, lost, ?_, ?_⟩
    · simp [KmemState.exec, hrun]
    · exact { h with inv := h.inv.setPages hπ subset_rfl h.inv.taken }
  · refine ⟨{ s with k := k', live := (v.addr, obj) :: s.live }, F', O', vs', lost, ?_,
      h.of_alloc hv hinv hch hgrown⟩
    simp [KmemState.exec, hrun, hne]

/-- **`kmem_cache_free`** of an object in the page of the first slab. -/
theorem cacheFree {obj : ℕ} (h : s.Backed A sc P F O vs lost) (hobj : (c, obj) ∈ s.live)
    (hpage : slabBase s.k.mem (cacheSlab s.k.mem c) ≤ obj ∧
      obj < slabBase s.k.mem (cacheSlab s.k.mem c) + pageSizeSmall) :
    ∃ k' F' O' vs' lost', kmemCacheFree A s.k c obj = some k' ∧
      KmemState.Backed A sc P F' O' { s with k := k', live := s.live.erase (c, obj) } vs' lost' ∧
      Kept sc c (List.erase · obj) vs vs' := by
  obtain ⟨v, hv, rfl, hlive⟩ := h.exists_live hobj
  obtain ⟨t, rest, hslabs⟩ := List.exists_cons_of_ne_nil (h.slabs v hv)
  have ht : t ∈ v.slabs := hslabs ▸ List.mem_cons_self
  -- The object is in the first slab's page, so it is one of that slab's blocks.
  have hblock : obj ∈ v.blocks t.base := by
    rw [(h.chained v hv).head hslabs, ((h.inv.ok v hv).slabs t ht).base] at hpage
    obtain ⟨t', ht', hblk⟩ := h.inv.live_block hv hlive
    rw [h.inv.base_eq hv ht hv ht' hpage (h.inv.in_page hv hblk)]
    exact hblk
  obtain ⟨pre, post, rfl⟩ := List.append_of_mem hv
  obtain ⟨k', hrun, F', O', vs', lost', hinv, hch, hkept, hsame⟩ :=
    kmemCacheFree_spec h.inv h.chained hslabs hlive hblock
  refine ⟨k', F', O', vs', lost', hrun, h.of_kept hinv hch hsame hkept ?_ fun e he =>
    h.owner e (List.mem_of_mem_erase he), hkept⟩
  intro u hu x
  rw [List.count_erase, h.live u hu x]
  by_cases hua : u.addr = v.addr
  · rw [if_pos hua, List.count_erase, hua]
    simp
  · rw [if_neg hua]
    simp [Ne.symm hua]

theorem next_free {obj : ℕ} (h : s.Backed A sc P F O vs lost) (hobj : (c, obj) ∈ s.live)
    (hpage : slabBase s.k.mem (cacheSlab s.k.mem c) ≤ obj ∧
      obj < slabBase s.k.mem (cacheSlab s.k.mem c) + pageSizeSmall) :
    Next A sc P (s.exec A sc (.free c obj)) := by
  obtain ⟨k', F', O', vs', lost', hrun, hback, -⟩ := h.cacheFree hobj hpage
  exact ⟨_, F', O', vs', lost', by simp [KmemState.exec, hrun], hback⟩

theorem next_write {obj off : ℕ} {b : UInt8} (h : s.Backed A sc P F O vs lost)
    (hobj : (c, obj) ∈ s.live) (hoff : off < cacheSize s.k.mem c) :
    Next A sc P (s.exec A sc (.write c obj off b)) := by
  obtain ⟨v, hv, rfl, hlive⟩ := h.exists_live hobj
  have hsize := (h.inv.fits v hv).size
  rw [(h.inv.ok v hv).size] at hoff
  obtain ⟨pre, post, rfl⟩ := List.append_of_mem hv
  have hw : WritesOnly [v.blockAt obj] s.k.mem (store s.k.mem (obj + off) 1 b.toNat) := by
    refine (WritesOnly.refl _ _).store (s := v.blockAt obj) (by simp) ?_ ?_ <;>
      simp only [CacheView.blockAt] <;> omega
  obtain ⟨hinv, hch⟩ := h.inv.writeObject h.chained hlive hw
  exact ⟨_, F, O, pre ++ v :: post, lost, rfl, { h with inv := hinv, chained := hch }⟩

/-- The new cache, before it has a slab. -/
def newView (c size align : ℕ) (home : Option ℕ) : CacheView := ⟨c, size, align, [], [], home⟩

section Init

variable {size align : ℕ} {home : Option ℕ} (h : s.Backed A sc P F O vs lost)
  (hlegal : s.Legal sc P (.init c size align home))

include h hlegal

theorem viewOk_new (hfits : (newView c size align home).Fits) :
    ViewOk sc (F ∪ O) (newView c size align home) := by
  obtain ⟨hne, hlt, -, -, hsc, -, hroom⟩ := hlegal
  refine ⟨⟨hne, hlt⟩, hfits, ?_, hsc⟩
  intro hhome
  obtain rfl : home = none := hhome
  rw [h.pages]
  exact hroom.1

theorem placed_new : (newView c size align home).Placed vs := by
  obtain ⟨-, -, -, -, -, -, hroom⟩ := hlegal
  cases home with
  | none => exact fun u hu => hroom.2 u.addr ((h.caches _).mpr ⟨u, hu, rfl⟩)
  | some d =>
      obtain ⟨hmem, hsize⟩ := hroom
      obtain ⟨u, hu, rfl, hx⟩ := h.exists_live hmem
      rw [(h.inv.ok u hu).size] at hsize
      exact ⟨u, hu, rfl, le_trans hsize (h.inv.fits u hu).size, hx⟩

theorem ready_new : ¬ (newView c size align home).InPage →
    ∃ u ∈ vs, u.addr = sc ∧ u.slabs ≠ [] := by
  intro hin
  obtain ⟨-, -, -, -, -, hready, -⟩ := hlegal
  obtain ⟨u, hu, hsc⟩ := (h.caches sc).mp (hready (not_lt.mp hin))
  exact ⟨u, hu, hsc, h.slabs u hu⟩

end Init

section OfInit

variable {size align : ℕ} {home : Option ℕ} {vs' : List CacheView}
  (hk : Kept sc c id (newView c size align home :: vs.map (CacheView.without home c)) vs')
include hk

theorem init_right {u' : CacheView} (hu' : u' ∈ vs') :
    (u'.addr = c ∧ u'.live = [] ∧ u'.home = home) ∨
      ∃ u ∈ vs, u'.addr = u.addr ∧ u'.home = u.home ∧
        u'.live = if home = some u.addr then u.live.erase c else u.live := by
  obtain ⟨u, hu, hkv⟩ := hk.mem_right hu'
  rcases List.mem_cons.mp hu with rfl | hu
  · exact Or.inl ⟨hkv.addr, by rw [hkv.live]; simp [newView], hkv.home⟩
  · obtain ⟨w, hw, rfl⟩ := List.mem_map.mp hu
    refine Or.inr ⟨w, hw, hkv.addr, hkv.home, ?_⟩
    rw [hkv.live]
    exact ite_self _

theorem init_left {u : CacheView} (hu : u ∈ vs) :
    ∃ u' ∈ vs', u'.addr = u.addr ∧ u'.home = u.home := by
  obtain ⟨u', hu', hkv⟩ := hk.mem_left (List.mem_cons_of_mem _ (List.mem_map_of_mem hu))
  exact ⟨u', hu', hkv.addr, hkv.home⟩

theorem init_new : ∃ w ∈ vs', w.addr = c ∧ w.home = home := by
  obtain ⟨w, hw, hkw⟩ := hk.mem_left List.mem_cons_self
  exact ⟨w, hw, hkw.addr, hkw.home⟩

theorem init_slabs (h : s.Backed A sc P F O vs lost)
    (hslab : ∀ u ∈ vs', u.addr = c → u.slabs ≠ []) : ∀ u' ∈ vs', u'.slabs ≠ [] := by
  intro u' hu'
  obtain ⟨u, hu, hkv⟩ := hk.mem_right hu'
  rcases List.mem_cons.mp hu with rfl | hu
  · exact hslab u' hu' hkv.addr
  · obtain ⟨w, hw, rfl⟩ := List.mem_map.mp hu
    exact hkv.slabs (h.slabs w hw)

theorem init_caches (h : s.Backed A sc P F O vs lost) (a : ℕ) :
    a ∈ c :: s.caches ↔ ∃ v ∈ vs', v.addr = a := by
  rw [List.mem_cons, h.caches a]
  constructor
  · rintro (rfl | ⟨u, hu, rfl⟩)
    · obtain ⟨w, hw, ha, -⟩ := init_new hk
      exact ⟨w, hw, ha⟩
    · obtain ⟨u', hu', ha, -⟩ := init_left hk hu
      exact ⟨u', hu', ha⟩
  · rintro ⟨u', hu', rfl⟩
    rcases init_right hk hu' with ⟨ha, -⟩ | ⟨u, hu, ha, -⟩
    · exact Or.inl ha
    · exact Or.inr ⟨u, hu, ha.symm⟩

theorem init_structs (h : s.Backed A sc P F O vs lost) (d x : ℕ) :
    IsStruct vs' d x ↔ home = some d ∧ x = c ∨ (d, x) ∈ s.structs := by
  rw [h.structs d x]
  constructor
  · rintro ⟨u', hu', hhome, rfl⟩
    rcases init_right hk hu' with ⟨ha, -, hh⟩ | ⟨u, hu, ha, hh, -⟩
    · exact Or.inl ⟨hh.symm.trans hhome, ha⟩
    · exact Or.inr ⟨u, hu, hh.symm.trans hhome, ha.symm⟩
  · rintro (⟨hhome, rfl⟩ | ⟨u, hu, hhome, rfl⟩)
    · obtain ⟨w, hw, ha, hh⟩ := init_new hk
      exact ⟨w, hw, hh.trans hhome, ha⟩
    · obtain ⟨u', hu', ha, hh⟩ := init_left hk hu
      exact ⟨u', hu', hh.trans hhome, ha⟩

end OfInit

theorem of_init {size align : ℕ} {home : Option ℕ} {k' : Kmem σ} {F' O' : Set ℕ}
    {vs' : List CacheView} {lost' : List ℕ} (h : s.Backed A sc P F O vs lost)
    (hinv : KmemInv A sc F' O' k' vs' lost') (hch : ∀ v ∈ vs', Chained k'.mem v)
    (hpages : F' ∪ O' = F ∪ O)
    (hk : Kept sc c id (newView c size align home :: vs.map (CacheView.without home c)) vs')
    (hslab : ∀ u ∈ vs', u.addr = c → u.slabs ≠ []) (hfresh : ∀ u ∈ vs, u.addr ≠ c) :
    KmemState.Backed A sc P F' O' (s.addCache k' c home) vs' lost' := by
  have hslabs := init_slabs hk h hslab
  have hcaches := init_caches hk h
  have hnone : ∀ x, (c, x) ∉ s.live := by
    intro x hx
    obtain ⟨u, hu, ha, -⟩ := h.exists_live hx
    exact hfresh u hu ha
  have howner : ∀ e ∈ s.live, ∃ v ∈ vs', v.addr = e.1 := by
    intro e he
    obtain ⟨u, hu, ha⟩ := h.owner e he
    obtain ⟨u', hu', ha', -⟩ := init_left hk hu
    exact ⟨u', hu', ha'.trans ha⟩
  cases home with
  | none =>
      refine ⟨hinv, hch, hslabs, hpages.trans h.pages, hcaches, ?_, howner, fun d x => ?_,
        h.structs_nodup⟩
      · intro u' hu' x
        show s.live.count (u'.addr, x) = _
        rcases init_right hk hu' with ⟨ha, hl, -⟩ | ⟨u, hu, ha, -, hl⟩
        · rw [ha, hl, List.count_eq_zero_of_not_mem (hnone x)]
          rfl
        · rw [ha, hl, h.live u hu x]
          simp
      · rw [init_structs hk h d x]
        simp [KmemState.addCache]
  | some d =>
      refine ⟨hinv, hch, hslabs, hpages.trans h.pages, hcaches, ?_,
        fun e he => howner e (List.mem_of_mem_erase he), fun d' x => ?_, ?_⟩
      · intro u' hu' x
        show (s.live.erase (d, c)).count (u'.addr, x) = _
        rcases init_right hk hu' with ⟨ha, hl, -⟩ | ⟨u, hu, ha, -, hl⟩
        · rw [ha, hl, List.count_eq_zero_of_not_mem fun hx => hnone x (List.mem_of_mem_erase hx)]
          rfl
        · rw [ha, hl, List.count_erase, h.live u hu x]
          by_cases hd : d = u.addr
          · subst hd
            rw [if_pos rfl, List.count_erase]
            simp
          · have hne : some d ≠ some u.addr := fun heq => hd (Option.some.inj heq)
            rw [if_neg hne]
            simp [hd]
      · rw [init_structs hk h d' x]
        simp [KmemState.addCache, eq_comm]
      · refine List.nodup_cons.mpr ⟨fun hmem => ?_, h.structs_nodup⟩
        obtain ⟨u, hu, -, ha⟩ := (h.structs _ _).mp hmem
        exact hfresh u hu ha

theorem next_init {size align : ℕ} {home : Option ℕ} (h : s.Backed A sc P F O vs lost)
    (hlegal : s.Legal sc P (.init c size align home))
    (hconf : s.Confined (.init c size align home)) :
    Next A sc P (s.exec A sc (.init c size align home)) := by
  by_cases hsmall : alignUp size align < sizeofKmemBufctl
  · have hrun : kmemCacheInit A sc 2 s.k c size align = some (-einval, s.k) := by
      rw [kmemCacheInit, if_pos hsmall]
    refine ⟨s, F, O, vs, lost, ?_, h⟩
    simp [KmemState.exec, hrun, einval]
  · have hfits : (newView c size align home).Fits := by
      obtain hc | ⟨hsize, hblock⟩ := hconf
      · exact absurd hc hsmall
      · exact ⟨not_lt.mp hsmall, hsize, hblock⟩
    have hv := h.viewOk_new hlegal hfits
    have hplaced := h.placed_new hlegal
    have hfresh : ∀ u ∈ vs, u.addr ≠ c := by
      intro u hu heq
      have hsep := h.inv.placed_deps hv hplaced u hu _ u.struct_mem_deps
      simp only [CacheView.struct, newView, heq, Span.Apart, sizeofKmemCache] at hsep
      omega
    obtain ⟨slab, k₁, k', -, hrun, rfl, hres⟩ := kmemCacheInit_spec 0 h.inv h.chained hv rfl rfl hplaced
      (h.ready_new hlegal) hlegal.2.2.1 hlegal.2.2.2.1
    have hrun' : kmemCacheInit A sc 2 s.k c size align = some (0, k') := hrun
    rcases hres with ⟨hz, hinv, hch⟩ | ⟨hne, F', O', vs', hinv, hch, hpages, hk, hslab⟩
    · have hz' : cacheSlab k'.mem c = 0 := hz
      refine ⟨{ s with k := k' }, F, O, vs, lost, ?_, { h with inv := hinv, chained := hch }⟩
      simp [KmemState.exec, hrun', hz']
    · have hne' : cacheSlab k'.mem c ≠ 0 := hne
      refine ⟨s.addCache k' c home, F', O', vs', lost, ?_,
        h.of_init hinv hch hpages hk hslab hfresh⟩
      simp [KmemState.exec, hrun', hne']

/-- **Step lemma.** -/
theorem next {op : KmemOp} (h : s.Backed A sc P F O vs lost) (hlegal : s.Legal sc P op)
    (hconf : s.Confined op) : Next A sc P (s.exec A sc op) := by
  cases op with
  | init c size align home => exact h.next_init hlegal hconf
  | alloc c => exact h.next_alloc hlegal
  | free c obj => exact h.next_free hlegal hconf
  | write c obj off b => exact h.next_write hlegal.1 hlegal.2

end KmemState.Backed

/-! ## Runs -/

/-- An operation the callers may make, in a state that meets `cond`. -/
def KmemState.Guard (P : Set ℕ) (cond : KmemState σ → KmemOp → Prop)
    (s : Option (KmemState σ)) (op : KmemOp) : Prop :=
  ∃ s', s = some s' ∧ s'.Legal sc P op ∧ cond s' op

theorem KmemState.backed_start {F O : Set ℕ} {pages : σ} (mem : Mem) (h : A.Owns pages F O) :
    KmemState.Backed A sc (F ∪ O) F O (KmemState.start pages mem) [] [] := by
  refine ⟨⟨h, ?_, ?_, ?_, ?_, ?_, ?_, ?_, ?_, ?_, ?_, ?_, ?_, ?_, ?_⟩, ?_, ?_, rfl, ?_, ?_, ?_, ?_,
    ?_⟩ <;> simp [KmemState.start, extHeaders, IsStruct]

theorem KmemState.run_backed {F O : Set ℕ} {pages : σ} {mem : Mem} (howns : A.Owns pages F O)
    {ops : List KmemOp}
    (hops : Guarded (KmemState.step A sc) (KmemState.Guard sc (F ∪ O) KmemState.Confined)
      (some (KmemState.start pages mem)) ops) :
    KmemState.Backed.Next A sc (F ∪ O)
      (run (KmemState.step A sc) (some (KmemState.start pages mem)) ops) := by
  refine run_invariant_of_guarded ?_ hops
    ⟨_, F, O, [], [], rfl, KmemState.backed_start A sc mem howns⟩
  rintro - op ⟨s, rfl, hlegal, hconf⟩ ⟨s', F', O', vs, lost, heq, hback⟩
  obtain rfl := Option.some.inj heq
  exact hback.next hlegal hconf

/-- **Run theorem.** While blocks fit into their pages and every object is freed while it
lies in its cache's first slab, no call faults and the caches are safe. -/
theorem KmemState.run_safe {F O : Set ℕ} {pages : σ} {mem : Mem} (howns : A.Owns pages F O)
    {ops : List KmemOp}
    (hops : Guarded (KmemState.step A sc) (KmemState.Guard sc (F ∪ O) KmemState.Confined)
      (some (KmemState.start pages mem)) ops) :
    ∃ s, run (KmemState.step A sc) (some (KmemState.start pages mem)) ops = some s ∧
      s.Safe sc := by
  obtain ⟨s, F', O', vs, lost, heq, hback⟩ := KmemState.run_backed A sc howns hops
  exact ⟨s, heq, hback.safe⟩

/-! ## Two slabs of one block -/

section TwoSlabs

/-- A cache at `0x1000` with one block to a page, and two objects in use. The second slab
is the first of the chain. -/
def twoSlabs : List KmemOp := [.init 0x1000 64 2048 none, .alloc 0x1000, .alloc 0x1000]

/-- Four free pages. -/
def fourFree : KmemState PageArenas :=
  KmemState.start (PageArenas.ofSpan ⟨0x100000, 0x4000⟩) fun _ => 0

def afterTwoSlabs (ops : List KmemOp) : Option (KmemState PageArenas) :=
  run (KmemState.step PageArenas.smallPages 0x2000) (some fourFree) (twoSlabs ++ ops)

theorem guarded_twoSlabs {cond : KmemState PageArenas → KmemOp → Prop} {ops : List KmemOp}
    (hcond : ∀ s, ∀ op ∈ twoSlabs, cond s op)
    (hops : Guarded (KmemState.step PageArenas.smallPages 0x2000)
      (KmemState.Guard 0x2000 ({p | pageSizeSmall ∣ p ∧ Span.Contains ⟨0x100000, 0x4000⟩ p} ∪ ∅)
        cond) (afterTwoSlabs []) ops) :
    Guarded (KmemState.step PageArenas.smallPages 0x2000)
      (KmemState.Guard 0x2000 ({p | pageSizeSmall ∣ p ∧ Span.Contains ⟨0x100000, 0x4000⟩ p} ∪ ∅)
        cond) (some fourFree) (twoSlabs ++ ops) := by
  have hc₁ : (KmemState.step PageArenas.smallPages 0x2000 (some fourFree)
      (.init 0x1000 64 2048 none)).map KmemState.caches = some [0x1000] := by decide +kernel
  have hc₂ : (KmemState.step PageArenas.smallPages 0x2000
      (KmemState.step PageArenas.smallPages 0x2000 (some fourFree) (.init 0x1000 64 2048 none))
      (.alloc 0x1000)).map KmemState.caches = some [0x1000] := by decide +kernel
  obtain ⟨s₁, hs₁, hc₁⟩ := Option.map_eq_some_iff.mp hc₁
  obtain ⟨s₂, hs₂, hc₂⟩ := Option.map_eq_some_iff.mp hc₂
  rw [afterTwoSlabs, List.append_nil, twoSlabs, run_cons, run_cons, run_cons, run_nil] at hops
  refine ⟨⟨fourFree, rfl, ?_, hcond _ _ (by decide)⟩, ⟨s₁, hs₁, ?_, hcond _ _ (by decide)⟩,
    ⟨s₂, hs₂, ?_, hcond _ _ (by decide)⟩, hops⟩
  · refine ⟨by decide, by decide, by decide, by decide, by decide, by decide, ?_, ?_⟩
    · rintro p (⟨-, hlo, -⟩ | hp)
      · left
        exact le_trans (by decide) hlo
      · cases hp
    · intro d hd
      cases hd
  · show 0x1000 ∈ s₁.caches
    rw [hc₁]
    exact List.mem_singleton_self _
  · show 0x1000 ∈ s₂.caches
    rw [hc₂]
    exact List.mem_singleton_self _

/-- Freeing the object of the first slab of the chain. -/
theorem KmemState.run_safe_two_slabs :
    ∃ s, afterTwoSlabs [.free 0x1000 0x101000] = some s ∧ s.Safe 0x2000 := by
  refine KmemState.run_safe PageArenas.smallPages 0x2000
    (PageArenas.owns_ofSpan ⟨by decide, by decide, by decide, by decide, by decide⟩)
    (guarded_twoSlabs ?_ ⟨?_, trivial⟩)
  · intro s op hop
    rcases List.mem_cons.mp hop with rfl | hop
    · exact Or.inr ⟨by decide, by decide⟩
    · rcases List.mem_cons.mp hop with rfl | hop
      · trivial
      · rw [List.mem_singleton.mp hop]
        trivial
  · have hend : (afterTwoSlabs []).map (fun s => (s.live,
        slabBase s.k.mem (cacheSlab s.k.mem 0x1000))) =
        some ([(0x1000, 0x101000), (0x1000, 0x100000)], 0x101000) := by decide +kernel
    obtain ⟨s, hs, hval⟩ := Option.map_eq_some_iff.mp hend
    obtain ⟨hlive, hbase⟩ := Prod.mk.inj hval
    refine ⟨s, hs, ?_, ?_⟩
    · show (0x1000, 0x101000) ∈ s.live
      rw [hlive]
      decide
    · show _ ≤ _ ∧ _ < _
      rw [hbase]
      decide

/-- **Freeing the object of the other slab** gives back the page of the object still in
use: that object is in no page of its cache any more. -/
theorem KmemState.free_elsewhere_not_safe :
    Guarded (KmemState.step PageArenas.smallPages 0x2000)
        (KmemState.Guard 0x2000 ({p | pageSizeSmall ∣ p ∧ Span.Contains ⟨0x100000, 0x4000⟩ p} ∪ ∅)
          fun _ _ => True)
        (some fourFree) (twoSlabs ++ [.free 0x1000 0x100000]) ∧
      ∃ s, afterTwoSlabs [.free 0x1000 0x100000] = some s ∧ ¬ s.Safe 0x2000 := by
  refine ⟨guarded_twoSlabs (fun _ _ _ => trivial) ⟨?_, trivial⟩, ?_⟩
  · have hend : (afterTwoSlabs []).map KmemState.live =
        some [(0x1000, 0x101000), (0x1000, 0x100000)] := by decide +kernel
    obtain ⟨s, hs, hlive⟩ := Option.map_eq_some_iff.mp hend
    refine ⟨s, hs, ?_, trivial⟩
    show (0x1000, 0x100000) ∈ s.live
    rw [hlive]
    decide
  · have hend : (afterTwoSlabs [.free 0x1000 0x100000]).map (fun s => (s.live, s.k.held)) =
        some ([(0x1000, 0x101000)], [(0x1000, 0x100000)]) := by decide +kernel
    obtain ⟨s, hs, hval⟩ := Option.map_eq_some_iff.mp hend
    obtain ⟨hlive, hheld⟩ := Prod.mk.inj hval
    refine ⟨s, hs, fun hsafe => ?_⟩
    obtain ⟨b, hb, hle, hge⟩ := hsafe.inside (0x1000, 0x101000) (by
      rw [KmemState.objects, hlive]
      simp)
    rw [hheld] at hb
    obtain ⟨-, rfl⟩ := Prod.mk.inj (List.mem_singleton.mp hb)
    have : 0x101000 + cacheSize s.k.mem 0x1000 ≤ 0x100000 + pageSizeSmall := hge
    have hsize : (afterTwoSlabs [.free 0x1000 0x100000]).map (fun s => cacheSize s.k.mem 0x1000) =
        some 64 := by decide +kernel
    rw [hs] at hsize
    have hsize' : cacheSize s.k.mem 0x1000 = 64 := Option.some.inj hsize
    rw [hsize', pageSizeSmall] at this
    omega

end TwoSlabs

end Manticore
