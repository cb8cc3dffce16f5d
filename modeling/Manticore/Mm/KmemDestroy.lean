import Manticore.Mm.KmemCreate

/-!
# Destroying a cache

`kmem_cache_destroy` walks the chain of slabs, gives back their pages, and then the structure of
the cache. The header of a slab is read before its page is given back. Headers that were taken
from `kmem_slab_cache` stay taken, so all memory is returned exactly for the caches that keep
their headers in their pages.
-/

namespace Manticore

/-- What `kmem_cache_destroy` does with the slabs, in order. -/
inductive DestroyEvent where
  /-- `slab->next` and `slab->base` are read. -/
  | readSlab (slab : ℕ)
  /-- `page_free_small` -/
  | freePage (base : ℕ)
deriving DecidableEq, Repr

namespace DestroyEvent

def freedPage : DestroyEvent → Option ℕ
  | readSlab _ => none
  | freePage base => some base

/-- The pages given back, in order. -/
def freedPages (ev : List DestroyEvent) : List ℕ := ev.filterMap freedPage

/-- The second event does not read a header in the page that the first one gave back. -/
def Ordered : DestroyEvent → DestroyEvent → Prop
  | freePage base, readSlab slab => Span.Apart ⟨slab, sizeofKmemSlab⟩ ⟨base, pageSizeSmall⟩
  | _, _ => True

end DestroyEvent

variable {σ : Type} (A : PageAllocator σ) (sc cc : ℕ)

/-- The loop of `kmem_cache_destroy`; `none` is a fault at a null slab, or out of fuel. -/
def destroySlabs : ℕ → Kmem σ → ℕ → Option (Kmem σ × List DestroyEvent)
  | 0, _, _ => none
  | fuel + 1, k, slab =>
      if slab = 0 then none
      else
        let next := slabNext k.mem slab
        let events := [.readSlab slab, .freePage (slabBase k.mem slab)]
        let k := kmemSlabDestroy A k slab
        if next = 0 then some (k, events)
        else do
          let (k, rest) ← destroySlabs fuel k next
          some (k, events ++ rest)

/-- `kmem_cache_destroy`, with `kmem_cache_cache` at `cc`. -/
def kmemCacheDestroy (fuel : ℕ) (k : Kmem σ) (cache : ℕ) : Option (Kmem σ × List DestroyEvent) :=
  do
    let (k, events) ← destroySlabs A fuel k (cacheSlab k.mem cache)
    let k ← kmemCacheFree A k cc cache
    some (k, events)

/-- `n` calls of `kmem_cache_alloc`. -/
def allocTimes (c : ℕ) : ℕ → Kmem σ → Option (Kmem σ)
  | 0, k => some k
  | n + 1, k => do
      let (_, k) ← kmemCacheAlloc A sc 3 k c
      allocTimes c n k

/-- **All memory of the cache is returned.** The cache was created in the state `k`, in which
the caches were `vs`, and destroyed in `k₂`. -/
structure Returned (vs : List CacheView) (k k₂ k₃ : Kmem σ) (cache : ℕ)
    (events : List DestroyEvent) : Prop where
  /-- No page is given back twice. -/
  nodup : (DestroyEvent.freedPages events).Nodup
  pages : ∀ p, p ∈ DestroyEvent.freedPages events ↔ (cache, p) ∈ k₂.held
  /-- No object of `kmem_slab_cache` is still taken. -/
  headers : k₃.headers.Perm k.headers
  /-- `kmem_cache_cache` has the structure back, and the other caches are as before. -/
  object : SameLive A sc vs k₃
  order : events.Pairwise DestroyEvent.Ordered

variable {A sc cc} {F O F' O' : Set ℕ} {k k' : Kmem σ} {vs vs' rest : List CacheView}
  {lost : List ℕ} {u v w : CacheView} {c size align cache : ℕ} {π : σ} {f : List ℕ → List ℕ}

/-! ## The headers outside -/

theorem Kept.extHeaders (hk : Kept sc c f vs vs')
    (hin : ∀ u ∈ vs, u.addr = c ∨ u.addr = sc → u.InPage) : extHeaders vs' = extHeaders vs := by
  induction hk with
  | nil => rfl
  | @cons u u' vs vs' hu _ ih =>
    rw [extHeaders_cons, extHeaders_cons, ih fun w hw => hin w (List.mem_cons_of_mem _ hw)]
    congr 1
    by_cases haddr : u.addr = c ∨ u.addr = sc
    · have hu₁ : u.InPage := hin u List.mem_cons_self haddr
      have hu₂ : u'.InPage := by
        rw [CacheView.InPage, hu.size]
        exact hu₁
      rw [if_pos hu₁, if_pos hu₂]
    · rw [not_or] at haddr
      rw [hu.other haddr.1 haddr.2]

theorem extHeaders_map_without (home : Option ℕ) (a : ℕ) (vs : List CacheView) :
    extHeaders (vs.map (CacheView.without home a)) = extHeaders vs := by
  rw [extHeaders, List.flatMap_map]
  rfl

theorem kmemCacheFree_headers {obj : ℕ} (h : kmemCacheFree A k c obj = some k') :
    k'.headers = k.headers := by
  rw [kmemCacheFree, Option.bind_eq_bind] at h
  obtain ⟨m, -, h⟩ := Option.bind_eq_some_iff.mp h
  dsimp only at h
  split_ifs at h <;> cases h <;> rfl

theorem destroySlabs_headers {fuel slab : ℕ} {events : List DestroyEvent}
    (h : destroySlabs A fuel k slab = some (k', events)) : k'.headers = k.headers := by
  induction fuel generalizing k slab events with
  | zero => cases h
  | succ fuel ih =>
    by_cases hslab : slab = 0
    · rw [destroySlabs, if_pos hslab] at h
      cases h
    · rw [destroySlabs, if_neg hslab] at h
      dsimp only at h
      generalize hk : kmemSlabDestroy A k slab = k₀ at h
      have hk₀ : k₀.headers = k.headers := by
        rw [← hk]
        rfl
      by_cases hnext : slabNext k.mem slab = 0
      · rw [if_pos hnext] at h
        obtain ⟨rfl, -⟩ := some_pair_inj h
        exact hk₀
      · rw [if_neg hnext] at h
        obtain ⟨⟨k₁, rest⟩, hrun, h⟩ := Option.bind_eq_some_iff.mp h
        obtain ⟨rfl, -⟩ := some_pair_inj h
        exact (ih hrun).trans hk₀

theorem kmemCacheDestroy_headers {fuel : ℕ} {events : List DestroyEvent}
    (h : kmemCacheDestroy A cc fuel k cache = some (k', events)) : k'.headers = k.headers := by
  rw [kmemCacheDestroy, Option.bind_eq_bind] at h
  obtain ⟨⟨k₁, ev⟩, hloop, h⟩ := Option.bind_eq_some_iff.mp h
  obtain ⟨k₂, hfree, h⟩ := Option.bind_eq_some_iff.mp h
  cases h
  exact (kmemCacheFree_headers hfree).trans (destroySlabs_headers hloop)

/-! ## The allocations -/

theorem KmemInv.allocTimes (h : KmemInv A sc F O k vs lost) (hch : ∀ u ∈ vs, Chained k.mem u)
    (hu : u ∈ vs) (hne : u.slabs ≠ []) (n : ℕ) :
    ∃ k' F' O' vs' f, allocTimes A sc u.addr n k = some k' ∧ KmemInv A sc F' O' k' vs' lost ∧
      (∀ w ∈ vs', Chained k'.mem w) ∧ Kept sc u.addr f vs vs' := by
  induction n generalizing F O k vs u with
  | zero => exact ⟨k, F, O, vs, id, rfl, h, hch, Kept.refl sc u.addr vs⟩
  | succ n ih =>
    obtain ⟨pre, post, rfl⟩ := List.append_of_mem hu
    obtain ⟨obj, k₁, hrun, hres⟩ := kmemCacheAlloc_spec 0 h hch hne
    have hstep : ∀ k', Manticore.allocTimes A sc u.addr n k₁ = some k' →
        Manticore.allocTimes A sc u.addr (n + 1) k = some k' := by
      intro k' hk'
      rw [Manticore.allocTimes, hrun]
      exact hk'
    rcases hres with ⟨rfl, π, hπ, rfl⟩ | ⟨-, F₁, O₁, vs₁, hinv, hch₁, -, hgrown⟩
    · obtain ⟨k', F', O', vs', f, hk', hrest⟩ :=
        ih (h.setPages hπ subset_rfl h.taken) hch hu hne
      exact ⟨k', F', O', vs', f, hstep k' hk', hrest⟩
    · obtain ⟨u₁, hu₁, hkv⟩ := hgrown.kept.mem_left hu
      obtain ⟨k', F', O', vs', f, hk', hinv', hch', hkept⟩ := ih hinv hch₁ hu₁ (hkv.slabs hne)
      rw [hkv.addr] at hk' hkept
      exact ⟨k', F', O', vs', _, hstep k' hk', hinv', hch', hgrown.kept.trans hkept⟩

/-! ## The loop -/

/-- What the loop does with one slab. -/
def SlabView.events (s : SlabView) : List DestroyEvent := [.readSlab s.hdr, .freePage s.base]

theorem destroySlabs_run {fuel slab : ℕ} {ss : List SlabView}
    (hlink : Linked (slabNext k.mem) slab (ss.map SlabView.hdr)) (hne : ss ≠ [])
    (hbase : ∀ s ∈ ss, slabBase k.mem s.hdr = s.base) (hfuel : ss.length ≤ fuel) :
    destroySlabs A fuel k slab = some
      ({ k with pages := (ss.map SlabView.base).foldl A.free k.pages,
                held := k.held.filter fun h => h.2 ∉ ss.map SlabView.base },
        ss.flatMap SlabView.events) := by
  induction ss generalizing fuel k slab with
  | nil => exact absurd rfl hne
  | cons s ss ih =>
    obtain ⟨fuel, rfl⟩ := Nat.exists_eq_add_of_le' (le_trans (Nat.succ_pos _) hfuel)
    obtain ⟨rfl, hhdr, hnext⟩ := hlink
    have hb : slabBase k.mem s.hdr = s.base := hbase s List.mem_cons_self
    rw [destroySlabs, if_neg hhdr]
    by_cases hss : ss = []
    · subst hss
      have hz : slabNext k.mem s.hdr = 0 := hnext
      simp [hz, kmemSlabDestroy, hb, SlabView.events]
    · have hz : slabNext k.mem s.hdr ≠ 0 := by
        intro hz
        rw [hnext.eq_zero_iff, List.map_eq_nil_iff] at hz
        exact hss hz
      have hrec := ih (k := kmemSlabDestroy A k s.hdr) hnext hss
        (fun t ht => hbase t (List.mem_cons_of_mem _ ht)) (Nat.le_of_succ_le_succ hfuel)
      simp only [hz, if_false, hrec, Option.bind_eq_bind, Option.bind_some]
      simp only [kmemSlabDestroy, hb, List.map_cons, List.foldl_cons, List.filter_filter,
        List.flatMap_cons, SlabView.events, List.mem_cons, not_or, Bool.decide_and, ne_eq]
      simp only [Bool.and_comm]

theorem freedPages_events (ss : List SlabView) :
    DestroyEvent.freedPages (ss.flatMap SlabView.events) = ss.map SlabView.base := by
  induction ss with
  | nil => rfl
  | cons s ss ih =>
    rw [DestroyEvent.freedPages] at ih ⊢
    rw [List.flatMap_cons, List.filterMap_append, ih]
    rfl

theorem ordered_events {ss : List SlabView}
    (h : ss.Pairwise fun s t => t.header.Apart ⟨s.base, pageSizeSmall⟩) :
    (ss.flatMap SlabView.events).Pairwise DestroyEvent.Ordered := by
  induction h with
  | nil => exact List.Pairwise.nil
  | @cons s ss hs _ ih =>
    rw [List.flatMap_cons, List.pairwise_append]
    refine ⟨by simp [SlabView.events, DestroyEvent.Ordered], ih, ?_⟩
    intro a ha b hb
    obtain ⟨t, ht, hb⟩ := List.mem_flatMap.mp hb
    simp only [SlabView.events, List.mem_cons, List.not_mem_nil, or_false] at ha hb
    rcases ha with rfl | rfl
    · trivial
    · rcases hb with rfl | rfl
      · exact hs t ht
      · trivial

theorem PageAllocator.owns_freeAll {ps : List ℕ} (h : A.Owns π F O) (hnd : ps.Nodup)
    (hps : ∀ p ∈ ps, p ∈ O) :
    ∃ F', A.Owns (ps.foldl A.free π) F' (O \ {p | p ∈ ps}) ∧
      F' ∪ (O \ {p | p ∈ ps}) = F ∪ O := by
  induction ps generalizing π F O with
  | nil => exact ⟨F, by simpa using h, by simp⟩
  | cons p ps ih =>
    obtain ⟨hp, hnd⟩ := List.nodup_cons.mp hnd
    have hpO : p ∈ O := hps p List.mem_cons_self
    obtain ⟨F', howns, hsame⟩ := ih (A.free_page h hpO) hnd fun q hq =>
      ⟨hps q (List.mem_cons_of_mem _ hq), fun heq => hp (heq ▸ hq)⟩
    have hset : (O \ {p}) \ {q | q ∈ ps} = O \ {q | q ∈ p :: ps} := by
      ext q
      simp only [Set.mem_sdiff, Set.mem_singleton_iff, Set.mem_ofPred_eq, List.mem_cons, not_or]
      tauto
    rw [hset] at howns hsame
    refine ⟨F', howns, hsame.trans ?_⟩
    rw [Set.insert_union, ← Set.union_insert, Set.insert_sdiff_singleton,
      Set.insert_eq_of_mem hpO]

/-! ## The caches without the destroyed one -/

theorem IsBlock.perm {n x : ℕ} (h : IsBlock vs c n x) (hp : vs.Perm vs') : IsBlock vs' c n x := by
  obtain ⟨u, hu, hrest⟩ := h
  exact ⟨u, hp.mem_iff.mp hu, hrest⟩

theorem IsStruct.perm {x : ℕ} (h : IsStruct vs c x) (hp : vs.Perm vs') : IsStruct vs' c x := by
  obtain ⟨u, hu, hrest⟩ := h
  exact ⟨u, hp.mem_iff.mp hu, hrest⟩

theorem KmemInv.perm (h : KmemInv A sc F O k vs lost) (hp : vs.Perm vs') :
    KmemInv A sc F O k vs' lost := by
  have hmem : ∀ {u}, u ∈ vs' → u ∈ vs := hp.mem_iff.mpr
  have hext : (extHeaders vs ++ lost).Perm (extHeaders vs' ++ lost) :=
    (hp.flatMap_right _).append_right lost
  constructor
  · exact h.owns
  · exact fun v hv => h.view v (hmem hv)
  · exact (hp.flatMap_right _).nodup_iff.mp h.bases
  · exact fun v hv => h.taken v (hmem hv)
  · intro e
    rw [h.held e]
    exact ⟨fun ⟨v, hv, hs⟩ => ⟨v, hp.mem_iff.mp hv, hs⟩, fun ⟨v, hv, hs⟩ => ⟨v, hmem hv, hs⟩⟩
  · exact fun v hv => h.ok v (hmem hv)
  · exact ((hp.flatMap_right _).append_right _).pairwise h.sep fun hab => hab.symm
  · exact fun v hv => h.inPage v (hmem hv)
  · exact h.headers.trans hext
  · exact fun x hx => (h.outside x (hext.mem_iff.mpr hx)).perm hp
  · exact fun v hv c hc => (h.homed v (hmem hv) c hc).perm hp
  · exact fun v hv => h.free_sub v (hmem hv)
  · exact fun v hv x hx => (h.live_sub v (hmem hv) x hx).perm hp
  · intro v hv s hs x hx
    rcases h.cover v (hmem hv) s hs x hx with hx | hx | ⟨ha, hx⟩ | hx
    · exact Or.inl hx
    · exact Or.inr (Or.inl hx)
    · exact Or.inr (Or.inr (Or.inl ⟨ha, hext.mem_iff.mp hx⟩))
    · exact Or.inr (Or.inr (Or.inr (hx.perm hp)))
  · intro v hv hin
    obtain ⟨u, hu, hrest⟩ := h.ready v (hmem hv) hin
    exact ⟨u, hp.mem_iff.mp hu, hrest⟩

/-- The cache with one more object in use. -/
def CacheView.withLive (a : ℕ) (w : CacheView) : CacheView := { w with live := a :: w.live }

section DropCache

variable {a x n : ℕ}

theorem CacheView.forall_withLive {P : CacheView → Prop} (h : ∀ v ∈ u :: w :: rest, P v)
    (hw : P w → P (w.withLive a)) : ∀ v ∈ w.withLive a :: rest, P v :=
  List.forall_mem_cons.mpr ⟨hw (h w (by simp)), fun v hv => h v (by simp [hv])⟩

theorem CacheView.exists_withLive {P : CacheView → Prop} (h : ∃ v ∈ u :: w :: rest, P v)
    (hu : ¬ P u) (hw : P w → P (w.withLive a)) : ∃ v ∈ w.withLive a :: rest, P v := by
  obtain ⟨v, hv, hP⟩ := h
  rcases List.mem_cons.mp hv with rfl | hv
  · exact absurd hP hu
  · rcases List.mem_cons.mp hv with rfl | hv
    · exact ⟨v.withLive a, List.mem_cons_self, hw hP⟩
    · exact ⟨v, List.mem_cons_of_mem _ hv, hP⟩

theorem IsBlock.drop (h : IsBlock (u :: w :: rest) c n x) (hc : c ≠ u.addr) :
    IsBlock (w.withLive a :: rest) c n x :=
  CacheView.exists_withLive h (fun hu => hc hu.1.symm) id

theorem IsStruct.drop (h : IsStruct (u :: w :: rest) c x) (hne : u.home = some c → u.addr ≠ x) :
    IsStruct (w.withLive a :: rest) c x :=
  CacheView.exists_withLive h (fun hu => hne hu.1 hu.2) id

theorem CacheView.spans_withLive (hblock : w.block = sizeofKmemCache) :
    (w.withLive u.addr).spans.Perm (u.struct :: w.spans) := by
  have hstruct : w.blockAt u.addr = u.struct := by
    rw [CacheView.blockAt, hblock]
    rfl
  rw [← hstruct]
  simp only [CacheView.spans, CacheView.withLive, CacheView.free, List.map_append,
    List.map_cons]
  refine (List.Perm.cons _ ?_).trans (List.Perm.swap _ _ _)
  refine List.Perm.trans ?_ List.perm_middle
  exact (List.perm_middle).append_left _

namespace KmemInv

theorem base_notMem (h : KmemInv A sc F O k (u :: rest) lost) :
    ∀ v ∈ rest, ∀ s ∈ v.slabs, s.base ∉ u.slabs.map SlabView.base := by
  intro v hv s hs hmem
  have hbases := h.bases
  rw [List.flatMap_cons, List.nodup_append] at hbases
  exact hbases.2.2 _ hmem _ (List.mem_flatMap.mpr ⟨v, hv, List.mem_map_of_mem hs⟩) rfl

theorem held_dropCache (h : KmemInv A sc F O k (u :: w :: rest) lost) (e : ℕ × ℕ) :
    (e ∈ k.held.filter fun h => h.2 ∉ u.slabs.map SlabView.base) ↔
      ∃ v ∈ w.withLive a :: rest, ∃ s ∈ v.slabs, e = (v.addr, s.base) := by
  rw [List.mem_filter, h.held e, decide_eq_true_iff]
  constructor
  · rintro ⟨hex, hnot⟩
    refine CacheView.exists_withLive hex ?_ id
    rintro ⟨s, hs, rfl⟩
    exact hnot (List.mem_map_of_mem hs)
  · rintro ⟨v, hv, s, hs, rfl⟩
    rcases List.mem_cons.mp hv with rfl | hv
    · exact ⟨⟨w, by simp, s, hs, rfl⟩, h.base_notMem w List.mem_cons_self s hs⟩
    · exact ⟨⟨v, by simp [hv], s, hs, rfl⟩, h.base_notMem v (List.mem_cons_of_mem _ hv) s hs⟩

theorem sep_dropCache (h : KmemInv A sc F O k (u :: w :: rest) lost)
    (hblock : w.block = sizeofKmemCache) :
    ((w.withLive u.addr :: rest).flatMap CacheView.spans ++ lost.map headerAt).Pairwise
      Span.Apart := by
  have hsub : (u.struct :: ((w :: rest).flatMap CacheView.spans ++ lost.map headerAt)).Sublist
      ((u :: w :: rest).flatMap CacheView.spans ++ lost.map headerAt) := by
    rw [List.flatMap_cons (x := u), CacheView.spans, List.append_assoc, List.cons_append]
    exact (List.sublist_append_right _ _).cons_cons _
  refine (h.sep.sublist hsub).perm ?_ fun hab => hab.symm
  rw [List.flatMap_cons, List.flatMap_cons, List.append_assoc, List.append_assoc,
    ← List.cons_append]
  exact (CacheView.spans_withLive hblock).symm.append_right _

theorem live_dropCache (h : KmemInv A sc F O k (u :: w :: rest) lost)
    (hhome : u.home = some w.addr) :
    ∀ v ∈ w.withLive u.addr :: rest, ∀ x ∈ v.live,
      IsBlock (w.withLive u.addr :: rest) v.addr 0 x := by
  have hfst : KmemInv A sc F O k ([] ++ u :: w :: rest) lost := h
  have hne : ∀ v ∈ w :: rest, v.addr ≠ u.addr := fun v hv => hfst.addr_ne hv
  intro v hv x hx
  rcases List.mem_cons.mp hv with rfl | hv
  · rcases List.mem_cons.mp hx with rfl | hx
    · obtain ⟨v, hv, haddr, -, hrest⟩ :=
        (h.homed u List.mem_cons_self _ hhome).drop (hne w List.mem_cons_self)
      exact ⟨v, hv, haddr, Nat.zero_le _, hrest⟩
    · exact (h.live_sub w (by simp) x hx).drop (hne w List.mem_cons_self)
  · exact (h.live_sub v (by simp [hv]) x hx).drop (hne v (List.mem_cons_of_mem _ hv))

theorem cover_dropCache (h : KmemInv A sc F O k (u :: w :: rest) lost)
    (hhome : u.home = some w.addr) :
    ∀ v ∈ w.withLive u.addr :: rest, ∀ s ∈ v.slabs, ∀ x ∈ v.blocks s.base,
      x ∈ s.free ∨ x ∈ v.live ∨ v.addr = sc ∧ x ∈ extHeaders (u :: w :: rest) ++ lost ∨
        IsStruct (w.withLive u.addr :: rest) v.addr x := by
  have hsnd : KmemInv A sc F O k ([u] ++ w :: rest) lost := h
  intro v hv s hs x hx
  rcases List.mem_cons.mp hv with rfl | hv
  · rcases h.cover w (by simp) s hs x hx with hx | hx | hx | hx
    · exact Or.inl hx
    · exact Or.inr (Or.inl (List.mem_cons_of_mem _ hx))
    · exact Or.inr (Or.inr (Or.inl hx))
    · by_cases hxu : u.addr = x
      · exact Or.inr (Or.inl (hxu ▸ List.mem_cons_self))
      · exact Or.inr (Or.inr (Or.inr (hx.drop fun _ => hxu)))
  · rcases h.cover v (by simp [hv]) s hs x hx with hx | hx | hx | hx
    · exact Or.inl hx
    · exact Or.inr (Or.inl hx)
    · exact Or.inr (Or.inr (Or.inl hx))
    · have hvw : v.addr ≠ w.addr := hsnd.addr_ne (List.mem_append_right _ hv)
      refine Or.inr (Or.inr (Or.inr (hx.drop fun hc => absurd ?_ hvw)))
      exact Option.some.inj (hc.symm.trans hhome)

/-- **The cache `u` is gone**: its pages are given back, and its structure is an object in use
of its home `w` again. -/
theorem dropCache (h : KmemInv A sc F O k (u :: w :: rest) lost) (hin : u.InPage)
    (hsc : u.addr ≠ sc) (hhome : u.home = some w.addr) (hblock : w.block = sizeofKmemCache)
    (hhomes : ∀ v ∈ u :: w :: rest, v.home ≠ some u.addr)
    (hπ : A.Owns π F' (O \ {p | p ∈ u.slabs.map SlabView.base}))
    (hpages : F' ∪ (O \ {p | p ∈ u.slabs.map SlabView.base}) = F ∪ O) :
    KmemInv A sc F' (O \ {p | p ∈ u.slabs.map SlabView.base})
      { k with pages := π, held := k.held.filter fun h => h.2 ∉ u.slabs.map SlabView.base }
      (w.withLive u.addr :: rest) lost := by
  have hext : extHeaders (w.withLive u.addr :: rest) = extHeaders (u :: w :: rest) := by
    rw [extHeaders_cons, extHeaders_cons u, if_pos hin, List.nil_append, extHeaders_cons]
    rfl
  constructor
  · exact hπ
  · rw [hpages]
    exact CacheView.forall_withLive h.view fun hw => hw.reslab
  · have hbases := h.bases
    rw [List.flatMap_cons, List.nodup_append] at hbases
    exact hbases.2.1
  · have htaken : ∀ v ∈ w :: rest, ∀ s ∈ v.slabs,
        s.base ∈ O \ {p | p ∈ u.slabs.map SlabView.base} :=
      fun v hv s hs => ⟨h.taken v (List.mem_cons_of_mem _ hv) s hs, h.base_notMem v hv s hs⟩
    exact List.forall_mem_cons.mpr ⟨htaken w List.mem_cons_self,
      fun v hv => htaken v (List.mem_cons_of_mem _ hv)⟩
  · exact h.held_dropCache
  · exact CacheView.forall_withLive h.ok fun hw =>
      ⟨hw.bufctl, hw.size, hw.align, fun s hs => (hw.slabs s hs).reslab⟩
  · exact h.sep_dropCache hblock
  · exact CacheView.forall_withLive h.inPage id
  · rw [hext]
    exact h.headers
  · intro x hx
    rw [hext] at hx
    exact (h.outside x hx).drop hsc.symm
  · intro v hv c hc
    -- `u` was the home of no cache
    have hcu : c ≠ u.addr := by
      rintro rfl
      exact CacheView.forall_withLive hhomes id v hv hc
    exact (CacheView.forall_withLive h.homed id v hv c hc).drop hcu
  · exact CacheView.forall_withLive h.free_sub id
  · exact h.live_dropCache hhome
  · rw [hext]
    exact h.cover_dropCache hhome
  · exact fun v hv hnot =>
      CacheView.exists_withLive (CacheView.forall_withLive h.ready id v hv hnot)
        (fun hu => hsc hu.1) id

theorem mem_held_iff (h : KmemInv A sc F O k vs lost) (hu : u ∈ vs) (p : ℕ) :
    (u.addr, p) ∈ k.held ↔ p ∈ u.slabs.map SlabView.base := by
  rw [h.held, List.mem_map]
  constructor
  · rintro ⟨v, hv, t, ht, heq⟩
    obtain ⟨haddr, rfl⟩ := Prod.mk.inj heq
    rw [h.view_eq hu hv haddr.symm] at ht
    exact ⟨t, ht, rfl⟩
  · rintro ⟨t, ht, rfl⟩
    exact ⟨u, hu, t, ht, rfl⟩

theorem nodup_bases (h : KmemInv A sc F O k vs lost) (hu : u ∈ vs) :
    (u.slabs.map SlabView.base).Nodup :=
  (List.nodup_flatMap.mp h.bases).1 u hu

theorem length_slabs_le (h : KmemInv A sc F O k vs lost) (hu : u ∈ vs) :
    u.slabs.length ≤ k.held.length := by
  have hnd : ((u.slabs.map SlabView.base).map fun p => (u.addr, p)).Nodup :=
    (h.nodup_bases hu).map fun p q heq => (Prod.mk.inj heq).2
  have hsub : ∀ e ∈ (u.slabs.map SlabView.base).map fun p => (u.addr, p), e ∈ k.held :=
    List.forall_mem_map.mpr fun p hp => (h.mem_held_iff hu p).mpr hp
  have hle := (hnd.subperm hsub).length_le
  rwa [List.length_map, List.length_map] at hle

end KmemInv

end DropCache

/-! ## A cache in use -/

/-- The cache `u`, created when the caches were `vs`, next to `kmem_cache_cache`, which is `w`. -/
structure InUse (sc cc cache size : ℕ) (vs : List CacheView) (u w : CacheView)
    (rest : List CacheView) : Prop where
  addr : u.addr = cache
  size : u.size = size
  home : u.home = some cc
  slabs : u.slabs ≠ []
  ne : cache ≠ sc
  homeAddr : w.addr = cc
  homeBlock : w.block = sizeofKmemCache
  /-- The structure is in the slab that `kmem_cache_free` will put it back to. -/
  first : ∃ s ss, w.slabs = s :: ss ∧ cache ∈ w.blocks s.base
  homes : ∀ v ∈ u :: w :: rest, v.home ≠ some cache
  ext : (extHeaders (w :: rest)).Perm (extHeaders vs)
  live : ∀ v ∈ vs, ∃ t ∈ w :: rest, t.addr = v.addr ∧ t.live = v.live

theorem KmemReady.inPage_of (h : KmemReady A sc cc F O k vs lost) (hu : u ∈ vs)
    (haddr : u.addr = cc ∨ u.addr = sc) : u.InPage := by
  rcases haddr with haddr | haddr
  · obtain ⟨w, hw, hcc, hsize, -⟩ := h.cacheCache
    rw [h.inv.view_eq hw hu (haddr.trans hcc.symm), CacheView.InPage, hsize]
    decide
  · exact (h.inv.block_slabCache hu haddr).2

theorem Created.live {vs₁ : List CacheView} (h : Created sc cc cache size align vs vs₁ vs')
    (hv : v ∈ vs) : ∃ t ∈ vs₁.map (CacheView.without (some cc) cache),
      t.addr = v.addr ∧ t.live = v.live := by
  obtain ⟨u, hu, hkv⟩ := h.taken.mem_left hv
  refine ⟨u.without (some cc) cache, List.mem_map_of_mem hu, hkv.addr, ?_⟩
  by_cases hcc : v.addr = cc
  · simp [CacheView.without, hkv.live, hkv.addr, hcc]
  · simp [CacheView.without, hkv.live, hkv.addr, hcc, Ne.symm hcc]

theorem KmemReady.exists_inUse {F₁ O₁ : Set ℕ} {k₀ k₁ : Kmem σ} {vs₁ : List CacheView}
    (h : KmemReady A sc cc F O k vs lost) (hready : KmemReady A sc cc F₁ O₁ k₀ vs₁ lost)
    (hmk : Created sc cc cache size align vs vs₁ vs') (hinv : KmemInv A sc F' O' k₁ vs' lost)
    (hch : ∀ u ∈ vs', Chained k₁.mem u) (n : ℕ) :
    ∃ k₂ F₂ O₂ u w rest, allocTimes A sc cache n k₁ = some k₂ ∧
      KmemInv A sc F₂ O₂ k₂ (u :: w :: rest) lost ∧
      (∀ v ∈ u :: w :: rest, Chained k₂.mem v) ∧ InUse sc cc cache size vs u w rest := by
  obtain ⟨v₁, tail₁, hv₁, ht₁, rfl⟩ := List.forall₂_cons_left_iff.mp hmk.kept
  have haddr₁ : v₁.addr = cache := hv₁.addr
  obtain ⟨k₂, F₂, O₂, vs₂, f, halloc, hinv₂, hch₂, hkept₂⟩ := hinv.allocTimes hch
    List.mem_cons_self (hmk.slabs v₁ List.mem_cons_self haddr₁) n
  rw [haddr₁] at halloc hkept₂
  obtain ⟨u, tail₂, hu, ht₂, rfl⟩ := List.forall₂_cons_left_iff.mp hkept₂
  have hk₁ : Kept sc cache id (vs₁.map (CacheView.without (some cc) cache)) tail₁ := ht₁
  have hk₂ : Kept sc cache f tail₁ tail₂ := ht₂
  have haddr : u.addr = cache := hu.addr.trans haddr₁
  -- no other cache has the address of the new one
  have hfresh₀ : ∀ t ∈ vs₁.map (CacheView.without (some cc) cache), t.addr ≠ cache :=
    List.forall_mem_map.mpr hmk.fresh
  have hfresh₁ : ∀ t ∈ tail₁, t.addr ≠ cache := by
    intro t ht
    obtain ⟨t₀, ht₀, hkv⟩ := hk₁.mem_right ht
    rw [hkv.addr]
    exact hfresh₀ t₀ ht₀
  -- so `kmem_cache_cache` is as it was when the structure had been taken
  obtain ⟨v, hv, hcc, hlive, s, ss, hslabs, hblk⟩ := hmk.first
  have hccne : cc ≠ cache := fun heq => hmk.fresh v hv (hcc.trans heq)
  have hw₁ : v.without (some cc) cache ∈ tail₁ := by
    obtain ⟨t, ht, hkv⟩ := hk₁.mem_left (List.mem_map_of_mem hv)
    rwa [hkv.other (hmk.fresh v hv) (hcc.trans_ne h.ne)] at ht
  have hw₂ : v.without (some cc) cache ∈ tail₂ := by
    obtain ⟨t, ht, hkv⟩ := hk₂.mem_left hw₁
    rwa [hkv.other (hmk.fresh v hv) (hcc.trans_ne h.ne)] at ht
  obtain ⟨l₁, l₂, htail⟩ := List.append_of_mem hw₂
  have hperm : tail₂.Perm (v.without (some cc) cache :: (l₁ ++ l₂)) := htail ▸ List.perm_middle
  refine ⟨k₂, F₂, O₂, u, v.without (some cc) cache, l₁ ++ l₂, halloc, hinv₂.perm (hperm.cons u),
    fun t ht => hch₂ t ((hperm.cons u).mem_iff.mpr ht), ?_⟩
  constructor
  · exact haddr
  · exact hu.size.trans hv₁.size
  · exact hu.home.trans hv₁.home
  · exact hu.slabs (hmk.slabs v₁ List.mem_cons_self haddr₁)
  · obtain ⟨t, ht, hsc, -⟩ := hready.slabCache
    exact fun heq => hmk.fresh t ht (hsc.trans heq.symm)
  · exact hcc
  · obtain ⟨t, ht, htcc, hsize, halign, -⟩ := hready.cacheCache
    obtain rfl := hready.inv.view_eq hv ht (htcc.trans hcc.symm)
    show alignUp t.size t.align = sizeofKmemCache
    rw [hsize, halign]
    decide
  · exact ⟨s, ss, hslabs, hblk⟩
  · intro t ht hhome
    have ht₂ : t ∈ u :: tail₂ := (hperm.cons u).mem_iff.mpr ht
    obtain ⟨t₁, ht₁, hkv₂⟩ := hkept₂.mem_right ht₂
    obtain ⟨t₀, ht₀, hkv₁⟩ := hmk.kept.mem_right ht₁
    rw [hkv₂.home, hkv₁.home] at hhome
    rcases List.mem_cons.mp ht₀ with rfl | ht₀
    · exact hccne (Option.some.inj hhome)
    · obtain ⟨t', ht', rfl⟩ := List.mem_map.mp ht₀
      obtain ⟨x, hx, hxa, -⟩ := hready.inv.homed t' ht' cache hhome
      exact hmk.fresh x hx hxa
  · have hin : ∀ t ∈ tail₁, t.addr = cache ∨ t.addr = sc → t.InPage := fun t ht hor =>
      (hinv.block_slabCache (List.mem_cons_of_mem _ ht) (hor.resolve_left (hfresh₁ t ht))).2
    have hin₀ : ∀ t ∈ vs₁.map (CacheView.without (some cc) cache),
        t.addr = cache ∨ t.addr = sc → t.InPage := by
      refine List.forall_mem_map.mpr fun t ht hor => ?_
      have hin : t.InPage := hready.inPage_of ht (Or.inr (hor.resolve_left (hmk.fresh t ht)))
      exact hin
    have heq : extHeaders tail₂ = extHeaders vs := by
      rw [hk₂.extHeaders hin, hk₁.extHeaders hin₀, extHeaders_map_without,
        hmk.taken.extHeaders fun t ht => h.inPage_of ht]
    rw [← heq]
    exact hperm.symm.flatMap_right _
  · intro t ht
    obtain ⟨t₀, ht₀, ha₀, hl₀⟩ := hmk.live ht
    obtain ⟨t₁, ht₁, hkv₁⟩ := hk₁.mem_left ht₀
    obtain ⟨t₂, ht₂, hkv₂⟩ := hk₂.mem_left ht₁
    refine ⟨t₂, hperm.mem_iff.mp ht₂, hkv₂.addr.trans (hkv₁.addr.trans ha₀), ?_⟩
    rw [hkv₂.live, if_neg (hfresh₁ t₁ ht₁), hkv₁.live, if_neg (hfresh₀ t₀ ht₀), hl₀]

/-! ## All memory is returned -/

theorem InUse.destroy {k₂ : Kmem σ} (hu : InUse sc cc cache size vs u w rest) (hin : u.InPage)
    (h : KmemInv A sc F O k₂ (u :: w :: rest) lost)
    (hch : ∀ v ∈ u :: w :: rest, Chained k₂.mem v) (hheaders : k₂.headers.Perm k.headers)
    {fuel : ℕ} (hfuel : k₂.held.length ≤ fuel) :
    ∃ k₃ events, kmemCacheDestroy A cc fuel k₂ cache = some (k₃, events) ∧
      Returned A sc vs k k₂ k₃ cache events := by
  obtain ⟨rfl, -, hhome, hne, hsc, rfl, hblock, ⟨s, ss, hslabs, hblk⟩, hhomes, -, hlive⟩ := hu
  have humem : u ∈ u :: w :: rest := List.mem_cons_self
  have hnd := h.nodup_bases humem
  have hloop := destroySlabs_run (A := A) (hch u humem hne) hne
    (fun t ht => ((h.ok u humem).slabs t ht).base) ((h.length_slabs_le humem).trans hfuel)
  -- the pages go back, and the structure is an object of `kmem_cache_cache` again
  obtain ⟨F', howns, hsame⟩ := PageAllocator.owns_freeAll h.owns hnd
    (List.forall_mem_map.mpr fun t ht => h.taken u humem t ht)
  have hdrop : KmemInv A sc F' (O \ {p | p ∈ u.slabs.map SlabView.base})
      { k₂ with pages := (u.slabs.map SlabView.base).foldl A.free k₂.pages,
                held := k₂.held.filter fun h => h.2 ∉ u.slabs.map SlabView.base }
      ([] ++ w.withLive u.addr :: rest) lost :=
    h.dropCache hin hsc hhome hblock hhomes howns hsame
  have hch' : ∀ v ∈ [] ++ w.withLive u.addr :: rest, Chained k₂.mem v :=
    CacheView.forall_withLive hch id
  obtain ⟨k₃, hfree, F₃, O₃, vs₃, lost₃, hinv₃, hch₃, hkept, -⟩ :=
    kmemCacheFree_spec hdrop hch' hslabs List.mem_cons_self hblk
  have hrun : kmemCacheDestroy A w.addr fuel k₂ u.addr =
      some (k₃, u.slabs.flatMap SlabView.events) := by
    rw [kmemCacheDestroy, hloop, Option.bind_eq_bind, Option.bind_some, Option.bind_eq_bind]
    exact Option.bind_eq_some_iff.mpr ⟨k₃, hfree, rfl⟩
  refine ⟨k₃, _, hrun, ?_, ?_, ?_, ⟨F₃, O₃, vs₃, lost₃, hinv₃, hch₃, ?_⟩, ordered_events ?_⟩
  · rw [freedPages_events]
    exact hnd
  · intro p
    rw [freedPages_events, h.mem_held_iff humem]
  · rw [kmemCacheDestroy_headers hrun]
    exact hheaders
  · intro v hv
    obtain ⟨t, ht, haddr, htl⟩ := hlive v hv
    rcases List.mem_cons.mp ht with rfl | ht
    · obtain ⟨t₃, ht₃, hkv⟩ := hkept.mem_left (List.mem_cons_self (a := t.withLive u.addr))
      refine ⟨t₃, ht₃, hkv.addr.trans haddr, ?_⟩
      rw [hkv.live, if_pos rfl, ← htl]
      exact List.erase_cons_head _ _
    · obtain ⟨t₃, ht₃, hkv⟩ := hkept.mem_left (List.mem_cons_of_mem _ ht)
      have hother : t.addr ≠ (w.withLive u.addr).addr := hdrop.addr_ne ht
      exact ⟨t₃, ht₃, hkv.addr.trans haddr, by rw [hkv.live, if_neg hother, htl]⟩
  · refine (List.pairwise_map.mp hnd).imp_of_mem ?_
    intro t t' ht ht' hbase
    have hhdr : t'.hdr = t'.base + (pageSizeSmall - sizeofKmemSlab) := h.inPage u humem hin t' ht'
    have hap := (h.isPage humem ht').apart (h.isPage humem ht) (Ne.symm hbase)
    simp only [Span.Apart, SlabView.header, hhdr, pageSizeSmall, sizeofKmemSlab] at hap ⊢
    omega

/-! ## Headers that stay taken -/

theorem kmemSlabCreate_headers {allocSlab : Kmem σ → Option (ℕ × Kmem σ)} {slab : ℕ}
    (halloc : ∀ {k k' : Kmem σ} {obj : ℕ}, allocSlab k = some (obj, k') →
      k.headers.length ≤ k'.headers.length)
    (h : kmemSlabCreate A allocSlab k c = some (slab, k')) :
    k.headers.length ≤ k'.headers.length ∧
      (slab ≠ 0 → ¬ cacheSize k.mem c < pageSizeSmall / 8 →
        k.headers.length < k'.headers.length) := by
  unfold kmemSlabCreate at h
  dsimp only at h
  split at h
  · obtain ⟨rfl, rfl⟩ := some_pair_inj h
    exact ⟨le_rfl, fun hne => absurd rfl hne⟩
  · split at h
    · next hsize =>
        obtain ⟨m, -, h⟩ := Option.bind_eq_some_iff.mp h
        obtain ⟨rfl, rfl⟩ := some_pair_inj h
        exact ⟨le_rfl, fun _ hnot => absurd hsize hnot⟩
    · obtain ⟨⟨hdr, k₁⟩, hrun, h⟩ := Option.bind_eq_some_iff.mp h
      have hle : k.headers.length ≤ k₁.headers.length :=
        halloc (k := { k with pages := (A.alloc k.pages).2 }) hrun
      dsimp only at h
      split at h
      · obtain ⟨rfl, rfl⟩ := some_pair_inj h
        exact ⟨hle, fun hne => absurd rfl hne⟩
      · obtain ⟨m, -, h⟩ := Option.bind_eq_some_iff.mp h
        obtain ⟨rfl, rfl⟩ := some_pair_inj h
        exact ⟨Nat.le_succ_of_le hle, fun _ _ => Nat.lt_succ_of_le hle⟩

theorem kmemCacheAlloc_headers {fuel obj : ℕ} (h : kmemCacheAlloc A sc fuel k c = some (obj, k')) :
    k.headers.length ≤ k'.headers.length := by
  induction fuel generalizing k k' c obj with
  | zero => cases h
  | succ fuel ih =>
      rw [kmemCacheAlloc, Option.bind_eq_bind] at h
      obtain ⟨⟨x, m⟩, -, h⟩ := Option.bind_eq_some_iff.mp h
      dsimp only at h
      split at h
      · obtain ⟨-, rfl⟩ := some_pair_inj h
        exact le_rfl
      · obtain ⟨⟨slab, k₁⟩, hmade, h⟩ := Option.bind_eq_some_iff.mp h
        have hle := (kmemSlabCreate_headers (fun hrun => ih hrun) hmade).1
        dsimp only at h hle
        split at h
        · obtain ⟨-, rfl⟩ := some_pair_inj h
          exact hle
        · exact hle.trans (ih (k := { k₁ with
            mem := store (store k₁.mem (slab + 24) 8 (cacheSlab k₁.mem c)) (c + 24) 8 slab }) h)

theorem allocTimes_headers {n : ℕ} (h : allocTimes A sc c n k = some k') :
    k.headers.length ≤ k'.headers.length := by
  induction n generalizing k with
  | zero => exact (congrArg (fun k => k.headers.length) (Option.some.inj h)).le
  | succ n ih =>
      rw [allocTimes, Option.bind_eq_bind] at h
      obtain ⟨⟨x, k₁⟩, hrun, h⟩ := Option.bind_eq_some_iff.mp h
      exact (kmemCacheAlloc_headers hrun).trans (ih h)

/-! ## The new cache -/

theorem cacheSize_cacheStruct (m : Mem) (c align : ℕ) (hsize : size < 2 ^ 64) :
    cacheSize (cacheStruct m c size align) c = size := by
  rw [cacheSize, cacheStruct, load_store_of_disjoint (by omega), load_store_of_disjoint (by omega)]
  exact load_store_same hsize

/-- **What `kmem_cache_create` has done when it returns a cache**: it has taken a structure, and
`kmem_slab_create` has made a slab for it or not. -/
structure Makes (A : PageAllocator σ) (sc cc : ℕ) (k k₀ k₁ : Kmem σ) (size align cache slab : ℕ)
    (k' : Kmem σ) : Prop where
  taken : kmemCacheAlloc A sc 3 k cc = some (cache, k₀)
  accepted : ¬ alignUp size align < sizeofKmemBufctl
  made : kmemSlabCreate A (fun k => kmemCacheAlloc A sc 3 k sc)
    { k₀ with mem := cacheStruct k₀.mem cache size align } cache = some (slab, k')
  result : k₁ = { k' with mem := store k'.mem (cache + 24) 8 slab }

theorem exists_makes {k₁ : Kmem σ} (hne : cache ≠ 0)
    (h : kmemCacheCreate A sc cc 3 k size align = some (cache, k₁)) :
    ∃ k₀ slab k', Makes A sc cc k k₀ k₁ size align cache slab k' := by
  rw [kmemCacheCreate, Option.bind_eq_bind] at h
  obtain ⟨⟨cache₀, k₀⟩, htaken, h⟩ := Option.bind_eq_some_iff.mp h
  dsimp only at h
  split at h
  · exact absurd (some_pair_inj h).1.symm hne
  · obtain ⟨⟨err, k₂⟩, hinit, h⟩ := Option.bind_eq_some_iff.mp h
    dsimp only at h
    split at h
    · obtain ⟨k₃, -, h⟩ := Option.bind_eq_some_iff.mp h
      exact absurd (some_pair_inj h).1.symm hne
    · next hnot =>
        obtain ⟨rfl, rfl⟩ := some_pair_inj h
        unfold kmemCacheInit at hinit
        split at hinit
        · obtain ⟨rfl, -⟩ := some_pair_inj hinit
          exact absurd (by decide) hnot
        · next hb =>
            obtain ⟨⟨slab, k'⟩, hmade, hinit⟩ := Option.bind_eq_some_iff.mp hinit
            obtain ⟨-, rfl⟩ := some_pair_inj hinit
            exact ⟨k₀, slab, k', htaken, hb, hmade, rfl⟩

section Makes

variable {k₀ k₁ : Kmem σ} {slab a : ℕ}

theorem Makes.cacheSlab_eq (h : Makes A sc cc k k₀ k₁ size align cache slab k')
    (hlt : slab < 2 ^ 64) : cacheSlab k₁.mem cache = slab := by
  rw [h.result]
  exact load_store_same hlt

theorem Makes.headers_le (h : Makes A sc cc k k₀ k₁ size align cache slab k')
    (hsize : size < 2 ^ 64) : k.headers.length ≤ k₁.headers.length ∧
      (slab ≠ 0 → ¬ size < pageSizeSmall / 8 → k.headers.length < k₁.headers.length) := by
  have hstruct := kmemCacheAlloc_headers h.taken
  obtain ⟨hle, hlt⟩ := kmemSlabCreate_headers (fun hrun => kmemCacheAlloc_headers hrun) h.made
  rw [cacheSize_cacheStruct _ _ _ hsize] at hlt
  rw [h.result]
  exact ⟨hstruct.trans hle, fun hne hnot => hstruct.trans_lt (hlt hne hnot)⟩

theorem Makes.page_ne_zero (h : Makes A sc cc k k₀ k₁ size align cache slab k') (hne : slab ≠ 0) :
    (A.alloc k₀.pages).1 ≠ 0 := by
  intro hz
  have hmade := h.made
  simp only [kmemSlabCreate, hz, if_true] at hmade
  exact hne (some_pair_inj hmade).1.symm

end Makes

theorem kmemSlabSetup_none {m m' : Mem} {base slab slabSize : ℕ}
    (hbase : base < 2 ^ 64) (hapart : slab + sizeofKmemSlab ≤ c ∨ c + sizeofKmemCache ≤ slab)
    (hbig : slabSize < alignUp (cacheSize m c) (cacheAlign m c))
    (h : kmemSlabSetup m c base slab slabSize = some m') :
    WritesOnly [⟨slab, sizeofKmemSlab⟩] m m' ∧ slabBase m' slab = base ∧ slabNext m' slab = 0 := by
  simp only [sizeofKmemSlab, sizeofKmemCache] at hapart
  unfold kmemSlabSetup at h
  dsimp only at h
  generalize hm : store (store (store (store (store (store m slab 8 c) (slab + 16) 8 base)
    (slab + 8) 8 (kmemObjectToBufctl (store (store m slab 8 c) (slab + 16) 8 base) c base))
    (slab + 24) 8 0) (slab + 32) 4 0) (slab + 36) 4 0 = m₁ at h
  have hw : WritesOnly [⟨slab, sizeofKmemSlab⟩] m m₁ := by
    rw [← hm]
    refine ((((((WritesOnly.refl _ _).store (s := ⟨slab, sizeofKmemSlab⟩) ?_ ?_ ?_).store
      (s := ⟨slab, sizeofKmemSlab⟩) ?_ ?_ ?_).store (s := ⟨slab, sizeofKmemSlab⟩) ?_ ?_ ?_).store
      (s := ⟨slab, sizeofKmemSlab⟩) ?_ ?_ ?_).store (s := ⟨slab, sizeofKmemSlab⟩) ?_ ?_ ?_).store
      (s := ⟨slab, sizeofKmemSlab⟩) ?_ ?_ ?_ <;> simp [sizeofKmemSlab]
  have hkeep : ∀ o, o + 8 ≤ 64 → load m₁ (c + o) 8 = load m (c + o) 8 := by
    intro o ho
    refine hw.load_eq (d := ⟨c + o, 8⟩) ?_ le_rfl le_rfl
    simp only [List.mem_singleton, forall_eq, Span.Apart, sizeofKmemSlab]
    omega
  have hsame : alignUp (cacheSize m₁ c) (cacheAlign m₁ c) =
      alignUp (cacheSize m c) (cacheAlign m c) := by
    rw [cacheSize, cacheAlign, hkeep 8 (by omega), hkeep 16 (by omega), cacheSize, cacheAlign]
  have hstop : ¬ add64 0 (alignUp (cacheSize m₁ c) (cacheAlign m₁ c)) ≤ slabSize := by
    rw [hsame, add64_of_lt (by rw [Nat.zero_add]; exact Nat.and_le_left.trans_lt (sub64_lt _ _)), Nat.zero_add]
    exact Nat.not_le.mpr hbig
  rw [kmemSlabInitBlocks, if_neg hstop] at h
  obtain rfl := Option.some.inj h
  refine ⟨hw, ?_, ?_⟩
  · rw [slabBase, ← hm, load_store_of_disjoint (by omega), load_store_of_disjoint (by omega),
      load_store_of_disjoint (by omega), load_store_of_disjoint (by omega)]
    exact load_store_same hbase
  · rw [slabNext, ← hm, load_store_of_disjoint (by omega), load_store_of_disjoint (by omega)]
    exact load_store_same (by norm_num)

/-- A new cache whose slab has no blocks: the structure is filled in, and the header of the slab is
in the page at `base`, which is the only memory taken besides. -/
structure NoBlocks (A : PageAllocator σ) (k₀ k₁ : Kmem σ) (cache slab base : ℕ) : Prop where
  header : slab = base + (pageSizeSmall - sizeofKmemSlab)
  pages : k₁.pages = (A.alloc k₀.pages).2
  held : k₁.held = (cache, base) :: k₀.held
  headers : k₁.headers = k₀.headers
  writes : WritesOnly [⟨cache, sizeofKmemCache⟩, ⟨slab, sizeofKmemSlab⟩] k₀.mem k₁.mem
  cacheSlab : cacheSlab k₁.mem cache = slab
  slabBase : slabBase k₁.mem slab = base
  slabNext : slabNext k₁.mem slab = 0

theorem Makes.noBlocks {k₀ k₁ : Kmem σ} {slab : ℕ}
    (h : Makes A sc cc k k₀ k₁ size align cache slab k') (hsize : size < 2 ^ 64)
    (halign : align < 2 ^ 64) (hsmall : size < pageSizeSmall / 8)
    (hbig : ¬ alignUp size align ≤ KmemState.usable size) (hz : (A.alloc k₀.pages).1 ≠ 0)
    (hbound : (A.alloc k₀.pages).1 + pageSizeSmall ≤ 2 ^ 64)
    (hapart : Span.Apart ⟨cache, sizeofKmemCache⟩ ⟨(A.alloc k₀.pages).1, pageSizeSmall⟩) :
    NoBlocks A k₀ k₁ cache slab (A.alloc k₀.pages).1 := by
  have hmade := h.made
  have hk₁ := h.result
  have hcs := cacheSize_cacheStruct k₀.mem cache align hsize
  simp only [kmemSlabCreate, if_neg hz, hcs, hsmall, if_true, Option.bind_eq_bind] at hmade
  obtain ⟨m, hsetup, hmade⟩ := Option.bind_eq_some_iff.mp hmade
  obtain ⟨rfl, rfl⟩ := some_pair_inj hmade
  generalize (A.alloc k₀.pages).1 = base at *
  simp only [Span.Apart, sizeofKmemCache, pageSizeSmall] at hapart hbound
  have h40 : sizeofKmemSlab = 40 := rfl
  have h4096 : pageSizeSmall = 4096 := rfl
  have hca : cacheAlign (cacheStruct k₀.mem cache size align) cache = align := by
    rw [cacheAlign, cacheStruct, load_store_of_disjoint (by omega)]
    exact load_store_same halign
  have husable : KmemState.usable size = pageSizeSmall - sizeofKmemSlab := if_pos hsmall
  obtain ⟨hw, hsbase, hsnext⟩ := kmemSlabSetup_none (by omega)
    (by simp only [sizeofKmemCache]; omega)
    (by rw [hcs, hca, ← husable]; exact Nat.not_le.mp hbig) hsetup
  refine ⟨by omega, ?_, ?_, ?_, ?_, h.cacheSlab_eq (by omega), ?_, ?_⟩ <;> rw [hk₁]
  · refine (((writesOnly_cacheStruct k₀.mem cache size align).mono (by simp)).trans
      (hw.mono (by simp))).store (s := ⟨cache, sizeofKmemCache⟩) (by simp) ?_ ?_ <;>
      simp [sizeofKmemCache]
  · rw [Manticore.slabBase, load_store_of_disjoint (by omega)]
    exact hsbase
  · rw [Manticore.slabNext, load_store_of_disjoint (by omega)]
    exact hsnext

theorem KmemInv.nextPage (h : KmemInv A sc F O k vs lost) (hz : (A.alloc k.pages).1 ≠ 0) :
    (A.alloc k.pages).1 + pageSizeSmall ≤ 2 ^ 64 ∧
      ∀ u ∈ vs, ∀ e ∈ u.spans, e.Apart ⟨(A.alloc k.pages).1, pageSizeSmall⟩ := by
  obtain ⟨hmem, hun, htook, -⟩ := h.takePage hz
  exact ⟨(A.page h.owns (Or.inl hmem)).le, fun u hu e he =>
    htook.fresh_page (Or.inr (Set.mem_insert _ _)) hun
      (List.mem_append_left _ (List.mem_flatMap.mpr ⟨u, hu, he⟩))⟩

/-- The page goes back, and only the contents of the structure are not as before. -/
theorem NoBlocks.destroy {k₁ : Kmem σ} {slab : ℕ}
    (h : NoBlocks A k k₁ cache slab (A.alloc k.pages).1) (hinv : KmemInv A sc F O k vs lost)
    (hch : ∀ u ∈ vs, Chained k.mem u) (hz : (A.alloc k.pages).1 ≠ 0)
    (hcache : ∀ u ∈ vs, ∀ e ∈ u.deps, Span.Apart ⟨cache, sizeofKmemCache⟩ e) :
    KmemInv A sc F O (kmemSlabDestroy A k₁ slab) vs lost ∧
      ∀ u ∈ vs, Chained (kmemSlabDestroy A k₁ slab).mem u := by
  obtain ⟨hmem, hun, htook, -⟩ := hinv.takePage hz
  obtain ⟨-, hfresh⟩ := hinv.nextPage hz
  have hdisj := A.disjoint hinv.owns
  generalize hbase : (A.alloc k.pages).1 = base at *
  obtain ⟨hinv₁, hch₁⟩ := htook.setMem h.writes (by
    simp only [List.forall_mem_cons, List.not_mem_nil, false_implies, implies_true, and_true]
    refine ⟨hcache, fun u hu e he => ?_⟩
    have hap := hfresh u hu e (CacheView.deps_sub_spans he)
    have hhdr := h.header
    simp only [Span.Apart, pageSizeSmall, sizeofKmemSlab] at hap hhdr ⊢
    omega)
  have hback : A.Owns (A.free (A.alloc k.pages).2 base) F O := by
    have hfree := A.free_page htook.owns (Set.mem_insert base O)
    rwa [Set.insert_sdiff_singleton, Set.insert_eq_of_mem hmem,
      Set.insert_sdiff_self_of_notMem (Set.disjoint_left.mp hdisj hmem)] at hfree
  have hheld : ∀ e, e ∈ k₁.held.filter (fun e => e.2 ≠ base) ↔ e ∈ k.held := by
    intro e
    simp only [h.held, List.mem_filter, List.mem_cons, decide_eq_true_eq]
    constructor
    · rintro ⟨rfl | he, hnot⟩
      · exact absurd rfl hnot
      · exact he
    · intro he
      refine ⟨.inr he, ?_⟩
      obtain ⟨u, hu, t, ht, rfl⟩ := (hinv.held e).mp he
      exact hun u hu t ht
  have heq : kmemSlabDestroy A k₁ slab = { k with
      mem := k₁.mem
      pages := A.free (A.alloc k.pages).2 base
      held := k₁.held.filter fun e => e.2 ≠ base } := by
    simp only [kmemSlabDestroy, h.slabBase, h.pages, h.headers]
  rw [heq]
  exact ⟨{ hinv with
    owns := hback
    ok := hinv₁.ok
    held := fun e => (hheld e).trans (hinv.held e) }, fun u hu => hch₁ u hu (hch u hu)⟩

theorem KmemReady.destroy_new {k₀ k₁ : Kmem σ} {slab : ℕ} (h : KmemReady A sc cc F O k vs lost)
    (hmakes : Makes A sc cc k k₀ k₁ size align cache slab k') (hne : cache ≠ 0)
    (hsize : size < 2 ^ 64) (halign : align < 2 ^ 64) (hsmall : size < pageSizeSmall / 8)
    (hbig : ¬ alignUp size align ≤ KmemState.usable size) (hz : (A.alloc k₀.pages).1 ≠ 0)
    {fuel : ℕ} (hfuel : k₁.held.length ≤ fuel) :
    ∃ k₃ events, kmemCacheDestroy A cc fuel k₁ cache = some (k₃, events) ∧
      Returned A sc vs k k₁ k₃ cache events := by
  obtain ⟨cache', k₀', htaken, hres⟩ := h.alloc 0
  rw [hmakes.taken] at htaken
  obtain ⟨rfl, rfl⟩ := some_pair_inj htaken
  obtain ⟨-, F₁, O₁, vs₁, hready, hgrown, v, hv, hcc, hlive, s, ss, hslabs, hblk⟩ :=
    hres.resolve_left fun hnull => hne hnull.1
  have hblock : v.blockAt cache = ⟨cache, sizeofKmemCache⟩ := by
    obtain ⟨t, ht, htcc, htsize, htalign, -⟩ := hready.cacheCache
    obtain rfl := hready.inv.view_eq hv ht (htcc.trans hcc.symm)
    rw [CacheView.blockAt, CacheView.block, htsize, htalign]
    rfl
  obtain ⟨hbound, hfresh⟩ := hready.inv.nextPage hz
  have hnew := hmakes.noBlocks hsize halign hsmall hbig hz hbound
    (hblock ▸ hfresh v hv _ (CacheView.live_mem_spans hlive))
  obtain ⟨hinv₂, hch₂⟩ := hnew.destroy hready.inv hready.chained hz
    fun u hu e he => hblock ▸ hready.inv.live_apart_deps hv hlive u hu e he
  obtain ⟨fuel, rfl⟩ : ∃ n, fuel = n + 1 := by
    refine Nat.exists_eq_succ_of_ne_zero fun hzero => ?_
    simp [hnew.held, hzero] at hfuel
  obtain ⟨pre, post, rfl⟩ := List.append_of_mem hv
  obtain ⟨k₃, hfree, F₃, O₃, vs₃, lost₃, hinv₃, hch₃, hkept, -⟩ :=
    kmemCacheFree_spec hinv₂ hch₂ hslabs hlive hblk
  rw [hcc] at hfree hkept
  have hhdr : slab ≠ 0 := by
    have := hnew.header
    simp only [pageSizeSmall, sizeofKmemSlab] at this
    omega
  have hrun : kmemCacheDestroy A cc (fuel + 1) k₁ cache =
      some (k₃, [.readSlab slab, .freePage (A.alloc k₀.pages).1]) := by
    rw [kmemCacheDestroy, hnew.cacheSlab, destroySlabs, if_neg hhdr]
    simp only [hnew.slabNext, hnew.slabBase, if_true, Option.bind_eq_bind, Option.bind_some]
    exact Option.bind_eq_some_iff.mpr ⟨k₃, hfree, rfl⟩
  have hext : extHeaders (pre ++ v :: post) = extHeaders vs :=
    hgrown.kept.extHeaders fun t ht => h.inPage_of ht
  refine ⟨k₃, _, hrun, List.nodup_singleton _, fun p => ?_, ?_,
    ⟨F₃, O₃, vs₃, lost₃, hinv₃, hch₃, fun u hu => ?_⟩, by simp [DestroyEvent.Ordered]⟩
  · show p ∈ [(A.alloc k₀.pages).1] ↔ (cache, p) ∈ k₁.held
    rw [hnew.held, List.mem_singleton, List.mem_cons, Prod.mk.injEq]
    refine ⟨fun hp => .inl ⟨rfl, hp⟩, ?_⟩
    rintro (⟨-, hp⟩ | hold)
    · exact hp
    · -- no cache has the address of the new one
      obtain ⟨u, hu, t, -, heq⟩ := (hready.inv.held _).mp hold
      exact absurd (Prod.mk.inj heq).1.symm (hready.inv.live_ne_addr hv hlive hu)
  · rw [kmemCacheDestroy_headers hrun, hnew.headers]
    exact hready.inv.headers.trans (hext ▸ h.inv.headers.symm)
  · obtain ⟨u', hu', hkv⟩ := (hgrown.kept.trans hkept).mem_left hu
    refine ⟨u', hu', hkv.addr, ?_⟩
    rw [hkv.live]
    simp

/-! ## The law -/

/-- After `n` allocations from the cache, `kmem_cache_destroy` returns all its memory. -/
def DestroysClean (A : PageAllocator σ) (sc cc : ℕ) (vs : List CacheView) (k k₁ : Kmem σ)
    (cache n : ℕ) : Prop :=
  ∃ k₂, allocTimes A sc cache n k₁ = some k₂ ∧ ∀ fuel, k₂.held.length ≤ fuel →
    ∃ k₃ events, kmemCacheDestroy A cc fuel k₂ cache = some (k₃, events) ∧
      Returned A sc vs k k₂ k₃ cache events

theorem DestroysClean.slab_ne_zero {k₁ : Kmem σ} {n : ℕ}
    (h : DestroysClean A sc cc vs k k₁ cache n) : cacheSlab k₁.mem cache ≠ 0 := by
  intro hzero
  obtain ⟨k₂, halloc, hdestroy⟩ := h
  cases n with
  | zero =>
      obtain rfl := Option.some.inj halloc
      obtain ⟨k₃, events, hrun, -⟩ := hdestroy (k₁.held.length + 1) (Nat.le_succ _)
      rw [kmemCacheDestroy, hzero, destroySlabs, if_pos rfl] at hrun
      cases hrun
  | succ n =>
      rw [allocTimes, kmemCacheAlloc_no_slab 3 hzero] at halloc
      cases halloc

/-- **`kmem_cache_destroy`** of a new cache, after `n` allocations from it, returns all memory if the
slab headers are kept in the slabs' pages, there was a page for the first slab, and no block was asked
for that does not fit into a page.  The first two are also necessary. -/
theorem kmem_cache_destroy_returned_iff {k₁ : Kmem σ} {a : ℕ}
    (h : KmemReady A sc cc F O k vs lost) (hsize : size < 2 ^ 64) (ha : a < 64)
    (halign : align = 2 ^ a)
    (hcreate : kmemCacheCreate A sc cc 3 k size align = some (cache, k₁)) (hne : cache ≠ 0)
    (n : ℕ) :
    ((n = 0 ∨ alignUp size align ≤ KmemState.usable size) ∧ size < pageSizeSmall / 8 ∧
        A.Gives (pagesNeeded sc cc k.mem size) k.pages → DestroysClean A sc cc vs k k₁ cache n) ∧
      (DestroysClean A sc cc vs k k₁ cache n → size < pageSizeSmall / 8 ∧
        A.Gives (pagesNeeded sc cc k.mem size) k.pages) := by
  obtain ⟨k₀, slab, k', hmakes⟩ := exists_makes hne hcreate
  obtain ⟨hcache, hpages, hsc⟩ := h.alloc_pages hmakes.taken
  have hgives : A.Gives (pagesNeeded sc cc k.mem size) k.pages ↔ _ :=
    gives_pagesNeeded_iff (hcache.mp hne) hpages hsc
  have halign64 : align < 2 ^ 64 := halign ▸ Nat.pow_lt_pow_right (by norm_num) ha
  constructor
  · rintro ⟨hcase, hsmall, hg⟩
    by_cases hfit : alignUp size align ≤ KmemState.usable size
    · rcases h.create 0 hsize ha halign with ⟨-, k'', hnull, -⟩ | ⟨-, -, hmade⟩
      · rw [hnull] at hcreate
        exact absurd (some_pair_inj hcreate).1.symm hne
      · obtain ⟨cache', k₀', F₁, O₁, vs₁, k'', hready, -, hcreate', hslab, hok⟩ := hmade hfit
        rw [hcreate'] at hcreate
        obtain ⟨rfl, rfl⟩ := some_pair_inj hcreate
        obtain ⟨F', O', vs', hinv, hch, hmk⟩ := hok (hslab.mpr hg)
        obtain ⟨k₂, F₂, O₂, u, w, rest, halloc, hinv₂, hch₂, hu⟩ :=
          h.exists_inUse hready hmk hinv hch n
        refine ⟨k₂, halloc, fun fuel hfuel => ?_⟩
        have hin : u.InPage := by
          rw [CacheView.InPage, hu.size]
          exact hsmall
        have hheaders := hinv₂.headers
        rw [extHeaders_cons, if_pos hin, List.nil_append] at hheaders
        exact hu.destroy hin hinv₂ hch₂ (hheaders.trans
          ((hu.ext.append_right lost).trans h.inv.headers.symm)) hfuel
    · obtain rfl := hcase.resolve_right hfit
      exact ⟨k₁, rfl, fun fuel hfuel => h.destroy_new hmakes hne hsize halign64 hsmall hfit
        (hgives.mp hg).1 hfuel⟩
  · intro hclean
    have hslab : slab ≠ 0 := by
      rintro rfl
      exact hclean.slab_ne_zero (hmakes.cacheSlab_eq (by norm_num))
    obtain ⟨k₂, halloc, hdestroy⟩ := hclean
    obtain ⟨k₃, events, hrun, hret⟩ := hdestroy _ le_rfl
    have hsmall : size < pageSizeSmall / 8 := by
      by_contra hnot
      -- a header of the cache is still taken
      have hlt := (hmakes.headers_le hsize).2 hslab hnot
      have hlen := hret.headers.length_eq
      rw [kmemCacheDestroy_headers hrun] at hlen
      have := allocTimes_headers halloc
      omega
    exact ⟨hsmall, hgives.mpr ⟨hmakes.page_ne_zero hslab, .inl hsmall⟩⟩

/-- 128-byte objects: three allocations, and the cache is gone without a trace. -/
theorem kmem_cache_destroy_returned_three :
    ∃ s F O vs lost cache k₁ k₂ k₃ events, bootKmem 0x4000 (fun _ => 0) = some s ∧
      KmemReady PageArenas.smallPages 0x2000 0x1000 F O s.k vs lost ∧
      kmemCacheCreate PageArenas.smallPages 0x2000 0x1000 3 s.k 128 8 = some (cache, k₁) ∧
      allocTimes PageArenas.smallPages 0x2000 cache 3 k₁ = some k₂ ∧
      kmemCacheDestroy PageArenas.smallPages 0x1000 k₂.held.length k₂ cache = some (k₃, events) ∧
      Returned PageArenas.smallPages 0x2000 vs s.k k₂ k₃ cache events := by
  have heval : (bootKmem 0x4000 fun _ => 0).bind (fun s =>
      (kmemCacheCreate PageArenas.smallPages 0x2000 0x1000 3 s.k 128 8).map fun r => (r.1,
        decide (PageArenas.smallPages.Gives (pagesNeeded 0x2000 0x1000 s.k.mem 128) s.k.pages))) =
        some (0x100000, true) := by decide +kernel
  obtain ⟨s, F, O, vs, lost, hs, hready⟩ := kmemReady_four_pages
  rw [hs, Option.bind_some] at heval
  obtain ⟨⟨cache, k₁⟩, hrun, heval⟩ := Option.map_eq_some_iff.mp heval
  obtain ⟨hcache, hgives⟩ := Prod.mk.inj heval
  obtain ⟨k₂, halloc, hdestroy⟩ := (kmem_cache_destroy_returned_iff hready (by decide)
    (show 3 < 64 by decide) (show 8 = 2 ^ 3 by norm_num) hrun (hcache.trans_ne (by decide)) 3).1
    ⟨.inr (by decide), by decide, of_decide_eq_true hgives⟩
  obtain ⟨k₃, events, hrun₃, hret⟩ := hdestroy _ le_rfl
  exact ⟨s, F, O, vs, lost, cache, k₁, k₂, k₃, events, hs, hready, hrun, halloc, hrun₃, hret⟩

/-- 512-byte objects: `kmem_slab_cache` does not get the header of the slab back. -/
theorem kmem_cache_destroy_keeps_header :
    ∃ s F O vs lost cache k₁ k₂ k₃ events, bootKmem 0x4000 (fun _ => 0) = some s ∧
      KmemReady PageArenas.smallPages 0x2000 0x1000 F O s.k vs lost ∧
      kmemCacheCreate PageArenas.smallPages 0x2000 0x1000 3 s.k 512 8 = some (cache, k₁) ∧
      cache ≠ 0 ∧ allocTimes PageArenas.smallPages 0x2000 cache 1 k₁ = some k₂ ∧
      kmemCacheDestroy PageArenas.smallPages 0x1000 3 k₂ cache = some (k₃, events) ∧
      slabNrFree s.k.mem (cacheSlab s.k.mem 0x2000) = 101 ∧
      slabNrFree k₃.mem (cacheSlab k₃.mem 0x2000) = 100 ∧
      ¬ Returned PageArenas.smallPages 0x2000 vs s.k k₂ k₃ cache events := by
  have heval : (bootKmem 0x4000 fun _ => 0).bind (fun s =>
      (kmemCacheCreate PageArenas.smallPages 0x2000 0x1000 3 s.k 512 8).bind fun r =>
        (allocTimes PageArenas.smallPages 0x2000 r.1 1 r.2).bind fun k₂ =>
          (kmemCacheDestroy PageArenas.smallPages 0x1000 3 k₂ r.1).map fun q =>
            (r.1, s.k.headers.length, q.1.headers.length,
              slabNrFree s.k.mem (cacheSlab s.k.mem 0x2000),
              slabNrFree q.1.mem (cacheSlab q.1.mem 0x2000))) =
        some (0x100000, 0, 1, 101, 100) := by decide +kernel
  obtain ⟨s, F, O, vs, lost, hs, hready⟩ := kmemReady_four_pages
  rw [hs, Option.bind_some] at heval
  obtain ⟨⟨cache, k₁⟩, hrun, heval⟩ := Option.bind_eq_some_iff.mp heval
  obtain ⟨k₂, halloc, heval⟩ := Option.bind_eq_some_iff.mp heval
  obtain ⟨⟨k₃, events⟩, hdestroy, heval⟩ := Option.map_eq_some_iff.mp heval
  simp only [Prod.mk.injEq] at heval
  obtain ⟨hcache, hbefore, hafter, hfree, hfree'⟩ := heval
  refine ⟨s, F, O, vs, lost, cache, k₁, k₂, k₃, events, hs, hready, hrun,
    hcache.trans_ne (by decide), halloc, hdestroy, hfree, hfree', fun hret => ?_⟩
  have hlen := hret.headers.length_eq
  rw [hbefore, hafter] at hlen
  cases hlen

end Manticore
