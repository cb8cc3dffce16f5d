import Manticore.Mm.Kmem

/-!
# Slabs of a cache

How the caches change when a cache gets a new slab, when its first slab is given back,
and when an object of `kmem_slab_cache` becomes a slab header.
-/

namespace Manticore

variable {σ : Type} {A : PageAllocator σ} {sc c : ℕ} {F O : Set ℕ} {k : Kmem σ}
  {vs pre post : List CacheView} {lost : List ℕ} {v v' u : CacheView} {s : SlabView}
  {rest : List SlabView} {m m' : Mem} {w : List Span} {x p : ℕ}

/-! ## Adding a slab -/

theorem extHeaders_append (l l' : List CacheView) :
    extHeaders (l ++ l') = extHeaders l ++ extHeaders l' := List.flatMap_append

theorem extHeaders_cons (v : CacheView) (l : List CacheView) : extHeaders (v :: l) =
    (if v.InPage then [] else v.slabs.map SlabView.hdr) ++ extHeaders l := List.flatMap_cons

namespace KmemInv

theorem view_eq (h : KmemInv A sc F O k vs lost) (hv : v ∈ vs) (hu : u ∈ vs)
    (haddr : u.addr = v.addr) : u = v := by
  obtain ⟨pre, post, rfl⟩ := List.append_of_mem hv
  by_contra hne
  have hmem : u ∈ pre ++ post := by
    simp only [List.mem_append, List.mem_cons] at hu ⊢
    tauto
  have hsep := h.split.2.1 v.struct List.mem_cons_self u hmem u.struct List.mem_cons_self
  simp only [Span.Apart, CacheView.struct, haddr, sizeofKmemCache] at hsep
  omega

theorem live_block (h : KmemInv A sc F O k vs lost) (hv : v ∈ vs) (hx : x ∈ v.live) :
    ∃ s ∈ v.slabs, x ∈ v.blocks s.base := by
  obtain ⟨u, hu, haddr, -, s, hs, hblk⟩ := h.live_sub v hv x hx
  obtain rfl := h.view_eq hv hu haddr
  exact ⟨s, hs, hblk⟩

theorem block_slabCache (h : KmemInv A sc F O k vs lost) (hv : v ∈ vs) (hsc : v.addr = sc) :
    v.block = sizeofKmemSlab ∧ v.InPage := by
  obtain ⟨hsize, halign⟩ := (h.view v hv).slabCache hsc
  rw [CacheView.block, CacheView.InPage, hsize, halign]
  exact ⟨by decide, by decide⟩

theorem isBlock_in_page {n : ℕ} (h : KmemInv A sc F O k vs lost) (hx : IsBlock vs c n x) :
    ∃ u ∈ vs, ∃ s ∈ u.slabs, s.base ≤ x ∧ x + n ≤ s.base + pageSizeSmall := by
  obtain ⟨u, hu, -, hn, s, hs, hblk⟩ := hx
  have hin := CacheView.block_in_page (h.fits u hu).carved hblk
  have husable := u.usable_le
  exact ⟨u, hu, s, hs, by omega⟩

theorem located (h : KmemInv A sc F O k vs lost) {d : Span}
    (hd : d ∈ vs.flatMap CacheView.spans ++ lost.map headerAt) :
    (∃ u ∈ vs, u.home = none ∧ d = u.struct) ∨ ∃ u ∈ vs, ∃ s ∈ u.slabs,
      s.base ≤ d.base ∧ d.base + d.size ≤ s.base + pageSizeSmall := by
  rcases List.mem_append.mp hd with hd | hd
  · obtain ⟨u, hu, hd⟩ := List.mem_flatMap.mp hd
    rcases List.mem_cons.mp hd with rfl | hd
    · cases hhome : u.home with
      | none => exact Or.inl ⟨u, hu, hhome, rfl⟩
      | some c => exact Or.inr (h.isBlock_in_page (h.homed u hu c hhome))
    right
    rcases List.mem_append.mp hd with hd | hd
    · obtain ⟨s, hs, rfl⟩ := List.mem_map.mp hd
      by_cases hin : u.InPage
      · have hhdr := h.inPage u hu hin s hs
        refine ⟨u, hu, s, hs, ?_⟩
        simp only [SlabView.header, hhdr, pageSizeSmall, sizeofKmemSlab]
        omega
      · refine h.isBlock_in_page (h.outside _ (List.mem_append_left _ ?_))
        refine List.mem_flatMap.mpr ⟨u, hu, ?_⟩
        rw [if_neg hin]
        exact List.mem_map_of_mem hs
    · obtain ⟨x, hx, rfl⟩ := List.mem_map.mp hd
      have hblk : ∃ s ∈ u.slabs, x ∈ u.blocks s.base := by
        rcases List.mem_append.mp hx with hx | hx
        · obtain ⟨s, hs, hx⟩ := CacheView.mem_free.mp hx
          exact ⟨s, hs, h.free_sub u hu s hs x hx⟩
        · exact h.live_block hu hx
      obtain ⟨s, hs, hx⟩ := hblk
      exact h.isBlock_in_page ⟨u, hu, rfl, le_rfl, s, hs, hx⟩
  · obtain ⟨x, hx, rfl⟩ := List.mem_map.mp hd
    exact Or.inr (h.isBlock_in_page (h.outside x (List.mem_append_right _ hx)))

theorem fresh_page (h : KmemInv A sc F O k vs lost) (hp : p ∈ F ∪ O)
    (hnew : ∀ u ∈ vs, ∀ s ∈ u.slabs, s.base ≠ p) {d : Span}
    (hd : d ∈ vs.flatMap CacheView.spans ++ lost.map headerAt) :
    d.Apart ⟨p, pageSizeSmall⟩ := by
  rcases h.located hd with ⟨u, hu, hhome, rfl⟩ | ⟨u, hu, s, hs, hlo, hhi⟩
  · exact (h.view u hu).static hhome p hp
  · have := (h.isPage hu hs).apart (A.page h.owns hp) (hnew u hu s hs)
    simp only [Span.Apart]
    omega

theorem new_items (hin : v.InPage → x = p + (pageSizeSmall - sizeofKmemSlab)) {d : Span}
    (hfits : v.Fits)
    (hd : d ∈ (if v.InPage then [headerAt x] else []) ++ (v.blocks p).map v.blockAt) :
    p ≤ d.base ∧ d.base + d.size ≤ p + pageSizeSmall := by
  rcases List.mem_append.mp hd with hd | hd
  · split at hd
    · rename_i hpage
      rw [List.mem_singleton.mp hd, headerAt, hin hpage]
      simp only [pageSizeSmall, sizeofKmemSlab]
      omega
    · cases hd
  · obtain ⟨y, hy, rfl⟩ := List.mem_map.mp hd
    have hblk := CacheView.block_in_page hfits.carved hy
    have husable := v.usable_le
    simp only [CacheView.blockAt]
    omega

theorem new_items_pairwise (hin : v.InPage → x = p + (pageSizeSmall - sizeofKmemSlab))
    (hfits : v.Fits) :
    ((if v.InPage then [headerAt x] else []) ++ (v.blocks p).map v.blockAt).Pairwise
      Span.Apart := by
  rw [List.pairwise_append]
  refine ⟨?_, v.blocks_pairwise p, ?_⟩
  · split
    · exact List.pairwise_singleton _ _
    · exact List.Pairwise.nil
  · intro d hd e he
    obtain ⟨y, hy, rfl⟩ := List.mem_map.mp he
    split at hd
    · rename_i hpage
      rw [List.mem_singleton.mp hd, headerAt, hin hpage]
      have hblk := CacheView.block_in_page hfits.carved hy
      rw [CacheView.usable, if_pos hpage] at hblk
      right
      simp only [CacheView.blockAt]
      omega
    · cases hd

theorem headers_add {hdr : ℕ} {lost' : List ℕ}
    (hlost : lost = (if v.InPage then [] else [hdr]) ++ lost') :
    (extHeaders (pre ++ { v with slabs := v.newSlab hdr p :: v.slabs } :: post) ++ lost').Perm
      (extHeaders (pre ++ v :: post) ++ lost) := by
  rw [List.perm_iff_count]
  intro a
  have hif : (if ({ v with slabs := v.newSlab hdr p :: v.slabs } : CacheView).InPage then []
      else (v.newSlab hdr p :: v.slabs).map SlabView.hdr) =
      (if v.InPage then [] else [hdr]) ++ if v.InPage then [] else v.slabs.map SlabView.hdr := by
    show (if v.InPage then [] else _) = _
    split <;> rfl
  simp only [extHeaders_append, extHeaders_cons, hlost, List.count_append]
  rw [hif, List.count_append]
  omega

theorem isBlock_add {hdr c n x : ℕ} (h : IsBlock (pre ++ v :: post) c n x) :
    IsBlock (pre ++ { v with slabs := v.newSlab hdr p :: v.slabs } :: post) c n x := by
  obtain ⟨u, hu, hc, hn, s, hs, hx⟩ := h
  simp only [List.mem_append, List.mem_cons] at hu
  rcases hu with hu | rfl | hu
  · exact ⟨u, by simp [hu], hc, hn, s, hs, hx⟩
  · exact ⟨_, List.mem_append_right _ List.mem_cons_self, hc, hn, s, List.mem_cons_of_mem _ hs, hx⟩
  · exact ⟨u, by simp [hu], hc, hn, s, hs, hx⟩

theorem bases_add {hdr : ℕ} (h : KmemInv A sc F O k (pre ++ v :: post) lost)
    (hnew : ∀ u ∈ pre ++ v :: post, ∀ s ∈ u.slabs, s.base ≠ p) :
    ((pre ++ { v with slabs := v.newSlab hdr p :: v.slabs } :: post).flatMap
      fun u => u.slabs.map SlabView.base).Nodup := by
  have hb := h.bases
  simp only [List.flatMap_append, List.flatMap_cons, List.map_cons, List.cons_append] at hb ⊢
  rw [List.nodup_middle, List.nodup_cons]
  refine ⟨?_, hb⟩
  intro hmem
  simp only [List.mem_append, List.mem_flatMap, List.mem_map] at hmem
  rcases hmem with ⟨u, hu, s, hs, hb⟩ | ⟨s, hs, hb⟩ | ⟨u, hu, s, hs, hb⟩
  · exact hnew u (by simp [hu]) s hs hb
  · exact hnew v (by simp) s hs hb
  · exact hnew u (by simp [hu]) s hs hb

theorem spans_add {hdr : ℕ} {lost' : List ℕ}
    (hlost : lost = (if v.InPage then [] else [hdr]) ++ lost') :
    ((pre ++ { v with slabs := v.newSlab hdr p :: v.slabs } :: post).flatMap CacheView.spans ++
      lost'.map headerAt).Perm
      (((if v.InPage then [headerAt hdr] else []) ++ (v.blocks p).map v.blockAt) ++
        ((pre ++ v :: post).flatMap CacheView.spans ++ lost.map headerAt)) := by
  rw [List.perm_iff_count]
  intro a
  have hspans : ({ v with slabs := v.newSlab hdr p :: v.slabs } : CacheView).spans =
      v.struct :: ((headerAt hdr :: v.slabs.map SlabView.header) ++
        ((v.blocks p ++ v.free) ++ v.live).map v.blockAt) := rfl
  rw [hlost]
  simp only [List.flatMap_append, List.flatMap_cons, hspans]
  simp only [CacheView.spans, List.map_append, List.count_append, List.count_cons,
    List.cons_append]
  by_cases hpg : v.InPage
  · simp only [if_pos hpg, List.map_nil, List.count_nil, List.count_cons]
    omega
  · simp only [if_neg hpg, List.map_cons, List.map_nil, List.count_nil, List.count_cons]
    omega

theorem addSlab_inv {hdr : ℕ} {lost' : List ℕ}
    (h : KmemInv A sc F O k (pre ++ v :: post) lost) (hp : p ∈ O)
    (hnew : ∀ u ∈ pre ++ v :: post, ∀ s ∈ u.slabs, s.base ≠ p)
    (hin : v.InPage → hdr = p + (pageSizeSmall - sizeofKmemSlab))
    (hlost : lost = (if v.InPage then [] else [hdr]) ++ lost')
    (hok : ∀ u ∈ pre ++ v :: post, CacheOk m' u) (hslab : SlabOk m' v (v.newSlab hdr p)) :
    KmemInv A sc F O { k with mem := m', held := (v.addr, p) :: k.held }
      (pre ++ { v with slabs := v.newSlab hdr p :: v.slabs } :: post) lost' := by
  have hvmem : v ∈ pre ++ v :: post := by simp
  have hfits := h.fits v hvmem
  have hheads : (extHeaders (pre ++ { v with slabs := v.newSlab hdr p :: v.slabs } :: post) ++
      lost').Perm (extHeaders (pre ++ v :: post) ++ lost) := headers_add hlost
  have hstruct : ∀ {c x}, IsStruct (pre ++ v :: post) c x →
      IsStruct (pre ++ { v with slabs := v.newSlab hdr p :: v.slabs } :: post) c x :=
    isStruct_reslab.mpr
  constructor
  · exact h.owns
  · exact forall_mem_replace (h.view v hvmem).reslab fun u hu => h.view u (mem_of_others hu)
  · exact h.bases_add hnew
  · refine forall_mem_replace (fun s hs => ?_) fun u hu => h.taken u (mem_of_others hu)
    rcases List.mem_cons.mp hs with rfl | hs
    · exact hp
    · exact h.taken v hvmem s hs
  · intro e
    rw [List.mem_cons, h.held e]
    simp only [List.mem_append, List.mem_cons, or_and_right, exists_or, exists_eq_left]
    have hfirst : (v.newSlab hdr p).base = p := rfl
    rw [hfirst, or_left_comm, or_assoc]
  · refine forall_mem_replace ?_ fun u hu => hok u (mem_of_others hu)
    have hokv := hok v hvmem
    refine ⟨hokv.bufctl, hokv.size, hokv.align, fun s hs => ?_⟩
    rcases List.mem_cons.mp hs with rfl | hs
    · exact hslab.reslab
    · exact (hokv.slabs s hs).reslab
  · refine (spans_add hlost).symm.pairwise ?_ fun hab => hab.symm
    rw [List.pairwise_append]
    refine ⟨new_items_pairwise hin hfits, h.sep, ?_⟩
    intro d hd e he
    have hd' := new_items hin hfits hd
    have he' := h.fresh_page (Or.inr hp) hnew he
    simp only [Span.Apart] at he' ⊢
    omega
  · refine forall_mem_replace (fun hpg s hs => ?_) fun u hu => h.inPage u (mem_of_others hu)
    rcases List.mem_cons.mp hs with rfl | hs
    · exact hin hpg
    · exact h.inPage v hvmem hpg s hs
  · exact h.headers.trans hheads.symm
  · intro x hx
    exact isBlock_add (h.outside x (hheads.mem_iff.mp hx))
  · exact forall_mem_replace (fun c hc => isBlock_add (h.homed v hvmem c hc))
      fun u hu c hc => isBlock_add (h.homed u (mem_of_others hu) c hc)
  · refine forall_mem_replace (fun s hs x hx => ?_) fun u hu => h.free_sub u (mem_of_others hu)
    rcases List.mem_cons.mp hs with rfl | hs
    · exact hx
    · exact h.free_sub v hvmem s hs x hx
  · exact forall_mem_replace (fun x hx => isBlock_add (h.live_sub v hvmem x hx))
      fun u hu x hx => isBlock_add (h.live_sub u (mem_of_others hu) x hx)
  · refine forall_mem_replace (fun s hs x hx => ?_) fun u hu s hs x hx => ?_
    · rcases List.mem_cons.mp hs with rfl | hs
      · exact Or.inl hx
      · exact (h.cover v hvmem s hs x hx).imp_right fun hc =>
          hc.imp_right (Or.imp (And.imp_right hheads.mem_iff.mpr) hstruct)
    · exact (h.cover u (mem_of_others hu) s hs x hx).imp_right fun hc =>
        hc.imp_right (Or.imp (And.imp_right hheads.mem_iff.mpr) hstruct)
  · have hslabs : v.slabs ≠ [] → v.newSlab hdr p :: v.slabs ≠ [] := fun _ => List.cons_ne_nil _ _
    exact forall_mem_replace
      (fun hv => exists_addr_replace (v := v) rfl hslabs (h.ready v hvmem hv))
      fun u hu hn => exists_addr_replace (v := v) rfl hslabs (h.ready u (mem_of_others hu) hn)

theorem lost_bounds {hdr : ℕ} (h : KmemInv A sc F O k vs lost) (hhdr : hdr ∈ lost) :
    hdr ≠ 0 ∧ hdr < 2 ^ 64 := by
  obtain ⟨u, hu, s, hs, hlo, hhi⟩ := h.isBlock_in_page (h.outside hdr (List.mem_append_right _ hhdr))
  have hpos := (h.isPage hu hs).pos
  have hle := (h.isPage hu hs).le
  simp only [pageSizeSmall, sizeofKmemSlab] at hle hhi
  omega

/-- **A new slab.** The page `p` is in use but no slab has it; the header is at the end
of that page, or is the first of the `lost` ones. -/
theorem addSlab {hdr : ℕ} {lost' : List ℕ} (h : KmemInv A sc F O k (pre ++ v :: post) lost)
    (hp : p ∈ O)
    (hnew : ∀ u ∈ pre ++ v :: post, ∀ s ∈ u.slabs, s.base ≠ p)
    (hin : v.InPage → hdr = p + (pageSizeSmall - sizeofKmemSlab))
    (hlost : lost = (if v.InPage then [] else [hdr]) ++ lost') :
    ∃ m', kmemSlabSetup k.mem v.addr p hdr v.usable = some m' ∧ hdr ≠ 0 ∧ IsNewSlab m' v hdr p ∧
      KmemInv A sc F O { k with mem := m', held := (v.addr, p) :: k.held }
        (pre ++ { v with slabs := v.newSlab hdr p :: v.slabs } :: post) lost' ∧
      ∀ u ∈ pre ++ v :: post, Chained k.mem u → Chained m' u := by
  have hvmem : v ∈ pre ++ v :: post := by simp
  have hfits := h.fits v hvmem
  have hpage := A.page h.owns (Or.inr hp)
  have hfresh := fun d hd => h.fresh_page (d := d) (Or.inr hp) hnew hd
  have hstatic := hfresh v.struct (List.mem_append_left _ (List.mem_flatMap.mpr
    ⟨v, hvmem, List.mem_cons_self⟩))
  have husable := v.usable_le
  -- The header, and the page, against everything that was there.
  have hhdr : ∀ u ∈ pre ++ v :: post, ∀ e ∈ u.spans, (headerAt hdr).Apart e := by
    intro u hu e he
    have hmem : e ∈ (pre ++ v :: post).flatMap CacheView.spans := List.mem_flatMap.mpr ⟨u, hu, he⟩
    by_cases hpg : v.InPage
    · have hfr := hfresh e (List.mem_append_left _ hmem)
      simp only [Span.Apart, headerAt, hin hpg, pageSizeSmall, sizeofKmemSlab] at hfr ⊢
      omega
    · rw [if_neg hpg] at hlost
      refine (List.pairwise_append.mp h.sep).2.2 e hmem _ (List.mem_map_of_mem ?_) |>.symm
      rw [hlost]
      exact List.mem_cons_self
  have hhdrpage : Span.Apart (headerAt hdr) ⟨p, v.usable⟩ := by
    by_cases hpg : v.InPage
    · rw [CacheView.usable, if_pos hpg, headerAt, hin hpg]
      exact Or.inr le_rfl
    · rw [if_neg hpg] at hlost
      have hfr := hfresh (headerAt hdr) (List.mem_append_right _ (List.mem_map_of_mem (by
        rw [hlost]
        exact List.mem_cons_self)))
      simp only [Span.Apart] at hfr ⊢
      omega
  have hw_apart : ∀ d ∈ [(⟨hdr, sizeofKmemSlab⟩ : Span), ⟨p, v.usable⟩],
      ∀ u ∈ pre ++ v :: post, ∀ e ∈ u.spans, d.Apart e := by
    intro d hd u hu e he
    rcases List.mem_cons.mp hd with rfl | hd
    · exact hhdr u hu e he
    · have hfr := hfresh e (List.mem_append_left _ (List.mem_flatMap.mpr ⟨u, hu, he⟩))
      rw [List.mem_singleton.mp hd]
      simp only [Span.Apart] at hfr ⊢
      omega
  -- The header is in a page, its own or one of `kmem_slab_cache`.
  obtain ⟨hne, hlt⟩ : hdr ≠ 0 ∧ hdr < 2 ^ 64 := by
    by_cases hpg : v.InPage
    · have hpos := hpage.pos
      have hle := hpage.le
      simp only [hin hpg, pageSizeSmall, sizeofKmemSlab] at hle ⊢
      omega
    · rw [if_neg hpg] at hlost
      exact h.lost_bounds (hlost ▸ List.mem_cons_self)
  have hroom : SlabRoom v hdr p := by
    refine ⟨hfits.carved, hne, hlt, hpage.pos.ne', hpage.le, (h.view v hvmem).addr.2, hhdrpage, ?_, ?_⟩
    · exact (hhdr v hvmem v.struct List.mem_cons_self).symm
    · simp only [Span.Apart, CacheView.struct] at hstatic ⊢
      omega
  obtain ⟨m', hrun, hw, hslab, hnext⟩ := kmemSlabSetup_spec hroom (h.ok v hvmem).bufctl
    (h.ok v hvmem).size (h.ok v hvmem).align
  have hkeep : ∀ u ∈ pre ++ v :: post, CacheOk m' u ∧ (Chained k.mem u → Chained m' u) := by
    intro u hu
    obtain ⟨hcok, hsl, hnx⟩ := (h.ok u hu).frame (h.fits u hu) hw
      fun d hd e he => hw_apart d hd u hu e (CacheView.deps_sub_spans he)
    exact ⟨hcok, fun hch => hch.frame hsl hnx⟩
  exact ⟨m', hrun, hne, hnext, h.addSlab_inv hp hnew hin hlost (fun u hu => (hkeep u hu).1) hslab,
    fun u hu => (hkeep u hu).2⟩

/-! ## Linking a slab in -/

theorem link_writes (hw : WritesOnly [⟨s.hdr + 24, 8⟩, ⟨v.addr + 24, 8⟩] m m') :
    WritesOnly [s.header, v.struct] m m' := by
  refine hw.widen ?_
  intro d hd
  rcases List.mem_cons.mp hd with rfl | hd
  · exact ⟨s.header, by simp, by simp [SlabView.header], by simp [SlabView.header, sizeofKmemSlab]⟩
  · rw [List.mem_singleton.mp hd]
    exact ⟨v.struct, by simp, by simp [CacheView.struct],
      by simp [CacheView.struct, sizeofKmemCache]⟩

theorem link_ok (h : KmemInv A sc F O k (pre ++ v :: post) lost) (hslabs : v.slabs = s :: rest)
    (hw : WritesOnly [⟨s.hdr + 24, 8⟩, ⟨v.addr + 24, 8⟩] k.mem m') :
    CacheOk m' v ∧ ∀ t ∈ rest, slabNext m' t.hdr = slabNext k.mem t.hdr := by
  have hvmem : v ∈ pre ++ v :: post := by simp
  have hs : s ∈ v.slabs := hslabs ▸ List.mem_cons_self
  have hrestv : ∀ t ∈ rest, t ∈ v.slabs := fun t ht => hslabs ▸ List.mem_cons_of_mem _ ht
  have hok := h.ok v hvmem
  have hfits := h.fits v hvmem
  obtain ⟨hstruct, hrest, hblocks⟩ := h.header_apart hslabs
  have hsep := h.split.1
  rw [CacheView.spans, List.pairwise_cons] at hsep
  have hin := link_writes hw
  have hboth : ∀ e : Span, s.header.Apart e → v.struct.Apart e →
      ∀ d ∈ [s.header, v.struct], d.Apart e := by
    intro e h₁ h₂ d hd
    rcases List.mem_cons.mp hd with rfl | hd
    · exact h₁
    · rw [List.mem_singleton.mp hd]
      exact h₂
  have hfree : ∀ t ∈ v.slabs, ∀ y ∈ t.free, ∀ d ∈ [s.header, v.struct], d.Apart (v.blockAt y) := by
    intro t ht y hy
    have hmem : y ∈ v.free ++ v.live := List.mem_append_left _ (CacheView.mem_free.mpr ⟨t, ht, hy⟩)
    exact hboth _ (hblocks y hmem)
      (hsep.1 _ (List.mem_append_right _ (List.mem_map_of_mem hmem)))
  have hother : ∀ t ∈ rest, SlabOk m' v t ∧ slabNext m' t.hdr = slabNext k.mem t.hdr := by
    intro t ht
    refine (hok.slabs t (hrestv t ht)).frame hfits.carved hin (hboth _ (hrest t ht) ?_)
      (hfree t (hrestv t ht))
    exact hsep.1 _ (List.mem_append_left _ (List.mem_map_of_mem (hrestv t ht)))
  -- In the cache and in the header, only the link itself is written.
  have hcell : ∀ a n, (∀ d ∈ [(⟨s.hdr + 24, 8⟩ : Span), ⟨v.addr + 24, 8⟩], d.Apart ⟨a, n⟩) →
      load m' a n = load k.mem a n := fun a n hd => hw.load_eq hd le_rfl le_rfl
  have hsa : s.hdr + 40 ≤ v.addr ∨ v.addr + 64 ≤ s.hdr := hstruct
  have hcache : ∀ o, o + 8 ≤ 24 → load m' (v.addr + o) 8 = load k.mem (v.addr + o) 8 := by
    intro o ho
    refine hcell _ _ ?_
    simp only [List.mem_cons, List.not_mem_nil, or_false, forall_eq_or_imp, forall_eq, Span.Apart]
    omega
  have hhdr : ∀ o n, o + n ≤ 24 ∨ 32 ≤ o ∧ o + n ≤ 40 →
      load m' (s.hdr + o) n = load k.mem (s.hdr + o) n := by
    intro o n ho
    refine hcell _ _ ?_
    simp only [List.mem_cons, List.not_mem_nil, or_false, forall_eq_or_imp, forall_eq, Span.Apart]
    omega
  have hsok := hok.slabs s hs
  have hhead : slabHead m' s.hdr = slabHead k.mem s.hdr := hhdr 8 8 (by omega)
  obtain ⟨hlist, haddr⟩ := hsok.list_frame hfits.carved hin (fun _ hx => hx) hsok.list (hfree s hs)
  rw [← hhead] at hlist
  have hbufctl := hcache 0 (by omega)
  have hfirst := hhdr 0 8 (by omega)
  rw [Nat.add_zero] at hbufctl hfirst
  refine ⟨⟨hbufctl.trans hok.bufctl, (hcache 8 (by omega)).trans hok.size,
    (hcache 16 (by omega)).trans hok.align, ?_⟩, fun t ht => (hother t ht).2⟩
  intro t ht
  rw [hslabs] at ht
  rcases List.mem_cons.mp ht with rfl | ht
  · exact ⟨hfirst.trans hsok.cache, (hhdr 16 8 (by omega)).trans hsok.base,
      (hhdr 32 4 (by omega)).trans hsok.nrFree, (hhdr 36 4 (by omega)).trans hsok.capacity,
      hlist, haddr⟩
  · exact (hother t ht).1

/-- **Linking**: the new first slab is put in front of the chain. -/
theorem link (h : KmemInv A sc F O k (pre ++ v :: post) lost) (hslabs : v.slabs = s :: rest)
    (hch : ∀ u ∈ pre ++ post, Chained k.mem u)
    (hw : WritesOnly [⟨s.hdr + 24, 8⟩, ⟨v.addr + 24, 8⟩] k.mem m')
    (hslab : cacheSlab m' v.addr = s.hdr) (hne : s.hdr ≠ 0)
    (hchain : Linked (slabNext k.mem) (slabNext m' s.hdr) (rest.map SlabView.hdr)) :
    KmemInv A sc F O { k with mem := m' } (pre ++ v :: post) lost ∧
      ∀ u ∈ pre ++ v :: post, Chained m' u := by
  have hvmem : v ∈ pre ++ v :: post := by simp
  obtain ⟨hok, hnext⟩ := h.link_ok hslabs hw
  have hin := link_writes hw
  refine h.update hch rfl (List.Perm.refl _) hin ?_ hok ?_
    (h.free_sub v hvmem) (h.live_sub v hvmem) (h.cover v hvmem)
  · intro d hd
    rcases List.mem_cons.mp hd with rfl | hd
    · exact CacheView.deps_sub_spans (CacheView.header_mem_deps (hslabs ▸ List.mem_cons_self))
    · rw [List.mem_singleton.mp hd]
      exact List.mem_cons_self
  · intro _
    rw [hslabs, List.map_cons]
    refine ⟨hslab, hne, hchain.congr ?_⟩
    intro b hb
    obtain ⟨t, ht, rfl⟩ := List.mem_map.mp hb
    exact hnext t ht

/-! ## Slab headers -/

/-- **An object of `kmem_slab_cache` becomes a slab header.** -/
theorem lose {lv : List ℕ} (h : KmemInv A sc F O k (pre ++ v :: post) lost) (hsc : v.addr = sc)
    (hlive : v.live = x :: lv) :
    KmemInv A sc F O { k with headers := x :: k.headers } (pre ++ { v with live := lv } :: post)
      (x :: lost) := by
  have hvmem : v ∈ pre ++ v :: post := by simp
  have hext : extHeaders (pre ++ { v with live := lv } :: post) = extHeaders (pre ++ v :: post) :=
    extHeaders_of_places (show _ = v.places from rfl)
  have hblock : ∀ {c n y}, IsBlock (pre ++ { v with live := lv } :: post) c n y ↔
      IsBlock (pre ++ v :: post) c n y := isBlock_of_places (show _ = v.places from rfl)
  have hstruct : ∀ {c y}, IsStruct (pre ++ v :: post) c y →
      IsStruct (pre ++ { v with live := lv } :: post) c y := isStruct_reslab.mpr
  have hheads : (extHeaders (pre ++ v :: post) ++ x :: lost).Perm
      (x :: (extHeaders (pre ++ v :: post) ++ lost)) := List.perm_middle
  have hx : v.blockAt x = headerAt x := by
    rw [CacheView.blockAt, (h.block_slabCache hvmem hsc).1, headerAt]
  have hmore : ∀ {y}, y ∈ extHeaders (pre ++ v :: post) ++ lost →
      y ∈ extHeaders (pre ++ v :: post) ++ x :: lost := fun hy =>
    hheads.mem_iff.mpr (List.mem_cons_of_mem _ hy)
  constructor
  · exact h.owns
  · exact forall_mem_replace (h.view v hvmem).reslab fun u hu => h.view u (mem_of_others hu)
  · have hb := h.bases
    simp only [List.flatMap_append, List.flatMap_cons] at hb ⊢
    exact hb
  · exact forall_mem_replace (h.taken v hvmem) fun u hu => h.taken u (mem_of_others hu)
  · intro e
    exact (h.held e).trans (exists_place_of_places (show _ = v.places from rfl)).symm
  · have hokv := h.ok v hvmem
    exact forall_mem_replace ⟨hokv.bufctl, hokv.size, hokv.align, fun s hs =>
      (hokv.slabs s hs).reslab⟩ fun u hu => h.ok u (mem_of_others hu)
  · refine List.Perm.pairwise ?_ h.sep fun hab => hab.symm
    rw [List.perm_iff_count]
    intro a
    have hspans : ({ v with live := lv } : CacheView).spans =
        v.struct :: (v.slabs.map SlabView.header ++ (v.free ++ lv).map v.blockAt) := rfl
    simp only [List.flatMap_append, List.flatMap_cons, hspans]
    simp only [CacheView.spans, hlive, List.map_append, List.map_cons, List.count_append,
      List.count_cons, List.cons_append, hx]
    omega
  · exact forall_mem_replace (h.inPage v hvmem) fun u hu => h.inPage u (mem_of_others hu)
  · rw [hext]
    exact (h.headers.cons x).trans hheads.symm
  · rw [hext]
    intro y hy
    rcases List.mem_cons.mp (hheads.mem_iff.mp hy) with rfl | hy
    · obtain ⟨s, hs, hblk⟩ := h.live_block hvmem (hlive ▸ List.mem_cons_self)
      exact hblock.mpr ⟨v, hvmem, hsc, (h.block_slabCache hvmem hsc).1.ge, s, hs, hblk⟩
    · exact hblock.mpr (h.outside y hy)
  · exact forall_mem_replace (fun c hc => hblock.mpr (h.homed v hvmem c hc))
      fun u hu c hc => hblock.mpr (h.homed u (mem_of_others hu) c hc)
  · exact forall_mem_replace (h.free_sub v hvmem) fun u hu => h.free_sub u (mem_of_others hu)
  · refine forall_mem_replace (fun y hy => ?_) fun u hu y hy => ?_
    · exact hblock.mpr (h.live_sub v hvmem y (hlive ▸ List.mem_cons_of_mem _ hy))
    · exact hblock.mpr (h.live_sub u (mem_of_others hu) y hy)
  · rw [hext]
    refine forall_mem_replace (fun s hs y hy => ?_) fun u hu s hs y hy => ?_
    · rcases h.cover v hvmem s hs y hy with hc | hc | hc | hc
      · exact Or.inl hc
      · rw [hlive] at hc
        rcases List.mem_cons.mp hc with rfl | hc
        · exact Or.inr (Or.inr (Or.inl ⟨hsc, hheads.mem_iff.mpr List.mem_cons_self⟩))
        · exact Or.inr (Or.inl hc)
      · exact Or.inr (Or.inr (Or.inl ⟨hsc, hmore hc.2⟩))
      · exact Or.inr (Or.inr (Or.inr (hstruct hc)))
    · exact (h.cover u (mem_of_others hu) s hs y hy).imp_right fun hc =>
        hc.imp_right (Or.imp (And.imp_right hmore) hstruct)
  · exact forall_mem_replace (fun hv => exists_addr_replace (v := v) rfl id (h.ready v hvmem hv))
      fun u hu hn => exists_addr_replace (v := v) rfl id (h.ready u (mem_of_others hu) hn)

theorem free_not_header (h : KmemInv A sc F O k (pre ++ v :: post) lost) (hsc : v.addr = sc)
    (hx : x ∈ v.free) : x ∉ extHeaders (pre ++ v :: post) ++ lost := by
  have hvmem : v ∈ pre ++ v :: post := by simp
  obtain ⟨hblock, hin⟩ := h.block_slabCache hvmem hsc
  have hspan : v.blockAt x ∈ v.spans := List.mem_cons_of_mem _ (List.mem_append_right _
    (List.mem_map_of_mem (List.mem_append_left _ hx)))
  have hself : ¬ (v.blockAt x).Apart (headerAt x) := by
    simp only [CacheView.blockAt, hblock, headerAt, Span.Apart, sizeofKmemSlab]
    omega
  intro hmem
  rcases List.mem_append.mp hmem with hmem | hmem
  · obtain ⟨u, hu, hhdr⟩ := List.mem_flatMap.mp hmem
    by_cases hpg : u.InPage
    · rw [if_pos hpg] at hhdr
      cases hhdr
    · rw [if_neg hpg] at hhdr
      obtain ⟨s, hs, rfl⟩ := List.mem_map.mp hhdr
      have hother : u ∈ pre ++ post := by
        simp only [List.mem_append, List.mem_cons] at hu ⊢
        rcases hu with hu | rfl | hu
        · exact Or.inl hu
        · exact absurd hin hpg
        · exact Or.inr hu
      exact hself (h.split.2.1 _ hspan u hother _
        (CacheView.deps_sub_spans (CacheView.header_mem_deps hs)))
  · exact hself (h.split.2.2 _ hspan x hmem)

theorem free_not_struct (h : KmemInv A sc F O k (pre ++ v :: post) lost) (hu : u ∈ pre ++ v :: post)
    (hx : u.addr ∈ v.free) : False := by
  have hpos := (h.fits v (by simp)).bufctl
  have hspan : v.blockAt u.addr ∈ (v.slabs.map SlabView.header ++
      (v.free ++ v.live).map v.blockAt) :=
    List.mem_append_right _ (List.mem_map_of_mem (List.mem_append_left _ hx))
  have hsep : (v.blockAt u.addr).Apart u.struct := by
    simp only [List.mem_append, List.mem_cons] at hu
    rcases hu with hu | rfl | hu
    · exact h.split.2.1 _ (List.mem_cons_of_mem _ hspan) u (by simp [hu]) _ List.mem_cons_self
    · exact ((List.pairwise_cons.mp h.split.1).1 _ hspan).symm
    · exact h.split.2.1 _ (List.mem_cons_of_mem _ hspan) u (by simp [hu]) _ List.mem_cons_self
  simp only [CacheView.blockAt, CacheView.struct, Span.Apart, sizeofKmemCache,
    sizeofKmemBufctl] at hsep hpos
  omega

/-! ## Giving a slab back -/

theorem headers_drop (hslabs : v.slabs = s :: rest) :
    (extHeaders (pre ++ { v with slabs := rest } :: post) ++
        ((if v.InPage then [] else [s.hdr]) ++ lost)).Perm
      (extHeaders (pre ++ v :: post) ++ lost) := by
  rw [List.perm_iff_count]
  intro a
  have hif : (if ({ v with slabs := rest } : CacheView).InPage then []
      else rest.map SlabView.hdr) = if v.InPage then [] else rest.map SlabView.hdr := rfl
  simp only [extHeaders_append, extHeaders_cons, hslabs, List.count_append]
  rw [hif]
  by_cases hpg : v.InPage
  · simp only [if_pos hpg, List.count_nil]
    omega
  · simp only [if_neg hpg, List.map_cons, List.count_cons, List.count_nil]
    omega

theorem isBlock_drop {n y : ℕ} (hslabs : v.slabs = s :: rest)
    (hy : IsBlock (pre ++ v :: post) c n y) (hnot : v.addr = c → y ∉ v.blocks s.base) :
    IsBlock (pre ++ { v with slabs := rest } :: post) c n y := by
  obtain ⟨u, hu, hc, hn, t, ht, hblk⟩ := hy
  simp only [List.mem_append, List.mem_cons] at hu
  rcases hu with hu | rfl | hu
  · exact ⟨u, by simp [hu], hc, hn, t, ht, hblk⟩
  · rw [hslabs] at ht
    rcases List.mem_cons.mp ht with rfl | ht
    · exact absurd hblk (hnot hc)
    · exact ⟨_, List.mem_append_right _ List.mem_cons_self, hc, hn, t, ht, hblk⟩
  · exact ⟨u, by simp [hu], hc, hn, t, ht, hblk⟩

theorem base_first (h : KmemInv A sc F O k (pre ++ v :: post) lost) (hslabs : v.slabs = s :: rest) :
    (∀ t ∈ rest, t.base ≠ s.base) ∧ ∀ u ∈ pre ++ post, ∀ t ∈ u.slabs, t.base ≠ s.base := by
  have hb := h.bases
  simp only [List.flatMap_append, List.flatMap_cons, hslabs, List.map_cons, List.cons_append] at hb
  rw [List.nodup_middle, List.nodup_cons] at hb
  have hnot := hb.1
  simp only [List.mem_append, List.mem_flatMap, List.mem_map, not_or, not_exists, not_and] at hnot
  obtain ⟨hpre, hrest, hpost⟩ := hnot
  refine ⟨hrest, fun u hu => ?_⟩
  rcases List.mem_append.mp hu with hu | hu
  · exact hpre u hu
  · exact hpost u hu

theorem spans_drop (hslabs : v.slabs = s :: rest) :
    (((if v.InPage then [s.header] else []) ++ s.free.map v.blockAt) ++
      ((pre ++ { v with slabs := rest } :: post).flatMap CacheView.spans ++
        ((if v.InPage then [] else [s.hdr]) ++ lost).map headerAt)).Perm
      ((pre ++ v :: post).flatMap CacheView.spans ++ lost.map headerAt) := by
  rw [List.perm_iff_count]
  intro a
  have hspans : ({ v with slabs := rest } : CacheView).spans = v.struct ::
      (rest.map SlabView.header ++
        (rest.flatMap SlabView.free ++ v.live).map v.blockAt) := rfl
  have hhdr : headerAt s.hdr = s.header := rfl
  simp only [List.flatMap_append, List.flatMap_cons, hspans]
  simp only [CacheView.spans, CacheView.free, hslabs, List.flatMap_cons, List.map_cons,
    List.map_append, List.count_append, List.count_cons, List.cons_append]
  by_cases hpg : v.InPage
  · simp only [if_pos hpg, List.map_nil, List.count_nil, List.count_cons]
    omega
  · simp only [if_neg hpg, List.map_cons, List.map_nil, List.count_nil, List.count_cons, hhdr]
    omega

theorem held_drop (h : KmemInv A sc F O k (pre ++ v :: post) lost)
    (hslabs : v.slabs = s :: rest) (e : ℕ × ℕ) :
    e ∈ k.held.filter (fun e => e.2 ≠ s.base) ↔
      ∃ u ∈ pre ++ { v with slabs := rest } :: post, ∃ t ∈ u.slabs, e = (u.addr, t.base) := by
  have hrestv : ∀ t ∈ rest, t ∈ v.slabs := fun t ht => hslabs ▸ List.mem_cons_of_mem _ ht
  obtain ⟨hbrest, hbother⟩ := h.base_first hslabs
  simp only [List.mem_filter, h.held e, decide_eq_true_eq]
  constructor
  · rintro ⟨⟨u, hu, t, ht, rfl⟩, hne⟩
    simp only [List.mem_append, List.mem_cons] at hu
    rcases hu with hu | rfl | hu
    · exact ⟨u, by simp [hu], t, ht, rfl⟩
    · rw [hslabs] at ht
      rcases List.mem_cons.mp ht with rfl | ht
      · exact absurd rfl hne
      · exact ⟨_, List.mem_append_right _ List.mem_cons_self, t, ht, rfl⟩
    · exact ⟨u, by simp [hu], t, ht, rfl⟩
  · rintro ⟨u, hu, t, ht, rfl⟩
    simp only [List.mem_append, List.mem_cons] at hu
    rcases hu with hu | rfl | hu
    · exact ⟨⟨u, by simp [hu], t, ht, rfl⟩, hbother u (by simp [hu]) t ht⟩
    · exact ⟨⟨v, by simp, t, hrestv t ht, rfl⟩, hbrest t ht⟩
    · exact ⟨⟨u, by simp [hu], t, ht, rfl⟩, hbother u (by simp [hu]) t ht⟩

/-- **The first slab is given back**: all its blocks are free, and it is not the only one. -/
theorem dropSlab {π : σ} (h : KmemInv A sc F O k (pre ++ v :: post) lost)
    (hslabs : v.slabs = s :: rest) (hrest : rest ≠ [])
    (hfull : ∀ x ∈ v.blocks s.base, x ∈ s.free)
    (hπ : A.Owns π (insert s.base F) (O \ {s.base}))
    (hok : CacheOk m' v) (hother : ∀ u ∈ pre ++ post, CacheOk m' u) :
    KmemInv A sc (insert s.base F) (O \ {s.base})
      { k with pages := π, mem := m', held := k.held.filter fun e => e.2 ≠ s.base }
      (pre ++ { v with slabs := rest } :: post) ((if v.InPage then [] else [s.hdr]) ++ lost) := by
  have hvmem : v ∈ pre ++ v :: post := by simp
  have hs : s ∈ v.slabs := hslabs ▸ List.mem_cons_self
  have hrestv : ∀ t ∈ rest, t ∈ v.slabs := fun t ht => hslabs ▸ List.mem_cons_of_mem _ ht
  have hheads : (extHeaders (pre ++ { v with slabs := rest } :: post) ++
      ((if v.InPage then [] else [s.hdr]) ++ lost)).Perm (extHeaders (pre ++ v :: post) ++ lost) :=
    headers_drop hslabs
  obtain ⟨hbrest, hbother⟩ := h.base_first hslabs
  have hfree : ∀ x ∈ v.blocks s.base, x ∈ v.free := fun x hx =>
    CacheView.mem_free.mpr ⟨s, hs, hfull x hx⟩
  have hne : v.slabs ≠ [] → rest ≠ [] := fun _ => hrest
  have hstruct : ∀ {c x}, IsStruct (pre ++ v :: post) c x →
      IsStruct (pre ++ { v with slabs := rest } :: post) c x :=
    isStruct_reslab.mpr
  have hsame : insert s.base F ∪ O \ {s.base} ⊆ F ∪ O := by
    rintro p (hp | hp)
    · rcases hp with rfl | hp
      · exact Or.inr (h.taken v hvmem s hs)
      · exact Or.inl hp
    · exact Or.inr hp.1
  constructor
  · exact hπ
  · exact forall_mem_replace ((h.view v hvmem).mono hsame).reslab
      fun u hu => (h.view u (mem_of_others hu)).mono hsame
  · have hb := h.bases
    simp only [List.flatMap_append, List.flatMap_cons, hslabs, List.map_cons,
      List.cons_append] at hb ⊢
    rw [List.nodup_middle, List.nodup_cons] at hb
    exact hb.2
  · refine forall_mem_replace (fun t ht => ⟨h.taken v hvmem t (hrestv t ht), hbrest t ht⟩)
      fun u hu t ht => ⟨h.taken u (mem_of_others hu) t ht, hbother u hu t ht⟩
  · exact h.held_drop hslabs
  · refine forall_mem_replace ⟨hok.bufctl, hok.size, hok.align, fun t ht => ?_⟩ hother
    exact (hok.slabs t (hrestv t ht)).reslab
  · exact (List.pairwise_append.mp
      ((spans_drop hslabs).symm.pairwise h.sep fun hab => hab.symm)).2.1
  · exact forall_mem_replace (fun hpg t ht => h.inPage v hvmem hpg t (hrestv t ht))
      fun u hu => h.inPage u (mem_of_others hu)
  · exact h.headers.trans hheads.symm
  · intro x hx
    refine isBlock_drop hslabs (h.outside x (hheads.mem_iff.mp hx)) fun hsc hblk => ?_
    exact h.free_not_header hsc (hfree x hblk) (hheads.mem_iff.mp hx)
  · have hkeep : ∀ u ∈ pre ++ v :: post, ∀ c, u.home = some c →
        IsBlock (pre ++ { v with slabs := rest } :: post) c sizeofKmemCache u.addr := by
      intro u hu c hc
      refine isBlock_drop hslabs (h.homed u hu c hc) fun _ hblk => ?_
      exact h.free_not_struct hu (hfree _ hblk)
    exact forall_mem_replace (hkeep v hvmem) fun u hu => hkeep u (mem_of_others hu)
  · exact forall_mem_replace (fun t ht => h.free_sub v hvmem t (hrestv t ht))
      fun u hu => h.free_sub u (mem_of_others hu)
  · refine forall_mem_replace (fun x hx => ?_) fun u hu x hx => ?_
    · refine isBlock_drop hslabs (h.live_sub v hvmem x hx) fun _ hblk => ?_
      exact (List.nodup_append.mp h.free_live_nodup).2.2 x (hfree x hblk) x hx rfl
    · obtain ⟨t, ht, hblk⟩ := h.live_block (mem_of_others hu) hx
      exact ⟨u, mem_of_others hu, rfl, Nat.zero_le _, t, ht, hblk⟩
  · refine forall_mem_replace (fun t ht x hx => ?_) fun u hu t ht x hx => ?_
    · exact (h.cover v hvmem t (hrestv t ht) x hx).imp_right fun hc =>
        hc.imp_right (Or.imp (And.imp_right hheads.mem_iff.mpr) hstruct)
    · exact (h.cover u (mem_of_others hu) t ht x hx).imp_right fun hc =>
        hc.imp_right (Or.imp (And.imp_right hheads.mem_iff.mpr) hstruct)
  · exact forall_mem_replace (fun hv => exists_addr_replace (v := v) rfl hne (h.ready v hvmem hv))
      fun u hu hn => exists_addr_replace (v := v) rfl hne (h.ready u (mem_of_others hu) hn)

end KmemInv

end Manticore
