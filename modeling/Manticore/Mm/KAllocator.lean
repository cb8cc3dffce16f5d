import Manticore.Mm.Kmalloc

/-!
# The global allocator

`KAllocator` of `kernel/memory.rs` hands the size of a layout to `kmem_alloc` and drops the
alignment.  What alignment a block has then follows from its size class alone: blocks stand at
multiples of the class from a page on, so a layout is honoured if its alignment is no larger than
the class of its size, and otherwise not always.

`Laid` is what is assumed of the slabs: live blocks do not overlap, and each stands at a multiple of
its class in a page.  Runs of the slab allocator that keep its own invariant are of that kind.
-/

namespace Manticore

/-- `core::alloc::Layout`: an alignment is a power of two. -/
structure Layout where
  size : ℕ
  align : ℕ
  align_pow : ∃ k, align = 2 ^ k
deriving DecidableEq

namespace KAllocator

variable {σ : Type}

section Model

variable (A : PageAllocator σ) (sc kc : ℕ)

def alloc (s : KmemState σ) (layout : Layout) : Option (ℕ × KmemState σ) :=
  s.kmemAlloc A sc kc layout.size

def dealloc (s : KmemState σ) (ptr : ℕ) (layout : Layout) : Option (KmemState σ) :=
  s.kmemFree A kc ptr layout.size

inductive Call where
  | alloc (layout : Layout)
  | dealloc (ptr : ℕ) (layout : Layout)

/-- The slab allocator, and the pointers that the callers hold with their layouts. -/
structure Heap (σ : Type) where
  kmem : KmemState σ
  held : List (ℕ × Layout)

/-- One call; `none` is a fault below. -/
def step (h : Heap σ) : Call → Option (Heap σ)
  | .alloc layout => do
      let (p, s) ← alloc A sc kc h.kmem layout
      some ⟨s, if p = 0 then h.held else (p, layout) :: h.held⟩
  | .dealloc ptr layout => do
      let s ← dealloc A kc h.kmem ptr layout
      some ⟨s, h.held.erase (ptr, layout)⟩

def calls (h : Heap σ) (cs : List Call) : Option (Heap σ) := cs.foldlM (step A sc kc) h

/-- What is freed is held, and freed with the layout of its allocation. -/
def Legal (h : Heap σ) : Call → Prop
  | .alloc _ => True
  | .dealloc ptr layout => (ptr, layout) ∈ h.held

/-! ## What is assumed, and what is to be shown -/

/-- The live blocks of the size classes stand at multiples of their class from a page on, inside the
page, and apart from each other. -/
structure Laid (s : KmemState σ) : Prop where
  placed : ∀ size c x, kmemSizeToCache kc size = some c → (c, x) ∈ s.live →
    ∃ page i, pageSizeSmall ∣ page ∧ x = page + i * kmemClass size ∧
      (i + 1) * kmemClass size ≤ pageSizeSmall
  apart : s.live.Pairwise fun e e' => ∀ size size', kmemSizeToCache kc size = some e.1 →
    kmemSizeToCache kc size' = some e'.1 →
    Span.Apart ⟨e.2, kmemClass size⟩ ⟨e'.2, kmemClass size'⟩

/-- The calls return, those that free are legal, and the blocks are laid out all along. -/
def Sound : Heap σ → List Call → Prop
  | h, [] => Laid kc h.kmem
  | h, c :: cs => Laid kc h.kmem ∧ Legal h c ∧ ∃ h', step A sc kc h c = some h' ∧ Sound h' cs

/-- `p` is null, or a multiple of the alignment and the start of a block that is large enough and
apart from what was live in `s` before. -/
def Honours (s : KmemState σ) (layout : Layout) (p : ℕ) : Prop :=
  p = 0 ∨ layout.align ∣ p ∧ layout.size ≤ kmemClass layout.size ∧
    ∀ e ∈ s.live, ∀ size, kmemSizeToCache kc size = some e.1 →
      Span.Apart ⟨p, kmemClass layout.size⟩ ⟨e.2, kmemClass size⟩

end Model

/-- The layout is honoured whenever it is asked for, after any calls, over any slabs that are laid
out. -/
def HonoursLayout (layout : Layout) : Prop :=
  ∀ (σ : Type) (A : PageAllocator σ) (sc kc : ℕ) (s : KmemState σ) (cs : List Call),
    Sound A sc kc ⟨s, []⟩ (cs ++ [.alloc layout]) →
    ∃ h p s', calls A sc kc ⟨s, []⟩ cs = some h ∧ alloc A sc kc h.kmem layout = some (p, s') ∧
      Honours kc h.kmem layout p

/-! ## Alignment from the size class -/

theorem align_dvd_block {layout : Layout} {page : ℕ} (hsize : layout.size ≤ 4096)
    (hle : layout.align ≤ kmemClass layout.size) (hpage : pageSizeSmall ∣ page) (i : ℕ) :
    layout.align ∣ page + i * kmemClass layout.size := by
  obtain ⟨k, hk⟩ := layout.align_pow
  obtain ⟨j, hj, hclass⟩ := kmemClass_pow hsize
  have hkj : k ≤ j := by
    rw [hk, hclass] at hle
    exact (Nat.pow_le_pow_iff_right (by norm_num)).mp hle
  have hdvd : layout.align ∣ kmemClass layout.size := by
    rw [hk, hclass]
    exact pow_dvd_pow 2 hkj
  have halign : layout.align ∣ pageSizeSmall := by
    rw [hk]
    exact pow_dvd_pow 2 (hkj.trans hj)
  exact dvd_add (halign.trans hpage) (hdvd.mul_left i)

section Honoured

variable {A : PageAllocator σ} {sc kc : ℕ} {s s' : KmemState σ} {h : Heap σ} {layout : Layout}
  {p : ℕ}

theorem alloc_cases (halloc : alloc A sc kc s layout = some (p, s')) : s'.caches = s.caches ∧
    (p = 0 ∨ ∃ c, kmemSizeToCache kc layout.size = some c ∧ s'.live = (c, p) :: s.live) := by
  unfold alloc KmemState.kmemAlloc at halloc
  cases hcache : kmemSizeToCache kc layout.size with
  | none =>
      rw [hcache] at halloc
      obtain ⟨rfl, rfl⟩ := some_pair_inj halloc
      exact ⟨rfl, .inl rfl⟩
  | some c =>
      rw [hcache] at halloc
      obtain ⟨⟨obj, k⟩, -, hres⟩ := Option.bind_eq_some_iff.mp halloc
      dsimp only at hres
      split_ifs at hres with hzero
      · obtain ⟨rfl, rfl⟩ := some_pair_inj hres
        exact ⟨rfl, .inl rfl⟩
      · obtain ⟨rfl, rfl⟩ := some_pair_inj hres
        exact ⟨rfl, .inr ⟨c, rfl, rfl⟩⟩

theorem honours_of_laid (hcond : 4096 < layout.size ∨ layout.align ≤ kmemClass layout.size)
    (halloc : alloc A sc kc s layout = some (p, s')) (hlaid : Laid kc s') :
    Honours kc s layout p := by
  rcases (alloc_cases halloc).2 with hp | ⟨c, hcache, hlive⟩
  · exact .inl hp
  · have hsize := le_of_kmemSizeToCache hcache
    have hle := hcond.resolve_left (not_lt.mpr hsize)
    obtain ⟨page, i, hpage, hpos, -⟩ :=
      hlaid.placed layout.size c p hcache (hlive ▸ List.mem_cons_self)
    have hapart := hlaid.apart
    rw [hlive, List.pairwise_cons] at hapart
    refine .inr ⟨?_, le_kmemClass hsize, fun e he size hs => hapart.1 e he _ size hcache hs⟩
    rw [hpos]
    exact align_dvd_block hsize hle hpage i

theorem Sound.of_concat : ∀ {cs : List Call} {h : Heap σ} {c : Call},
    Sound A sc kc h (cs ++ [c]) → ∃ h', calls A sc kc h cs = some h' ∧ Sound A sc kc h' [c]
  | [], h, _, hs => ⟨h, rfl, hs⟩
  | _ :: _, _, _, ⟨_, _, h', hstep, hs⟩ => by
      obtain ⟨h'', hcalls, hlast⟩ := Sound.of_concat hs
      refine ⟨h'', ?_, hlast⟩
      rw [calls, List.foldlM_cons, hstep]
      exact hcalls

theorem Sound.alloc (hs : Sound A sc kc h [.alloc layout]) : ∃ p s',
    alloc A sc kc h.kmem layout = some (p, s') ∧ Laid kc s' := by
  obtain ⟨-, -, h', hstep, hlaid⟩ := hs
  obtain ⟨⟨p, s'⟩, halloc, hh'⟩ := Option.bind_eq_some_iff.mp hstep
  obtain rfl := Option.some.inj hh'
  exact ⟨p, s', halloc, hlaid⟩

end Honoured

/-! ## The slab allocator below -/

section Slabs

variable {A : PageAllocator σ} {sc kc : ℕ} {P F O : Set ℕ} {s s' : KmemState σ}
  {vs : List CacheView} {lost : List ℕ} {h : Heap σ} {layout : Layout}

/-- The caches of the size classes are as `kmem_init` makes them. -/
def Sized (kc : ℕ) (s : KmemState σ) : Prop :=
  ∀ size c, kmemSizeToCache kc size = some c → c ∈ s.caches →
    cacheSize s.k.mem c = kmemClass size ∧ cacheAlign s.k.mem c = kmemDefaultAlign

theorem Sized.of_cells (hsized : Sized kc s) (hcaches : s'.caches = s.caches)
    (hcell : ∀ c ∈ s.caches, cacheSize s'.k.mem c = cacheSize s.k.mem c ∧
      cacheAlign s'.k.mem c = cacheAlign s.k.mem c) : Sized kc s' := by
  intro size c hcache hmem
  rw [hcaches] at hmem
  obtain ⟨hsize, halign⟩ := hcell c hmem
  rw [hsize, halign]
  exact hsized size c hcache hmem

theorem laid_of_backed (hback : s.Backed A sc P F O vs lost) (hsized : Sized kc s) :
    Laid kc s := by
  have hcell : ∀ {size c x}, kmemSizeToCache kc size = some c → (c, x) ∈ s.live →
      cacheSize s.k.mem c = kmemClass size ∧ cacheAlign s.k.mem c = kmemDefaultAlign := by
    intro size c x hcache hlive
    exact hsized size c hcache ((hback.caches c).mpr (hback.owner _ hlive))
  constructor
  · intro size c x hcache hlive
    obtain ⟨hsize, halign⟩ := hcell hcache hlive
    obtain ⟨v, hv, rfl, hx⟩ := hback.exists_live hlive
    obtain ⟨t, ht, hblk⟩ := hback.inv.live_block hv hx
    obtain ⟨i, hi, rfl⟩ := CacheView.mem_blocks.mp hblk
    have hblock : v.block = kmemClass size := by
      rw [CacheView.block, ← (hback.inv.ok v hv).size, ← (hback.inv.ok v hv).align, hsize, halign,
        alignUp_kmemClass]
    have hend := (hback.inv.fits v hv).carved.lt_capacity_iff.mp hi
    rw [hblock] at hend ⊢
    exact ⟨t.base, i, (hback.inv.isPage hv ht).dvd, rfl, hend.trans v.usable_le⟩
  · have hpair := (List.pairwise_append.mp (List.pairwise_append.mp hback.safe.disjoint).1).1
    refine hpair.imp_of_mem ?_
    rintro ⟨c, x⟩ ⟨c', x'⟩ hx hx' hapart size size' hcache hcache'
    simp only [objectSpan, (hcell hcache hx).1, (hcell hcache' hx').1] at hapart
    exact hapart

/-- The block of a pointer that is held: the cache that its layout selects, and the address. -/
def blockKey (kc : ℕ) (e : ℕ × Layout) : Option ℕ × ℕ := (kmemSizeToCache kc e.2.size, e.1)

/-- The blocks that the callers hold are live, and none is held twice. -/
structure Owned (kc : ℕ) (h : Heap σ) : Prop where
  live : ∀ e ∈ h.held, ∃ c, kmemSizeToCache kc e.2.size = some c ∧ (c, e.1) ∈ h.kmem.live
  once : (h.held.map (blockKey kc)).Nodup

/-- Slabs that keep their invariant, under the heap. -/
structure Supported (A : PageAllocator σ) (sc kc : ℕ) (P : Set ℕ) (h : Heap σ) : Prop where
  backed : ∃ F O vs lost, h.kmem.Backed A sc P F O vs lost
  sized : Sized kc h.kmem
  owned : Owned kc h

/-- The calls that keep the invariant of the slabs: the cache is there, and what is freed is in the
page of the first slab of its cache. -/
def Confined (kc : ℕ) (h : Heap σ) : Call → Prop
  | .alloc layout => ∀ c, kmemSizeToCache kc layout.size = some c → c ∈ h.kmem.caches
  | .dealloc ptr layout => ∀ c, kmemSizeToCache kc layout.size = some c →
      h.kmem.Confined (.free c ptr)

theorem Supported.alloc (hsup : Supported A sc kc P h)
    (hcache : ∀ c, kmemSizeToCache kc layout.size = some c → c ∈ h.kmem.caches) :
    ∃ h', step A sc kc h (.alloc layout) = some h' ∧ Supported A sc kc P h' := by
  obtain ⟨F, O, vs, lost, hback⟩ := hsup.backed
  cases hsel : kmemSizeToCache kc layout.size with
  | none =>
      refine ⟨h, ?_, hsup⟩
      simp [step, KAllocator.alloc, KmemState.kmemAlloc, hsel]
  | some c =>
      have hmem := hcache c hsel
      obtain ⟨obj, k', hrun, hres⟩ := hback.cacheAlloc hmem
      rcases hres with ⟨rfl, ⟨F', O', vs', hback'⟩, hext⟩ | ⟨hne, ⟨F', O', vs', hback'⟩, hext⟩
      · refine ⟨⟨{ h.kmem with k := k' }, h.held⟩, ?_, ⟨F', O', vs', lost, hback'⟩, ?_, ?_⟩
        · simp [step, KAllocator.alloc, KmemState.kmemAlloc, hsel, hrun]
        · exact hsup.sized.of_cells hext.caches fun c hc => ⟨hext.size c hc, hext.align c hc⟩
        · exact ⟨hsup.owned.live, hsup.owned.once⟩
      · refine ⟨⟨{ h.kmem with k := k', live := (c, obj) :: h.kmem.live }, (obj, layout) :: h.held⟩,
          ?_, ⟨F', O', vs', lost, hback'⟩, ?_, ?_⟩
        · simp [step, KAllocator.alloc, KmemState.kmemAlloc, hsel, hrun, hne]
        · exact hsup.sized.of_cells hext.caches fun c hc => ⟨hext.size c hc, hext.align c hc⟩
        · have hnodup := (List.nodup_append.mp (List.nodup_append.mp hback'.objects_nodup.1).1).1
          have hnew : (c, obj) ∉ h.kmem.live := (List.nodup_cons.mp hnodup).1
          constructor
          · intro e he
            rcases List.mem_cons.mp he with rfl | hold
            · exact ⟨c, hsel, List.mem_cons_self⟩
            · obtain ⟨d, hd, hlive⟩ := hsup.owned.live e hold
              exact ⟨d, hd, List.mem_cons_of_mem _ hlive⟩
          · rw [List.map_cons, List.nodup_cons]
            refine ⟨fun hin => ?_, hsup.owned.once⟩
            obtain ⟨e, he, hkey⟩ := List.mem_map.mp hin
            obtain ⟨hsame, hptr⟩ := Prod.mk.inj hkey
            obtain ⟨d, hd, hlive⟩ := hsup.owned.live e he
            obtain rfl := Option.some.inj (hd.symm.trans (hsame.trans hsel))
            dsimp only at hptr
            rw [hptr] at hlive
            exact hnew hlive

theorem Supported.dealloc {ptr : ℕ} (hsup : Supported A sc kc P h)
    (hheld : (ptr, layout) ∈ h.held) (hconf : Confined kc h (.dealloc ptr layout)) :
    ∃ h', step A sc kc h (.dealloc ptr layout) = some h' ∧ Supported A sc kc P h' := by
  obtain ⟨F, O, vs, lost, hback⟩ := hsup.backed
  obtain ⟨c, hsel, hlive⟩ := hsup.owned.live _ hheld
  obtain ⟨k', F', O', vs', lost', hrun, hback', hkept⟩ := hback.cacheFree hlive (hconf c hsel)
  refine ⟨⟨{ h.kmem with k := k', live := h.kmem.live.erase (c, ptr) },
    h.held.erase (ptr, layout)⟩, ?_, ⟨F', O', vs', lost', hback'⟩, ?_, ?_⟩
  · simp [step, KAllocator.dealloc, KmemState.kmemFree, hsel, hrun]
  · refine hsup.sized.of_cells rfl (hback.cells_of_views hback' fun u hu => ?_)
    obtain ⟨u', hu', hkv⟩ := hkept.mem_left hu
    exact ⟨u', hu', hkv.addr, hkv.size, hkv.align⟩
  · constructor
    · intro e he
      obtain ⟨hne, hold⟩ := hsup.owned.once.of_map.mem_erase_iff.mp he
      obtain ⟨d, hd, hlived⟩ := hsup.owned.live e hold
      refine ⟨d, hd, (List.mem_erase_of_ne fun heq => hne ?_).mpr hlived⟩
      -- two layouts held at one block would be the same entry
      obtain ⟨rfl, hptr⟩ := Prod.mk.inj heq
      refine List.inj_on_of_nodup_map hsup.owned.once hold hheld ?_
      exact Prod.ext (hd.trans hsel.symm) hptr
    · exact hsup.owned.once.sublist (List.erase_sublist.map _)

/-- Every call of the run is legal and confined. -/
def Careful (A : PageAllocator σ) (sc kc : ℕ) : Heap σ → List Call → Prop
  | _, [] => True
  | h, c :: cs => Legal h c ∧ Confined kc h c ∧
      ∀ h', step A sc kc h c = some h' → Careful A sc kc h' cs

/-- **Careful runs of the slab allocator are sound.** -/
theorem Supported.sound : ∀ {cs : List Call} {h : Heap σ}, Supported A sc kc P h →
    Careful A sc kc h cs → Sound A sc kc h cs
  | [], _, hsup, _ => by
      obtain ⟨F, O, vs, lost, hback⟩ := hsup.backed
      exact laid_of_backed hback hsup.sized
  | c :: _, h, hsup, ⟨hlegal, hconf, hrest⟩ => by
      obtain ⟨F, O, vs, lost, hback⟩ := hsup.backed
      have hstep : ∃ h', step A sc kc h c = some h' ∧ Supported A sc kc P h' := by
        cases c with
        | alloc layout => exact hsup.alloc hconf
        | dealloc ptr layout => exact hsup.dealloc hlegal hconf
      obtain ⟨h', hstep, hsup'⟩ := hstep
      exact ⟨laid_of_backed hback hsup.sized, hlegal, h', hstep, hsup'.sound (hrest h' hstep)⟩

end Slabs

/-! ## Three allocations of one layout -/

section Boot

/-- The cache of class `i` with the caches it needs, and the array `kmalloc_caches` at `0x3000`. -/
def classCaches (i : ℕ) : List (ℕ × ℕ) :=
  (if i < 4 then [] else [(0x2000, sizeofKmemSlab)]) ++
    [(0x3000 + i * sizeofKmemCache, (kmemAllocSizes[i]?).getD 0)]

theorem backed_classCaches {i : ℕ} (hi : i < 8) :
    KmemState.Backed.Next PageArenas.smallPages 0x2000 (bootPages 0x8000)
      (bootKmalloc 0x8000 (classCaches i)) := by
  have hnil := @backed_bootKmalloc_nil 0x8000
    ⟨by decide, by decide, by decide, by decide, by decide⟩
  unfold classCaches
  by_cases hsmall : i < 4
  · have hstatic : ∀ i < 4, StaticCache [] (0x3000 + i * sizeofKmemCache)
        ((kmemAllocSizes[i]?).getD 0) := by decide
    rw [if_pos hsmall]
    exact backed_bootKmalloc_concat hnil rfl (hstatic i hsmall)
  · have hmade : (bootKmalloc 0x8000 ([] ++ [(0x2000, sizeofKmemSlab)])).map KmemState.caches =
        some [0x2000] := by decide +kernel
    have hstatic : ∀ i < 8, StaticCache [0x2000] (0x3000 + i * sizeofKmemCache)
        ((kmemAllocSizes[i]?).getD 0) := by decide
    rw [if_neg hsmall]
    exact backed_bootKmalloc_concat
      (backed_bootKmalloc_concat hnil rfl (show StaticCache [] 0x2000 sizeofKmemSlab by decide))
      hmade (hstatic i hi)

/-- The pointers of three allocations of `size` bytes. -/
def threePointers (s : KmemState PageArenas) (size : ℕ) : Option (ℕ × ℕ × ℕ) := do
  let (a, s) ← s.kmemAlloc PageArenas.smallPages 0x2000 0x3000 size
  let (b, s) ← s.kmemAlloc PageArenas.smallPages 0x2000 0x3000 size
  let (c, _) ← s.kmemAlloc PageArenas.smallPages 0x2000 0x3000 size
  some (a, b, c)

/-- None is null, and two that follow each other are one block apart. -/
def OneBlockApart (n : ℕ) (ps : ℕ × ℕ × ℕ) : Prop :=
  ps.1 ≠ 0 ∧ ps.2.1 ≠ 0 ∧ ps.2.2 ≠ 0 ∧ (ps.2.1 = ps.1 + n ∨ ps.2.2 = ps.2.1 + n)

instance (n : ℕ) (ps : ℕ × ℕ × ℕ) : Decidable (OneBlockApart n ps) := by
  unfold OneBlockApart
  infer_instance

theorem boot_class : ∀ i < 8, (bootKmalloc 0x8000 (classCaches i)).map (fun s =>
    (s.caches.all fun c => c == 0x2000 || c == 0x3000 + i * sizeofKmemCache) &&
      decide (s.HasCaches [(0x3000 + i * sizeofKmemCache, (kmemAllocSizes[i]?).getD 0)]) &&
      (threePointers s ((kmemAllocSizes[i]?).getD 0)).any fun ps =>
        decide (OneBlockApart ((kmemAllocSizes[i]?).getD 0) ps)) = some true := by
  decide +kernel

variable {layout : Layout}

theorem threePointers_kmemClass {size : ℕ} (s : KmemState PageArenas) (h : size ≤ 4096) :
    threePointers s (kmemClass size) = threePointers s size := by
  simp only [threePointers, KmemState.kmemAlloc, kmemSizeToCache, kmemCacheIndex_kmemClass h]

theorem exists_of_threePointers {s : KmemState PageArenas} {a b c : ℕ}
    (h : threePointers s layout.size = some (a, b, c)) : ∃ s₁ s₂ s₃,
      alloc PageArenas.smallPages 0x2000 0x3000 s layout = some (a, s₁) ∧
      alloc PageArenas.smallPages 0x2000 0x3000 s₁ layout = some (b, s₂) ∧
      alloc PageArenas.smallPages 0x2000 0x3000 s₂ layout = some (c, s₃) := by
  obtain ⟨⟨a', s₁⟩, halloc₁, h₁⟩ := Option.bind_eq_some_iff.mp h
  obtain ⟨⟨b', s₂⟩, halloc₂, h₂⟩ := Option.bind_eq_some_iff.mp h₁
  obtain ⟨⟨c', s₃⟩, halloc₃, h₃⟩ := Option.bind_eq_some_iff.mp h₂
  obtain ⟨rfl, hbc⟩ := some_pair_inj h₃
  obtain ⟨rfl, rfl⟩ := Prod.mk.inj hbc
  exact ⟨s₁, s₂, s₃, halloc₁, halloc₂, halloc₃⟩

theorem supported_classCaches {size : ℕ} (hsize : size ≤ 4096) : ∃ s,
    Supported PageArenas.smallPages 0x2000 0x3000 (bootPages 0x8000) ⟨s, []⟩ ∧
      (∀ c, kmemSizeToCache 0x3000 size = some c → c ∈ s.caches) ∧
      bootKmalloc 0x8000 (classCaches (kmemCacheIndex size)) = some s := by
  have hi := kmemCacheIndex_lt hsize
  obtain ⟨s, F, O, vs, lost, hs, hback⟩ := backed_classCaches hi
  have hboot := boot_class _ hi
  rw [hs, Option.map_some, Option.some.injEq, Bool.and_eq_true, Bool.and_eq_true] at hboot
  obtain ⟨⟨hcaches, htable⟩, -⟩ := hboot
  obtain ⟨hmem, hcell⟩ := of_decide_eq_true htable _ (List.mem_singleton_self _)
  refine ⟨s, ⟨⟨F, O, vs, lost, hback⟩, ?_, (fun _ he => nomatch he), List.nodup_nil⟩, ?_, hs⟩
  · -- no other cache of a size class is there
    intro size' c hc hin
    rw [kmemSizeToCache_of_le _ (le_of_kmemSizeToCache hc)] at hc
    obtain rfl := Option.some.inj hc
    have hone := List.all_eq_true.mp hcaches _ hin
    simp only [Bool.or_eq_true, beq_iff_eq, sizeofKmemCache] at hone
    have hidx : kmemCacheIndex size' = kmemCacheIndex size := by omega
    rw [hidx, kmemClass, hidx]
    exact hcell
  · intro c hc
    rw [kmemSizeToCache_of_le _ hsize] at hc
    exact Option.some.inj hc ▸ hmem

theorem threePointers_classCaches {size : ℕ} {s : KmemState PageArenas} (hsize : size ≤ 4096)
    (hs : bootKmalloc 0x8000 (classCaches (kmemCacheIndex size)) = some s) : ∃ ps,
    threePointers s size = some ps ∧ OneBlockApart (kmemClass size) ps := by
  have hboot := boot_class _ (kmemCacheIndex_lt hsize)
  rw [hs, Option.map_some, Option.some.injEq, Bool.and_eq_true] at hboot
  obtain ⟨-, hthree⟩ := hboot
  change (threePointers s (kmemClass size)).any _ = true at hthree
  rw [threePointers_kmemClass s hsize] at hthree
  cases hps : threePointers s size with
  | none =>
      rw [hps] at hthree
      cases hthree
  | some ps =>
      rw [hps] at hthree
      exact ⟨ps, rfl, of_decide_eq_true hthree⟩

theorem careful_replicate {A : PageAllocator σ} {sc kc : ℕ} : ∀ (n : ℕ) {h : Heap σ},
    (∀ c, kmemSizeToCache kc layout.size = some c → c ∈ h.kmem.caches) →
    Careful A sc kc h (List.replicate n (.alloc layout))
  | 0, _, _ => trivial
  | n + 1, h, hserved => by
      refine ⟨trivial, hserved, fun h' hstep => careful_replicate n fun c hc => ?_⟩
      obtain ⟨⟨p, s'⟩, halloc, hh'⟩ := Option.bind_eq_some_iff.mp hstep
      obtain rfl := Option.some.inj hh'
      rw [(alloc_cases halloc).1]
      exact hserved c hc

theorem align_dvd_of_honours {s s' : KmemState σ} {P : Set ℕ} {sc kc p : ℕ} {A : PageAllocator σ}
    {h : Heap σ} (n : ℕ) (hlayout : HonoursLayout layout) (hsup : Supported A sc kc P ⟨s, []⟩)
    (hserved : ∀ c, kmemSizeToCache kc layout.size = some c → c ∈ s.caches)
    (hcalls : calls A sc kc ⟨s, []⟩ (List.replicate n (.alloc layout)) = some h)
    (halloc : alloc A sc kc h.kmem layout = some (p, s')) (hp : p ≠ 0) : layout.align ∣ p := by
  have hsound := hsup.sound (careful_replicate (n + 1) hserved)
  rw [List.replicate_succ'] at hsound
  obtain ⟨h₂, p₂, s₂, hcalls₂, halloc₂, hhonours⟩ := hlayout _ A sc kc s _ hsound
  obtain rfl := Option.some.inj (hcalls.symm.trans hcalls₂)
  obtain ⟨rfl, -⟩ := Prod.mk.inj (Option.some.inj (halloc.symm.trans halloc₂))
  exact (hhonours.resolve_left hp).1

theorem align_le_of_honours (hlayout : HonoursLayout layout) (hsize : layout.size ≤ 4096) :
    layout.align ≤ kmemClass layout.size := by
  obtain ⟨s, hsup, hserved, hboot⟩ := supported_classCaches hsize
  obtain ⟨⟨a, b, c⟩, hthree, ha, hb, hc, hdist⟩ := threePointers_classCaches hsize hboot
  dsimp only at ha hb hc hdist
  obtain ⟨s₁, s₂, s₃, halloc₁, halloc₂, halloc₃⟩ := exists_of_threePointers hthree
  have hcalls₁ : calls PageArenas.smallPages 0x2000 0x3000 ⟨s, []⟩
      (List.replicate 1 (.alloc layout)) = some ⟨s₁, [(a, layout)]⟩ := by
    simp [calls, step, halloc₁, if_neg ha]
  have hcalls₂ : calls PageArenas.smallPages 0x2000 0x3000 ⟨s, []⟩
      (List.replicate 2 (.alloc layout)) = some ⟨s₂, [(b, layout), (a, layout)]⟩ := by
    simp [calls, step, List.replicate, halloc₁, halloc₂, if_neg ha, if_neg hb]
  have hda := align_dvd_of_honours 0 hlayout hsup hserved rfl halloc₁ ha
  have hdb := align_dvd_of_honours 1 hlayout hsup hserved hcalls₁ halloc₂ hb
  have hdc := align_dvd_of_honours 2 hlayout hsup hserved hcalls₂ halloc₃ hc
  have hdvd : layout.align ∣ kmemClass layout.size := by
    rcases hdist with hdist | hdist
    · rw [hdist] at hdb
      exact (Nat.dvd_add_right hda).mp hdb
    · rw [hdist] at hdc
      exact (Nat.dvd_add_right hdb).mp hdc
  obtain ⟨j, -, hclass⟩ := kmemClass_pow hsize
  exact Nat.le_of_dvd (hclass ▸ Nat.two_pow_pos j) hdvd

end Boot

/-- **The global allocator honours a layout, whatever the calls before, exactly if** the size is
beyond the classes, so that the result is null, or the alignment is no larger than the class of the
size. -/
theorem honoursLayout_iff (layout : Layout) :
    HonoursLayout layout ↔ 4096 < layout.size ∨ layout.align ≤ kmemClass layout.size := by
  constructor
  · intro hlayout
    rcases Nat.lt_or_ge 4096 layout.size with hlarge | hsize
    · exact .inl hlarge
    · exact .inr (align_le_of_honours hlayout hsize)
  · intro hcond σ A sc kc s cs hsound
    obtain ⟨h, hcalls, hlast⟩ := hsound.of_concat
    obtain ⟨p, s', halloc, hlaid⟩ := hlast.alloc
    exact ⟨h, p, s', hcalls, halloc, honours_of_laid hcond halloc hlaid⟩

/-- 32 bytes, aligned to 64. -/
def cacheLine : Layout := ⟨32, 64, 6, rfl⟩

/-- The second block of 32 bytes is not at a multiple of 64. -/
theorem alloc_misaligned : ∃ s s₁ s₂,
    Sound PageArenas.smallPages 0x2000 0x3000 ⟨s, []⟩ ([.alloc cacheLine] ++ [.alloc cacheLine]) ∧
    alloc PageArenas.smallPages 0x2000 0x3000 s cacheLine = some (0x100000, s₁) ∧
    alloc PageArenas.smallPages 0x2000 0x3000 s₁ cacheLine = some (0x100020, s₂) ∧
    bootKmalloc 0x8000 (classCaches 0) = some s ∧ ¬ Honours 0x3000 s₁ cacheLine 0x100020 := by
  have hptrs : (bootKmalloc 0x8000 (classCaches 0)).bind (threePointers · cacheLine.size) =
      some (0x100000, 0x100020, 0x100040) := by decide +kernel
  obtain ⟨s, hsup, hserved, hboot⟩ := supported_classCaches (by decide : cacheLine.size ≤ 4096)
  have hindex : kmemCacheIndex cacheLine.size = 0 := by decide
  rw [hindex] at hboot
  rw [hboot, Option.bind_some] at hptrs
  obtain ⟨s₁, s₂, -, halloc₁, halloc₂, -⟩ := exists_of_threePointers hptrs
  refine ⟨s, s₁, s₂, hsup.sound (careful_replicate 2 hserved), halloc₁, halloc₂, hboot, ?_⟩
  rintro (hzero | ⟨hdvd, -⟩)
  · cases hzero
  · exact absurd hdvd (by decide)

end KAllocator

end Manticore
