import Manticore.Base.Word
import Manticore.Base.Memory
import Manticore.Base.Linked
import Manticore.Kernel.PageAllocator

/-!
# Slabs

One slab of `mm/kmem.c`: a page cut into blocks, a header that counts them, and a free
list threaded through the blocks themselves.  The header sits at the end of the page
for small objects and elsewhere for large ones.

Everything is in memory, at the offsets of the C structures.  The `name` of a cache is never
read back; nor is the `slab` field of a `kmem_bufctl`, but it is set.
-/

namespace Manticore

/-! ## Structures in memory -/

def sizeofKmemBufctl : ℕ := 24
def sizeofKmemSlab : ℕ := 40
def sizeofKmemCache : ℕ := 64

def bufctlNext (m : Mem) (bufctl : ℕ) : ℕ := load m bufctl 8
def bufctlAddr (m : Mem) (bufctl : ℕ) : ℕ := load m (bufctl + 8) 8
def bufctlSlab (m : Mem) (bufctl : ℕ) : ℕ := load m (bufctl + 16) 8

def slabCache (m : Mem) (slab : ℕ) : ℕ := load m slab 8
def slabHead (m : Mem) (slab : ℕ) : ℕ := load m (slab + 8) 8
def slabBase (m : Mem) (slab : ℕ) : ℕ := load m (slab + 16) 8
def slabNext (m : Mem) (slab : ℕ) : ℕ := load m (slab + 24) 8
def slabNrFree (m : Mem) (slab : ℕ) : ℕ := load m (slab + 32) 4
def slabCapacity (m : Mem) (slab : ℕ) : ℕ := load m (slab + 36) 4

def cacheBufctl (m : Mem) (cache : ℕ) : ℕ := load m cache 8
def cacheSize (m : Mem) (cache : ℕ) : ℕ := load m (cache + 8) 8
def cacheAlign (m : Mem) (cache : ℕ) : ℕ := load m (cache + 16) 8
def cacheSlab (m : Mem) (cache : ℕ) : ℕ := load m (cache + 24) 8

def kmemObjectToBufctl (m : Mem) (cache obj : ℕ) : ℕ := add64 obj (cacheBufctl m cache)

/-! ## Operations on one slab -/

/-- One round of the loop of `kmem_slab_create`: the block at `offset`. -/
def kmemSlabInitBlock (cache slab base bufferSize slabSize : ℕ) (m : Mem) (offset : ℕ) : Mem :=
  let addr := add64 base offset
  let bufctl := kmemObjectToBufctl m cache addr
  let nextOffset := add64 offset bufferSize
  let next :=
    if add64 nextOffset bufferSize ≤ slabSize then
      kmemObjectToBufctl m cache (add64 base nextOffset)
    else 0
  let m := store m bufctl 8 next
  let m := store m (bufctl + 8) 8 addr
  let m := store m (bufctl + 16) 8 slab
  let m := store m (slab + 36) 4 ((slabCapacity m slab + 1) % 2 ^ 32)
  store m (slab + 32) 4 ((slabNrFree m slab + 1) % 2 ^ 32)

/-- The loop of `kmem_slab_create`. `none` is out of fuel. -/
def kmemSlabInitBlocks (cache slab base bufferSize slabSize : ℕ) : ℕ → Mem → ℕ → Option Mem
  | 0, _, _ => none
  | fuel + 1, m, offset =>
      if add64 offset bufferSize ≤ slabSize then
        kmemSlabInitBlocks cache slab base bufferSize slabSize fuel
          (kmemSlabInitBlock cache slab base bufferSize slabSize m offset)
          (add64 offset bufferSize)
      else some m

/-- The rest of `kmem_slab_create`, once the page and the header are there. -/
def kmemSlabSetup (m : Mem) (cache base slab slabSize : ℕ) : Option Mem :=
  let m := store m slab 8 cache
  let m := store m (slab + 16) 8 base
  let m := store m (slab + 8) 8 (kmemObjectToBufctl m cache base)
  let m := store m (slab + 24) 8 0
  let m := store m (slab + 32) 4 0
  let m := store m (slab + 36) 4 0
  let bufferSize := alignUp (cacheSize m cache) (cacheAlign m cache)
  kmemSlabInitBlocks cache slab base bufferSize slabSize (pageSizeSmall + 1) m 0

/-- `kmem_slab_alloc_object`; `none` is a fault at a null slab. -/
def kmemSlabAllocObject (m : Mem) (slab : ℕ) : Option (ℕ × Mem) :=
  if slab = 0 then none
  else
    let bufctl := slabHead m slab
    if bufctl = 0 then some (0, m)
    else
      let m := store m (slab + 8) 8 (bufctlNext m bufctl)
      let m := store m (slab + 32) 4 ((slabNrFree m slab + (2 ^ 32 - 1)) % 2 ^ 32)
      some (bufctlAddr m bufctl, m)

def kmemSlabIsFull (m : Mem) (slab : ℕ) : Bool := slabNrFree m slab == slabCapacity m slab

/-- `kmem_slab_free_object`; `none` is a fault at a null slab. -/
def kmemSlabFreeObject (m : Mem) (slab obj : ℕ) : Option Mem :=
  if slab = 0 then none
  else
    let bufctl := kmemObjectToBufctl m (slabCache m slab) obj
    let m := store m bufctl 8 (slabHead m slab)
    let m := store m (bufctl + 8) 8 obj
    let m := store m (bufctl + 16) 8 slab
    let m := store m (slab + 8) 8 bufctl
    some (store m (slab + 32) 4 ((slabNrFree m slab + 1) % 2 ^ 32))

/-! ## What a slab is -/

/-- A slab, seen from outside: where its header and its page are, and the free blocks in
the order of the free list. -/
structure SlabView where
  hdr : ℕ
  base : ℕ
  free : List ℕ
deriving DecidableEq, Repr

/-- A cache, seen from outside: its slabs, the head of the chain first, and the objects
in use. -/
structure CacheView where
  addr : ℕ
  size : ℕ
  align : ℕ
  slabs : List SlabView
  live : List ℕ
  /-- The cache that the structure of this one is an object of; `none` if it is static. -/
  home : Option ℕ
deriving DecidableEq, Repr

namespace CacheView

variable (v : CacheView)

/-- Bytes per block. -/
def block : ℕ := alignUp v.size v.align

/-- Where in a block its `kmem_bufctl` is. -/
def off : ℕ := v.block - sizeofKmemBufctl

/-- The header is kept in the slab's page. -/
def InPage : Prop := v.size < pageSizeSmall / 8

instance : Decidable v.InPage := inferInstanceAs (Decidable (_ < _))

/-- Bytes of a page that hold blocks. -/
def usable : ℕ := if v.InPage then pageSizeSmall - sizeofKmemSlab else pageSizeSmall

def capacity : ℕ := v.usable / v.block

/-- The blocks of the page at `base`, in address order. -/
def blocks (base : ℕ) : List ℕ := (List.range v.capacity).map fun i => base + i * v.block

/-- At least one block fits into a page, with room for its `kmem_bufctl`. -/
structure Carved : Prop where
  bufctl : sizeofKmemBufctl ≤ v.block
  block : v.block ≤ v.usable

/-- At least one block fits into a page, with room for the object and for its
`kmem_bufctl`. -/
structure Fits : Prop where
  bufctl : sizeofKmemBufctl ≤ v.block
  size : v.size ≤ v.block
  block : v.block ≤ v.usable

end CacheView

/-- The slab `s` of cache `v`, as it stands in memory. -/
structure SlabOk (m : Mem) (v : CacheView) (s : SlabView) : Prop where
  cache : slabCache m s.hdr = v.addr
  base : slabBase m s.hdr = s.base
  nrFree : slabNrFree m s.hdr = s.free.length
  capacity : slabCapacity m s.hdr = v.capacity
  list : Linked (bufctlNext m) (slabHead m s.hdr) (s.free.map (· + v.off))
  addr : ∀ x ∈ s.free, bufctlAddr m (x + v.off) = x

/-- The header of a slab. -/
def SlabView.header (s : SlabView) : Span := ⟨s.hdr, sizeofKmemSlab⟩

/-- The block at `x`. -/
def CacheView.blockAt (v : CacheView) (x : ℕ) : Span := ⟨x, v.block⟩

variable {m m' : Mem} {v : CacheView} {s : SlabView} {w : List Span} {x obj : ℕ} {xs : List ℕ}

theorem CacheView.Fits.carved (h : v.Fits) : v.Carved := ⟨h.bufctl, h.block⟩

theorem CacheView.Carved.off_add (h : v.Carved) : v.off + sizeofKmemBufctl = v.block :=
  Nat.sub_add_cancel h.bufctl

theorem bufctl_frame (hcarved : v.Carved) (hw : WritesOnly w m m')
    (hx : ∀ d ∈ w, d.Apart (v.blockAt x)) :
    bufctlNext m' (x + v.off) = bufctlNext m (x + v.off) ∧
      bufctlAddr m' (x + v.off) = bufctlAddr m (x + v.off) := by
  have hoff := hcarved.off_add
  simp only [sizeofKmemBufctl] at hoff
  refine ⟨hw.load_eq hx ?_ ?_, hw.load_eq hx ?_ ?_⟩ <;> simp only [CacheView.blockAt] <;> omega

theorem SlabOk.list_frame (h : SlabOk m v s) (hcarved : v.Carved) (hw : WritesOnly w m m')
    {a : ℕ} {l : List ℕ} (hsub : ∀ x ∈ l, x ∈ s.free)
    (hl : Linked (bufctlNext m) a (l.map (· + v.off)))
    (hfree : ∀ x ∈ l, ∀ d ∈ w, d.Apart (v.blockAt x)) :
    Linked (bufctlNext m') a (l.map (· + v.off)) ∧ ∀ x ∈ l, bufctlAddr m' (x + v.off) = x := by
  constructor
  · refine hl.congr ?_
    intro b hb
    obtain ⟨x, hx, rfl⟩ := List.mem_map.mp hb
    exact (bufctl_frame hcarved hw (hfree x hx)).1
  · intro x hx
    rw [(bufctl_frame hcarved hw (hfree x hx)).2, h.addr x (hsub x hx)]

theorem SlabOk.frame (h : SlabOk m v s) (hcarved : v.Carved) (hw : WritesOnly w m m')
    (hhdr : ∀ d ∈ w, d.Apart s.header) (hfree : ∀ x ∈ s.free, ∀ d ∈ w, d.Apart (v.blockAt x)) :
    SlabOk m' v s ∧ slabNext m' s.hdr = slabNext m s.hdr := by
  have hload : ∀ o n, o + n ≤ sizeofKmemSlab → load m' (s.hdr + o) n = load m (s.hdr + o) n :=
    fun o n ho => hw.load_eq hhdr (by simp [SlabView.header]) (by simp [SlabView.header]; omega)
  have hhead : slabHead m' s.hdr = slabHead m s.hdr := hload 8 8 (by decide)
  obtain ⟨hlist, haddr⟩ := h.list_frame hcarved hw (fun _ hx => hx) h.list hfree
  rw [← hhead] at hlist
  refine ⟨⟨?_, ?_, ?_, ?_, hlist, haddr⟩, hload 24 8 (by decide)⟩
  · exact (hload 0 8 (by decide)).trans h.cache
  · exact (hload 16 8 (by decide)).trans h.base
  · exact (hload 32 4 (by decide)).trans h.nrFree
  · exact (hload 36 4 (by decide)).trans h.capacity

/-- **Allocation pops the free list.** -/
theorem kmemSlabAllocObject_spec (h : SlabOk m v s) (hcarved : v.Carved) (hxs : s.free = x :: xs)
    (hhdr : s.hdr ≠ 0) (hlen : s.free.length < 2 ^ 32)
    (hsep : ∀ y ∈ s.free, s.header.Apart (v.blockAt y)) :
    ∃ m', kmemSlabAllocObject m s.hdr = some (x, m') ∧ WritesOnly [s.header] m m' ∧
      SlabOk m' v { s with free := xs } ∧ slabNext m' s.hdr = slabNext m s.hdr := by
  have hlist := h.list
  rw [hxs, List.map_cons] at hlist
  obtain ⟨hhead, hne, htail⟩ := hlist
  set m₁ := store m (s.hdr + 8) 8 (bufctlNext m (x + v.off)) with hm₁
  have hnr₁ : slabNrFree m₁ s.hdr = xs.length + 1 := by
    have : slabNrFree m₁ s.hdr = slabNrFree m s.hdr := load_store_of_disjoint (by omega)
    rw [this, h.nrFree, hxs, List.length_cons]
  set m₂ := store m₁ (s.hdr + 32) 4 ((slabNrFree m₁ s.hdr + (2 ^ 32 - 1)) % 2 ^ 32) with hm₂
  have hw : WritesOnly [s.header] m m₂ :=
    ((WritesOnly.refl _ m).store (List.mem_singleton_self _) (by simp [SlabView.header])
      (by simp [SlabView.header, sizeofKmemSlab])).store (List.mem_singleton_self _)
      (by simp [SlabView.header]) (by simp [SlabView.header, sizeofKmemSlab])
  have hapart : ∀ y ∈ s.free, ∀ d ∈ [s.header], d.Apart (v.blockAt y) := by
    intro y hy d hd
    rw [List.mem_singleton.mp hd]
    exact hsep y hy
  have hkeep : ∀ o n, (o + n ≤ 8 ∨ 16 ≤ o ∧ o + n ≤ 32 ∨ 36 ≤ o) →
      load m₂ (s.hdr + o) n = load m (s.hdr + o) n := by
    intro o n ho
    rw [hm₂, load_store_of_disjoint (by omega), hm₁, load_store_of_disjoint (by omega)]
  have hhead₂ : slabHead m₂ s.hdr = bufctlNext m (x + v.off) := by
    rw [slabHead, hm₂, load_store_of_disjoint (by omega), hm₁]
    exact load_store_same (load_lt m _ 8)
  have hx : x ∈ s.free := hxs ▸ List.mem_cons_self
  obtain ⟨hlist₂, haddr₂⟩ := h.list_frame hcarved hw
    (l := xs) (fun y hy => hxs ▸ List.mem_cons_of_mem _ hy) htail
    (fun y hy => hapart y (hxs ▸ List.mem_cons_of_mem _ hy))
  rw [← hhead₂] at hlist₂
  refine ⟨m₂, ?_, hw, ⟨?_, ?_, ?_, ?_, hlist₂, haddr₂⟩, hkeep 24 8 (by omega)⟩
  · have hobj : bufctlAddr m₂ (x + v.off) = x := by
      rw [(bufctl_frame hcarved hw (hapart x hx)).2, h.addr x hx]
    simp only [kmemSlabAllocObject, if_neg hhdr, hhead, if_neg hne]
    rw [← hm₁, ← hm₂, hobj]
  · exact (hkeep 0 8 (by omega)).trans h.cache
  · exact (hkeep 16 8 (by omega)).trans h.base
  · rw [slabNrFree, hm₂, load_store_same (by omega), hnr₁]
    rw [hxs, List.length_cons] at hlen
    show (xs.length + 1 + (2 ^ 32 - 1)) % 2 ^ 32 = xs.length
    omega
  · exact (hkeep 36 4 (by omega)).trans h.capacity

theorem kmemSlabAllocObject_empty (h : SlabOk m v s) (hfree : s.free = []) (hhdr : s.hdr ≠ 0) :
    kmemSlabAllocObject m s.hdr = some (0, m) := by
  have hhead : slabHead m s.hdr = 0 := by
    have := h.list
    rw [hfree] at this
    exact this
  simp [kmemSlabAllocObject, hhdr, hhead]

/-- **Freeing pushes on the free list.** -/
theorem kmemSlabFreeObject_spec (h : SlabOk m v s) (hcarved : v.Carved) (hhdr : s.hdr ≠ 0)
    (hbufctl : cacheBufctl m v.addr = v.off) (hlen : s.free.length + 1 < 2 ^ 32)
    (hobj : obj ≠ 0) (hlt : obj + v.block ≤ 2 ^ 64)
    (hsep : ∀ y ∈ obj :: s.free, s.header.Apart (v.blockAt y))
    (hdisj : ∀ y ∈ s.free, (v.blockAt obj).Apart (v.blockAt y)) :
    ∃ m', kmemSlabFreeObject m s.hdr obj = some m' ∧
      WritesOnly [s.header, v.blockAt obj] m m' ∧
      SlabOk m' v { s with free := obj :: s.free } ∧ slabNext m' s.hdr = slabNext m s.hdr := by
  have hoff := hcarved.off_add
  have hobjsep := hsep obj List.mem_cons_self
  simp only [sizeofKmemBufctl] at hoff
  simp only [Span.Apart, SlabView.header, CacheView.blockAt, sizeofKmemSlab] at hobjsep
  have hb : kmemObjectToBufctl m (slabCache m s.hdr) obj = obj + v.off := by
    rw [kmemObjectToBufctl, h.cache, hbufctl, add64_of_lt (by omega)]
  set b := obj + v.off with hbdef
  set m₃ := store (store (store m b 8 (slabHead m s.hdr)) (b + 8) 8 obj) (b + 16) 8 s.hdr with hm₃
  set m₄ := store m₃ (s.hdr + 8) 8 b with hm₄
  set m₅ := store m₄ (s.hdr + 32) 4 ((slabNrFree m₄ s.hdr + 1) % 2 ^ 32) with hm₅
  have hw : WritesOnly [s.header, v.blockAt obj] m m₅ := by
    have hblk : v.blockAt obj ∈ [s.header, v.blockAt obj] := by simp
    have hhd : s.header ∈ [s.header, v.blockAt obj] := by simp
    refine WritesOnly.store (WritesOnly.store (WritesOnly.store (WritesOnly.store
      (WritesOnly.store (WritesOnly.refl _ m) hblk ?_ ?_) hblk ?_ ?_) hblk ?_ ?_) hhd ?_ ?_)
      hhd ?_ ?_ <;> simp only [CacheView.blockAt, SlabView.header, sizeofKmemSlab] <;> omega
  -- Header cells other than `head` and `nr_free`.
  have hkeep : ∀ o n, o + n ≤ 40 → (o + n ≤ 8 ∨ 16 ≤ o ∧ o + n ≤ 32 ∨ 36 ≤ o) →
      load m₅ (s.hdr + o) n = load m (s.hdr + o) n := by
    intro o n hin ho
    rw [hm₅, load_store_of_disjoint (by omega), hm₄, load_store_of_disjoint (by omega), hm₃,
      load_store_of_disjoint (by omega), load_store_of_disjoint (by omega),
      load_store_of_disjoint (by omega)]
  have hnr : slabNrFree m₄ s.hdr = s.free.length := by
    rw [← h.nrFree, slabNrFree, slabNrFree, hm₄, load_store_of_disjoint (by omega), hm₃,
      load_store_of_disjoint (by omega), load_store_of_disjoint (by omega),
      load_store_of_disjoint (by omega)]
  have hhead : slabHead m₅ s.hdr = b := by
    rw [slabHead, hm₅, load_store_of_disjoint (by omega), hm₄]
    exact load_store_same (by omega)
  have hnext : bufctlNext m₅ b = slabHead m s.hdr := by
    rw [bufctlNext, hm₅, load_store_of_disjoint (by omega), hm₄, load_store_of_disjoint (by omega),
      hm₃, load_store_of_disjoint (by omega), load_store_of_disjoint (by omega)]
    exact load_store_same (load_lt m _ 8)
  have haddr : bufctlAddr m₅ b = obj := by
    rw [bufctlAddr, hm₅, load_store_of_disjoint (by omega), hm₄, load_store_of_disjoint (by omega),
      hm₃, load_store_of_disjoint (by omega)]
    exact load_store_same (by omega)
  obtain ⟨hlist₅, haddr₅⟩ := h.list_frame hcarved hw (fun _ hy => hy) h.list (by
    intro y hy d hd
    rcases List.mem_cons.mp hd with rfl | hd
    · exact hsep y (List.mem_cons_of_mem _ hy)
    · rw [List.mem_singleton.mp hd]
      exact hdisj y hy)
  refine ⟨m₅, ?_, hw, ⟨?_, ?_, ?_, ?_, ?_, ?_⟩, hkeep 24 8 (by omega) (by omega)⟩
  · simp only [kmemSlabFreeObject, if_neg hhdr, hb]
    rw [← hm₃, ← hm₄, ← hm₅]
  · exact (hkeep 0 8 (by omega) (by omega)).trans h.cache
  · exact (hkeep 16 8 (by omega) (by omega)).trans h.base
  · rw [slabNrFree, hm₅, load_store_same (by omega), hnr]
    show (s.free.length + 1) % 2 ^ 32 = (obj :: s.free).length
    rw [Nat.mod_eq_of_lt hlen, List.length_cons]
  · exact (hkeep 36 4 (by omega) (by omega)).trans h.capacity
  · rw [List.map_cons]
    refine ⟨hhead, by omega, ?_⟩
    rw [← hbdef, hnext]
    exact hlist₅
  · intro y hy
    rcases List.mem_cons.mp hy with rfl | hy
    · exact haddr
    · exact haddr₅ y hy

/-! ## Creating a slab -/

/-- The slab that `kmem_slab_create` makes: all blocks free, in address order. -/
def CacheView.newSlab (v : CacheView) (hdr base : ℕ) : SlabView := ⟨hdr, base, v.blocks base⟩

/-- Where the `kmem_bufctl` of block `i` is. -/
def CacheView.node (v : CacheView) (base i : ℕ) : ℕ := base + i * v.block + v.off

/-- The slab at `hdr` is linked to no other yet, and every `kmem_bufctl` of it names it. -/
structure IsNewSlab (m : Mem) (v : CacheView) (hdr base : ℕ) : Prop where
  next : slabNext m hdr = 0
  nodes : ∀ i < v.capacity, bufctlSlab m (v.node base i) = hdr

/-- Room for a slab: header, page and cache structure do not overlap. -/
structure SlabRoom (v : CacheView) (hdr base : ℕ) : Prop where
  carved : v.Carved
  hdr_ne : hdr ≠ 0
  hdr_lt : hdr < 2 ^ 64
  base_ne : base ≠ 0
  base_le : base + pageSizeSmall ≤ 2 ^ 64
  addr_lt : v.addr < 2 ^ 64
  hdr_page : Span.Apart ⟨hdr, sizeofKmemSlab⟩ ⟨base, v.usable⟩
  cache_hdr : Span.Apart ⟨v.addr, sizeofKmemCache⟩ ⟨hdr, sizeofKmemSlab⟩
  cache_page : Span.Apart ⟨v.addr, sizeofKmemCache⟩ ⟨base, v.usable⟩

theorem CacheView.Carved.capacity_pos (h : v.Carved) : 0 < v.capacity :=
  Nat.div_pos h.block (lt_of_lt_of_le (by decide) h.bufctl)

theorem CacheView.usable_le (v : CacheView) : v.usable ≤ pageSizeSmall := by
  unfold CacheView.usable
  split
  · exact Nat.sub_le _ _
  · exact le_rfl

theorem CacheView.Carved.lt_capacity_iff (h : v.Carved) {i : ℕ} :
    i < v.capacity ↔ (i + 1) * v.block ≤ v.usable :=
  Nat.le_div_iff_mul_le (lt_of_lt_of_le (by decide) h.bufctl)

theorem CacheView.Carved.capacity_le (h : v.Carved) : v.capacity ≤ 170 := by
  have hb := h.bufctl
  have hu := v.usable_le
  simp only [sizeofKmemBufctl, pageSizeSmall] at hb hu
  calc v.capacity ≤ v.usable / 24 := Nat.div_le_div_left hb (by norm_num)
    _ ≤ 170 := by omega

/-- The first `i` blocks of the page are set up. -/
structure Filled (v : CacheView) (hdr page : ℕ) (m₀ m : Mem) (i : ℕ) : Prop where
  cache : slabCache m hdr = v.addr
  base : slabBase m hdr = page
  next : slabNext m hdr = 0
  head : slabHead m hdr = v.node page 0
  nrFree : slabNrFree m hdr = i
  capacity : slabCapacity m hdr = i
  nodes : ∀ j < i, bufctlAddr m (v.node page j) = page + j * v.block ∧
    bufctlNext m (v.node page j) = if j + 1 < v.capacity then v.node page (j + 1) else 0
  slabs : ∀ j < i, bufctlSlab m (v.node page j) = hdr
  writes : WritesOnly [⟨hdr, sizeofKmemSlab⟩, ⟨page, v.usable⟩] m₀ m

variable {hdr page i : ℕ} {m₀ : Mem}

theorem Filled.cache_eq (h : Filled v hdr page m₀ m i) (hroom : SlabRoom v hdr page) {o n : ℕ}
    (ho : o + n ≤ sizeofKmemCache) : load m (v.addr + o) n = load m₀ (v.addr + o) n := by
  refine h.writes.load_eq (d := ⟨v.addr, sizeofKmemCache⟩) ?_ (by simp) (by simp only; omega)
  intro d hd
  rcases List.mem_cons.mp hd with rfl | hd
  · exact hroom.cache_hdr.symm
  · rw [List.mem_singleton.mp hd]
    exact hroom.cache_page.symm

theorem bufctl_stores {m₃ : Mem} {b link addr slab : ℕ}
    (hm₃ : m₃ = store (store (store m b 8 link) (b + 8) 8 addr) (b + 16) 8 slab)
    (hlink : link < 2 ^ 64) (haddr : addr < 2 ^ 64) (hslab : slab < 2 ^ 64) :
    bufctlNext m₃ b = link ∧ bufctlAddr m₃ b = addr ∧ bufctlSlab m₃ b = slab ∧
      ∀ a n, a + n ≤ b ∨ b + 24 ≤ a → load m₃ a n = load m a n := by
  subst hm₃
  refine ⟨?_, ?_, load_store_same hslab, fun a n hout => ?_⟩
  · rw [bufctlNext, load_store_of_disjoint (by omega), load_store_of_disjoint (by omega)]
    exact load_store_same hlink
  · rw [bufctlAddr, load_store_of_disjoint (by omega)]
    exact load_store_same haddr
  · rw [load_store_of_disjoint (by omega), load_store_of_disjoint (by omega),
      load_store_of_disjoint (by omega)]

theorem count_stores {m₄ m₅ : Mem}
    (hm₄ : m₄ = store m (hdr + 36) 4 ((slabCapacity m hdr + 1) % 2 ^ 32))
    (hm₅ : m₅ = store m₄ (hdr + 32) 4 ((slabNrFree m₄ hdr + 1) % 2 ^ 32))
    (hcap : slabCapacity m hdr = i) (hnr : slabNrFree m hdr = i) (hi : i + 1 < 2 ^ 32) :
    slabCapacity m₅ hdr = i + 1 ∧ slabNrFree m₅ hdr = i + 1 ∧
      ∀ a n, a + n ≤ hdr + 32 ∨ hdr + 40 ≤ a → load m₅ a n = load m a n := by
  have hnr₄ : slabNrFree m₄ hdr = i := by
    rw [hm₄]
    exact (load_store_of_disjoint (by omega)).trans hnr
  rw [hcap, Nat.mod_eq_of_lt hi] at hm₄
  rw [hnr₄, Nat.mod_eq_of_lt hi] at hm₅
  subst hm₅ hm₄
  refine ⟨?_, load_store_same (by omega), fun a n hout => ?_⟩
  · rw [slabCapacity, load_store_of_disjoint (by omega)]
    exact load_store_same (by omega)
  · rw [load_store_of_disjoint (by omega), load_store_of_disjoint (by omega)]

theorem Filled.write (h : Filled v hdr page m₀ m i) (hroom : SlabRoom v hdr page)
    (hi : i < v.capacity) {link : ℕ} (hlt : link < 2 ^ 64) :
    let b := page + i * v.block + v.off
    let m₃ := store (store (store m b 8 link) (b + 8) 8 (page + i * v.block)) (b + 16) 8 hdr
    let m₄ := store m₃ (hdr + 36) 4 ((slabCapacity m₃ hdr + 1) % 2 ^ 32)
    let m₅ := store m₄ (hdr + 32) 4 ((slabNrFree m₄ hdr + 1) % 2 ^ 32)
    link = (if i + 1 < v.capacity then v.node page (i + 1) else 0) →
      Filled v hdr page m₀ m₅ (i + 1) := by
  intro b m₃ m₄ m₅
  have hb : b = page + i * v.block + v.off := rfl
  have hm₃ : m₃ = store (store (store m b 8 link) (b + 8) 8 (page + i * v.block)) (b + 16) 8 hdr :=
    rfl
  have hm₄ : m₄ = store m₃ (hdr + 36) 4 ((slabCapacity m₃ hdr + 1) % 2 ^ 32) := rfl
  have hm₅ : m₅ = store m₄ (hdr + 32) 4 ((slabNrFree m₄ hdr + 1) % 2 ^ 32) := rfl
  clear_value m₅ m₄ m₃
  have hoff := hroom.carved.off_add
  have husable := v.usable_le
  have hpage := hroom.base_le
  have hcap := hroom.carved.capacity_le
  have hend := hroom.carved.lt_capacity_iff.mp hi
  have hsep := hroom.hdr_page
  rw [Nat.succ_mul] at hend
  simp only [Span.Apart, sizeofKmemSlab, sizeofKmemBufctl, pageSizeSmall] at *
  have hout : hdr + 40 ≤ b ∨ b + 24 ≤ hdr := by omega
  have hw : WritesOnly [⟨hdr, 40⟩, ⟨page, v.usable⟩] m₀ m₅ := by
    have hblk : (⟨page, v.usable⟩ : Span) ∈ [(⟨hdr, 40⟩ : Span), ⟨page, v.usable⟩] := by simp
    have hhd : (⟨hdr, 40⟩ : Span) ∈ [(⟨hdr, 40⟩ : Span), ⟨page, v.usable⟩] := by simp
    rw [hm₅, hm₄, hm₃]
    refine WritesOnly.store (WritesOnly.store (WritesOnly.store (WritesOnly.store
      (WritesOnly.store h.writes hblk ?_ ?_) hblk ?_ ?_) hblk ?_ ?_) hhd ?_ ?_)
      hhd ?_ ?_ <;> simp only <;> omega
  obtain ⟨hnext₃, haddr₃, hslab₃, hkeep₃⟩ := bufctl_stores hm₃ hlt (by omega) hroom.hdr_lt
  obtain ⟨hcap₅, hnr₅, hkeep₅⟩ := count_stores hm₄ hm₅
    ((hkeep₃ (hdr + 36) 4 (by omega)).trans h.capacity)
    ((hkeep₃ (hdr + 32) 4 (by omega)).trans h.nrFree) (by omega)
  have hkeep : ∀ a n, a + n ≤ b ∨ b + 24 ≤ a → a + n ≤ hdr + 32 ∨ hdr + 40 ≤ a →
      load m₅ a n = load m a n := fun a n h₁ h₂ => (hkeep₅ a n h₂).trans (hkeep₃ a n h₁)
  have haddr : bufctlAddr m₅ b = page + i * v.block :=
    (hkeep₅ (b + 8) 8 (by omega)).trans haddr₃
  have hslab : bufctlSlab m₅ b = hdr := (hkeep₅ (b + 16) 8 (by omega)).trans hslab₃
  have hnext : bufctlNext m₅ b = link := (hkeep₅ b 8 (by omega)).trans hnext₃
  -- An earlier block: none of the five stores touches it.
  have hold : ∀ j < i, ∀ o n, o + n ≤ 24 →
      load m₅ (v.node page j + o) n = load m (v.node page j + o) n := by
    intro j hj o n ho
    have hbelow : j * v.block + v.block ≤ i * v.block := by
      rw [← Nat.succ_mul]
      exact Nat.mul_le_mul_right _ hj
    refine hkeep _ n ?_ ?_ <;>
    · unfold CacheView.node
      omega
  intro hlink
  refine ⟨(hkeep hdr 8 (by omega) (by omega)).trans h.cache,
    (hkeep (hdr + 16) 8 (by omega) (by omega)).trans h.base,
    (hkeep (hdr + 24) 8 (by omega) (by omega)).trans h.next,
    (hkeep (hdr + 8) 8 (by omega) (by omega)).trans h.head, hnr₅, hcap₅, ?_, ?_, hw⟩
  · intro j hj
    rcases Nat.lt_succ_iff_lt_or_eq.mp hj with hlt | rfl
    · obtain ⟨ha, hn⟩ := h.nodes j hlt
      have h0 := hold j hlt 0 8 (by omega)
      rw [Nat.add_zero] at h0
      exact ⟨(hold j hlt 8 8 (by omega)).trans ha, h0.trans hn⟩
    · exact ⟨haddr, hnext.trans hlink⟩
  · intro j hj
    rcases Nat.lt_succ_iff_lt_or_eq.mp hj with hlt | rfl
    · exact (hold j hlt 16 8 (by omega)).trans (h.slabs j hlt)
    · exact hslab

theorem Filled.step (h : Filled v hdr page m₀ m i) (hroom : SlabRoom v hdr page)
    (hbufctl : cacheBufctl m₀ v.addr = v.off) (hi : i < v.capacity) :
    Filled v hdr page m₀
      (kmemSlabInitBlock v.addr hdr page v.block v.usable m (i * v.block)) (i + 1) := by
  have hoff := hroom.carved.off_add
  have husable := v.usable_le
  have hpage := hroom.base_le
  have hend := hroom.carved.lt_capacity_iff.mp hi
  have hnext : i + 1 < v.capacity ↔ i * v.block + v.block + v.block ≤ v.usable := by
    rw [hroom.carved.lt_capacity_iff, show (i + 1 + 1) * v.block =
      i * v.block + v.block + v.block by ring]
  rw [Nat.succ_mul] at hend
  simp only [sizeofKmemBufctl, pageSizeSmall] at hoff husable hpage
  have hnode : ∀ p, p + v.block ≤ v.usable → kmemObjectToBufctl m v.addr (add64 page p) =
      page + p + v.off := by
    intro p hp
    have hb : cacheBufctl m v.addr = v.off :=
      (h.cache_eq hroom (o := 0) (n := 8) (by decide)).trans hbufctl
    rw [kmemObjectToBufctl, hb, add64_of_lt (show page + p < 2 ^ 64 by omega),
      add64_of_lt (by omega)]
  have hlink : (if add64 (add64 (i * v.block) v.block) v.block ≤ v.usable then
      kmemObjectToBufctl m v.addr (add64 page (add64 (i * v.block) v.block)) else 0) =
      if i + 1 < v.capacity then v.node page (i + 1) else 0 := by
    rw [add64_of_lt (show i * v.block + v.block < 2 ^ 64 by omega), add64_of_lt (by omega)]
    by_cases hlast : i + 1 < v.capacity
    · rw [if_pos (hnext.mp hlast), if_pos hlast, hnode _ (hnext.mp hlast), CacheView.node,
        Nat.succ_mul]
    · rw [if_neg (fun hc => hlast (hnext.mpr hc)), if_neg hlast]
  have hlt : (if i + 1 < v.capacity then v.node page (i + 1) else 0) < 2 ^ 64 := by
    split
    · rename_i hlast
      have := hnext.mp hlast
      rw [CacheView.node, Nat.succ_mul]
      omega
    · norm_num
  simp only [kmemSlabInitBlock, hlink, hnode _ hend]
  rw [add64_of_lt (show page + i * v.block < 2 ^ 64 by omega)]
  exact h.write hroom hi hlt rfl

theorem Filled.loop (hroom : SlabRoom v hdr page) (hbufctl : cacheBufctl m₀ v.addr = v.off) :
    ∀ {n i fuel : ℕ} {m : Mem}, Filled v hdr page m₀ m i → i + n = v.capacity → n < fuel →
      ∃ m', kmemSlabInitBlocks v.addr hdr page v.block v.usable fuel m (i * v.block) = some m' ∧
        Filled v hdr page m₀ m' v.capacity
  | n, i, 0, m, _, _, hfuel => absurd hfuel (Nat.not_lt_zero _)
  | n, i, fuel + 1, m, h, hn, hfuel => by
      have hiff := hroom.carved.lt_capacity_iff (i := i)
      have hle : i * v.block ≤ v.usable := by
        have hic : i ≤ v.capacity := by omega
        exact le_trans (Nat.mul_le_mul_right _ hic) (Nat.div_mul_le_self v.usable v.block)
      have hblock := hroom.carved.block
      have husable := v.usable_le
      simp only [pageSizeSmall] at husable
      have hadd : add64 (i * v.block) v.block = (i + 1) * v.block := by
        rw [add64_of_lt (by omega), Nat.succ_mul]
      rw [kmemSlabInitBlocks, hadd]
      by_cases hi : i < v.capacity
      · rw [if_pos (hiff.mp hi)]
        cases n with
        | zero => omega
        | succ n => exact loop hroom hbufctl (n := n) (h.step hroom hbufctl hi) (by omega) (by omega)
      · have hcap : i = v.capacity := by omega
        rw [if_neg (fun hc => hi (hiff.mpr hc))]
        exact ⟨m, rfl, hcap ▸ h⟩

theorem Filled.linked (h : Filled v hdr page m₀ m v.capacity) (hpage : page ≠ 0) :
    ∀ {n i : ℕ}, i + n = v.capacity →
      Linked (bufctlNext m) (if 0 < n then v.node page i else 0)
        ((List.range' i n).map (v.node page))
  | 0, i, _ => by simp [Linked]
  | n + 1, i, hn => by
      rw [List.range'_succ, List.map_cons, if_pos (Nat.succ_pos n)]
      refine ⟨rfl, by unfold CacheView.node; omega, ?_⟩
      have hnext := (h.nodes i (by omega)).2
      have ih := linked h hpage (n := n) (i := i + 1) (by omega)
      have hiff : i + 1 < v.capacity ↔ 0 < n := by omega
      simp only [hiff] at hnext
      rw [hnext]
      exact ih

theorem CacheView.mem_blocks {v : CacheView} : x ∈ v.blocks page ↔
    ∃ i < v.capacity, x = page + i * v.block := by
  simp only [CacheView.blocks, List.mem_map, List.mem_range]
  constructor
  · rintro ⟨i, hi, rfl⟩
    exact ⟨i, hi, rfl⟩
  · rintro ⟨i, hi, rfl⟩
    exact ⟨i, hi, rfl⟩

theorem CacheView.block_in_page (hcarved : v.Carved) {b : ℕ} (hx : x ∈ v.blocks b) :
    b ≤ x ∧ x + v.block ≤ b + v.usable := by
  obtain ⟨i, hi, rfl⟩ := CacheView.mem_blocks.mp hx
  have := hcarved.lt_capacity_iff.mp hi
  rw [Nat.succ_mul] at this
  omega

theorem CacheView.blocks_pairwise (v : CacheView) (b : ℕ) :
    ((v.blocks b).map v.blockAt).Pairwise Span.Apart := by
  rw [CacheView.blocks, List.map_map, List.pairwise_map]
  refine List.Pairwise.imp ?_ List.pairwise_lt_range
  intro i j hij
  left
  simp only [Function.comp, CacheView.blockAt]
  have := Nat.mul_le_mul_right v.block hij
  rw [Nat.succ_mul] at this
  omega

theorem CacheView.Carved.blocks_nodup (h : v.Carved) (b : ℕ) : (v.blocks b).Nodup := by
  have hpairs := v.blocks_pairwise b
  rw [List.pairwise_map] at hpairs
  refine hpairs.imp fun hapart heq => ?_
  have hpos := h.bufctl
  simp only [Span.Apart, CacheView.blockAt, heq, sizeofKmemBufctl] at hapart hpos
  omega

theorem Filled.start {m₂ m₆ : Mem} (hroom : SlabRoom v hdr page)
    (hm₂ : m₂ = store (store m hdr 8 v.addr) (hdr + 16) 8 page)
    (hm₆ : m₆ = store (store (store (store m₂ (hdr + 8) 8 (v.node page 0)) (hdr + 24) 8 0)
      (hdr + 32) 4 0) (hdr + 36) 4 0) : Filled v hdr page m m₆ 0 := by
  have hle := hroom.base_le
  have haddr := hroom.addr_lt
  have hoff := hroom.carved.off_add
  have hblock := hroom.carved.block
  have husable := v.usable_le
  simp only [sizeofKmemBufctl, pageSizeSmall] at *
  have hheadlt : v.node page 0 < 2 ^ 64 := by
    rw [CacheView.node, Nat.zero_mul]
    omega
  have hw : WritesOnly [⟨hdr, sizeofKmemSlab⟩, ⟨page, v.usable⟩] m m₆ := by
    have hhd : (⟨hdr, 40⟩ : Span) ∈ [(⟨hdr, 40⟩ : Span), ⟨page, v.usable⟩] := by simp
    rw [hm₆, hm₂]
    refine WritesOnly.store (WritesOnly.store (WritesOnly.store (WritesOnly.store
      (WritesOnly.store (WritesOnly.store (WritesOnly.refl _ m) hhd ?_ ?_) hhd ?_ ?_) hhd ?_ ?_)
      hhd ?_ ?_) hhd ?_ ?_) hhd ?_ ?_ <;> simp only <;> omega
  refine ⟨?_, ?_, ?_, ?_, ?_, ?_, fun j hj => absurd hj (Nat.not_lt_zero j),
    fun j hj => absurd hj (Nat.not_lt_zero j), hw⟩
  · rw [slabCache, hm₆, load_store_of_disjoint (by omega), load_store_of_disjoint (by omega),
      load_store_of_disjoint (by omega), load_store_of_disjoint (by omega), hm₂,
      load_store_of_disjoint (by omega)]
    exact load_store_same (by omega)
  · rw [slabBase, hm₆, load_store_of_disjoint (by omega), load_store_of_disjoint (by omega),
      load_store_of_disjoint (by omega), load_store_of_disjoint (by omega), hm₂]
    exact load_store_same (by omega)
  · rw [slabNext, hm₆, load_store_of_disjoint (by omega), load_store_of_disjoint (by omega)]
    exact load_store_same (by omega)
  · rw [slabHead, hm₆, load_store_of_disjoint (by omega), load_store_of_disjoint (by omega),
      load_store_of_disjoint (by omega)]
    exact load_store_same hheadlt
  · rw [slabNrFree, hm₆, load_store_of_disjoint (by omega)]
    exact load_store_same (by omega)
  · rw [slabCapacity, hm₆]
    exact load_store_same (by omega)

/-- **A new slab** has all its blocks on the free list, in address order. -/
theorem kmemSlabSetup_spec (hroom : SlabRoom v hdr page) (hbufctl : cacheBufctl m v.addr = v.off)
    (hsize : cacheSize m v.addr = v.size) (halign : cacheAlign m v.addr = v.align) :
    ∃ m', kmemSlabSetup m v.addr page hdr v.usable = some m' ∧
      WritesOnly [⟨hdr, sizeofKmemSlab⟩, ⟨page, v.usable⟩] m m' ∧
      SlabOk m' v (v.newSlab hdr page) ∧ IsNewSlab m' v hdr page := by
  have hsep := hroom.cache_hdr
  have hle := hroom.base_le
  have hoff := hroom.carved.off_add
  have hblock := hroom.carved.block
  have husable := v.usable_le
  simp only [Span.Apart, sizeofKmemCache, sizeofKmemSlab, sizeofKmemBufctl, pageSizeSmall] at *
  obtain ⟨m₂, hm₂⟩ : ∃ m₂, m₂ = store (store m hdr 8 v.addr) (hdr + 16) 8 page := ⟨_, rfl⟩
  have hcell₂ : ∀ o n, o + n ≤ 64 → load m₂ (v.addr + o) n = load m (v.addr + o) n := by
    intro o n ho
    rw [hm₂, load_store_of_disjoint (by omega), load_store_of_disjoint (by omega)]
  have hhead : kmemObjectToBufctl m₂ v.addr page = v.node page 0 := by
    have h0 := hcell₂ 0 8 (by omega)
    rw [Nat.add_zero] at h0
    have hb : cacheBufctl m₂ v.addr = v.off := h0.trans hbufctl
    rw [kmemObjectToBufctl, hb, add64_of_lt (by omega), CacheView.node, Nat.zero_mul, Nat.add_zero]
  obtain ⟨m₆, hm₆⟩ : ∃ m₆, m₆ = store (store (store (store m₂ (hdr + 8) 8 (v.node page 0))
    (hdr + 24) 8 0) (hdr + 32) 4 0) (hdr + 36) 4 0 := ⟨_, rfl⟩
  have hcell₆ : ∀ o n, o + n ≤ 64 → load m₆ (v.addr + o) n = load m (v.addr + o) n := by
    intro o n ho
    rw [hm₆, load_store_of_disjoint (by omega), load_store_of_disjoint (by omega),
      load_store_of_disjoint (by omega), load_store_of_disjoint (by omega), hcell₂ o n ho]
  obtain ⟨m', hloop, hdone⟩ := Filled.loop hroom hbufctl (n := v.capacity)
    (Filled.start hroom hm₂ hm₆) (Nat.zero_add _) (show v.capacity < pageSizeSmall + 1 by
      have := hroom.carved.capacity_le
      simp only [pageSizeSmall]
      omega)
  refine ⟨m', ?_, hdone.writes, ⟨hdone.cache, hdone.base, ?_, hdone.capacity, ?_, ?_⟩,
    ⟨hdone.next, hdone.slabs⟩⟩
  · have hblk : alignUp (cacheSize m₆ v.addr) (cacheAlign m₆ v.addr) = v.block := by
      have hsize₆ : cacheSize m₆ v.addr = v.size := (hcell₆ 8 8 (by omega)).trans hsize
      have halign₆ : cacheAlign m₆ v.addr = v.align := (hcell₆ 16 8 (by omega)).trans halign
      rw [hsize₆, halign₆, CacheView.block]
    rw [Nat.zero_mul] at hloop
    simp only [kmemSlabSetup]
    rw [← hm₂, hhead, ← hm₆, hblk]
    exact hloop
  · rw [CacheView.newSlab, hdone.nrFree]
    simp [CacheView.blocks]
  · have hlink := hdone.linked hroom.base_ne (n := v.capacity) (i := 0) (Nat.zero_add _)
    rw [if_pos hroom.carved.capacity_pos, ← List.range_eq_range'] at hlink
    simp only [CacheView.newSlab, CacheView.blocks, List.map_map]
    rw [hdone.head]
    exact hlink
  · intro x hx
    obtain ⟨i, hi, rfl⟩ := CacheView.mem_blocks.mp hx
    exact (hdone.nodes i hi).1

end Manticore
