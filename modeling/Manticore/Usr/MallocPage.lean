import Manticore.Usr.Malloc

/-!
# The user-space heap: pages

A claimed page is cut into blocks of one size; each block is on the page's free list or
handed out.  The metadata of a segment takes the beginning of its first page.
-/

namespace Manticore

/-! ## Where things are -/

/-- Bytes of metadata at the start of a segment of 32 pages. -/
def metadataSize : ℕ := sizeofMallocSegment + sizeofMallocPage * 32

/-- Where the blocks of page `i` of the segment at `b` start. -/
def pageStart (b i : ℕ) : ℕ := if i = 0 then b + metadataSize else b + i * mallocPageSize

/-- Bytes of page `i` for blocks. -/
def pageBytes (i : ℕ) : ℕ := if i = 0 then mallocPageSize - metadataSize else mallocPageSize

def pageHeader (b i : ℕ) : Span := ⟨segmentPage b i, sizeofMallocPage⟩

def pageData (b i : ℕ) : Span := ⟨pageStart b i, pageBytes i⟩

/-- The blocks of `size` bytes of page `i`, in address order. -/
def pageBlocks (b i size : ℕ) : List ℕ :=
  (List.range (pageBytes i / size)).map fun j => pageStart b i + j * size

/-- A region that `malloc_os_alloc` may return. -/
structure IsSegment (b : ℕ) : Prop where
  dvd : mallocSegmentSize ∣ b
  pos : 0 < b
  le : b + mallocSegmentSize ≤ 2 ^ 64

/-- The whole segment. -/
def segmentSpan (b : ℕ) : Span := ⟨b, mallocSegmentSize⟩

variable {b b' i j size x p : ℕ} {m m' : Mem} {w : List Span} {live fl : List ℕ}

theorem IsSegment.apart (h : IsSegment b) (h' : IsSegment b') (hne : b ≠ b') :
    (segmentSpan b).Apart (segmentSpan b') := by
  obtain ⟨⟨k, rfl⟩, -, -⟩ := h
  obtain ⟨⟨l, rfl⟩, -, -⟩ := h'
  simp only [Span.Apart, segmentSpan, mallocSegmentSize] at *
  omega

theorem pageHeader_bounds (b : ℕ) (hi : i < 32) :
    b + 24 ≤ (pageHeader b i).base ∧
      (pageHeader b i).base + (pageHeader b i).size ≤ b + metadataSize := by
  simp only [pageHeader, segmentPage, metadataSize, sizeofMallocSegment, sizeofMallocPage]
  omega

theorem pageData_bounds (b i : ℕ) :
    b + metadataSize ≤ (pageData b i).base ∧ b + i * mallocPageSize ≤ (pageData b i).base ∧
      (pageData b i).base + (pageData b i).size = b + (i + 1) * mallocPageSize := by
  simp only [pageData, pageStart, pageBytes, metadataSize, sizeofMallocSegment, sizeofMallocPage,
    mallocPageSize]
  split <;> omega

theorem page_apart (hb : IsSegment b) (hb' : IsSegment b') (hi : i < 32) (hj : j < 32)
    (hne : (b, i) ≠ (b', j)) :
    ∀ d ∈ [pageHeader b i, pageData b i], ∀ e ∈ [pageHeader b' j, pageData b' j], d.Apart e := by
  have hh := pageHeader_bounds b hi
  have hh' := pageHeader_bounds b' hj
  have hd := pageData_bounds b i
  have hd' := pageData_bounds b' j
  have hseg : b ≠ b' → b + 0x200000 ≤ b' ∨ b' + 0x200000 ≤ b := hb.apart hb'
  have hpair : ¬ (b = b' ∧ i = j) := fun h => hne (by rw [h.1, h.2])
  simp only [List.mem_cons, List.not_mem_nil, or_false, forall_eq_or_imp, forall_eq, Span.Apart]
  simp only [pageHeader, segmentPage, sizeofMallocPage, sizeofMallocSegment, metadataSize,
    mallocPageSize] at *
  by_cases hbb : b = b'
  · subst hbb
    have hij : i ≠ j := fun h => hpair ⟨rfl, h⟩
    omega
  · have := hseg hbb
    omega

theorem header_apart_data (b j : ℕ) (hi : i < 32) : (pageHeader b i).Apart (pageData b j) := by
  have hh := pageHeader_bounds b hi
  have hd := pageData_bounds b j
  simp only [Span.Apart]
  omega

/-! ## Blocks -/

theorem mem_pageBlocks : x ∈ pageBlocks b i size ↔
    ∃ j < pageBytes i / size, x = pageStart b i + j * size := by
  simp only [pageBlocks, List.mem_map, List.mem_range]
  constructor
  · rintro ⟨j, hj, rfl⟩
    exact ⟨j, hj, rfl⟩
  · rintro ⟨j, hj, rfl⟩
    exact ⟨j, hj, rfl⟩

theorem block_in_data (hx : x ∈ pageBlocks b i size) :
    (pageData b i).base ≤ x ∧ x + size ≤ (pageData b i).base + (pageData b i).size := by
  obtain ⟨j, hj, rfl⟩ := mem_pageBlocks.mp hx
  have hle : (j + 1) * size ≤ pageBytes i :=
    le_trans (Nat.mul_le_mul_right _ hj) (Nat.div_mul_le_self _ _)
  rw [Nat.succ_mul] at hle
  simp only [pageData]
  omega

theorem block_apart {y : ℕ} (hx : x ∈ pageBlocks b i size) (hy : y ∈ pageBlocks b i size)
    (hne : x ≠ y) : x + size ≤ y ∨ y + size ≤ x := by
  obtain ⟨j, -, rfl⟩ := mem_pageBlocks.mp hx
  obtain ⟨k, -, rfl⟩ := mem_pageBlocks.mp hy
  have hjk : j ≠ k := by
    rintro rfl
    exact hne rfl
  rcases Nat.lt_or_gt_of_ne hjk with hlt | hlt
  · have := Nat.mul_le_mul_right size hlt
    rw [Nat.succ_mul] at this
    omega
  · have := Nat.mul_le_mul_right size hlt
    rw [Nat.succ_mul] at this
    omega

theorem pageBlocks_nodup (hsize : 0 < size) : (pageBlocks b i size).Nodup := by
  rw [pageBlocks, List.Nodup, List.pairwise_map]
  refine List.Pairwise.imp ?_ List.pairwise_lt_range
  intro j k hjk heq
  have := Nat.eq_of_mul_eq_mul_right hsize (Nat.add_left_cancel heq)
  omega

theorem length_pageBlocks (b i size : ℕ) : (pageBlocks b i size).length = pageBytes i / size := by
  simp [pageBlocks]

theorem pageBytes_le (i : ℕ) : pageBytes i ≤ 0x10000 := by
  simp only [pageBytes, mallocPageSize]
  split <;> omega

theorem block_aligned (hb : IsSegment b) (hsize : 8 ∣ size) (hx : x ∈ pageBlocks b i size) :
    8 ∣ x := by
  obtain ⟨j, -, rfl⟩ := mem_pageBlocks.mp hx
  have h8 : 8 ∣ b := dvd_trans (by decide) hb.dvd
  refine Nat.dvd_add ?_ (hsize.mul_left j)
  rw [pageStart]
  split
  · exact Nat.dvd_add h8 (by decide)
  · exact Nat.dvd_add h8 ((by decide : 8 ∣ mallocPageSize).mul_left i)

theorem owner_of_block (hb : IsSegment b) (hi : i < 32) (hsize : 0 < size)
    (hx : x ∈ pageBlocks b i size) :
    mallocObjToSegment x = b ∧ mallocObjToPage b x = segmentPage b i := by
  have hin := block_in_data hx
  have hd := pageData_bounds b i
  have hle := hb.le
  obtain ⟨⟨k, rfl⟩, -, -⟩ := hb
  simp only [mallocSegmentSize, mallocPageSize] at *
  refine ⟨?_, ?_⟩
  · simp only [mallocObjToSegment, mallocSegmentSize]
    omega
  · have hidx : sub64 x (0x200000 * k) / mallocPageSize = i := by
      rw [sub64_of_le (by omega) (by omega)]
      simp only [mallocPageSize]
      omega
    rw [mallocObjToPage, hidx]

/-! ## One page -/

/-- Page `i` of the segment at `b` as it stands in memory: claimed for blocks of `size`
bytes, `live` handed out and `fl` on the free list, or not claimed. -/
structure PageOk (m : Mem) (b i : ℕ) (live : List ℕ) (size : ℕ) (fl : List ℕ) : Prop where
  idx : pageIdx m (segmentPage b i) = i
  blockSize : pageBlockSize m (segmentPage b i) = size
  used : pageUsed m (segmentPage b i) = live.length
  list : Linked (blockNext m) (pageFree m (segmentPage b i)) fl
  claimed : size ≠ 0 → 8 ∣ size ∧ size ≤ 1016 ∧
    pageCapacity m (segmentPage b i) = pageBytes i / size ∧
    (fl ++ live).Perm (pageBlocks b i size)
  unclaimed : size = 0 → fl = [] ∧ live = []

namespace PageOk

theorem mem_blocks (h : PageOk m b i live size fl) (hx : x ∈ fl ++ live) :
    x ∈ pageBlocks b i size ∧ 8 ≤ size := by
  by_cases hz : size = 0
  · obtain ⟨rfl, rfl⟩ := h.unclaimed hz
    cases hx
  · obtain ⟨hdvd, -, -, hperm⟩ := h.claimed hz
    exact ⟨hperm.mem_iff.mp hx, Nat.le_of_dvd (Nat.pos_of_ne_zero hz) hdvd⟩

theorem node_in_data (h : PageOk m b i live size fl) (hx : x ∈ fl ++ live) :
    (pageData b i).base ≤ x ∧ x + 8 ≤ (pageData b i).base + (pageData b i).size := by
  obtain ⟨hblk, h8⟩ := h.mem_blocks hx
  have := block_in_data hblk
  omega

theorem length_le (h : PageOk m b i live size fl) : fl.length + live.length ≤ 0x10000 := by
  by_cases hz : size = 0
  · obtain ⟨rfl, rfl⟩ := h.unclaimed hz
    exact Nat.zero_le _
  · obtain ⟨-, -, -, hperm⟩ := h.claimed hz
    have hlen := hperm.length_eq
    rw [List.length_append, length_pageBlocks] at hlen
    rw [hlen]
    exact le_trans (Nat.div_le_self _ _) (pageBytes_le i)

theorem nodup (h : PageOk m b i live size fl) : (fl ++ live).Nodup := by
  by_cases hz : size = 0
  · obtain ⟨rfl, rfl⟩ := h.unclaimed hz
    exact List.nodup_nil
  · obtain ⟨-, -, -, hperm⟩ := h.claimed hz
    exact hperm.nodup_iff.mpr (pageBlocks_nodup (Nat.pos_of_ne_zero hz))

theorem frame (h : PageOk m b i live size fl) (hw : WritesOnly w m m')
    (hhdr : ∀ d ∈ w, d.Apart (pageHeader b i)) (hfree : ∀ x ∈ fl, ∀ d ∈ w, d.Apart ⟨x, 8⟩) :
    PageOk m' b i live size fl := by
  have hload : ∀ o n, o + n ≤ sizeofMallocPage →
      load m' (segmentPage b i + o) n = load m (segmentPage b i + o) n := by
    intro o n ho
    refine hw.load_eq hhdr ?_ ?_ <;> simp only [pageHeader] <;> omega
  have hfirst := hload 0 8 (by decide)
  rw [Nat.add_zero] at hfirst
  have hhead : pageFree m' (segmentPage b i) = pageFree m (segmentPage b i) := hfirst
  have hcap : pageCapacity m' (segmentPage b i) = pageCapacity m (segmentPage b i) :=
    hload 16 8 (by decide)
  have hlist : Linked (blockNext m') (pageFree m' (segmentPage b i)) fl := by
    rw [hhead]
    refine h.list.congr ?_
    intro x hx
    exact hw.load_eq (hfree x hx) le_rfl le_rfl
  refine ⟨(hload 32 1 (by decide)).trans h.idx, (hload 24 8 (by decide)).trans h.blockSize,
    (hload 8 8 (by decide)).trans h.used, hlist, ?_, h.unclaimed⟩
  rw [hcap]
  exact h.claimed

theorem frame_apart (h : PageOk m b i live size fl) (hw : WritesOnly w m m')
    (hd : ∀ d ∈ w, ∀ e ∈ [pageHeader b i, pageData b i], d.Apart e) :
    PageOk m' b i live size fl := by
  refine h.frame hw (fun d hdw => hd d hdw _ (by simp)) ?_
  intro x hx d hdw
  have hin := h.node_in_data (List.mem_append_left _ hx)
  have hapart := hd d hdw (pageData b i) (by simp)
  simp only [Span.Apart] at hapart ⊢
  omega

end PageOk

/-! ## Operations on one page -/

theorem mallocPageAllocObj_spec (h : PageOk m b i live size (x :: fl)) (hi : i < 32) :
    ∃ m', mallocPageAllocObj m (segmentPage b i) = (x, m') ∧ x ≠ 0 ∧
      WritesOnly [pageHeader b i] m m' ∧ PageOk m' b i (x :: live) size fl := by
  obtain ⟨hhead, hne, htail⟩ := h.list
  have hlen := h.length_le
  simp only [List.length_cons] at hlen
  generalize hm₁ : store m (segmentPage b i) 8 (blockNext m x) = m₁
  have hused : pageUsed m₁ (segmentPage b i) = live.length := by
    rw [← hm₁, pageUsed, load_store_of_disjoint (by omega)]
    exact h.used
  generalize hm₂ : store m₁ (segmentPage b i + 8) 8 (live.length + 1) = m₂
  have hw : WritesOnly [pageHeader b i] m m₂ := by
    rw [← hm₂, ← hm₁]
    refine ((WritesOnly.refl _ _).store (s := pageHeader b i) ?_ ?_ ?_).store
      (s := pageHeader b i) ?_ ?_ ?_ <;> simp [pageHeader, sizeofMallocPage]
  have hkeep : ∀ o n, 16 ≤ o →
      load m₂ (segmentPage b i + o) n = load m (segmentPage b i + o) n := by
    intro o n ho
    rw [← hm₂, ← hm₁, load_store_of_disjoint (by omega), load_store_of_disjoint (by omega)]
  have hfree : pageFree m₂ (segmentPage b i) = blockNext m x := by
    rw [← hm₂, pageFree, load_store_of_disjoint (by omega), ← hm₁]
    exact load_store_same (load_lt m x 8)
  have hlist : Linked (blockNext m₂) (pageFree m₂ (segmentPage b i)) fl := by
    rw [hfree]
    refine htail.congr ?_
    intro y hy
    have hin := h.node_in_data (List.mem_append_left _ (List.mem_cons_of_mem _ hy))
    have hapart := header_apart_data b i hi
    refine hw.load_eq (d := pageData b i) ?_ hin.1 hin.2
    intro d hd
    rw [List.mem_singleton.mp hd]
    exact hapart
  have hcap : pageCapacity m₂ (segmentPage b i) = pageCapacity m (segmentPage b i) :=
    hkeep 16 8 le_rfl
  refine ⟨m₂, ?_, hne, hw, ⟨(hkeep 32 1 (by omega)).trans h.idx,
    (hkeep 24 8 (by omega)).trans h.blockSize, ?_, hlist, ?_, ?_⟩⟩
  · rw [mallocPageAllocObj, hhead]
    simp only [ne_eq, hne, not_false_eq_true, if_true, hm₁, hused]
    rw [add64_of_lt (by omega), hm₂]
  · rw [← hm₂, pageUsed, List.length_cons]
    exact load_store_same (by omega)
  · intro hz
    obtain ⟨hdvd, hle, hc, hperm⟩ := h.claimed hz
    exact ⟨hdvd, hle, hcap.trans hc, List.perm_middle.trans hperm⟩
  · intro hz
    exact absurd (h.unclaimed hz).1 (List.cons_ne_nil _ _)

theorem mallocPageAppendObj_spec (h : PageOk m b i live size fl) (hi : i < 32) (hp : p ∈ live)
    (hlt : p < 2 ^ 64) (hne : p ≠ 0) :
    let m₁ := mallocPageAppendObj m (segmentPage b i) p
    let m₂ := store m₁ (segmentPage b i + 8) 8 (sub64 (pageUsed m₁ (segmentPage b i)) 1)
    pageUsed m₁ (segmentPage b i) > 0 ∧ WritesOnly [pageHeader b i, ⟨p, 8⟩] m m₂ ∧
      PageOk m₂ b i (live.erase p) size (p :: fl) := by
  intro m₁ m₂
  have hin := h.node_in_data (List.mem_append_right _ hp)
  have hsep := header_apart_data b i hi
  have hhp : segmentPage b i + 40 ≤ p ∨ p + 8 ≤ segmentPage b i := by
    simp only [Span.Apart, pageHeader, sizeofMallocPage] at hsep
    omega
  have hlen := h.length_le
  have hpos : 0 < live.length := List.length_pos_of_mem hp
  have hused : pageUsed m₁ (segmentPage b i) = live.length := by
    show load (store (store _ _ _ _) _ _ _) _ _ = _
    rw [load_store_of_disjoint (by omega), load_store_of_disjoint (by omega)]
    exact h.used
  have hval : sub64 (pageUsed m₁ (segmentPage b i)) 1 = live.length - 1 := by
    rw [hused, sub64_of_le (by omega) (by omega)]
  have hw : WritesOnly [pageHeader b i, ⟨p, 8⟩] m m₂ := by
    refine (((WritesOnly.refl _ _).store (s := ⟨p, 8⟩) ?_ ?_ ?_).store (s := pageHeader b i)
      ?_ ?_ ?_).store (s := pageHeader b i) ?_ ?_ ?_ <;> simp [pageHeader, sizeofMallocPage]
  have hkeep : ∀ o n, 16 ≤ o → o + n ≤ 40 →
      load m₂ (segmentPage b i + o) n = load m (segmentPage b i + o) n := by
    intro o n ho hn
    show load (store (store (store _ _ _ _) _ _ _) _ _ _) _ _ = _
    rw [load_store_of_disjoint (by omega), load_store_of_disjoint (by omega),
      load_store_of_disjoint (by omega)]
  have hfree : pageFree m₂ (segmentPage b i) = p := by
    show load (store (store (store _ _ _ _) _ _ _) _ _ _) _ _ = _
    rw [load_store_of_disjoint (by omega)]
    exact load_store_same hlt
  have hnext : blockNext m₂ p = pageFree m (segmentPage b i) := by
    show load (store (store (store _ _ _ _) _ _ _) _ _ _) _ _ = _
    rw [load_store_of_disjoint (by omega), load_store_of_disjoint (by omega)]
    exact load_store_same (load_lt m _ 8)
  have hdisj : ∀ y ∈ fl, y ≠ p := by
    rintro y hy rfl
    exact (List.nodup_append.mp h.nodup).2.2 y hy y hp rfl
  have hlist : Linked (blockNext m₂) (pageFree m₂ (segmentPage b i)) (p :: fl) := by
    refine ⟨hfree, hne, ?_⟩
    rw [hnext]
    refine h.list.congr ?_
    intro y hy
    obtain ⟨hyblk, h8⟩ := h.mem_blocks (List.mem_append_left _ hy)
    obtain ⟨hpblk, -⟩ := h.mem_blocks (List.mem_append_right _ hp)
    have hyin := h.node_in_data (List.mem_append_left _ hy)
    have hyp := block_apart hyblk hpblk (hdisj y hy)
    refine hw.load_eq (d := ⟨y, 8⟩) ?_ le_rfl le_rfl
    simp only [List.mem_cons, List.not_mem_nil, or_false, forall_eq_or_imp, forall_eq, Span.Apart,
      pageHeader, sizeofMallocPage] at hsep ⊢
    omega
  have hcap : pageCapacity m₂ (segmentPage b i) = pageCapacity m (segmentPage b i) :=
    hkeep 16 8 le_rfl (by omega)
  refine ⟨by omega, hw, ⟨(hkeep 32 1 (by omega) (by omega)).trans h.idx,
    (hkeep 24 8 (by omega) (by omega)).trans h.blockSize, ?_, hlist, ?_, ?_⟩⟩
  · show load (store _ _ _ _) _ _ = _
    rw [hval, List.length_erase_of_mem hp]
    exact load_store_same (by omega)
  · intro hz
    obtain ⟨hdvd, hle, hc, hperm⟩ := h.claimed hz
    refine ⟨hdvd, hle, hcap.trans hc, List.Perm.trans ?_ hperm⟩
    exact (List.perm_middle.symm.trans (((List.perm_cons_erase hp).symm).append_left fl))
  · intro hz
    obtain ⟨-, rfl⟩ := h.unclaimed hz
    cases hp

/-! ## Claiming a page -/

/-- A page being claimed, with its last `t` blocks on the free list. -/
structure Claiming (m₀ m : Mem) (b i size t : ℕ) : Prop where
  idx : pageIdx m (segmentPage b i) = i
  blockSize : pageBlockSize m (segmentPage b i) = size
  used : pageUsed m (segmentPage b i) = 0
  capacity : pageCapacity m (segmentPage b i) = pageBytes i / size
  list : Linked (blockNext m) (pageFree m (segmentPage b i))
    ((List.range' (pageBytes i / size - t) t).map fun j => pageStart b i + j * size)
  writes : WritesOnly [pageHeader b i, pageData b i] m₀ m

theorem Claiming.step {m₀ : Mem} {t : ℕ} (h : Claiming m₀ m b i size t) (hb : IsSegment b)
    (hi : i < 32) (h8 : 8 ≤ size) (ht : t < pageBytes i / size) :
    Claiming m₀ (mallocPageAppendObj m (segmentPage b i)
      (pageStart b i + (pageCapacity m (segmentPage b i) - t - 1) * size)) b i size (t + 1) := by
  rw [h.capacity]
  generalize hn : pageBytes i / size = n at *
  have hx : pageStart b i + (n - t - 1) * size ∈ pageBlocks b i size :=
    mem_pageBlocks.mpr ⟨n - t - 1, by omega, rfl⟩
  have hin := block_in_data hx
  have hd := pageData_bounds b i
  have hsep := header_apart_data b i hi
  have hle := hb.le
  have hxlt : pageStart b i + (n - t - 1) * size < 256 ^ 8 := by
    simp only [mallocPageSize, mallocSegmentSize] at hd hle
    omega
  have hxne : pageStart b i + (n - t - 1) * size ≠ 0 := by
    have := hb.pos
    omega
  have hlater : ∀ j, n - t ≤ j →
      pageStart b i + (n - t - 1) * size + size ≤ pageStart b i + j * size := by
    intro j hj
    have := Nat.mul_le_mul_right size (show n - t - 1 + 1 ≤ j by omega)
    rw [Nat.succ_mul] at this
    omega
  generalize hxdef : pageStart b i + (n - t - 1) * size = x at *
  have hhx : segmentPage b i + 40 ≤ x ∨ x + 8 ≤ segmentPage b i := by
    simp only [Span.Apart, pageHeader, sizeofMallocPage] at hsep
    omega
  have hkeep : ∀ o k, 8 ≤ o → o + k ≤ 40 →
      load (mallocPageAppendObj m (segmentPage b i) x) (segmentPage b i + o) k =
        load m (segmentPage b i + o) k := by
    intro o k ho hk
    rw [mallocPageAppendObj, load_store_of_disjoint (by omega), load_store_of_disjoint (by omega)]
  have hfree : pageFree (mallocPageAppendObj m (segmentPage b i) x) (segmentPage b i) = x :=
    load_store_same hxlt
  have hnext : blockNext (mallocPageAppendObj m (segmentPage b i) x) x =
      pageFree m (segmentPage b i) := by
    rw [mallocPageAppendObj, blockNext, load_store_of_disjoint (by omega)]
    exact load_store_same (load_lt m _ 8)
  refine ⟨(hkeep 32 1 (by omega) (by omega)).trans h.idx,
    (hkeep 24 8 (by omega) (by omega)).trans h.blockSize,
    (hkeep 8 8 (by omega) (by omega)).trans h.used,
    (hkeep 16 8 (by omega) (by omega)).trans h.capacity, ?_, ?_⟩
  · have hrange : (List.range' (pageBytes i / size - (t + 1)) (t + 1)).map
        (fun j => pageStart b i + j * size) =
        x :: (List.range' (pageBytes i / size - t) t).map fun j => pageStart b i + j * size := by
      have hsucc : n - (t + 1) + 1 = n - t := by omega
      rw [hn, List.range'_succ, List.map_cons, hsucc, ← hxdef, Nat.sub_sub]
    rw [hrange]
    refine ⟨hfree, hxne, ?_⟩
    rw [hnext]
    refine h.list.congr ?_
    intro y hy
    obtain ⟨j, hj, rfl⟩ := List.mem_map.mp hy
    obtain ⟨hlo, hhi⟩ := List.mem_range'_1.mp hj
    rw [hn] at hlo hhi
    have hyx := hlater j hlo
    have hyin := block_in_data (mem_pageBlocks.mpr ⟨j, by omega, rfl⟩ :
      pageStart b i + j * size ∈ pageBlocks b i size)
    have hyhdr : segmentPage b i + 8 ≤ pageStart b i + j * size ∨
        pageStart b i + j * size + 8 ≤ segmentPage b i := by
      simp only [Span.Apart, pageHeader, sizeofMallocPage] at hsep
      omega
    rw [mallocPageAppendObj, blockNext, load_store_of_disjoint hyhdr.symm,
      load_store_of_disjoint (by omega)]
    rfl
  · refine (h.writes.store (s := pageData b i) (by simp) hin.1 (by omega)).store
      (s := pageHeader b i) (by simp) ?_ ?_ <;> simp [pageHeader, sizeofMallocPage]

theorem Claiming.loop {m₀ : Mem} (h : Claiming m₀ m b i size 0) (hb : IsSegment b) (hi : i < 32)
    (h8 : 8 ≤ size) {t : ℕ} (ht : t ≤ pageBytes i / size) :
    Claiming m₀ ((List.range t).foldl (fun m idx => mallocPageAppendObj m (segmentPage b i)
      (pageStart b i + (pageCapacity m (segmentPage b i) - idx - 1) * size)) m) b i size t := by
  induction t with
  | zero => exact h
  | succ t ih =>
      rw [List.range_succ, List.foldl_append, List.foldl_cons, List.foldl_nil]
      exact (ih (by omega)).step hb hi h8 (by omega)

theorem pageObj_eq (hidx : pageIdx m (segmentPage b i) = i) (hnr : segmentNrPages m b = 32) :
    mallocSegmentPageObj m b (segmentPage b i) = pageStart b i ∧
      mallocSegmentPageSize m b (segmentPage b i) = pageBytes i := by
  simp only [mallocSegmentPageObj, mallocSegmentPageSize, hidx, mallocSegmentMetadataSize, hnr,
    pageStart, pageBytes]
  refine ⟨rfl, ?_⟩
  split
  · decide
  · rfl

theorem mallocSegmentClaimPage_spec (h : PageOk m b i [] 0 []) (hb : IsSegment b) (hi : i < 32)
    (hnr : segmentNrPages m b = 32) (hdvd : 8 ∣ size) (hne : size ≠ 0) (hle : size ≤ 1016) :
    ∃ m', mallocSegmentClaimPage m b (segmentPage b i) size = some m' ∧
      WritesOnly [pageHeader b i, pageData b i] m m' ∧
      PageOk m' b i [] size (pageBlocks b i size) := by
  have h8 : 8 ≤ size := Nat.le_of_dvd (Nat.pos_of_ne_zero hne) hdvd
  generalize hm₂ : store (store m (segmentPage b i + 24) 8 size) (segmentPage b i + 8) 8 0 = m₂
  have hidx₂ : pageIdx m₂ (segmentPage b i) = i := by
    rw [← hm₂, pageIdx, load_store_of_disjoint (by omega), load_store_of_disjoint (by omega)]
    exact h.idx
  have hnr₂ : segmentNrPages m₂ b = 32 := by
    have hbound := (pageHeader_bounds b hi).1
    simp only [pageHeader] at hbound
    rw [← hm₂, segmentNrPages, load_store_of_disjoint (by omega), load_store_of_disjoint (by omega)]
    exact hnr
  generalize hm₃ : store m₂ (segmentPage b i + 16) 8 (pageBytes i / size) = m₃
  have hcaplt : pageBytes i / size < 256 ^ 8 :=
    lt_of_le_of_lt (Nat.div_le_self _ _) (lt_of_le_of_lt (pageBytes_le i) (by norm_num))
  have hidx₃ : pageIdx m₃ (segmentPage b i) = i := by
    rw [← hm₃, pageIdx, load_store_of_disjoint (by omega)]
    exact hidx₂
  have hnr₃ : segmentNrPages m₃ b = 32 := by
    have hbound := (pageHeader_bounds b hi).1
    simp only [pageHeader] at hbound
    rw [← hm₃, segmentNrPages, load_store_of_disjoint (by omega)]
    exact hnr₂
  have hcap₃ : pageCapacity m₃ (segmentPage b i) = pageBytes i / size := by
    rw [← hm₃]
    exact load_store_same hcaplt
  have hstart : Claiming m m₃ b i size 0 := by
    refine ⟨hidx₃, ?_, ?_, hcap₃, ?_, ?_⟩
    · rw [← hm₃, pageBlockSize, load_store_of_disjoint (by omega), ← hm₂,
        load_store_of_disjoint (by omega)]
      exact load_store_same (by omega)
    · rw [← hm₃, pageUsed, load_store_of_disjoint (by omega), ← hm₂]
      exact load_store_same (by norm_num)
    · have hfree : pageFree m₃ (segmentPage b i) = 0 := by
        rw [← hm₃, pageFree, load_store_of_disjoint (by omega), ← hm₂,
          load_store_of_disjoint (by omega), load_store_of_disjoint (by omega)]
        exact h.list
      exact hfree
    · rw [← hm₃, ← hm₂]
      refine (((WritesOnly.refl _ _).store (s := pageHeader b i) ?_ ?_ ?_).store
        (s := pageHeader b i) ?_ ?_ ?_).store (s := pageHeader b i) ?_ ?_ ?_ <;>
        simp [pageHeader, sizeofMallocPage]
  have hdone := hstart.loop hb hi h8 le_rfl
  refine ⟨_, ?_, hdone.writes, ⟨hdone.idx, hdone.blockSize, hdone.used, ?_, ?_, ?_⟩⟩
  · rw [mallocSegmentClaimPage, if_neg (not_not.mpr h.blockSize)]
    simp only [hm₂]
    rw [(pageObj_eq hidx₂ hnr₂).2, hm₃, (pageObj_eq hidx₃ hnr₃).1, hcap₃]
  · have hlist := hdone.list
    rw [Nat.sub_self, ← List.range_eq_range'] at hlist
    exact hlist
  · intro _
    refine ⟨hdvd, hle, hdone.capacity, ?_⟩
    rw [List.append_nil]
  · intro hz
    exact absurd hz hne

end Manticore
