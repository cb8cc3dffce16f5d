import Manticore.Kernel.VmTranslation

/-!
# Loading a segment

`populate_from` fills a region page by page from the image of a program.  Every page is copied as
a whole, also where the source has ended before it.
-/

namespace Manticore

namespace VMAddressSpace

variable {σ : Type} (A : KernelPages σ)

/-- What the loop of `populate_from` reads of the source. -/
def populatePagesReads (fuel : ℕ) (r : VMRegion) (start srcStart : ℕ) (offsets : List ℕ)
    (vm : VMAddressSpace) (s : KMem σ) : List Span :=
  (populatePagesTrace A fuel r start srcStart offsets vm s).map fun round =>
    ⟨add64 srcStart round.1, pageSizeSmall⟩

def populateFromReads (fuel : ℕ) (vm : VMAddressSpace) (s : KMem σ)
    (start stop srcStart srcStop : ℕ) : List Span :=
  let size := sub64 stop start
  if size < sub64 srcStop srcStart then []
  else
    match vm.lookup start stop with
    | none => []
    | some r => populatePagesReads A fuel r start srcStart (pageOffsets size) vm s

/-- The process has `page` at `vaddr`. -/
def ShowsPage (m : Mem) (cr3 vaddr page : ℕ) : Prop :=
  ∀ j < pageSizeSmall, ∃ leaf, hwWalk m cr3 (vaddr + j) = some leaf ∧ paddrToPtr leaf.1 = page

/-- **The segment is loaded**: the pages of the region are pages of its own, which have the bytes of
the source and then zeros, and nothing else was read. -/
structure LoadsSegment (m m' : Mem) (cr3 start stop srcStart srcStop : ℕ) (reads : List Span) :
    Prop where
  pages : ∃ page : ℕ → ℕ, ∀ i, 4096 * i < stop - start →
    ShowsPage m' cr3 (start + 4096 * i) (page i) ∧
      ∀ j, 4096 * j < stop - start → page i = page j → i = j
  bytes : ∀ k < srcStop - srcStart, visibleByte m' cr3 (start + k) = some (m (srcStart + k))
  zeros : ∀ k, srcStop - srcStart ≤ k → k < stop - start → visibleByte m' cr3 (start + k) = some 0
  reads : ∀ d ∈ reads, ∀ x, d.Contains x → srcStart ≤ x ∧ x < srcStop

end VMAddressSpace

/-! ## Taking and filling a page -/

section fill

variable {σ : Type} {A : PageAllocator σ} {cr3 : ℕ} {P F O : Set ℕ} {m : Mem} {s s' : KMem σ}

theorem KeepsOut.filled (h : KeepsOut A cr3 P m F O s) (hne : (A.alloc s.pages).1 ≠ 0)
    (src : ℕ → UInt8) : KeepsOut A cr3 P m F O (filled A s src) := by
  obtain ⟨F₁, O₁, hF, hO, hmap⟩ := h.ok
  obtain ⟨hmem, -⟩ := A.alloc_page hmap.owns hne
  refine ⟨h.ok.alloc_memcpy hne src, h.free, fun q t hq => h.tables q t ?_, fun a ha => ?_⟩
  · rw [← tableAt_of_entries (hmap.entry_memcpy hmem src)]
    exact hq
  · rw [← h.same a ha]
    exact memcpy_of_disjoint (h.free _ (hF hmem) a ha)

theorem filled_mem (A : PageAllocator σ) (s : KMem σ) (src : ℕ → UInt8) {j : ℕ}
    (hj : j < pageSizeSmall) : (filled A s src).mem ((A.alloc s.pages).1 + j) = src j := by
  simp only [Manticore.filled, memcpy]
  rw [if_pos (by omega), Nat.add_sub_cancel_left]

theorem MapOk.keepsOut_filled (h : MapOk A cr3 s F O) (hne : (A.alloc s.pages).1 ≠ 0)
    (src : ℕ → UInt8) :
    MapOk A cr3 (Manticore.filled A s src) (F \ {(A.alloc s.pages).1})
        (insert (A.alloc s.pages).1 O) ∧
      KeepsOut A cr3 (bytesOf (A.alloc s.pages).1 pageSizeSmall) (Manticore.filled A s src).mem
        (F \ {(A.alloc s.pages).1}) (insert (A.alloc s.pages).1 O)
        (Manticore.filled A s src) := by
  obtain ⟨hmem, -⟩ := A.alloc_page h.owns hne
  obtain ⟨-, hmap', hkeep⟩ := h.keepsOut_alloc hne
  have hsame := h.entry_memcpy hmem src
  have hok : MapOk A cr3 (Manticore.filled A s src) _ _ := hmap'.of_entries hsame
  refine ⟨hok, hok.within, hkeep.free, fun q t hq => hkeep.tables q t ?_, fun _ _ => rfl⟩
  rw [← tableAt_of_entries hsame]
  exact hq

theorem MapOk.walk_mapped {fuel vaddr page prot flags : ℕ} (h : MapOk A cr3 s F O)
    (hpage : HandedOut page pageSizeSmall)
    (hrun : mmuMapRange A fuel s cr3 vaddr (virtToPhys page) pageSizeSmall prot flags =
      some (0, s')) (hwrap : vaddr + pageSizeSmall + 2 ^ 21 < 2 ^ 64) (hfuel : 1 < fuel) (v : ℕ) :
    (pageIndex vaddr v = 0 → ∃ leaf, hwWalk s'.mem cr3 v = some leaf ∧ paddrToPtr leaf.1 = page) ∧
      (pageIndex vaddr v ≠ 0 → hwWalk s'.mem cr3 v = hwWalk s.mem cr3 v) := by
  have hdvd := dvd_of_mmuMapRange hrun
  have hram := hpage.ram
  have hone : nrPages pageSizeSmall = 1 := rfl
  obtain ⟨ret, s₂, heq, hzero, -⟩ := mmuMapRange_progress prot flags h hdvd
    (show nrPages pageSizeSmall ≤ 2 ^ 36 by decide) hwrap
    (show virtToPhys page + pageSizeSmall + 4096 < 2 ^ 64 by omega) (hone.trans_lt hfuel)
  rw [heq] at hrun
  obtain ⟨hret, rfl⟩ := some_pair_inj hrun
  rw [(hzero hret).walk, hone]
  constructor
  · intro hidx
    rw [if_pos (by omega)]
    refine ⟨_, rfl, ?_⟩
    rw [hpage.ptr_rangeLeaf hdvd (by rw [hidx]; decide), hidx, Nat.mul_zero, Nat.add_zero]
  · intro hidx
    rw [if_neg (by omega)]

end fill

theorem pageIndex_self {a j : ℕ} (ha : 4096 ∣ a) (hj : j < 4096) : pageIndex a (a + j) = 0 := by
  obtain ⟨c, rfl⟩ := ha
  simp only [pageIndex]
  omega

theorem pageIndex_ne_zero {a b j : ℕ} (ha : 4096 ∣ a) (hb : 4096 ∣ b) (hne : a ≠ b)
    (hab : a < b + 2 ^ 48) (hba : b < a + 2 ^ 48) (hj : j < 4096) : pageIndex a (b + j) ≠ 0 := by
  obtain ⟨c, rfl⟩ := ha
  obtain ⟨d, rfl⟩ := hb
  simp only [pageIndex]
  omega

/-! ## The loop -/

namespace VMAddressSpace

variable {σ : Type} {A : KernelPages σ} {fuel start srcStart size n : ℕ} {vm vm' : VMAddressSpace}
  {r : VMRegion} {s s' : KMem σ} {P F O : Set ℕ} {m : Mem} {o : ℕ} {os : List ℕ}

theorem populatePages_cons_ok
    (h : populatePages A fuel r start srcStart (o :: os) vm s = some (.ok (), vm', s')) :
    (A.alloc s.pages).1 ≠ 0 ∧ ∃ vm₁ s₁,
      mapPageAt A fuel vm (filled A.toPageAllocator s fun i => s.mem (add64 srcStart o + i)) r
        (add64 start o) (A.alloc s.pages).1 pageSizeSmall = some (.ok (), vm₁, s₁) ∧
      populatePages A fuel r start srcStart os vm₁ s₁ = some (.ok (), vm', s') := by
  rcases populatePages_cons_cases h with ⟨-, hres, -⟩ | ⟨hne, res₁, vm₁, s₁, hmapped, hrest⟩
  · cases hres
  · rcases hrest with ⟨e, -, hres, -⟩ | ⟨rfl, hrest⟩
    · cases hres
    · exact ⟨hne, vm₁, s₁, hmapped, hrest⟩

theorem populatePagesReads_of_ok
    (h : populatePages A fuel r start srcStart os vm s = some (.ok (), vm', s')) :
    populatePagesReads A fuel r start srcStart os vm s =
      os.map fun o => ⟨add64 srcStart o, pageSizeSmall⟩ := by
  induction os generalizing vm s with
  | nil => rfl
  | cons o os ih =>
      obtain ⟨hne, vm₁, s₁, hmapped, hrest⟩ := populatePages_cons_ok h
      rw [populatePagesReads, populatePagesTrace, List.map_cons, ← ih hrest]
      dsimp only
      rw [if_neg hne]
      unfold filled at hmapped
      rw [hmapped]
      rfl

theorem populatePages_keepsOut
    (h : populatePages A fuel r start srcStart os vm s = some (.ok (), vm', s'))
    (hkeep : KeepsOut A.toPageAllocator vm.mmuMap P m F O s) :
    KeepsOut A.toPageAllocator vm.mmuMap P m F O s' := by
  induction os generalizing vm s with
  | nil =>
      obtain ⟨-, rfl, rfl⟩ := some_triple_inj h
      exact hkeep
  | cons o os ih =>
      obtain ⟨hne, vm₁, s₁, hmapped, hrest⟩ := populatePages_cons_ok h
      obtain ⟨hrun, rfl⟩ := mapPageAt_ok hmapped
      have hnext := ih hrest ((hkeep.filled hne _).mmuMapRange (sub64_lt _ _) hrun)
      exact hnext

theorem populatePages_walk {v : ℕ} (hfuel : 1 < fuel)
    (h : populatePages A fuel r start srcStart os vm s = some (.ok (), vm', s'))
    (hmap : MapOkWithin A.toPageAllocator vm.mmuMap s F O)
    (hos : ∀ o ∈ os, start + o + pageSizeSmall + 2 ^ 21 < 2 ^ 64 ∧ pageIndex (start + o) v ≠ 0) :
    hwWalk s'.mem vm.mmuMap v = hwWalk s.mem vm.mmuMap v := by
  induction os generalizing vm s F O with
  | nil =>
      obtain ⟨-, rfl, rfl⟩ := some_triple_inj h
      rfl
  | cons o os ih =>
      obtain ⟨hne, vm₁, s₁, hmapped, hrest⟩ := populatePages_cons_ok h
      obtain ⟨hrun, rfl⟩ := mapPageAt_ok hmapped
      obtain ⟨hwrap, hidx⟩ := hos o List.mem_cons_self
      have hvaddr : add64 start o = start + o := add64_of_lt (by omega)
      rw [hvaddr] at hrun
      obtain ⟨F₁, O₁, -, -, hok⟩ := hmap
      obtain ⟨hpage, -, -⟩ := hok.keepsOut_alloc hne
      obtain ⟨hfilled, -⟩ := hok.keepsOut_filled hne fun i => s.mem (add64 srcStart o + i)
      obtain ⟨hmem, -⟩ := A.alloc_page hok.owns hne
      have hrest' := ih hrest (hfilled.within.mmuMapRange (sub64_lt _ _) hrun)
        fun o' ho' => hos o' (List.mem_cons_of_mem _ ho')
      calc hwWalk s'.mem vm.mmuMap v = hwWalk s₁.mem vm.mmuMap v := hrest'
        _ = hwWalk (filled A.toPageAllocator s _).mem vm.mmuMap v :=
            (hfilled.walk_mapped hpage hrun hwrap hfuel v).2 hidx
        _ = hwWalk s.mem vm.mmuMap v := hok.hwWalk_of_entries (hok.entry_memcpy hmem _) v

/-- Offsets of different pages of a region. -/
structure PageOffsets (start size : ℕ) (os : List ℕ) : Prop where
  nodup : os.Nodup
  dvd : ∀ o ∈ os, 4096 ∣ o
  lt : ∀ o ∈ os, o + 4096 ≤ size
  size_le : size ≤ 2 ^ 48
  wrap : start + size + 2 ^ 21 < 2 ^ 64

theorem PageOffsets.tail (h : PageOffsets start size (o :: os)) : PageOffsets start size os :=
  ⟨(List.nodup_cons.mp h.nodup).2, fun o' ho' => h.dvd o' (List.mem_cons_of_mem _ ho'),
    fun o' ho' => h.lt o' (List.mem_cons_of_mem _ ho'), h.size_le, h.wrap⟩

theorem populatePages_shows {page : ℕ} (hfuel : 1 < fuel)
    (h : populatePages A fuel r start srcStart os vm s = some (.ok (), vm', s'))
    (hmap : MapOkWithin A.toPageAllocator vm.mmuMap s F O)
    (hos : PageOffsets start size (o :: os)) (hdvd : 4096 ∣ start + o)
    (hshow : ShowsPage s.mem vm.mmuMap (start + o) page) :
    ShowsPage s'.mem vm.mmuMap (start + o) page := by
  intro j hj
  obtain ⟨leaf, hleaf, hptr⟩ := hshow j hj
  have hsize := hos.size_le
  have hwrap := hos.wrap
  have hlt := hos.lt o List.mem_cons_self
  have hlater : ∀ o' ∈ os, start + o' + pageSizeSmall + 2 ^ 21 < 2 ^ 64 ∧
      pageIndex (start + o') (start + o + j) ≠ 0 := by
    intro o' ho'
    have hodvd := hos.dvd o List.mem_cons_self
    have hdvd' := hos.tail.dvd o' ho'
    have hlt' := hos.tail.lt o' ho'
    have hne : o' ≠ o := fun heq => (List.nodup_cons.mp hos.nodup).1 (heq ▸ ho')
    refine ⟨by simp only [pageSizeSmall]; omega, ?_⟩
    exact pageIndex_ne_zero (by omega) hdvd (by omega) (by omega) (by omega) hj
  exact ⟨leaf, (populatePages_walk hfuel h hmap hlater).trans hleaf, hptr⟩

/-- The page shows the source from `o` on. -/
structure LoadedPage (m m' : Mem) (cr3 start srcStart o page : ℕ) : Prop where
  dvd : 4096 ∣ start + o
  shows : ShowsPage m' cr3 (start + o) page
  bytes : ∀ j < pageSizeSmall, m' (page + j) = m (srcStart + o + j)

/-- **The loop loads its pages**: each has a page of its own, taken from the free ones, with the
bytes of the source as they were before. -/
theorem populatePages_loads (hfuel : 1 < fuel)
    (h : populatePages A fuel r start srcStart os vm s = some (.ok (), vm', s'))
    (hos : PageOffsets start size os) (hsrc : srcStart + size ≤ 2 ^ 64)
    (hmap : MapOk A.toPageAllocator vm.mmuMap s F O)
    (hkeep : KeepsOut A.toPageAllocator vm.mmuMap (bytesOf srcStart size) m F O s) :
    ∃ pages : List ℕ, List.Forall₂ (LoadedPage m s'.mem vm.mmuMap start srcStart) os pages ∧
      pages.Nodup ∧ ∀ p ∈ pages, p ∈ F := by
  induction os generalizing vm s F O with
  | nil => exact ⟨[], .nil, List.nodup_nil, fun _ hp => absurd hp List.not_mem_nil⟩
  | cons o os ih =>
      obtain ⟨hne, vm₁, s₁, hmapped, hrest⟩ := populatePages_cons_ok h
      obtain ⟨hrun, rfl⟩ := mapPageAt_ok hmapped
      have hlt := hos.lt o List.mem_cons_self
      have hwrap := hos.wrap
      have hvaddr : add64 start o = start + o := add64_of_lt (by omega)
      have hsrcO : add64 srcStart o = srcStart + o := add64_of_lt (by omega)
      rw [hvaddr, hsrcO] at hrun
      have hvdvd := dvd_of_mmuMapRange hrun
      obtain ⟨hmem, -⟩ := A.alloc_page hmap.owns hne
      obtain ⟨hfilled, hown⟩ := hmap.keepsOut_filled hne fun i => s.mem (srcStart + o + i)
      have hwalk := hfilled.walk_mapped (hmap.keepsOut_alloc hne).1 hrun
        (by simp only [pageSizeSmall]; omega) hfuel
      -- what is left to do starts from the free pages without this one
      have hkeep₁ := ((hkeep.filled hne fun i => s.mem (srcStart + o + i)).of_subset
        Set.sdiff_subset hfilled.within).mmuMapRange (sub64_lt _ _) hrun
      obtain ⟨F₁, O₁, hF₁, -, hmap₁⟩ := hkeep₁.ok
      obtain ⟨pages, hloaded, hdistinct, hfree⟩ := ih hrest hos.tail hmap₁
        (hkeep₁.of_subset hF₁ hmap₁.within)
      have hshow : ShowsPage s₁.mem vm.mmuMap (start + o) (A.alloc s.pages).1 := fun j hj =>
        (hwalk (start + o + j)).1 (pageIndex_self hvdvd hj)
      have hbytes : ∀ j < pageSizeSmall,
          s'.mem ((A.alloc s.pages).1 + j) = m (srcStart + o + j) := by
        intro j hj
        have hsame := (populatePages_keepsOut hrest (hown.mmuMapRange (sub64_lt _ _) hrun)).same
          ((A.alloc s.pages).1 + j) ⟨Nat.le_add_right _ _, by omega⟩
        rw [hsame, filled_mem _ _ _ hj]
        refine hkeep.same _ ⟨by omega, ?_⟩
        simp only [pageSizeSmall] at hj
        omega
      have hshows := populatePages_shows hfuel hrest hmap₁.within hos hvdvd hshow
      refine ⟨(A.alloc s.pages).1 :: pages, .cons ⟨hvdvd, hshows, hbytes⟩ hloaded,
        List.nodup_cons.mpr ⟨fun hin => (hF₁ (hfree _ hin)).2 rfl, hdistinct⟩, ?_⟩
      intro p hp
      rcases List.mem_cons.mp hp with rfl | hp
      · exact hmem
      · exact (hF₁ (hfree p hp)).1

theorem LoadedPage.visibleByte {m' : Mem} {cr3 page : ℕ}
    (h : LoadedPage m m' cr3 start srcStart o page) {j : ℕ} (hj : j < pageSizeSmall) :
    visibleByte m' cr3 (start + o + j) = some (m (srcStart + o + j)) := by
  obtain ⟨leaf, hleaf, hptr⟩ := h.shows j hj
  have hdvd := h.dvd
  have hoff : (start + o + j) % pageSizeSmall = j := by
    simp only [pageSizeSmall] at hj ⊢
    omega
  rw [Manticore.visibleByte, hleaf, Option.map_some, hptr, hoff, h.bytes j hj]

theorem mem_pageOffsets : o ∈ pageOffsets size ↔ 4096 ∣ o ∧ o < size := by
  simp only [pageOffsets, pageSizeSmall, List.mem_map, List.mem_range]
  constructor
  · rintro ⟨i, hi, rfl⟩
    omega
  · rintro ⟨⟨i, rfl⟩, hlt⟩
    exact ⟨i, by omega, by omega⟩

theorem nodup_pageOffsets (size : ℕ) : (pageOffsets size).Nodup := by
  refine List.nodup_range.map fun i j hij => ?_
  simp only [pageSizeSmall] at hij
  omega

theorem pageOffsets_of_dvd (hdvd : 4096 ∣ size) (hsize : size ≤ 2 ^ 48)
    (hwrap : start + size + 2 ^ 21 < 2 ^ 64) : PageOffsets start size (pageOffsets size) := by
  refine ⟨nodup_pageOffsets size, fun o ho => (mem_pageOffsets.mp ho).1, fun o ho => ?_, hsize,
    hwrap⟩
  have := mem_pageOffsets.mp ho
  omega

theorem forall₂_pageOffsets {R : ℕ → ℕ → Prop} {pages : List ℕ}
    (h : List.Forall₂ R (pageOffsets size) pages) (hdvd : 4096 ∣ size) {i : ℕ}
    (hi : 4096 * i < size) : ∃ hi : i < pages.length, R (4096 * i) pages[i] := by
  have hlength := h.length_eq
  have hcount : (pageOffsets size).length = size / 4096 := by
    simp only [pageOffsets, pageSizeSmall, List.length_map, List.length_range]
    omega
  have hi' : i < (pageOffsets size).length := by omega
  have hoff : (pageOffsets size).get ⟨i, hi'⟩ = 4096 * i := by
    simp [pageOffsets, pageSizeSmall, Nat.mul_comm]
  refine ⟨hlength ▸ hi', ?_⟩
  rw [← hoff]
  exact h.get hi' (hlength ▸ hi')

theorem populateFrom_ok {stop srcStop : ℕ} (hle : start ≤ stop) (hstop : stop < 2 ^ 64)
    (hsrc : srcStart ≤ srcStop) (hsrcStop : srcStop < 2 ^ 64)
    (h : populateFrom A fuel vm s start stop srcStart srcStop = some (.ok (), vm', s')) :
    srcStop - srcStart ≤ stop - start ∧ ∃ r,
      populatePages A fuel r start srcStart (pageOffsets (stop - start)) vm s =
        some (.ok (), vm', s') ∧
      populateFromReads A fuel vm s start stop srcStart srcStop =
        populatePagesReads A fuel r start srcStart (pageOffsets (stop - start)) vm s := by
  simp only [populateFrom, populateFromReads, sub64_of_le hle hstop,
    sub64_of_le hsrc hsrcStop] at h ⊢
  by_cases hlt : stop - start < srcStop - srcStart
  · rw [if_pos hlt] at h
    cases h
  · rw [if_neg hlt] at h
    rw [if_neg hlt]
    cases hlook : vm.lookup start stop with
    | none =>
        rw [hlook] at h
        cases h
    | some r =>
        rw [hlook] at h
        exact ⟨Nat.not_lt.mp hlt, r, h, rfl⟩

theorem loadsSegment_of_eq {stop srcStop : ℕ} (hfuel : 1 < fuel) (hdvd : 4096 ∣ stop - start)
    (hle : start ≤ stop) (hsize : stop - start ≤ 2 ^ 48) (hwrap : stop + 2 ^ 21 < 2 ^ 64)
    (hsrc : srcStart ≤ srcStop) (hsrcStop : srcStop < 2 ^ 64)
    (hmap : MapOk A.toPageAllocator vm.mmuMap s F O)
    (hkeep : KeepsOut A.toPageAllocator vm.mmuMap (bytesOf srcStart (srcStop - srcStart)) s.mem
      F O s)
    (hrun : populatePages A fuel r start srcStart (pageOffsets (stop - start)) vm s =
      some (.ok (), vm', s')) (heq : srcStop - srcStart = stop - start) :
    LoadsSegment s.mem s'.mem vm.mmuMap start stop srcStart srcStop
      ((pageOffsets (stop - start)).map fun o => ⟨add64 srcStart o, pageSizeSmall⟩) := by
  rw [heq] at hkeep
  obtain ⟨pages, hloaded, hdistinct, -⟩ := populatePages_loads hfuel hrun
    (pageOffsets_of_dvd hdvd hsize (by omega)) (by omega) hmap hkeep
  have hpage : ∀ i, 4096 * i < stop - start → ∃ hi : i < pages.length,
      LoadedPage s.mem s'.mem vm.mmuMap start srcStart (4096 * i) pages[i] := fun i hi =>
    forall₂_pageOffsets hloaded hdvd hi
  refine ⟨⟨fun i => pages.getD i 0, fun i hi => ?_⟩, fun k hk => ?_, fun k hlo hhi => ?_, ?_⟩
  · obtain ⟨hi', hload⟩ := hpage i hi
    refine ⟨?_, fun j hj hsame => ?_⟩
    · simp only [List.getD_eq_getElem _ _ hi']
      exact hload.shows
    · obtain ⟨hj', -⟩ := hpage j hj
      simp only [List.getD_eq_getElem _ _ hi', List.getD_eq_getElem _ _ hj'] at hsame
      exact (hdistinct.getElem_inj_iff).mp hsame
  · obtain ⟨_, hload⟩ := hpage (k / 4096) (by omega)
    have hbyte := hload.visibleByte (show k % 4096 < pageSizeSmall from Nat.mod_lt k (by decide))
    rw [Nat.add_assoc, Nat.add_assoc, Nat.div_add_mod] at hbyte
    exact hbyte
  · omega
  · intro d hd x hx
    obtain ⟨o, ho, rfl⟩ := List.mem_map.mp hd
    obtain ⟨hodvd, holt⟩ := mem_pageOffsets.mp ho
    rw [add64_of_lt (by omega)] at hx
    have hlo : srcStart + o ≤ x := hx.1
    have hhi : x < srcStart + o + 4096 := hx.2
    omega

/-- **When a segment is loaded.** For every region and every source, a `populate_from` that
returns `Ok` has loaded the segment and nothing else exactly if the source is as long as the
region. -/
theorem populateFrom_loads_iff {stop srcStop : ℕ} (hfuel : 1 < fuel) (hle : start ≤ stop)
    (hdvd : 4096 ∣ stop - start) (hsize : stop - start ≤ 2 ^ 48) (hwrap : stop + 2 ^ 21 < 2 ^ 64)
    (hsrc : srcStart ≤ srcStop) (hsrcStop : srcStop < 2 ^ 64)
    (hmap : MapOk A.toPageAllocator vm.mmuMap s F O)
    (hkeep : KeepsOut A.toPageAllocator vm.mmuMap (bytesOf srcStart (srcStop - srcStart)) s.mem
      F O s)
    (hrun : populateFrom A fuel vm s start stop srcStart srcStop = some (.ok (), vm', s')) :
    LoadsSegment s.mem s'.mem vm.mmuMap start stop srcStart srcStop
        (populateFromReads A fuel vm s start stop srcStart srcStop) ↔
      srcStop - srcStart = stop - start := by
  obtain ⟨hfit, r, hloop, hreads⟩ := populateFrom_ok hle (by omega) hsrc hsrcStop hrun
  rw [hreads, populatePagesReads_of_ok hloop]
  constructor
  · intro hload
    by_contra hne
    -- the page with the first byte behind the source is read as a whole
    have hmem : 4096 * ((srcStop - srcStart) / 4096) ∈ pageOffsets (stop - start) :=
      mem_pageOffsets.mpr ⟨Nat.dvd_mul_right _ _, by omega⟩
    have hbehind := hload.reads _ (List.mem_map_of_mem hmem) srcStop (by
      rw [add64_of_lt (by omega)]
      simp only [Span.Contains, pageSizeSmall]
      omega)
    omega
  · exact loadsSegment_of_eq hfuel hdvd hle hsize hwrap hsrc hsrcStop hmap hkeep hloop

/-- A space with one page at 4 MiB for a segment. -/
def segmentSpace : VMAddressSpace :=
  ((new 0x1000).allocateFixed 0x400000 0x401000 vmProtRw).2

theorem keepsOut_staleByte {p q n : ℕ} (hp : kernelVma + 0x2000 ≤ p)
    (hq : kernelVma + 0x204000 ≤ q) :
    KeepsOut PageArenas.smallPages 0x1000 (bytesOf q n) (staleByte p).mem
      {p | pageSizeSmall ∣ p ∧ Span.Contains ⟨kernelVma + 0x200000, 0x4000⟩ p} ∅ (staleByte p) := by
  have hmap := mapOk_staleByte hp
  refine ⟨hmap.within, ?_, fun i t ht => ?_, fun _ _ => rfl⟩
  · rintro page ⟨⟨c, rfl⟩, -, hlt⟩ a ⟨hlo, -⟩
    simp only [pageSizeSmall, kernelVma] at *
    omega
  · obtain ⟨-, rfl⟩ := tableAt_of_zero (entry_staleByte hp) ht
    rintro a ⟨hlo, -⟩
    simp only [pageSizeSmall, paddrToPtr, add64, kernelVma] at *
    omega

/-- A page of source for a page of memory. -/
theorem populateFrom_loads_page :
    ∃ vm' s', populateFrom PageArenas.kernelPages 600 segmentSpace
        (staleByte (kernelVma + 0x800001)) 0x400000 0x401000 (kernelVma + 0x800000)
        (kernelVma + 0x801000) = some (.ok (), vm', s') ∧
      LoadsSegment (staleByte (kernelVma + 0x800001)).mem s'.mem 0x1000 0x400000 0x401000
        (kernelVma + 0x800000) (kernelVma + 0x801000)
        (populateFromReads PageArenas.kernelPages 600 segmentSpace
          (staleByte (kernelVma + 0x800001)) 0x400000 0x401000 (kernelVma + 0x800000)
          (kernelVma + 0x801000)) := by
  have hrun : (populateFrom PageArenas.kernelPages 600 segmentSpace
      (staleByte (kernelVma + 0x800001)) 0x400000 0x401000 (kernelVma + 0x800000)
      (kernelVma + 0x801000)).map (fun r => decide (r.1.isOk = true)) = some true := by
    decide +kernel
  obtain ⟨⟨res, vm', s'⟩, hrun, hok⟩ := Option.map_eq_some_iff.mp hrun
  cases res with
  | error e => cases hok
  | ok _ =>
      refine ⟨vm', s', hrun, ?_⟩
      have hmap : MapOk PageArenas.kernelPages.toPageAllocator segmentSpace.mmuMap
          (staleByte (kernelVma + 0x800001)) _ _ := mapOk_staleByte (by decide)
      have hfuel : 1 < 600 := by decide
      exact (populateFrom_loads_iff hfuel (by decide) (by decide) (by decide) (by decide) (by decide)
        (by decide) hmap (keepsOut_staleByte (by decide) (by decide)) hrun).mpr (by decide)

/-- **The page is filled behind the source.** A segment of one byte of file and a page of memory:
the process reads the byte that follows the segment in the image. -/
theorem populateFrom_stray_byte :
    ∃ vm' s', populateFrom PageArenas.kernelPages 600 segmentSpace
        (staleByte (kernelVma + 0x800001)) 0x400000 0x401000 (kernelVma + 0x800000)
        (kernelVma + 0x800001) = some (.ok (), vm', s') ∧
      visibleByte s'.mem 0x1000 0x400001 = some 7 ∧
      ¬ LoadsSegment (staleByte (kernelVma + 0x800001)).mem s'.mem 0x1000 0x400000 0x401000
        (kernelVma + 0x800000) (kernelVma + 0x800001)
        (populateFromReads PageArenas.kernelPages 600 segmentSpace
          (staleByte (kernelVma + 0x800001)) 0x400000 0x401000 (kernelVma + 0x800000)
          (kernelVma + 0x800001)) := by
  have hrun : (populateFrom PageArenas.kernelPages 600 segmentSpace
      (staleByte (kernelVma + 0x800001)) 0x400000 0x401000 (kernelVma + 0x800000)
      (kernelVma + 0x800001)).map
        (fun r => (decide (r.1.isOk = true), visibleByte r.2.2.mem 0x1000 0x400001)) =
      some (true, some 7) := by
    decide +kernel
  obtain ⟨⟨res, vm', s'⟩, hrun, hok⟩ := Option.map_eq_some_iff.mp hrun
  obtain ⟨hok, hbyte⟩ := Prod.mk.inj hok
  cases res with
  | error e => cases hok
  | ok _ =>
      refine ⟨vm', s', hrun, hbyte, fun hload => ?_⟩
      have hzero := hload.zeros 1 (by decide) (by decide)
      rw [hbyte] at hzero
      exact absurd hzero (by decide)

end VMAddressSpace

end Manticore
