import Manticore.Kernel.VmspaceAlloc
import Manticore.Mm.MmuFrame

/-!
# Pages as they are handed out

`populate` maps a page as the allocator hands it out.  The page holds no table of the map, and
mapping it does not write to it.
-/

namespace Manticore

/-- The byte that a process sees at `v`. -/
def visibleByte (m : Mem) (cr3 v : ℕ) : Option UInt8 :=
  (hwWalk m cr3 v).map fun leaf => m (paddrToPtr leaf.1 + v % pageSizeSmall)

/-- The addresses of the `n` bytes at `p`. -/
def bytesOf (p n : ℕ) : Set ℕ := {a | p ≤ a ∧ a < p + n}

/-- The next large page is a 2 MiB page of physical memory that holds
neither tables of the map nor free small pages. -/
structure LargePageOk {σ : Type} (A : KernelPages σ) (cr3 : ℕ) (s : KMem σ) (F : Set ℕ) :
    Prop where
  dvd : pageSizeLarge ∣ (A.allocLarge s.pages).1
  le : (A.allocLarge s.pages).1 + pageSizeLarge ≤ 2 ^ 64
  ram : virtToPhys (A.allocLarge s.pages).1 + pageSizeLarge ≤ 2 ^ 52
  free : ∀ p ∈ F, Spares (bytesOf (A.allocLarge s.pages).1 pageSizeLarge) p
  tables : ∀ q t, tableAt s.mem cr3 q = some t →
    Spares (bytesOf (A.allocLarge s.pages).1 pageSizeLarge) (paddrToPtr t)

/-- A page handed out for a region of `size` bytes. -/
structure HandedOut (page size : ℕ) : Prop where
  size_eq : size = pageSizeSmall ∨ size = pageSizeLarge
  dvd : size ∣ page
  le : page + size ≤ 2 ^ 64
  ram : virtToPhys page + size ≤ 2 ^ 52

namespace HandedOut

variable {page size k : ℕ}

theorem phys_dvd (h : HandedOut page size) : size ∣ virtToPhys page := by
  have hle := h.le
  obtain ⟨c, hc⟩ := h.dvd
  rcases h.size_eq with hs | hs <;>
    simp only [hs, pageSizeSmall, pageSizeLarge, virtToPhys, sub64, kernelVma] at * <;> omega

theorem ptr_eq (h : HandedOut page size) (hk : k < size) :
    paddrToPtr (virtToPhys page + 4096 * (k / 4096)) + k % 4096 = page + k := by
  have hle := h.le
  obtain ⟨c, hc⟩ := h.dvd
  rcases h.size_eq with hs | hs <;>
    simp only [hs, pageSizeSmall, pageSizeLarge, virtToPhys, paddrToPtr, add64, sub64,
      kernelVma] at * <;> omega

theorem rangeLeaf_fst (h : HandedOut page size) {vaddr prot flags : ℕ} (hv : 4096 ∣ vaddr)
    (hk : 4096 * k < size) :
    (rangeLeaf vaddr (virtToPhys page) size prot flags k).1 = virtToPhys page + 4096 * k := by
  have hram := h.ram
  obtain ⟨c, hc⟩ := h.phys_dvd
  by_cases hin : InLargeRun vaddr size k
  · -- only a large page at a large page's address gets a large entry
    have hcong : virtToPhys page % 2 ^ 21 = vaddr % 2 ^ 21 := by
      rcases h.size_eq with hs | hs <;>
        simp only [InLargeRun, hs, pageSizeSmall, pageSizeLarge] at * <;> omega
    rw [rangeLeaf_eq hv hcong (by omega)]
  · have htable : IsTable (virtToPhys page + 4096 * k) := by
      refine ⟨?_, by omega⟩
      rcases h.size_eq with hs | hs <;>
        simp only [hs, pageSizeSmall, pageSizeLarge] at * <;> omega
    rw [rangeLeaf, if_neg hin, hwSmallLeaf_makeEntry htable]

end HandedOut

theorem MapOk.keepsOut_alloc {σ : Type} {A : PageAllocator σ} {cr3 : ℕ} {s : KMem σ} {F O : Set ℕ}
    (hmap : MapOk A cr3 s F O) (hne : (A.alloc s.pages).1 ≠ 0) :
    HandedOut (A.alloc s.pages).1 pageSizeSmall ∧
      MapOk A cr3 { s with pages := (A.alloc s.pages).2 } (F \ {(A.alloc s.pages).1})
        (insert (A.alloc s.pages).1 O) ∧
      KeepsOut A cr3 (bytesOf (A.alloc s.pages).1 pageSizeSmall) s.mem
        (F \ {(A.alloc s.pages).1}) (insert (A.alloc s.pages).1 O)
        { s with pages := (A.alloc s.pages).2 } := by
  obtain ⟨hmem, howns⟩ := A.alloc_page hmap.owns hne
  have hpage := A.page hmap.owns (Or.inl hmem)
  have hram := hmap.ram _ hmem
  have hmap' : MapOk A cr3 { s with pages := (A.alloc s.pages).2 } _ _ :=
    ⟨hmap.wf, howns, fun q t ht hin => hmap.unused q t ht hin.1, fun p hp => hmap.ram p hp.1⟩
  refine ⟨⟨Or.inl rfl, hpage.dvd, hpage.le, ?_⟩, hmap', hmap'.within, ?_, ?_, fun _ _ => rfl⟩
  · have htable := (hmap.isTable_page hmem).1.dvd
    obtain ⟨c, hc⟩ := htable
    simp only [ptrToPaddr, pageSizeSmall] at *
    omega
  · rintro p ⟨hp, hpne⟩ a ⟨hlo, hhi⟩
    have hapart := (A.page hmap.owns (Or.inl hp)).apart hpage hpne
    omega
  · rintro q t hq a ⟨hlo, hhi⟩
    have hnot := hmap.unused q t hq
    have hptr : paddrToPtr t ≠ (A.alloc s.pages).1 := fun heq => hnot (heq ▸ hmem)
    obtain ⟨b, hb⟩ := (hmap.wf.isTable hq).ptr_dvd
    obtain ⟨c, hc⟩ := hpage.dvd
    simp only [pageSizeSmall] at *
    omega

namespace VMAddressSpace

variable {σ : Type} {A : KernelPages σ} {fuel size align start page cr3 : ℕ}
  {vm vm' : VMAddressSpace} {s s' s₁ : KMem σ} {F O : Set ℕ}

theorem keepsOut_of_allocPage (hmap : MapOk A.toPageAllocator cr3 s F O)
    (hlarge : (A.allocLarge s.pages).1 ≠ 0 → LargePageOk A cr3 s F)
    (h : allocPage A s size = some (page, s₁)) (hne : page ≠ 0) :
    HandedOut page size ∧ ∃ F' O', F' ⊆ F ∧ MapOk A.toPageAllocator cr3 s₁ F' O' ∧
      KeepsOut A.toPageAllocator cr3 (bytesOf page size) s.mem F' O' s₁ := by
  unfold allocPage at h
  split at h
  · rename_i hsize
    obtain ⟨rfl, rfl⟩ := some_pair_inj h
    rw [hsize]
    have hmap' : MapOk A.toPageAllocator cr3 { s with pages := (A.allocLarge s.pages).2 } F O :=
      ⟨hmap.wf, A.allocLarge_owns hmap.owns, hmap.unused, hmap.ram⟩
    have hlarge := hlarge hne
    exact ⟨⟨Or.inr rfl, hlarge.dvd, hlarge.le, hlarge.ram⟩, F, O, subset_rfl, hmap', hmap'.within,
      hlarge.free, hlarge.tables, fun _ _ => rfl⟩
  · split at h
    · rename_i hsize
      obtain ⟨rfl, rfl⟩ := some_pair_inj h
      rw [hsize]
      obtain ⟨hpage, hmap', hkeep⟩ := hmap.keepsOut_alloc hne
      exact ⟨hpage, _, _, Set.sdiff_subset, hmap', hkeep⟩
    · cases h

/-- Four free pages, and a byte that an earlier owner has left in the page at `p`. -/
def staleByte (p : ℕ) : KMem PageArenas := { fourPages with mem := fun a => if a = p then 7 else 0 }

theorem entry_staleByte {p : ℕ} (hp : kernelVma + 0x2000 ≤ p) (i : Fin 512) :
    entry (staleByte p).mem 0x1000 i = 0 := by
  have hi := i.isLt
  have hcongr : entry (staleByte p).mem 0x1000 i = entry fourPages.mem 0x1000 i := by
    refine load_congr fun x hlo hhi => if_neg ?_
    simp only [entryPtr, paddrToPtr, add64, kernelVma] at *
    omega
  exact hcongr.trans (entry_zero 0x1000 i)

theorem mapOk_staleByte {p : ℕ} (hp : kernelVma + 0x2000 ≤ p) :
    MapOk PageArenas.smallPages 0x1000 (staleByte p)
      {p | pageSizeSmall ∣ p ∧ Span.Contains ⟨kernelVma + 0x200000, 0x4000⟩ p} ∅ :=
  mapOk_fourPages_of_zero (entry_staleByte hp)

end VMAddressSpace

end Manticore
