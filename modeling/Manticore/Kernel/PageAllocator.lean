import Manticore.Base.Memory
import Manticore.Kernel.Memory

/-!
# What the kernel relies on from its page allocator

The C side of the kernel sees `page_alloc_small` and `page_free_small` only.  A
`PageAllocator` is a pair of such functions together with the two sets of pages
that explain them: the free ones, and those handed out and not given back.  The
kernel's small page arena is one.
-/

namespace Manticore

def enomem : ℤ := 12

def einval : ℤ := 22

theorem neg_enomem_ne_zero : -enomem ≠ 0 := by decide

theorem neg_einval_ne_zero : -einval ≠ 0 := by decide

/-- A small page, by its address: aligned, not null, inside the address space. -/
structure IsPage (p : ℕ) : Prop where
  dvd : pageSizeSmall ∣ p
  pos : 0 < p
  le : p + pageSizeSmall ≤ 2 ^ 64

theorem IsPage.apart {p q : ℕ} (hp : IsPage p) (hq : IsPage q) (hne : p ≠ q) :
    p + pageSizeSmall ≤ q ∨ q + pageSizeSmall ≤ p := by
  obtain ⟨⟨a, rfl⟩, -, -⟩ := hp
  obtain ⟨⟨b, rfl⟩, -, -⟩ := hq
  simp only [pageSizeSmall] at *
  omega

/-- A small page allocator over states `σ`. `Owns s F O` says that in state `s` the
pages `F` are free and the pages `O` are in use. -/
structure PageAllocator (σ : Type) where
  alloc : σ → ℕ × σ
  free : σ → ℕ → σ
  Owns : σ → Set ℕ → Set ℕ → Prop
  page : ∀ {s F O p}, Owns s F O → p ∈ F ∪ O → IsPage p
  disjoint : ∀ {s F O}, Owns s F O → Disjoint F O
  alloc_null : ∀ {s F O}, Owns s F O → (alloc s).1 = 0 → Owns (alloc s).2 F O
  alloc_page : ∀ {s F O}, Owns s F O → (alloc s).1 ≠ 0 →
    (alloc s).1 ∈ F ∧ Owns (alloc s).2 (F \ {(alloc s).1}) (insert (alloc s).1 O)
  free_page : ∀ {s F O p}, Owns s F O → p ∈ O → Owns (free s p) (insert p F) (O \ {p})

/-- The page allocator's state and the contents of memory. What the allocator keeps in
its free pages is part of its own state, not of `mem`. -/
structure KMem (σ : Type) where
  pages : σ
  mem : Mem

namespace PageArenas

/-- The sets of free and outstanding small pages of the kernel arenas. -/
def Owns (k : PageArenas) (F O : Set ℕ) : Prop :=
  ∃ (registered : Set ℕ) (outstanding : Finset ℕ),
    MemoryArena.History.Inv pageSizeSmall registered ⟨k.small, outstanding⟩ ∧
      F = MemoryArena.freePages pageSizeSmall k.small ∧ O = outstanding

theorem Owns.page {k : PageArenas} {F O : Set ℕ} {p : ℕ} (h : k.Owns F O)
    (hp : p ∈ F ∪ O) : IsPage p := by
  obtain ⟨registered, outstanding, hinv, rfl, rfl⟩ := h
  have hseg := hinv.page p (hinv.union ▸ hp)
  have hlt := hseg.lt
  exact ⟨hseg.dvd_base, Nat.pos_of_ne_zero hseg.base_pos.ne', hlt.le⟩

theorem Owns.alloc {k : PageArenas} {F O : Set ℕ} (h : k.Owns F O) :
    (k.pageAllocSmall.1 = 0 → k.pageAllocSmall.2.Owns F O) ∧
      (k.pageAllocSmall.1 ≠ 0 → k.pageAllocSmall.1 ∈ F ∧
        k.pageAllocSmall.2.Owns (F \ {k.pageAllocSmall.1}) (insert k.pageAllocSmall.1 O)) := by
  obtain ⟨registered, outstanding, hinv, rfl, rfl⟩ := h
  have hstep := hinv.step .alloc trivial
  rcases MemoryArena.alloc_spec hinv.wf with ⟨hzero, -, hsame⟩ | ⟨hne, hleast, hminus⟩
  · refine ⟨fun _ => ?_, fun h => absurd hzero h⟩
    have hstate : k.pageAllocSmall.2.small = k.small := hsame
    exact ⟨registered, outstanding, hstate ▸ hinv, by rw [hstate], rfl⟩
  · refine ⟨fun h => absurd h hne, fun _ => ⟨hleast.1, ?_⟩⟩
    simp only [MemoryArena.History.step, if_neg hne] at hstep
    exact ⟨registered, _, hstep, hminus.symm, by rw [Finset.coe_insert]; rfl⟩

theorem Owns.free {k : PageArenas} {F O : Set ℕ} {p : ℕ} (h : k.Owns F O) (hp : p ∈ O) :
    (k.pageFreeSmall p).Owns (insert p F) (O \ {p}) := by
  obtain ⟨registered, outstanding, hinv, rfl, rfl⟩ := h
  have hstep := hinv.step (.free p) hp
  obtain ⟨-, hfree⟩ := hinv.free_outstanding hp
  exact ⟨registered, _, hstep, hfree.symm, by rw [Finset.coe_erase]⟩

/-- The kernel's page allocator, `page_alloc_small` and `page_free_small`. -/
def smallPages : PageAllocator PageArenas where
  alloc := pageAllocSmall
  free := pageFreeSmall
  Owns := Owns
  page := Owns.page
  disjoint := by
    rintro k F O ⟨registered, outstanding, hinv, rfl, rfl⟩
    exact hinv.disjoint
  alloc_null := fun h => h.alloc.1
  alloc_page := fun h => h.alloc.2
  free_page := Owns.free

theorem owns_of_spans {spans : List MemorySegment} {large : MemoryArena}
    (hpages : ∀ seg ∈ spans, MemoryArena.PageSegment pageSizeSmall seg)
    (hdisj : spans.Pairwise Span.Apart) :
    smallPages.Owns ⟨spans.foldl MemoryArena.addToFreelist MemoryArena.new, large⟩
      {p | pageSizeSmall ∣ p ∧ Span.Covered spans p} ∅ := by
  have hinv := MemoryArena.History.inv_init hpages hdisj
  refine ⟨_, ∅, hinv, ?_, by simp⟩
  have hunion := hinv.union
  simp only [MemoryArena.History.init, Finset.coe_empty, Set.union_empty] at hunion
  exact hunion.symm

/-- Arenas with the small pages of one span. -/
def ofSpan (seg : MemorySegment) : PageArenas :=
  ⟨[seg].foldl MemoryArena.addToFreelist MemoryArena.new, MemoryArena.new⟩

theorem owns_ofSpan {seg : MemorySegment} (h : MemoryArena.PageSegment pageSizeSmall seg) :
    smallPages.Owns (ofSpan seg) {p | pageSizeSmall ∣ p ∧ seg.Contains p} ∅ := by
  have howns : smallPages.Owns (ofSpan seg) {p | pageSizeSmall ∣ p ∧ Span.Covered [seg] p} ∅ :=
    owns_of_spans (fun s hs => List.mem_singleton.mp hs ▸ h) (List.pairwise_singleton _ _)
  simpa using howns

end PageArenas

end Manticore
