import Manticore.Mm.Mmu

/-!
# Mappings that fail

`mmu_map_small_page` and `mmu_map_large_page` link new tables on their way down, and may then
stop: no page for the next table, or a leaf of the other size in the way.  The tables linked so
far stay.  They are empty but for the links among them, so nothing is translated differently.
-/

namespace Manticore

/-- From `m` to `m'` the map has grown: tables and entries stay, except that empty entries lead
to new tables, and the new tables are empty except for further new tables. -/
structure Grows (cr3 : ℕ) (m m' : Mem) : Prop where
  tables : ∀ q t, tableAt m cr3 q = some t → tableAt m' cr3 q = some t
  kept : ∀ q t j, tableAt m cr3 q = some t →
    entry m' t j = entry m t j ∨ entry m t j = 0 ∧ ∃ u, tableAt m' cr3 (j :: q) = some u
  fresh : ∀ q t j, tableAt m' cr3 q = some t → tableAt m cr3 q = none →
    entry m' t j = 0 ∨ ∃ u, tableAt m' cr3 (j :: q) = some u

variable {m m' m'' : Mem} {cr3 t e f : ℕ} {i : Fin 512} {path : List (Fin 512)}

theorem Grows.refl (cr3 : ℕ) (m : Mem) : Grows cr3 m m := by
  constructor
  · intro q t hq
    exact hq
  · intro q t j _
    exact Or.inl rfl
  · intro q t j hq hnone
    rw [hq] at hnone
    cases hnone

theorem Grows.trans (h : Grows cr3 m m') (h' : Grows cr3 m' m'') : Grows cr3 m m'' := by
  constructor
  · intro q t hq
    exact h'.tables q t (h.tables q t hq)
  · intro q t j hq
    rcases h.kept q t j hq with hentry | ⟨hzero, u, hu⟩
    · rcases h'.kept q t j (h.tables q t hq) with hentry' | ⟨hzero, hnew⟩
      · exact Or.inl (hentry'.trans hentry)
      · exact Or.inr ⟨hentry ▸ hzero, hnew⟩
    · exact Or.inr ⟨hzero, u, h'.tables _ _ hu⟩
  · intro q t j hq hnone
    -- the table is new by the first part or by the second
    cases hmid : tableAt m' cr3 q with
    | none => exact h'.fresh q t j hq hmid
    | some t' =>
        obtain rfl : t' = t := Option.some.inj ((h'.tables q t' hmid).symm.trans hq)
        rcases h.fresh q t' j hmid hnone with hzero | ⟨u, hu⟩
        · rcases h'.kept q t' j hmid with hentry | ⟨-, hnew⟩
          · exact Or.inl (hentry.trans hzero)
          · exact Or.inr hnew
        · exact Or.inr ⟨u, h'.tables _ _ hu⟩

theorem Links.grows (h : WellFormed m cr3) (hl : Links m m' cr3 path t i e f) :
    Grows cr3 m m' := by
  have htab := hl.tableAt_eq h
  constructor
  · intro q u hq
    rw [htab, if_neg, hq]
    rintro rfl
    exact absurd (hl.below.symm.trans hq) (by simp)
  · intro q u j hq
    by_cases hlink : q = path ∧ j = i
    · obtain ⟨rfl, rfl⟩ := hlink
      obtain rfl : u = t := Option.some.inj (hq.symm.trans hl.at_path)
      exact Or.inr ⟨hl.zero, f, by rw [htab, if_pos rfl]⟩
    · exact Or.inl (hl.entry_old h hq hlink)
  · intro q u j hq hnone
    rw [htab] at hq
    split at hq
    · obtain rfl := Option.some.inj hq
      exact Or.inl (hl.entry_fresh j)
    · rw [hq] at hnone
      cases hnone

section walk

variable {σ : Type} {A : PageAllocator σ} {s : KMem σ} {F O : Set ℕ}

theorem nextEntry_grows (h : MapOk A cr3 s F O) (hp : tableAt s.mem cr3 path = some t)
    (hd : path.length < 3) (i : Fin 512) (flags : ℕ) :
    Grows cr3 s.mem (nextEntry A s t i (mmuFlagsToHw flags)).2.mem := by
  simp only [nextEntry, entryIsNone, beq_iff_eq]
  by_cases hzero : entry s.mem t i = 0
  · rw [if_pos hzero]
    by_cases hnull : (A.alloc s.pages).1 = 0
    · rw [if_pos hnull]
      exact Grows.refl cr3 s.mem
    · rw [if_neg hnull]
      obtain ⟨hfree, -⟩ := A.alloc_page h.owns hnull
      exact (h.links hp hd hzero hfree flags).grows h.wf
  · rw [if_neg hzero]
    exact Grows.refl cr3 s.mem

theorem pageDirectory_grows (h : MapOk A cr3 s F O) (vaddr flags : ℕ) :
    Grows cr3 s.mem (pageDirectory A s cr3 vaddr (mmuFlagsToHw flags)).2.mem := by
  have hroot : tableAt s.mem cr3 [] = some cr3 := rfl
  have hgrow₁ := nextEntry_grows h hroot (by simp) (pml4Index vaddr) flags
  obtain ⟨hok₁, -, he₁⟩ := nextEntry_spec h hroot (by simp) (pml4Index vaddr) flags
  simp only [pageDirectory]
  generalize nextEntry A s cr3 (pml4Index vaddr) (mmuFlagsToHw flags) = r₁ at *
  obtain ⟨_ | pml4e, s₁⟩ := r₁
  · exact hgrow₁
  obtain ⟨F₁, O₁, -, -, hmap₁⟩ := hok₁
  obtain ⟨hne₁, hentry₁⟩ := he₁ pml4e rfl
  have hpdpt : tableAt s₁.mem cr3 [pml4Index vaddr] = some (entryPaddr pml4e) := by
    have hsmall := hmap₁.wf.large [] cr3 (pml4Index vaddr) rfl (by simp)
    rw [tableAt_cons_some rfl (by simp) (by rw [hentry₁]; exact hne₁) hsmall, hentry₁]
  have hgrow₂ := nextEntry_grows hmap₁ hpdpt (by simp) (pdptIndex vaddr) flags
  simp only
  generalize nextEntry A s₁ (entryPaddr pml4e) (pdptIndex vaddr) (mmuFlagsToHw flags) = r₂ at *
  obtain ⟨_ | pdpte, s₂⟩ := r₂
  · exact hgrow₁.trans hgrow₂
  · exact hgrow₁.trans hgrow₂

theorem mmuMapSmallPage_grows (h : MapOk A cr3 s F O) (vaddr paddr prot flags : ℕ)
    (hfail : (mmuMapSmallPage A s cr3 vaddr paddr prot flags).1 ≠ 0) :
    Grows cr3 s.mem (mmuMapSmallPage A s cr3 vaddr paddr prot flags).2.mem := by
  have hgrow₁ := pageDirectory_grows h vaddr flags
  obtain ⟨hok₁, -, hpd₁⟩ := pageDirectory_spec h vaddr flags
  simp only [mmuMapSmallPage] at hfail ⊢
  generalize pageDirectory A s cr3 vaddr (mmuFlagsToHw flags) = r₁ at *
  obtain ⟨_ | pd, s₁⟩ := r₁
  · exact hgrow₁
  obtain ⟨F₁, O₁, -, -, hmap₁⟩ := hok₁
  have hgrow₂ := nextEntry_grows hmap₁ (hpd₁ pd rfl) (by simp [pdPath]) (pdIndex vaddr) flags
  simp only at hfail ⊢
  generalize nextEntry A s₁ pd (pdIndex vaddr) (mmuFlagsToHw flags) = r₂ at *
  obtain ⟨_ | pde, s₂⟩ := r₂
  · exact hgrow₁.trans hgrow₂
  simp only at hfail ⊢
  cases hlarge : pdeIsLarge pde with
  | true =>
      rw [if_pos rfl]
      exact hgrow₁.trans hgrow₂
  | false =>
      rw [hlarge, if_neg Bool.false_ne_true] at hfail
      exact absurd rfl hfail

theorem mmuMapLargePage_grows (h : MapOk A cr3 s F O) (vaddr paddr prot flags : ℕ)
    (hfail : (mmuMapLargePage A s cr3 vaddr paddr prot flags).1 ≠ 0) :
    Grows cr3 s.mem (mmuMapLargePage A s cr3 vaddr paddr prot flags).2.mem := by
  have hgrow₁ := pageDirectory_grows h vaddr flags
  simp only [mmuMapLargePage] at hfail ⊢
  generalize pageDirectory A s cr3 vaddr (mmuFlagsToHw flags) = r₁ at *
  obtain ⟨_ | pd, s₁⟩ := r₁
  · exact hgrow₁
  simp only at hfail ⊢
  split
  · exact hgrow₁
  · rename_i hold
    rw [if_neg hold] at hfail
    exact absurd rfl hfail

end walk

/-- A call of `mmu_map_small_page` or `mmu_map_large_page`. -/
structure MapCall where
  large : Bool
  vaddr : ℕ
  paddr : ℕ
  prot : ℕ
  flags : ℕ

/-- What the call returns, and the memory after it. -/
def MapCall.run {σ : Type} (A : PageAllocator σ) (s : KMem σ) (cr3 : ℕ) (call : MapCall) :
    ℤ × KMem σ :=
  if call.large then mmuMapLargePage A s cr3 call.vaddr call.paddr call.prot call.flags
  else mmuMapSmallPage A s cr3 call.vaddr call.paddr call.prot call.flags

/-- **A mapping that fails** changes no translation and leaves the map well-formed.  Each table
it has linked is reached by one path, and is empty but for entries that lead to tables which
this call has linked as well. -/
theorem mmu_map_page_failed {σ : Type} (A : PageAllocator σ) {s : KMem σ} {cr3 : ℕ}
    {F O : Set ℕ} (h : MapOk A cr3 s F O) (call : MapCall) (hpaddr : call.paddr < 2 ^ 64)
    (hfail : (call.run A s cr3).1 = -enomem ∨ (call.run A s cr3).1 = -einval) :
    (∀ v, hwWalk (call.run A s cr3).2.mem cr3 v = hwWalk s.mem cr3 v) ∧
      WellFormed (call.run A s cr3).2.mem cr3 ∧
      ∀ q t, tableAt (call.run A s cr3).2.mem cr3 q = some t → tableAt s.mem cr3 q = none →
        (∀ q', tableAt (call.run A s cr3).2.mem cr3 q' = some t → q' = q) ∧
        ∀ j, entry (call.run A s cr3).2.mem t j = 0 ∨
          ∃ u, tableAt (call.run A s cr3).2.mem cr3 (j :: q) = some u ∧
            tableAt s.mem cr3 (j :: q) = none := by
  have hne : (call.run A s cr3).1 ≠ 0 := by
    rcases hfail with heq | heq
    · exact heq ▸ neg_enomem_ne_zero
    · exact heq ▸ neg_einval_ne_zero
  obtain ⟨hwalk, ⟨F', O', -, -, hok⟩, hgrow⟩ :
      (∀ v, hwWalk (call.run A s cr3).2.mem cr3 v = hwWalk s.mem cr3 v) ∧
        MapOkWithin A cr3 (call.run A s cr3).2 F O ∧
        Grows cr3 s.mem (call.run A s cr3).2.mem := by
    unfold MapCall.run at hne ⊢
    cases hlarge : call.large with
    | true =>
        rw [hlarge, if_pos rfl] at hne
        rw [if_pos rfl]
        obtain ⟨hok, -, hwalk⟩ :=
          mmuMapLargePage_spec h call.vaddr hpaddr call.prot call.flags
        exact ⟨hwalk hne, hok, mmuMapLargePage_grows h _ _ _ _ hne⟩
    | false =>
        rw [hlarge, if_neg Bool.false_ne_true] at hne
        rw [if_neg Bool.false_ne_true]
        obtain ⟨hok, -, hwalk⟩ :=
          mmuMapSmallPage_spec h call.vaddr hpaddr call.prot call.flags
        exact ⟨hwalk hne, hok, mmuMapSmallPage_grows h _ _ _ _ hne⟩
  refine ⟨hwalk, hok.wf, fun q t hq hnew => ⟨fun q' hq' => hok.wf.path_eq hq hq', fun j => ?_⟩⟩
  rcases hgrow.fresh q t j hq hnew with hzero | ⟨u, hu⟩
  · exact Or.inl hzero
  · exact Or.inr ⟨u, hu, tableAt_cons_none hnew⟩

/-- One free page at 2 MiB, and otherwise zeroed memory. -/
def onePage : KMem PageArenas where
  pages := PageArenas.ofSpan ⟨kernelVma + 0x200000, 0x1000⟩
  mem := fun _ => 0

theorem mapOk_onePage : MapOk PageArenas.smallPages 0x1000 onePage
    {p | pageSizeSmall ∣ p ∧ Span.Contains ⟨kernelVma + 0x200000, 0x1000⟩ p} ∅ :=
  mapOk_of_zero (by decide)
    (PageArenas.owns_ofSpan ⟨by decide, by decide, by decide, by decide, by decide⟩)
    (entry_zero 0x1000)

/-- The page becomes a PDPT, and there is none left for the page directory. -/
theorem mmu_map_page_failed_second_level :
    let after := (MapCall.mk false 0x400000 0x5000 3 1).run PageArenas.smallPages onePage 0x1000
    after.1 = -enomem ∧ tableAt after.2.mem 0x1000 [0] = some 0x200000 ∧
      (∀ v, hwWalk after.2.mem 0x1000 v = hwWalk onePage.mem 0x1000 v) ∧
      WellFormed after.2.mem 0x1000 := by
  have hfail : ((MapCall.mk false 0x400000 0x5000 3 1).run PageArenas.smallPages onePage
      0x1000).1 = -enomem := by decide +kernel
  obtain ⟨hwalk, hwf, -⟩ := mmu_map_page_failed PageArenas.smallPages mapOk_onePage
    ⟨false, 0x400000, 0x5000, 3, 1⟩ (by decide) (Or.inl hfail)
  exact ⟨hfail, by decide +kernel, hwalk, hwf⟩

end Manticore
