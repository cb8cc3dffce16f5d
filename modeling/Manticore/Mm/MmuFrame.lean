import Manticore.Mm.Mmu

/-!
# What mapping does not touch

The mapping functions write to the tables of their map and to pages they take from the
allocator.  Bytes that are in neither stay as they are: the contents of pages in use, and
the tables of other maps.
-/

namespace Manticore

variable {σ : Type} {A : PageAllocator σ}

/-- No byte of `P` is in the page at `p`. -/
def Spares (P : Set ℕ) (p : ℕ) : Prop := ∀ a ∈ P, a < p ∨ p + pageSizeSmall ≤ a

/-- The map at `cr3` is fine, its tables and the free pages have no byte of `P`, and `P`
is as in `m`. -/
structure KeepsOut (A : PageAllocator σ) (cr3 : ℕ) (P : Set ℕ) (m : Mem) (F O : Set ℕ)
    (s : KMem σ) : Prop where
  ok : MapOkWithin A cr3 s F O
  free : ∀ p ∈ F, Spares P p
  tables : ∀ q t, tableAt s.mem cr3 q = some t → Spares P (paddrToPtr t)
  same : ∀ a ∈ P, s.mem a = m a

namespace KeepsOut

variable {cr3 : ℕ} {P F O : Set ℕ} {m : Mem} {s s' : KMem σ}

theorem of_subset {F' O' : Set ℕ} (h : KeepsOut A cr3 P m F O s) (hF : F' ⊆ F)
    (hok : MapOkWithin A cr3 s F' O') : KeepsOut A cr3 P m F' O' s :=
  ⟨hok, fun p hp => h.free p (hF hp), h.tables, h.same⟩

theorem store_entry {t e a : ℕ} {i : Fin 512} (h : Spares P (paddrToPtr t)) (ha : a ∈ P)
    (mem : Mem) : store mem (entryPtr t i) 8 e a = mem a := by
  apply store_of_disjoint
  have hi := i.isLt
  have hout := h a ha
  simp only [entryPtr, pageSizeSmall] at *
  omega

theorem nextEntry (h : KeepsOut A cr3 P m F O s) {path : List (Fin 512)} {t : ℕ}
    (hp : tableAt s.mem cr3 path = some t) (hd : path.length < 3) (i : Fin 512) (flags : ℕ) :
    KeepsOut A cr3 P m F O (nextEntry A s t i (mmuFlagsToHw flags)).2 := by
  obtain ⟨F₁, O₁, hF, hO, hmap⟩ := h.ok
  have hok := (nextEntry_spec hmap hp hd i flags).1.mono hF hO
  refine ⟨hok, h.free, ?_, ?_⟩ <;> clear hok <;>
    simp only [Manticore.nextEntry, entryIsNone, beq_iff_eq] <;>
    by_cases hzero : entry s.mem t i = 0
  · rw [if_pos hzero]
    by_cases hnull : (A.alloc s.pages).1 = 0
    · rw [if_pos hnull]
      exact h.tables
    · rw [if_neg hnull]
      obtain ⟨hfree, -⟩ := A.alloc_page hmap.owns hnull
      intro q u hq
      rw [(hmap.links hp hd hzero hfree flags).tableAt_eq hmap.wf] at hq
      split at hq
      · obtain rfl := Option.some.inj hq
        rw [(hmap.isTable_page hfree).2]
        exact h.free _ (hF hfree)
      · exact h.tables q u hq
  · rw [if_neg hzero]
    exact h.tables
  · rw [if_pos hzero]
    by_cases hnull : (A.alloc s.pages).1 = 0
    · rw [if_pos hnull]
      exact h.same
    · rw [if_neg hnull]
      obtain ⟨hfree, -⟩ := A.alloc_page hmap.owns hnull
      intro a ha
      exact (store_entry (h.tables path t hp) ha _).trans
        ((memset_of_disjoint (h.free _ (hF hfree) a ha)).trans (h.same a ha))
  · rw [if_neg hzero]
    exact h.same

theorem overwrite (h : KeepsOut A cr3 P m F O s) {path : List (Fin 512)} {t e : ℕ} {i : Fin 512}
    (hp : tableAt s.mem cr3 path = some t) (he : e < 2 ^ 64)
    (hleaf : path.length = 3 ∨ path.length = 2 ∧ pdeIsLarge e = true ∧
      (entry s.mem t i = 0 ∨ pdeIsLarge (entry s.mem t i) = true)) :
    KeepsOut A cr3 P m F O { s with mem := store s.mem (entryPtr t i) 8 e } := by
  obtain ⟨F₁, O₁, hF, hO, hmap⟩ := h.ok
  obtain ⟨ho, hmap'⟩ := hmap.overwrite hp he hleaf
  refine ⟨hmap'.within.mono hF hO, h.free, ?_, ?_⟩
  · intro q u hq
    rw [ho.tableAt_eq hmap.wf] at hq
    exact h.tables q u hq
  · intro a ha
    show store s.mem (entryPtr t i) 8 e a = m a
    rw [store_entry (h.tables path t hp) ha]
    exact h.same a ha

theorem table_of_nextEntry {path : List (Fin 512)} {t e : ℕ} {i : Fin 512} {flags : ℕ}
    (h : KeepsOut A cr3 P m F O s) (hp : tableAt s.mem cr3 path = some t) (hd : path.length < 3)
    (heq : Manticore.nextEntry A s t i (mmuFlagsToHw flags) = (some e, s'))
    (hsmall : pdeIsLarge e = false) :
    tableAt s'.mem cr3 (i :: path) = some (entryPaddr e) := by
  obtain ⟨F₁, O₁, -, -, hmap⟩ := h.ok
  obtain ⟨-, hext, he⟩ := nextEntry_spec hmap hp hd i flags
  rw [heq] at hext he
  obtain ⟨hne, hentry⟩ := he e rfl
  rw [tableAt_cons_some (hext.tables _ _ hp) hd (by rw [hentry]; exact hne)
    (by rw [hentry]; exact hsmall), hentry]

theorem small_of_nextEntry {path : List (Fin 512)} {t e : ℕ} {i : Fin 512} {flags : ℕ}
    (h : KeepsOut A cr3 P m F O s) (hp : tableAt s.mem cr3 path = some t) (hd : path.length < 2)
    (heq : Manticore.nextEntry A s t i (mmuFlagsToHw flags) = (some e, s')) :
    pdeIsLarge e = false := by
  obtain ⟨F₁, O₁, -, -, hmap⟩ := h.ok
  obtain ⟨⟨F₂, O₂, -, -, hmap₂⟩, hext, he⟩ := nextEntry_spec hmap hp (by omega) i flags
  rw [heq] at hmap₂ hext he
  rw [← (he e rfl).2]
  exact hmap₂.wf.large _ _ i (hext.tables _ _ hp) hd

theorem pageDirectory (h : KeepsOut A cr3 P m F O s) (vaddr flags : ℕ) :
    KeepsOut A cr3 P m F O (pageDirectory A s cr3 vaddr (mmuFlagsToHw flags)).2 := by
  have hroot : tableAt s.mem cr3 [] = some cr3 := rfl
  have h₁ := h.nextEntry hroot (by simp) (pml4Index vaddr) flags
  rw [Manticore.pageDirectory]
  rcases heq₁ : Manticore.nextEntry A s cr3 (pml4Index vaddr) (mmuFlagsToHw flags)
    with ⟨_ | pml4e, s₁⟩
  · rw [heq₁] at h₁
    exact h₁
  · rw [heq₁] at h₁
    have hpdpt := h.table_of_nextEntry hroot (by simp) heq₁
      (h.small_of_nextEntry hroot (by simp) heq₁)
    have h₂ := h₁.nextEntry hpdpt (by simp) (pdptIndex vaddr) flags
    simp only
    rcases heq₂ : Manticore.nextEntry A s₁ (entryPaddr pml4e) (pdptIndex vaddr)
      (mmuFlagsToHw flags) with ⟨_ | pdpte, s₂⟩ <;>
    · rw [heq₂] at h₂
      exact h₂

theorem mmuMapSmallPage (h : KeepsOut A cr3 P m F O s) (vaddr : ℕ) {paddr : ℕ}
    (hpaddr : paddr < 2 ^ 64) (prot flags : ℕ) :
    KeepsOut A cr3 P m F O (mmuMapSmallPage A s cr3 vaddr paddr prot flags).2 := by
  have h₁ := h.pageDirectory vaddr flags
  obtain ⟨F₁, O₁, -, -, hmap⟩ := h.ok
  obtain ⟨-, -, hpd⟩ := pageDirectory_spec hmap vaddr flags
  rw [Manticore.mmuMapSmallPage]
  rcases heq₁ : Manticore.pageDirectory A s cr3 vaddr (mmuFlagsToHw flags) with ⟨_ | pd, s₁⟩
  · rw [heq₁] at h₁
    exact h₁
  rw [heq₁] at h₁ hpd
  have hpd := hpd pd rfl
  have h₂ := h₁.nextEntry hpd (by simp [pdPath]) (pdIndex vaddr) flags
  simp only
  rcases heq₂ : Manticore.nextEntry A s₁ pd (pdIndex vaddr) (mmuFlagsToHw flags)
    with ⟨_ | pde, s₂⟩
  · rw [heq₂] at h₂
    exact h₂
  rw [heq₂] at h₂
  simp only
  cases hlarge : pdeIsLarge pde with
  | true => exact h₂
  | false =>
      have hpt : tableAt s₂.mem cr3 (ptPath vaddr) = some (entryPaddr pde) :=
        h₁.table_of_nextEntry hpd (by simp [pdPath]) heq₂ hlarge
      exact h₂.overwrite hpt (makeEntry_small_lt hpaddr prot flags)
        (Or.inl (by simp [ptPath, pdPath]))

theorem mmuMapLargePage (h : KeepsOut A cr3 P m F O s) (vaddr : ℕ) {paddr : ℕ}
    (hpaddr : paddr < 2 ^ 64) (prot flags : ℕ) :
    KeepsOut A cr3 P m F O (mmuMapLargePage A s cr3 vaddr paddr prot flags).2 := by
  have h₁ := h.pageDirectory vaddr flags
  obtain ⟨F₁, O₁, -, -, hmap⟩ := h.ok
  obtain ⟨-, -, hpd⟩ := pageDirectory_spec hmap vaddr flags
  rw [Manticore.mmuMapLargePage]
  rcases heq₁ : Manticore.pageDirectory A s cr3 vaddr (mmuFlagsToHw flags) with ⟨_ | pd, s₁⟩
  · rw [heq₁] at h₁
    exact h₁
  rw [heq₁] at h₁ hpd
  have hpd := hpd pd rfl
  simp only
  split
  · exact h₁
  rename_i hold
  exact h₁.overwrite hpd (makeEntry_large_lt hpaddr prot flags)
    (Or.inr (largeLeaf_replaces vaddr paddr prot flags hold))

theorem mapPages {mapPage : KMem σ → ℕ → ℕ → ℤ × KMem σ} {pageSize stop fuel offset paddr : ℕ}
    {err : ℤ} {paddr' : ℕ}
    (hstep : ∀ s offset paddr, paddr < 2 ^ 64 → KeepsOut A cr3 P m F O s →
      KeepsOut A cr3 P m F O (mapPage s offset paddr).2)
    (hrun : mapPages mapPage pageSize stop fuel s offset paddr = some (err, paddr', s'))
    (hpaddr : paddr < 2 ^ 64) (h : KeepsOut A cr3 P m F O s) :
    KeepsOut A cr3 P m F O s' ∧ paddr' < 2 ^ 64 := by
  induction fuel generalizing s offset paddr with
  | zero => cases hrun
  | succ fuel ih =>
      rw [Manticore.mapPages] at hrun
      split at hrun
      · have h₁ := hstep s offset paddr hpaddr h
        simp only at hrun
        split at hrun
        · obtain ⟨-, hrest⟩ := some_pair_inj hrun
          obtain ⟨rfl, rfl⟩ := Prod.mk.inj hrest
          exact ⟨h₁, hpaddr⟩
        · exact ih hrun (add64_lt _ _) h₁
      · obtain ⟨-, hrest⟩ := some_pair_inj hrun
        obtain ⟨rfl, rfl⟩ := Prod.mk.inj hrest
        exact ⟨h, hpaddr⟩

theorem mapRun {mapPage : KMem σ → ℕ → ℕ → ℤ × KMem σ} {pageSize start stop fuel paddr : ℕ}
    {err : ℤ} {paddr' : ℕ}
    (hstep : ∀ s offset paddr, paddr < 2 ^ 64 → KeepsOut A cr3 P m F O s →
      KeepsOut A cr3 P m F O (mapPage s offset paddr).2)
    (hrun : mapRun mapPage pageSize start stop fuel s paddr = some (err, paddr', s'))
    (hpaddr : paddr < 2 ^ 64) (h : KeepsOut A cr3 P m F O s) :
    KeepsOut A cr3 P m F O s' ∧ paddr' < 2 ^ 64 := by
  unfold Manticore.mapRun at hrun
  split at hrun
  · exact mapPages hstep hrun hpaddr h
  · obtain ⟨-, hrest⟩ := some_pair_inj hrun
    obtain ⟨rfl, rfl⟩ := Prod.mk.inj hrest
    exact ⟨h, hpaddr⟩

/-- **`mmu_map_range` keeps out of `P`.** -/
theorem mmuMapRange {fuel vaddr paddr size prot flags : ℕ} {ret : ℤ}
    (h : KeepsOut A cr3 P m F O s) (hpaddr : paddr < 2 ^ 64)
    (hrun : mmuMapRange A fuel s cr3 vaddr paddr size prot flags = some (ret, s')) :
    KeepsOut A cr3 P m F O s' := by
  have hsmall : ∀ s offset paddr, paddr < 2 ^ 64 → KeepsOut A cr3 P m F O s →
      KeepsOut A cr3 P m F O (Manticore.mmuMapSmallPage A s cr3 offset paddr prot flags).2 :=
    fun s offset paddr hp hs => hs.mmuMapSmallPage offset hp prot flags
  have hlarge : ∀ s offset paddr, paddr < 2 ^ 64 → KeepsOut A cr3 P m F O s →
      KeepsOut A cr3 P m F O (Manticore.mmuMapLargePage A s cr3 offset paddr prot flags).2 :=
    fun s offset paddr hp hs => hs.mmuMapLargePage offset hp prot flags
  unfold Manticore.mmuMapRange at hrun
  split at hrun
  · obtain ⟨-, rfl⟩ := some_pair_inj hrun
    exact h
  simp only [Option.bind_eq_bind] at hrun
  split at hrun
  · obtain ⟨⟨err, paddr₁, s₁⟩, hpages, hrun⟩ := Option.bind_eq_some_iff.mp hrun
    obtain ⟨-, rfl⟩ := some_pair_inj hrun
    exact (mapPages hsmall hpages hpaddr h).1
  obtain ⟨⟨err₁, paddr₁, s₁⟩, hrun₁, hrun⟩ := Option.bind_eq_some_iff.mp hrun
  obtain ⟨h₁, hpaddr₁⟩ := mapRun hsmall hrun₁ hpaddr h
  simp only at hrun
  split at hrun
  · obtain ⟨-, rfl⟩ := some_pair_inj hrun
    exact h₁
  obtain ⟨⟨err₂, paddr₂, s₂⟩, hrun₂, hrun⟩ := Option.bind_eq_some_iff.mp hrun
  obtain ⟨h₂, hpaddr₂⟩ := mapRun hlarge hrun₂ hpaddr₁ h₁
  simp only at hrun
  split at hrun
  · obtain ⟨-, rfl⟩ := some_pair_inj hrun
    exact h₂
  obtain ⟨⟨err₃, paddr₃, s₃⟩, hrun₃, hrun⟩ := Option.bind_eq_some_iff.mp hrun
  obtain ⟨-, rfl⟩ := some_pair_inj hrun
  exact (mapRun hsmall hrun₃ hpaddr₂ h₂).1

end KeepsOut

/-! ## Maps under other writes -/

section maps

variable {cr3 : ℕ} {F O : Set ℕ} {s s' : KMem σ} {m : Mem}

theorem tableAt_of_entries
    (hsame : ∀ q t i, tableAt s.mem cr3 q = some t → entry m t i = entry s.mem t i) :
    ∀ q, tableAt m cr3 q = tableAt s.mem cr3 q :=
  descend_congr fun q u j hq => childTable_congr (hsame q u j hq)

theorem MapOk.of_entries (h : MapOk A cr3 s F O)
    (hsame : ∀ q t i, tableAt s.mem cr3 q = some t → entry m t i = entry s.mem t i) :
    MapOk A cr3 { s with mem := m } F O := by
  have htable := tableAt_of_entries hsame
  refine ⟨⟨h.wf.root, ?_, ?_, ?_⟩, h.owns, ?_, h.ram⟩
  · intro p q t hp hq
    exact h.wf.distinct p q t ((htable p).symm.trans hp) ((htable q).symm.trans hq)
  · intro path t i hp hlen
    have hp := (htable path).symm.trans hp
    rw [hsame path t i hp]
    exact h.wf.large path t i hp hlen
  · intro path t i hp hlen
    have hp := (htable path).symm.trans hp
    rw [hsame path t i hp]
    exact h.wf.pointer path t i hp hlen
  · intro q t hq
    exact h.unused q t ((htable q).symm.trans hq)

theorem MapOk.hwWalk_of_entries (h : MapOk A cr3 s F O)
    (hsame : ∀ q t i, tableAt s.mem cr3 q = some t → entry m t i = entry s.mem t i) (v : ℕ) :
    hwWalk m cr3 v = hwWalk s.mem cr3 v := by
  have htable := tableAt_of_entries hsame
  have hwf : WellFormed m cr3 := (h.of_entries hsame).wf
  rw [hwf.hwWalk_eq, h.wf.hwWalk_eq, htable, htable]
  cases hpd : tableAt s.mem cr3 (pdPath v) with
  | none => rw [walkFrom_none, walkFrom_none]
  | some pd =>
    have hpde := hsame _ pd (pdIndex v) hpd
    cases hpt : tableAt s.mem cr3 (ptPath v) with
    | none => simp only [walkFrom, hwEntry, hpde, Option.bind_some, Option.bind_none]
    | some pt =>
      have hpte := hsame _ pt (ptIndex v) hpt
      simp only [walkFrom, hwEntry, hpde, hpte, Option.bind_some]

theorem MapOk.entry_memcpy {p : ℕ} (h : MapOk A cr3 s F O) (hp : p ∈ F) (src : ℕ → UInt8) :
    ∀ q t i, tableAt s.mem cr3 q = some t →
      entry (memcpy s.mem p src pageSizeSmall) t i = entry s.mem t i := by
  intro q t i hq
  refine load_memcpy_of_disjoint ?_
  have hptr : paddrToPtr t ≠ p := fun heq => h.unused q t hq (heq ▸ hp)
  obtain ⟨b, hb⟩ := (h.wf.isTable hq).ptr_dvd
  obtain ⟨c, hc⟩ := (A.page h.owns (Or.inl hp)).dvd
  have hi := i.isLt
  simp only [entryPtr, pageSizeSmall] at *
  omega

theorem MapOkWithin.mmuMapRange {fuel vaddr paddr size prot flags : ℕ} {ret : ℤ}
    (h : MapOkWithin A cr3 s F O) (hpaddr : paddr < 2 ^ 64)
    (hrun : mmuMapRange A fuel s cr3 vaddr paddr size prot flags = some (ret, s')) :
    MapOkWithin A cr3 s' F O :=
  (KeepsOut.mmuMapRange (P := ∅) (m := s.mem) ⟨h, by simp [Spares], by simp [Spares], by simp⟩
    hpaddr hrun).ok

theorem MapOkWithin.alloc (h : MapOkWithin A cr3 s F O) :
    MapOkWithin A cr3 { s with pages := (A.alloc s.pages).2 } F O := by
  obtain ⟨F₁, O₁, hF, hO, hmap⟩ := h
  by_cases hnull : (A.alloc s.pages).1 = 0
  · exact ⟨F₁, O₁, hF, hO, hmap.wf, A.alloc_null hmap.owns hnull, hmap.unused, hmap.ram⟩
  · obtain ⟨-, howns⟩ := A.alloc_page hmap.owns hnull
    exact ⟨_, _, Set.sdiff_subset.trans hF, hO.trans (Set.subset_insert _ _), hmap.wf, howns,
      fun q t hq hin => hmap.unused q t hq hin.1, fun p hp => hmap.ram p hp.1⟩

theorem MapOkWithin.alloc_memcpy (h : MapOkWithin A cr3 s F O) (hne : (A.alloc s.pages).1 ≠ 0)
    (src : ℕ → UInt8) :
    MapOkWithin A cr3 ⟨(A.alloc s.pages).2, memcpy s.mem (A.alloc s.pages).1 src pageSizeSmall⟩
      F O := by
  obtain ⟨F₁, O₁, hF, hO, hmap⟩ := h
  obtain ⟨hmem, howns⟩ := A.alloc_page hmap.owns hne
  have hmap' : MapOk A cr3 { s with pages := (A.alloc s.pages).2 } _ _ :=
    ⟨hmap.wf, howns, fun q t hq hin => hmap.unused q t hq hin.1, fun p hp => hmap.ram p hp.1⟩
  exact ⟨_, _, Set.sdiff_subset.trans hF, hO.trans (Set.subset_insert _ _),
    hmap'.of_entries (hmap.entry_memcpy hmem src)⟩

end maps

end Manticore
