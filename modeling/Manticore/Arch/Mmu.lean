import Manticore.Arch.PageTable

/-!
# Mapping one page

`mmu_map_small_page` and `mmu_map_large_page` of `arch/x86_64/mmu.c`.  Both walk down
from the PML4, allocating the tables that are missing.  The allocator is any
`PageAllocator`; its own bookkeeping lives in free pages, which hold no table.
-/

namespace Manticore

def mmuProtRead : ℕ := 1 <<< 0
def mmuProtWrite : ℕ := 1 <<< 1
def mmuProtExec : ℕ := 1 <<< 2

def mmuUserPage : ℕ := 1 <<< 0
def mmuNocache : ℕ := 1 <<< 1

def mmuProtToHw (prot : ℕ) : ℕ :=
  let hwFlags := x86PeP
  let hwFlags := if prot &&& mmuProtWrite ≠ 0 then hwFlags ||| x86PeRw else hwFlags
  if prot &&& mmuProtExec = 0 then hwFlags ||| x86PeXd else hwFlags

def mmuFlagsToHw (flags : ℕ) : ℕ :=
  let hwFlags := 0
  let hwFlags := if flags &&& mmuUserPage ≠ 0 then hwFlags ||| x86PeUs else hwFlags
  if flags &&& mmuNocache ≠ 0 then hwFlags ||| x86PePcd else hwFlags

variable {σ : Type} (A : PageAllocator σ)

/-- One level of the walk: entry `idx` of `table`, made to point to a new zeroed table if
there was none. `none` is out of memory. -/
def nextEntry (s : KMem σ) (table : ℕ) (idx : Fin 512) (hwFlags : ℕ) :
    Option ℕ × KMem σ :=
  let e := entry s.mem table idx
  if entryIsNone e then
    let (page, pages) := A.alloc s.pages
    if page = 0 then (none, { s with pages := pages })
    else
      let mem := memset s.mem page 0 pageSizeSmall
      let e := makeEntry (ptrToPaddr page) (x86PeP ||| x86PeRw ||| hwFlags)
      (some e, { pages := pages, mem := store mem (entryPtr table idx) 8 e })
  else (some e, s)

/-- The levels that small and large pages share: the page directory for `vaddr`. -/
def pageDirectory (s : KMem σ) (cr3 vaddr hwFlags : ℕ) : Option ℕ × KMem σ :=
  match nextEntry A s cr3 (pml4Index vaddr) hwFlags with
  | (none, s) => (none, s)
  | (some pml4e, s) =>
      match nextEntry A s (entryPaddr pml4e) (pdptIndex vaddr) hwFlags with
      | (none, s) => (none, s)
      | (some pdpte, s) => (some (entryPaddr pdpte), s)

def mmuMapSmallPage (s : KMem σ) (cr3 vaddr paddr prot flags : ℕ) : ℤ × KMem σ :=
  let hwFlags := mmuFlagsToHw flags
  match pageDirectory A s cr3 vaddr hwFlags with
  | (none, s) => (-enomem, s)
  | (some pd, s) =>
      match nextEntry A s pd (pdIndex vaddr) hwFlags with
      | (none, s) => (-enomem, s)
      | (some pde, s) =>
          if pdeIsLarge pde then (-einval, s)
          else
            let hwProt := mmuProtToHw prot
            let pte := makeEntry paddr (hwProt ||| hwFlags)
            let pt := entryPaddr pde
            (0, { s with mem := store s.mem (entryPtr pt (ptIndex vaddr)) 8 pte })

def mmuMapLargePage (s : KMem σ) (cr3 vaddr paddr prot flags : ℕ) : ℤ × KMem σ :=
  let hwFlags := mmuFlagsToHw flags
  match pageDirectory A s cr3 vaddr hwFlags with
  | (none, s) => (-enomem, s)
  | (some pd, s) =>
      let pde := entry s.mem pd (pdIndex vaddr)
      if !entryIsNone pde && !pdeIsLarge pde then (-einval, s)
      else
        let hwProt := mmuProtToHw prot
        let pde := makeEntry paddr (hwProt ||| hwFlags ||| x86PePs)
        (0, { s with mem := store s.mem (entryPtr pd (pdIndex vaddr)) 8 pde })

/-! ## Entry values -/

/-- The bits of a leaf entry for a small page. -/
def leafBits (prot flags : ℕ) : ℕ := mmuProtToHw prot ||| mmuFlagsToHw flags

theorem mmuFlagsToHw_mem (flags : ℕ) :
    mmuFlagsToHw flags ∈ [0, x86PeUs, x86PePcd, x86PeUs ||| x86PePcd] := by
  unfold mmuFlagsToHw
  split_ifs <;> decide

theorem mmuProtToHw_mem (prot : ℕ) : mmuProtToHw prot ∈
    [x86PeP, x86PeP ||| x86PeXd, x86PeP ||| x86PeRw, x86PeP ||| x86PeRw ||| x86PeXd] := by
  unfold mmuProtToHw
  split_ifs <;> decide

theorem leafBits_of_all {P : ℕ → Prop} (prot flags : ℕ)
    (h : ∀ a ∈ [x86PeP, x86PeP ||| x86PeXd, x86PeP ||| x86PeRw, x86PeP ||| x86PeRw ||| x86PeXd],
      ∀ b ∈ [0, x86PeUs, x86PePcd, x86PeUs ||| x86PePcd], P (a ||| b)) :
    P (leafBits prot flags) :=
  h _ (mmuProtToHw_mem prot) _ (mmuFlagsToHw_mem flags)

theorem makeEntry_and {paddr flags mask : ℕ} :
    makeEntry paddr flags &&& mask = (paddr &&& mask) ||| (flags &&& mask) :=
  Nat.and_or_distrib_right paddr flags mask

theorem IsTable.and_low {t c : ℕ} (h : IsTable t) (hc : c < 4096) : t &&& c = 0 :=
  and_eq_zero_of_dvd_of_lt (k := 12) h.dvd hc

theorem IsTable.entryPaddr_eq {t : ℕ} (h : IsTable t) : entryPaddr t = t := by
  have hlt := h.lt
  obtain ⟨c, rfl⟩ := h.dvd
  rw [Manticore.entryPaddr_eq]
  omega

theorem isPointer_makeEntry {t : ℕ} (ht : IsTable t) (flags : ℕ) :
    IsPointer (makeEntry t (x86PeP ||| x86PeRw ||| mmuFlagsToHw flags)) t := by
  have hbits : ∀ b ∈ [0, x86PeUs, x86PePcd, x86PeUs ||| x86PePcd],
      x86PeP ||| x86PeRw ||| b < 2 ^ 64 ∧ (x86PeP ||| x86PeRw ||| b) &&& x86PeP = x86PeP ∧
      (x86PeP ||| x86PeRw ||| b) &&& x86PePs = 0 ∧
      (x86PeP ||| x86PeRw ||| b) &&& not64 pgFlagsMask = 0 ∧
      (x86PeP ||| x86PeRw ||| b) &&& 0x000ffffffffff000 = 0 := by decide
  obtain ⟨hlt, hp, hps, hk, hhw⟩ := hbits _ (mmuFlagsToHw_mem flags)
  have htlt := ht.lt
  refine ⟨Nat.or_lt_two_pow (by omega) hlt, ?_, ?_, ?_, ?_⟩
  · rw [hwPresent, makeEntry_and, ht.and_low (by decide), hp]
    rfl
  · rw [pdeIsLarge, makeEntry_and, ht.and_low (by decide), hps]
    rfl
  · rw [entryPaddr, makeEntry_and, hk, Nat.or_zero]
    exact ht.entryPaddr_eq
  · rw [hwAddr, makeEntry_and, hhw, Nat.or_zero]
    exact ht.hwAddr_eq

theorem hwPresent_leaf (paddr prot flags ps : ℕ) :
    hwPresent (makeEntry paddr (leafBits prot flags ||| ps)) = true := by
  have hbits : leafBits prot flags &&& x86PeP = x86PeP :=
    leafBits_of_all (P := fun b => b &&& x86PeP = x86PeP) prot flags (by decide)
  have hne : makeEntry paddr (leafBits prot flags ||| ps) &&& x86PeP ≠ 0 := by
    rw [makeEntry_and, Nat.and_or_distrib_right, hbits]
    intro h
    have := (Nat.or_eq_zero_iff.mp h).2
    have := (Nat.or_eq_zero_iff.mp this).1
    cases this
  simpa [hwPresent] using hne

theorem pdeIsLarge_makeEntry (paddr flags : ℕ) :
    pdeIsLarge (makeEntry paddr (flags ||| x86PePs)) = true := by
  have hne : makeEntry paddr (flags ||| x86PePs) &&& x86PePs ≠ 0 := by
    rw [makeEntry_and, Nat.and_or_distrib_right, Nat.and_self]
    intro h
    have := (Nat.or_eq_zero_iff.mp h).2
    have := (Nat.or_eq_zero_iff.mp this).2
    cases this
  simpa [pdeIsLarge] using hne

theorem and_not64_of_and_eq {x mask : ℕ} (h : x &&& mask = x) (hm : mask &&& not64 mask = 0) :
    x &&& not64 mask = 0 := by
  rw [← h, Nat.and_assoc, hm, Nat.and_zero]

theorem hwSmallLeaf_makeEntry {paddr : ℕ} (h : IsTable paddr) (prot flags : ℕ) :
    hwSmallLeaf (makeEntry paddr (leafBits prot flags)) = (paddr, leafBits prot flags) := by
  obtain ⟨haddr, hrest⟩ : leafBits prot flags &&& 0x000ffffffffff000 = 0 ∧
      leafBits prot flags &&& not64 0x000ffffffffff000 = leafBits prot flags :=
    leafBits_of_all (P := fun b => b &&& 0x000ffffffffff000 = 0 ∧
      b &&& not64 0x000ffffffffff000 = b) prot flags (by decide)
  have hself : paddr &&& 0x000ffffffffff000 = paddr := h.hwAddr_eq
  rw [hwSmallLeaf, hwAddr, makeEntry_and, makeEntry_and, haddr, hrest, hself,
    and_not64_of_and_eq hself (by decide), Nat.or_zero, Nat.zero_or]

theorem hwLargeLeaf_makeEntry {paddr : ℕ} (hdvd : 2 ^ 21 ∣ paddr) (hlt : paddr < 2 ^ 52)
    (prot flags vaddr : ℕ) :
    hwLargeLeaf (makeEntry paddr (leafBits prot flags ||| x86PePs)) vaddr =
      (paddr + 4096 * ptIndex vaddr, leafBits prot flags ||| x86PePs) := by
  obtain ⟨haddr, hrest⟩ : (leafBits prot flags ||| x86PePs) &&& 0x000fffffffe00000 = 0 ∧
      (leafBits prot flags ||| x86PePs) &&& not64 0x000fffffffe00000 =
        leafBits prot flags ||| x86PePs :=
    leafBits_of_all (P := fun b => (b ||| x86PePs) &&& 0x000fffffffe00000 = 0 ∧
      (b ||| x86PePs) &&& not64 0x000fffffffe00000 = b ||| x86PePs) prot flags (by decide)
  have hself : paddr &&& 0x000fffffffe00000 = paddr := by
    obtain ⟨c, rfl⟩ := hdvd
    have := hwLargeAddr_eq (2 ^ 21 * c)
    rw [hwLargeAddr] at this
    rw [this]
    omega
  rw [hwLargeLeaf, hwLargeAddr, makeEntry_and, makeEntry_and, haddr, hrest, hself,
    and_not64_of_and_eq hself (by decide), Nat.or_zero, Nat.zero_or]

/-! ## Specifications -/

/-- The map at `cr3` is well-formed, and its tables are not among the free pages, which
are pages of physical memory. -/
structure MapOk (cr3 : ℕ) (s : KMem σ) (F O : Set ℕ) : Prop where
  wf : WellFormed s.mem cr3
  owns : A.Owns s.pages F O
  unused : ∀ q t, tableAt s.mem cr3 q = some t → paddrToPtr t ∉ F
  ram : ∀ p ∈ F, ptrToPaddr p < 2 ^ 52

/-- The map at `cr3` is fine, with pages taken from `F` only and none of `O` given back. -/
def MapOkWithin (cr3 : ℕ) (s : KMem σ) (F O : Set ℕ) : Prop :=
  ∃ F' O', F' ⊆ F ∧ O ⊆ O' ∧ MapOk A cr3 s F' O'

/-- The tables of `m` are tables of `m'`, and the translations are the same. -/
structure Extends (cr3 : ℕ) (m m' : Mem) : Prop where
  tables : ∀ q t, tableAt m cr3 q = some t → tableAt m' cr3 q = some t
  walk : ∀ vaddr, hwWalk m' cr3 vaddr = hwWalk m cr3 vaddr

variable {A} {cr3 : ℕ} {s s' : KMem σ} {F O : Set ℕ} {m m' m'' : Mem}

theorem MapOk.within (h : MapOk A cr3 s F O) : MapOkWithin A cr3 s F O :=
  ⟨F, O, le_rfl, le_rfl, h⟩

theorem MapOkWithin.mono {F₁ O₁ : Set ℕ} (h : MapOkWithin A cr3 s F₁ O₁) (hF : F₁ ⊆ F)
    (hO : O ⊆ O₁) : MapOkWithin A cr3 s F O := by
  obtain ⟨F', O', hF', hO', hok⟩ := h
  exact ⟨F', O', hF'.trans hF, hO.trans hO', hok⟩

theorem Extends.refl (cr3 : ℕ) (m : Mem) : Extends cr3 m m := ⟨fun _ _ h => h, fun _ => rfl⟩

theorem Extends.trans (h : Extends cr3 m m') (h' : Extends cr3 m' m'') : Extends cr3 m m'' :=
  ⟨fun q t hq => h'.tables q t (h.tables q t hq), fun v => (h'.walk v).trans (h.walk v)⟩

theorem MapOk.isTable_page {p : ℕ} (h : MapOk A cr3 s F O) (hp : p ∈ F) :
    IsTable (ptrToPaddr p) ∧ paddrToPtr (ptrToPaddr p) = p := by
  have hpage := A.page h.owns (Or.inl hp)
  have hle := hpage.le
  obtain ⟨c, hc⟩ := hpage.dvd
  simp only [pageSizeSmall] at hle hc
  refine ⟨⟨?_, h.ram p hp⟩, paddrToPtr_ptrToPaddr (by omega)⟩
  rw [hc]
  simp only [ptrToPaddr, virtToPhys, sub64, kernelVma]
  omega

theorem MapOk.links (h : MapOk A cr3 s F O) {path : List (Fin 512)} {t page : ℕ} {i : Fin 512}
    (hp : tableAt s.mem cr3 path = some t) (hd : path.length < 3) (hzero : entry s.mem t i = 0)
    (hfree : page ∈ F) (flags : ℕ) :
    let e := makeEntry (ptrToPaddr page) (x86PeP ||| x86PeRw ||| mmuFlagsToHw flags)
    Links s.mem (store (memset s.mem page 0 pageSizeSmall) (entryPtr t i) 8 e) cr3 path t i e
      (ptrToPaddr page) := by
  obtain ⟨hf, hptr⟩ := h.isTable_page hfree
  have hpointer := isPointer_makeEntry hf flags
  refine ⟨hp, hd, hzero, hpointer, ?_, ?_⟩
  · intro q hq
    exact h.unused q _ hq (hptr.symm ▸ hfree)
  · intro u j hu
    rw [entry_store (h.wf.isTable hp) hu hpointer.lt]
    have hset := entry_memset (m := s.mem) hf hu (j := j)
    rw [hptr] at hset
    rw [hset]

/-- **One level of the walk** keeps the map and its translations, and on success leaves
a nonempty entry. -/
theorem nextEntry_spec (h : MapOk A cr3 s F O) {path : List (Fin 512)} {t : ℕ}
    (hp : tableAt s.mem cr3 path = some t) (hd : path.length < 3) (i : Fin 512) (flags : ℕ) :
    let r := nextEntry A s t i (mmuFlagsToHw flags)
    MapOkWithin A cr3 r.2 F O ∧ Extends cr3 s.mem r.2.mem ∧
      ∀ e, r.1 = some e → e ≠ 0 ∧ entry r.2.mem t i = e := by
  simp only [nextEntry, entryIsNone, beq_iff_eq]
  by_cases hzero : entry s.mem t i = 0
  · rw [if_pos hzero]
    by_cases hnull : (A.alloc s.pages).1 = 0
    · rw [if_pos hnull]
      have hok : MapOk A cr3 ⟨(A.alloc s.pages).2, s.mem⟩ F O :=
        ⟨h.wf, A.alloc_null h.owns hnull, h.unused, h.ram⟩
      exact ⟨hok.within, Extends.refl cr3 s.mem, by simp⟩
    · rw [if_neg hnull]
      obtain ⟨hfree, howns⟩ := A.alloc_page h.owns hnull
      generalize (A.alloc s.pages).1 = page at *
      obtain ⟨hf, hptr⟩ := h.isTable_page hfree
      have hlink := h.links hp hd hzero hfree flags
      have hpointer := hlink.pointer
      generalize makeEntry (ptrToPaddr page) (x86PeP ||| x86PeRw ||| mmuFlagsToHw flags) = e at *
      refine ⟨⟨F \ {page}, insert page O, Set.sdiff_subset, Set.subset_insert _ _, ?_⟩, ?_, ?_⟩
      · refine ⟨hlink.wellFormed h.wf, howns, ?_, fun p hp => h.ram p hp.1⟩
        rintro q u hq ⟨huF, hne⟩
        rw [hlink.tableAt_eq h.wf] at hq
        split at hq
        · obtain rfl := Option.some.inj hq
          exact hne (Set.mem_singleton_iff.mpr hptr)
        · exact h.unused q u hq huF
      · refine ⟨?_, hlink.hwWalk_eq h.wf⟩
        intro q u hq
        rw [hlink.tableAt_eq h.wf, if_neg, hq]
        rintro rfl
        exact absurd (hlink.below.symm.trans hq) (by simp)
      · intro e' he
        obtain rfl := Option.some.inj he
        exact ⟨hpointer.ne_zero, hlink.entry_new h.wf⟩
  · rw [if_neg hzero]
    refine ⟨h.within, Extends.refl cr3 s.mem, ?_⟩
    intro e he
    obtain rfl := Option.some.inj he
    exact ⟨hzero, rfl⟩

theorem pageDirectory_spec (h : MapOk A cr3 s F O) (vaddr flags : ℕ) :
    let r := pageDirectory A s cr3 vaddr (mmuFlagsToHw flags)
    MapOkWithin A cr3 r.2 F O ∧ Extends cr3 s.mem r.2.mem ∧
      ∀ pd, r.1 = some pd → tableAt r.2.mem cr3 (pdPath vaddr) = some pd := by
  simp only [pageDirectory]
  obtain ⟨hok₁, hext₁, he₁⟩ := nextEntry_spec h
    (show tableAt s.mem cr3 [] = some cr3 from rfl) (by simp) (pml4Index vaddr) flags
  generalize nextEntry A s cr3 (pml4Index vaddr) (mmuFlagsToHw flags) = r₁ at *
  obtain ⟨_ | pml4e, s₁⟩ := r₁
  · exact ⟨hok₁, hext₁, by simp⟩
  obtain ⟨F₁, O₁, hF₁, hO₁, hmap₁⟩ := hok₁
  obtain ⟨hne₁, hentry₁⟩ := he₁ pml4e rfl
  have hpdpt : tableAt s₁.mem cr3 [pml4Index vaddr] = some (entryPaddr pml4e) := by
    have hsmall := hmap₁.wf.large [] cr3 (pml4Index vaddr) rfl (by simp)
    rw [tableAt_cons_some rfl (by simp) (by rw [hentry₁]; exact hne₁) hsmall, hentry₁]
  obtain ⟨hok₂, hext₂, he₂⟩ := nextEntry_spec hmap₁ hpdpt (by simp) (pdptIndex vaddr) flags
  simp only
  generalize nextEntry A s₁ (entryPaddr pml4e) (pdptIndex vaddr) (mmuFlagsToHw flags) = r₂ at *
  obtain ⟨_ | pdpte, s₂⟩ := r₂
  · exact ⟨hok₂.mono hF₁ hO₁, hext₁.trans hext₂, by simp⟩
  obtain ⟨F₂, O₂, hF₂, hO₂, hmap₂⟩ := hok₂
  obtain ⟨hne₂, hentry₂⟩ := he₂ pdpte rfl
  have hpath := hext₂.tables _ _ hpdpt
  refine ⟨⟨F₂, O₂, hF₂.trans hF₁, hO₁.trans hO₂, hmap₂⟩, hext₁.trans hext₂, ?_⟩
  intro pd hpd
  cases hpd
  have hsmall := hmap₂.wf.large _ _ (pdptIndex vaddr) hpath (by simp)
  rw [pdPath, tableAt_cons_some hpath (by simp) (by rw [hentry₂]; exact hne₂) hsmall, hentry₂]

theorem MapOk.overwrite (h : MapOk A cr3 s F O) {path : List (Fin 512)} {t e : ℕ} {i : Fin 512}
    (hp : tableAt s.mem cr3 path = some t) (he : e < 2 ^ 64)
    (hleaf : path.length = 3 ∨ path.length = 2 ∧ pdeIsLarge e = true ∧
      (entry s.mem t i = 0 ∨ pdeIsLarge (entry s.mem t i) = true)) :
    Overwrites s.mem (store s.mem (entryPtr t i) 8 e) cr3 path t i e ∧
      MapOk A cr3 { s with mem := store s.mem (entryPtr t i) 8 e } F O := by
  have ho : Overwrites s.mem (store s.mem (entryPtr t i) 8 e) cr3 path t i e :=
    ⟨hp, hleaf, fun u j hu => entry_store (h.wf.isTable hp) hu he⟩
  refine ⟨ho, ho.wellFormed h.wf, h.owns, ?_, h.ram⟩
  intro q u hq
  rw [ho.tableAt_eq h.wf] at hq
  exact h.unused q u hq

theorem makeEntry_small_lt {paddr : ℕ} (hpaddr : paddr < 2 ^ 64) (prot flags : ℕ) :
    makeEntry paddr (leafBits prot flags) < 2 ^ 64 :=
  Nat.or_lt_two_pow hpaddr (leafBits_of_all (P := (· < 2 ^ 64)) prot flags (by decide))

theorem makeEntry_large_lt {paddr : ℕ} (hpaddr : paddr < 2 ^ 64) (prot flags : ℕ) :
    makeEntry paddr (leafBits prot flags ||| x86PePs) < 2 ^ 64 :=
  Nat.or_lt_two_pow hpaddr
    (leafBits_of_all (P := (· ||| x86PePs < 2 ^ 64)) prot flags (by decide))

theorem largeLeaf_replaces (vaddr paddr prot flags : ℕ) {old : ℕ}
    (hold : ¬ (!entryIsNone old && !pdeIsLarge old) = true) :
    (pdPath vaddr).length = 2 ∧
      pdeIsLarge (makeEntry paddr (leafBits prot flags ||| x86PePs)) = true ∧
      (old = 0 ∨ pdeIsLarge old = true) := by
  refine ⟨by simp [pdPath], pdeIsLarge_makeEntry paddr (leafBits prot flags), ?_⟩
  by_contra hc
  push Not at hc
  simp [entryIsNone, hc.1, hc.2] at hold

/-- Same 4 KiB page, by the address bits that are translated. -/
def SamePage (v w : ℕ) : Prop := v / 2 ^ 12 % 2 ^ 36 = w / 2 ^ 12 % 2 ^ 36

/-- Same 2 MiB page. -/
def SameLargePage (v w : ℕ) : Prop := v / 2 ^ 21 % 2 ^ 27 = w / 2 ^ 21 % 2 ^ 27

instance (v w : ℕ) : Decidable (SamePage v w) := inferInstanceAs (Decidable (_ = _))

instance (v w : ℕ) : Decidable (SameLargePage v w) := inferInstanceAs (Decidable (_ = _))

theorem sameLargePage_iff (v w : ℕ) :
    pdPath v = pdPath w ∧ pdIndex v = pdIndex w ↔ SameLargePage v w := by
  simp only [pdPath, List.cons.injEq, and_true, Fin.ext_iff, pdptIndex, pml4Index, pdIndex,
    val_pgIndex, SameLargePage]
  omega

theorem samePage_iff (v w : ℕ) :
    ptPath v = ptPath w ∧ ptIndex v = ptIndex w ↔ SamePage v w := by
  have hpt : ptPath v = ptPath w ↔ SameLargePage v w := by
    rw [← sameLargePage_iff, ptPath, ptPath, List.cons.injEq, and_comm]
  rw [hpt]
  simp only [Fin.ext_iff, ptIndex, val_pgIndex, SameLargePage, SamePage]
  omega

/-- **Mapping a small page.** On success exactly the page of `vaddr` is retranslated;
on failure no translation changes. -/
theorem mmuMapSmallPage_spec (h : MapOk A cr3 s F O) (vaddr : ℕ) {paddr : ℕ}
    (hpaddr : paddr < 2 ^ 64) (prot flags : ℕ) :
    let r := mmuMapSmallPage A s cr3 vaddr paddr prot flags
    MapOkWithin A cr3 r.2 F O ∧
      (r.1 = 0 → ∀ v, hwWalk r.2.mem cr3 v =
        if SamePage v vaddr then some (hwSmallLeaf (makeEntry paddr (leafBits prot flags)))
        else hwWalk s.mem cr3 v) ∧
      (r.1 ≠ 0 → ∀ v, hwWalk r.2.mem cr3 v = hwWalk s.mem cr3 v) := by
  simp only [mmuMapSmallPage]
  obtain ⟨hok₁, hext₁, hpd₁⟩ := pageDirectory_spec h vaddr flags
  generalize pageDirectory A s cr3 vaddr (mmuFlagsToHw flags) = r₁ at *
  obtain ⟨_ | pd, s₁⟩ := r₁
  · exact ⟨hok₁, fun hc => absurd hc neg_enomem_ne_zero, fun _ => hext₁.walk⟩
  obtain ⟨F₁, O₁, hF₁, hO₁, hmap₁⟩ := hok₁
  have hpd := hpd₁ pd rfl
  obtain ⟨hok₂, hext₂, he₂⟩ :=
    nextEntry_spec hmap₁ hpd (by simp [pdPath]) (pdIndex vaddr) flags
  simp only
  generalize nextEntry A s₁ pd (pdIndex vaddr) (mmuFlagsToHw flags) = r₂ at *
  have hext := hext₁.trans hext₂
  obtain ⟨_ | pde, s₂⟩ := r₂
  · exact ⟨hok₂.mono hF₁ hO₁, fun hc => absurd hc neg_enomem_ne_zero, fun _ => hext.walk⟩
  obtain ⟨hne, hentry⟩ := he₂ pde rfl
  simp only
  cases hlarge : pdeIsLarge pde with
  | true =>
      rw [if_pos rfl]
      exact ⟨hok₂.mono hF₁ hO₁, fun hc => absurd hc neg_einval_ne_zero, fun _ => hext.walk⟩
  | false =>
      rw [if_neg Bool.false_ne_true]
      obtain ⟨F₂, O₂, hF₂, hO₂, hmap₂⟩ := hok₂
      have hpath := hext₂.tables _ _ hpd
      have hpt : tableAt s₂.mem cr3 (ptPath vaddr) = some (entryPaddr pde) := by
        rw [ptPath, tableAt_cons_some hpath (by simp [pdPath]) (by rw [hentry]; exact hne)
          (by rw [hentry]; exact hlarge), hentry]
      obtain ⟨ho, hmap₃⟩ := hmap₂.overwrite (i := ptIndex vaddr) hpt
        (makeEntry_small_lt hpaddr prot flags) (Or.inl (by simp [ptPath, pdPath]))
      refine ⟨⟨F₂, O₂, hF₂.trans hF₁, hO₁.trans hO₂, hmap₃⟩, fun _ v => ?_,
        fun hc => absurd rfl hc⟩
      have hwalk := ho.hwWalk_small hmap₂.wf (by simp [ptPath, pdPath])
        (by simpa using hwPresent_leaf paddr prot flags 0) v
      simp only [samePage_iff, hext.walk] at hwalk
      exact hwalk

/-- **Mapping a large page.** On success exactly the 2 MiB of `vaddr` are retranslated;
on failure no translation changes. -/
theorem mmuMapLargePage_spec (h : MapOk A cr3 s F O) (vaddr : ℕ) {paddr : ℕ}
    (hpaddr : paddr < 2 ^ 64) (prot flags : ℕ) :
    let r := mmuMapLargePage A s cr3 vaddr paddr prot flags
    MapOkWithin A cr3 r.2 F O ∧
      (r.1 = 0 → ∀ v, hwWalk r.2.mem cr3 v =
        if SameLargePage v vaddr then
          some (hwLargeLeaf (makeEntry paddr (leafBits prot flags ||| x86PePs)) v)
        else hwWalk s.mem cr3 v) ∧
      (r.1 ≠ 0 → ∀ v, hwWalk r.2.mem cr3 v = hwWalk s.mem cr3 v) := by
  simp only [mmuMapLargePage]
  obtain ⟨hok₁, hext₁, hpd₁⟩ := pageDirectory_spec h vaddr flags
  generalize pageDirectory A s cr3 vaddr (mmuFlagsToHw flags) = r₁ at *
  obtain ⟨_ | pd, s₁⟩ := r₁
  · exact ⟨hok₁, fun hc => absurd hc neg_enomem_ne_zero, fun _ => hext₁.walk⟩
  obtain ⟨F₁, O₁, hF₁, hO₁, hmap₁⟩ := hok₁
  have hpd := hpd₁ pd rfl
  simp only
  split
  · exact ⟨⟨F₁, O₁, hF₁, hO₁, hmap₁⟩, fun hc => absurd hc neg_einval_ne_zero,
      fun _ => hext₁.walk⟩
  rename_i hold
  obtain ⟨ho, hmap₂⟩ := hmap₁.overwrite hpd (makeEntry_large_lt hpaddr prot flags)
    (Or.inr (largeLeaf_replaces vaddr paddr prot flags hold))
  refine ⟨⟨F₁, O₁, hF₁, hO₁, hmap₂⟩, fun _ v => ?_, fun hc => absurd rfl hc⟩
  have hwalk := ho.hwWalk_large hmap₁.wf (by simp [pdPath])
    (hwPresent_leaf paddr prot flags x86PePs) (pdeIsLarge_makeEntry paddr (leafBits prot flags)) v
  simp only [sameLargePage_iff, hext₁.walk] at hwalk
  exact hwalk

end Manticore
