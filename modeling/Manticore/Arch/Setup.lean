import Manticore.Mm.MmuGrow

/-!
# The kernel direct map

`init_mmu_map` of `arch/x86_64/setup.c` maps every memory region at its physical address plus
`KERNEL_VMA`, into the last 2 GiB of the address space.  There the sums of `mmu_map_range` can
wrap.  A region falls into one of four kinds:

* it ends below 2 GiB and starts before the last 2 MiB of them: it is mapped;
* it ends below 2 GiB and starts within the last 2 MiB: mapping it always fails;
* it starts below 2 GiB and reaches them: the end of the range wraps, and nothing of the direct
  map is mapped;
* it starts at 2 GiB or above: its virtual addresses wrap to the low ones.
-/

namespace Manticore

/-- The physical address that the walk of `vaddr` ends at. -/
def hwTranslate (m : Mem) (cr3 vaddr : ℕ) : Option ℕ :=
  (hwWalk m cr3 vaddr).map fun leaf => leaf.1 + vaddr % 4096

section init

variable {σ : Type} (A : PageAllocator σ)

/-- The loop over `mem_regions`.  `none` is out of fuel, `some none` is `panic`. -/
def mapRegions (fuel cr3 : ℕ) : List Span → KMem σ → Option (Option (KMem σ))
  | [], s => some (some s)
  | r :: regions, s => do
      let (err, s) ← mmuMapRange A fuel s cr3 (add64 r.base kernelVma) r.base r.size
        (mmuProtRead ||| mmuProtWrite ||| mmuProtExec) 0
      if err ≠ 0 then some none else mapRegions fuel cr3 regions s

/-- `init_mmu_map`: the loaded `cr3` and memory, unless the kernel panics. -/
def initMmuMap (fuel : ℕ) (s : KMem σ) (memRegions : List Span) : Option (Option (ℕ × KMem σ)) :=
  let (page, pages) := A.alloc s.pages
  if page = 0 then some none
  else do
    let s : KMem σ := ⟨pages, memset s.mem page 0 pageSizeSmall⟩
    let cr3 := ptrToPaddr page
    let s ← mapRegions A fuel cr3 memRegions s
    some (s.map fun s => (cr3, s))

end init

/-! ## A large page in the way -/

/-- The page directory for `v` has a large page where `v` is. -/
def LargeAt (cr3 v : ℕ) (m : Mem) : Prop :=
  ∃ pd, tableAt m cr3 (pdPath v) = some pd ∧ pdeIsLarge (entry m pd (pdIndex v)) = true

variable {σ : Type} {A : PageAllocator σ} {s s' : KMem σ} {F O : Set ℕ} {m m' : Mem}
  {cr3 v vaddr paddr prot flags fuel : ℕ}

theorem Grows.largeAt (h : Grows cr3 m m') (hlarge : LargeAt cr3 v m) : LargeAt cr3 v m' := by
  obtain ⟨pd, hpd, hpde⟩ := hlarge
  refine ⟨pd, h.tables _ _ hpd, ?_⟩
  rcases h.kept _ _ (pdIndex v) hpd with heq | ⟨hzero, -⟩
  · rw [heq]
    exact hpde
  · rw [hzero] at hpde
    cases hpde

theorem LargeAt.congr {w : ℕ} (h : SameLargePage v w) (hlarge : LargeAt cr3 v m) :
    LargeAt cr3 w m := by
  obtain ⟨hpath, hidx⟩ := (sameLargePage_iff v w).mpr h
  unfold LargeAt at hlarge ⊢
  rwa [hpath, hidx] at hlarge

theorem Overwrites.largeAt {pd e : ℕ} (h : WellFormed m cr3)
    (ho : Overwrites m m' cr3 (pdPath vaddr) pd (pdIndex vaddr) e) (he : pdeIsLarge e = true) :
    LargeAt cr3 vaddr m' ∧ ∀ v, LargeAt cr3 v m → LargeAt cr3 v m' := by
  have hnew : LargeAt cr3 vaddr m' := by
    refine ⟨pd, (ho.tableAt_eq h _).trans ho.at_path, ?_⟩
    rw [ho.entry_new h]
    exact he
  refine ⟨hnew, fun v hv => ?_⟩
  obtain ⟨pd', hpd', hpde'⟩ := hv
  by_cases hsame : pdPath v = pdPath vaddr ∧ pdIndex v = pdIndex vaddr
  · exact hnew.congr ((sameLargePage_iff _ _).mp ⟨hsame.1.symm, hsame.2.symm⟩)
  · refine ⟨pd', (ho.tableAt_eq h _).trans hpd', ?_⟩
    rw [ho.entry_old h hpd' hsame]
    exact hpde'

theorem mmuMapLargePage_largeAt (vaddr prot flags : ℕ) (h : MapOk A cr3 s F O)
    (hpaddr : paddr < 2 ^ 64)
    (hzero : (mmuMapLargePage A s cr3 vaddr paddr prot flags).1 = 0) :
    LargeAt cr3 vaddr (mmuMapLargePage A s cr3 vaddr paddr prot flags).2.mem ∧
      ∀ v, LargeAt cr3 v s.mem →
        LargeAt cr3 v (mmuMapLargePage A s cr3 vaddr paddr prot flags).2.mem := by
  have hgrow := pageDirectory_grows h vaddr flags
  obtain ⟨⟨F₁, O₁, -, -, hmap₁⟩, -, hpd₁⟩ := pageDirectory_spec h vaddr flags
  simp only [mmuMapLargePage] at hzero ⊢
  generalize pageDirectory A s cr3 vaddr (mmuFlagsToHw flags) = r₁ at *
  obtain ⟨_ | pd, s₁⟩ := r₁
  · exact absurd hzero neg_enomem_ne_zero
  have hpd := hpd₁ pd rfl
  simp only at hzero ⊢
  by_cases hold : (!entryIsNone (entry s₁.mem pd (pdIndex vaddr)) &&
      !pdeIsLarge (entry s₁.mem pd (pdIndex vaddr))) = true
  · rw [if_pos hold] at hzero
    exact absurd hzero neg_einval_ne_zero
  rw [if_neg hold]
  obtain ⟨ho, -⟩ := hmap₁.overwrite hpd (makeEntry_large_lt hpaddr prot flags)
    (Or.inr (largeLeaf_replaces vaddr paddr prot flags hold))
  obtain ⟨hnew, hkept⟩ := ho.largeAt hmap₁.wf (pdeIsLarge_makeEntry paddr (leafBits prot flags))
  exact ⟨hnew, fun v hv => hkept v (hgrow.largeAt hv)⟩

theorem mmuMapSmallPage_of_largeAt (h : MapOk A cr3 s F O) (hlarge : LargeAt cr3 vaddr s.mem)
    (paddr prot flags : ℕ) : (mmuMapSmallPage A s cr3 vaddr paddr prot flags).1 ≠ 0 := by
  have hgrow := pageDirectory_grows h vaddr flags
  obtain ⟨-, -, hpd₁⟩ := pageDirectory_spec h vaddr flags
  simp only [mmuMapSmallPage]
  generalize pageDirectory A s cr3 vaddr (mmuFlagsToHw flags) = r₁ at *
  obtain ⟨_ | pd, s₁⟩ := r₁
  · exact neg_enomem_ne_zero
  obtain ⟨pd', hpd', hpde⟩ := hgrow.largeAt hlarge
  obtain rfl : pd' = pd := Option.some.inj (hpd'.symm.trans (hpd₁ pd rfl))
  have hne : entry s₁.mem pd' (pdIndex vaddr) ≠ 0 := by
    intro hzero
    rw [hzero] at hpde
    cases hpde
  have hnext : nextEntry A s₁ pd' (pdIndex vaddr) (mmuFlagsToHw flags) =
      (some (entry s₁.mem pd' (pdIndex vaddr)), s₁) := by
    simp [nextEntry, entryIsNone, hne]
  simp only [hnext, hpde, if_true]
  exact neg_einval_ne_zero

theorem mapPages_largeAt {stop : ℕ} (hv : 2 ^ 21 ∣ v) (hvlt : v < stop) (hstop : stop < 2 ^ 64) :
    ∀ {fuel offset paddr paddr' : ℕ} {s : KMem σ}, MapOkWithin A cr3 s F O → paddr < 2 ^ 64 →
      (2 ^ 21 ∣ offset ∧ offset ≤ v ∨ LargeAt cr3 v s.mem) →
      mapPages (fun s offset paddr => mmuMapLargePage A s cr3 offset paddr prot flags)
        pageSizeLarge stop fuel s offset paddr = some (0, paddr', s') →
      MapOkWithin A cr3 s' F O ∧ LargeAt cr3 v s'.mem
  | 0, _, _, _, _, _, _, _, hrun => by cases hrun
  | fuel + 1, offset, paddr, paddr', s, hok, hpaddr, hinv, hrun => by
      rw [mapPages] at hrun
      by_cases hmore : offset < stop
      · rw [if_pos hmore] at hrun
        obtain ⟨F₁, O₁, hF₁, hO₁, hmap⟩ := hok
        obtain ⟨hok₁, -, -⟩ := mmuMapLargePage_spec hmap offset hpaddr prot flags
        have hlarge := mmuMapLargePage_largeAt offset prot flags hmap hpaddr
        generalize mmuMapLargePage A s cr3 offset paddr prot flags = r at *
        obtain ⟨err, s₁⟩ := r
        simp only at hrun hlarge hok₁
        by_cases herr : err = 0
        · rw [if_neg (not_not.mpr herr)] at hrun
          obtain ⟨hnew, hkept⟩ := hlarge herr
          refine mapPages_largeAt hv hvlt hstop (hok₁.mono hF₁ hO₁) (Nat.mod_lt _ (by decide))
            ?_ hrun
          -- the page at `v` is still ahead, was just mapped, or was there before
          rcases hinv with ⟨hdvd, hle⟩ | hlarge
          · rcases hle.lt_or_eq with hlt | rfl
            · obtain ⟨a, rfl⟩ := hdvd
              obtain ⟨b, rfl⟩ := hv
              left
              rw [add64_of_lt (by simp only [pageSizeLarge]; omega)]
              simp only [pageSizeLarge]
              omega
            · exact Or.inr hnew
          · exact Or.inr (hkept _ hlarge)
        · rw [if_pos herr] at hrun
          simp only [Option.some.injEq, Prod.mk.injEq] at hrun
          exact absurd hrun.1 herr
      · rw [if_neg hmore] at hrun
        simp only [Option.some.injEq, Prod.mk.injEq, true_and] at hrun
        obtain ⟨-, rfl⟩ := hrun
        exact ⟨hok, hinv.resolve_left fun h => hmore (h.2.trans_lt hvlt)⟩

/-! ## One region -/

/-- A region of memory that is made of pages.  Physical memory ends at 2^48 at the latest: the
virtual addresses of a region beyond would be those of the direct map once more. -/
structure IsRegion (r : Span) : Prop where
  base_dvd : 4096 ∣ r.base
  size_dvd : 4096 ∣ r.size
  le : r.base + r.size ≤ 2 ^ 48

/-- The mapping that `init_mmu_map` requests for a region. -/
def mapRegion (A : PageAllocator σ) (fuel cr3 : ℕ) (r : Span) (s : KMem σ) :
    Option (ℤ × KMem σ) :=
  mmuMapRange A fuel s cr3 (add64 r.base kernelVma) r.base r.size
    (mmuProtRead ||| mmuProtWrite ||| mmuProtExec) 0

/-- The region has `p`, and ends below 2 GiB. -/
def MapsDirect (r : Span) (p : ℕ) : Prop := r.base + r.size < 2 ^ 31 ∧ r.Contains p

instance (r : Span) (p : ℕ) : Decidable (MapsDirect r p) := inferInstanceAs (Decidable (_ ∧ _ ∧ _))

/-- What mapping a region does to the direct map, if it succeeds. -/
structure MapsRegion (A : PageAllocator σ) (cr3 : ℕ) (F O : Set ℕ) (r : Span) (s s' : KMem σ) :
    Prop where
  ok : MapOkWithin A cr3 s' F O
  direct : ∀ p < 2 ^ 31, hwTranslate s'.mem cr3 (p + kernelVma) =
    if MapsDirect r p then some p else hwTranslate s.mem cr3 (p + kernelVma)

variable {r : Span}

theorem Progress.mapsRegion {want : ℕ → Leaf} {n : ℕ}
    (h : Progress A cr3 F O s.mem vaddr want n s') (hr : ¬ r.base + r.size < 2 ^ 31)
    (hfar : ∀ p < 2 ^ 31, n ≤ pageIndex vaddr (p + kernelVma)) : MapsRegion A cr3 F O r s s' := by
  refine ⟨h.ok, fun p hp => ?_⟩
  rw [if_neg fun hc => hr hc.1, hwTranslate, hwTranslate, h.walk, if_neg (hfar p hp).not_gt]

theorem mapRegion_below (h : MapOk A cr3 s F O) (hr : IsRegion r)
    (hlt : r.base + r.size < 2 ^ 31) (hbase : r.base + 2 ^ 21 ≤ 2 ^ 31)
    (hfuel : 2 ^ 52 < fuel) :
    ∃ ret s', mapRegion A fuel cr3 r s = some (ret, s') ∧
      (ret = 0 → MapsRegion A cr3 F O r s s') := by
  obtain ⟨⟨a, ha⟩, ⟨b, hb⟩, -⟩ := hr
  have hpages : nrPages r.size = b := by
    rw [hb, nrPages]
    omega
  have hvaddr : add64 r.base kernelVma = r.base + kernelVma :=
    add64_of_lt (by simp only [kernelVma]; omega)
  have hdvd : 4096 ∣ r.base + kernelVma := by
    simp only [kernelVma]
    omega
  unfold mapRegion
  rw [hvaddr]
  obtain ⟨ret, s', heq, hzero, -⟩ := mmuMapRange_runs
    (mmuProtRead ||| mmuProtWrite ||| mmuProtExec) 0 h hdvd (show nrPages r.size ≤ 2 ^ 36 by omega)
    (by simp only [kernelVma]; omega) (by simp only [kernelVma]; omega)
    (show r.base + r.size + 4096 < 2 ^ 64 by omega) (show nrPages r.size < fuel by omega)
  refine ⟨ret, s', heq, fun hret => ⟨(hzero hret).ok, fun p hp => ?_⟩⟩
  have hidx : pageIndex (r.base + kernelVma) (p + kernelVma) < b ↔ MapsDirect r p := by
    simp only [pageIndex, MapsDirect, Span.Contains, kernelVma]
    omega
  simp only [hwTranslate, (hzero hret).walk, hpages, hidx]
  by_cases hin : MapsDirect r p
  · have hk : r.base + 4096 * pageIndex (r.base + kernelVma) (p + kernelVma) = p / 4096 * 4096 := by
      obtain ⟨-, hlo, hhi⟩ := hin
      simp only [pageIndex, kernelVma]
      omega
    rw [if_pos hin, if_pos hin, rangeLeaf_eq hdvd (by simp only [kernelVma]; omega) (by omega), hk]
    simp only [Option.map_some, kernelVma, Option.some.injEq]
    omega
  · rw [if_neg hin, if_neg hin]

theorem mapRegion_above (h : MapOk A cr3 s F O) (hr : IsRegion r) (hge : 2 ^ 31 ≤ r.base)
    (hfuel : 2 ^ 52 < fuel) :
    ∃ ret s', mapRegion A fuel cr3 r s = some (ret, s') ∧
      (ret = 0 → MapsRegion A cr3 F O r s s') := by
  obtain ⟨⟨a, ha⟩, ⟨b, hb⟩, hle⟩ := hr
  have hpages : nrPages r.size = b := by
    rw [hb, nrPages]
    omega
  have hvaddr : add64 r.base kernelVma = r.base - 2 ^ 31 := by
    simp only [add64, kernelVma]
    omega
  unfold mapRegion
  rw [hvaddr]
  obtain ⟨ret, s', heq, hzero, -⟩ := mmuMapRange_progress
    (mmuProtRead ||| mmuProtWrite ||| mmuProtExec) 0 h (show 4096 ∣ r.base - 2 ^ 31 by omega)
    (show nrPages r.size ≤ 2 ^ 36 by omega) (by omega)
    (show r.base + r.size + 4096 < 2 ^ 64 by omega) (show nrPages r.size < fuel by omega)
  refine ⟨ret, s', heq, fun hret => (hzero hret).mapsRegion (by omega) fun p hp => ?_⟩
  simp only [hpages, pageIndex, kernelVma]
  omega

theorem mmuMapRange_end_wrapped {size : ℕ} (hdvd : 4096 ∣ vaddr) (htop : vaddr + 2 ^ 21 ≤ 2 ^ 64)
    (hsize : size < 2 ^ 64) (hend : 2 ^ 64 ≤ vaddr + size) (hfuel : 0 < fuel) :
    mmuMapRange A fuel s cr3 vaddr paddr size prot flags = some (0, s) := by
  have haligned := isAligned_of_dvd hdvd
  have hstop : add64 vaddr size = vaddr + size - 2 ^ 64 := by
    simp only [add64]
    omega
  obtain ⟨-, hslo, -⟩ := PageArenas.alignUp_large
    (show vaddr + pageSizeLarge - 1 < 2 ^ 64 by simp only [pageSizeLarge]; omega)
  obtain ⟨-, helo, -⟩ := PageArenas.alignDown_large
    (show vaddr + size - 2 ^ 64 < 2 ^ 64 by omega)
  simp only [mmuMapRange, haligned, hstop]
  rw [if_neg (by simp), if_pos (by omega), mapPages_done hfuel (by omega)]
  rfl

theorem mmuMapRange_both_wrapped {size : ℕ} (hdvd : 4096 ∣ vaddr) (hlt : vaddr < 2 ^ 64)
    (htop : 2 ^ 64 < vaddr + 2 ^ 21) (hsize : size < 2 ^ 64) (hend : 2 ^ 64 ≤ vaddr + size)
    (hfuel : 0 < fuel) :
    mmuMapRange A fuel s cr3 vaddr paddr size prot flags =
      mmuMapRange A fuel s cr3 0 paddr (vaddr + size - 2 ^ 64) prot flags := by
  have hstop : add64 vaddr size = vaddr + size - 2 ^ 64 := by
    simp only [add64]
    omega
  have hstop₀ : add64 0 (vaddr + size - 2 ^ 64) = vaddr + size - 2 ^ 64 := by
    rw [add64_of_lt (by omega), Nat.zero_add]
  have hup : alignUp vaddr pageSizeLarge = 0 :=
    PageArenas.alignUp_large_wrap hlt (by simp only [pageSizeLarge]; omega)
  have hup₀ : alignUp 0 pageSizeLarge = 0 := by decide
  simp only [mmuMapRange, isAligned_of_dvd hdvd, isAligned_of_dvd (Nat.dvd_zero 4096), hstop, hstop₀,
    hup, hup₀, Nat.not_lt_zero, if_false, mapRun_eq hfuel,
    mapPages_done hfuel (Nat.zero_le vaddr), mapPages_done hfuel (le_refl 0)]

theorem mmuMapRange_start_wrapped {size : ℕ} (h : MapOk A cr3 s F O) (hdvd : 4096 ∣ vaddr)
    (hend : vaddr + size < 2 ^ 64) (htop : 2 ^ 64 < vaddr + 2 ^ 21) (hpaddr : paddr < 2 ^ 64)
    (hfuel : 2 ^ 52 < fuel) :
    ∃ ret s', mmuMapRange A fuel s cr3 vaddr paddr size prot flags = some (ret, s') ∧
      ret ≠ 0 := by
  have hpos : 0 < fuel := by omega
  have hup : alignUp vaddr pageSizeLarge = 0 :=
    PageArenas.alignUp_large_wrap (by omega) (by simp only [pageSizeLarge]; omega)
  have hdown : alignDown (vaddr + size) pageSizeLarge = 2 ^ 64 - 2 ^ 21 := by
    obtain ⟨⟨c, hc⟩, hle, hlt⟩ := PageArenas.alignDown_large hend
    simp only [pageSizeLarge] at *
    omega
  obtain ⟨err, paddr₁, s₁, hrun, -⟩ : ∃ err paddr' s',
      mapPages (fun s offset paddr => mmuMapLargePage A s cr3 offset paddr prot flags)
        pageSizeLarge (2 ^ 64 - 2 ^ 21) fuel s 0 paddr = some (err, paddr', s') ∧ True :=
    mapPages_returns trivial (fun _ _ _ => trivial) (by norm_num)
      (show 2 ^ 43 - 1 < fuel by omega) (Or.inl (by decide))
  simp only [mmuMapRange, isAligned_of_dvd hdvd, add64_of_lt hend, hup, hdown, Nat.not_lt_zero,
    if_false, mapRun_eq hpos, mapPages_done hpos (Nat.zero_le vaddr), hrun, Option.bind_eq_bind,
    Option.bind_some, Bool.true_eq_false, ne_eq, not_true_eq_false]
  by_cases herr : err = 0
  · subst herr
    -- the last 2 MiB are the same entry as those that end at 2^48
    obtain ⟨⟨F₁, O₁, -, -, hmap₁⟩, hlarge⟩ := mapPages_largeAt
      (show 2 ^ 21 ∣ 2 ^ 48 - 2 ^ 21 by decide) (by norm_num) (by norm_num) h.within hpaddr
      (Or.inl ⟨Nat.dvd_zero _, Nat.zero_le _⟩) hrun
    have hfail := mmuMapSmallPage_of_largeAt hmap₁
      (hlarge.congr (show SameLargePage (2 ^ 48 - 2 ^ 21) (2 ^ 64 - 2 ^ 21) by decide))
      paddr₁ prot flags
    obtain ⟨fuel, rfl⟩ := Nat.exists_eq_succ_of_ne_zero hpos.ne'
    rw [if_neg (by simp), mapPages, if_pos (by omega)]
    simp only [if_pos hfail, Option.bind_some]
    exact ⟨_, _, rfl, hfail⟩
  · rw [if_pos herr]
    exact ⟨err, s₁, rfl, herr⟩

/-- **One region.** The pages of a region that ends below 2 GiB are mapped; otherwise the direct
map stays as it was. -/
theorem mapRegion_spec (h : MapOkWithin A cr3 s F O) (hr : IsRegion r) (hfuel : 2 ^ 52 < fuel) :
    ∃ ret s', mapRegion A fuel cr3 r s = some (ret, s') ∧
      (ret = 0 → MapsRegion A cr3 F O r s s') := by
  obtain ⟨F₁, O₁, hF₁, hO₁, hmap⟩ := h
  have hwiden : ∀ s', MapsRegion A cr3 F₁ O₁ r s s' → MapsRegion A cr3 F O r s s' :=
    fun s' hs' => ⟨hs'.ok.mono hF₁ hO₁, hs'.direct⟩
  suffices hmain : ∃ ret s', mapRegion A fuel cr3 r s = some (ret, s') ∧
      (ret = 0 → MapsRegion A cr3 F₁ O₁ r s s') by
    obtain ⟨ret, s', heq, hzero⟩ := hmain
    exact ⟨ret, s', heq, fun hret => hwiden s' (hzero hret)⟩
  rcases Nat.lt_or_ge r.base (2 ^ 31) with hbase | hbase
  swap
  · exact mapRegion_above hmap hr hbase hfuel
  obtain ⟨⟨a, ha⟩, ⟨b, hb⟩, hle⟩ := hr
  have hvaddr : add64 r.base kernelVma = r.base + kernelVma :=
    add64_of_lt (by simp only [kernelVma]; omega)
  have hdvd : 4096 ∣ r.base + kernelVma := by
    simp only [kernelVma]
    omega
  have hkernel : kernelVma + 2 ^ 31 = 2 ^ 64 := by decide
  by_cases hlast : r.base + 2 ^ 21 ≤ 2 ^ 31
  · by_cases hlt : r.base + r.size < 2 ^ 31
    · exact mapRegion_below hmap ⟨⟨a, ha⟩, ⟨b, hb⟩, hle⟩ hlt hlast hfuel
    · refine ⟨0, s, ?_, fun _ => ⟨hmap.within, fun p _ => (if_neg fun hc => hlt hc.1).symm⟩⟩
      rw [mapRegion, hvaddr]
      exact mmuMapRange_end_wrapped hdvd (by omega) (by omega) (by omega) (by omega)
  · by_cases hlt : r.base + r.size < 2 ^ 31
    · obtain ⟨ret, s', heq, hne⟩ : ∃ ret s', mmuMapRange A fuel s cr3 (r.base + kernelVma) r.base
          r.size (mmuProtRead ||| mmuProtWrite ||| mmuProtExec) 0 = some (ret, s') ∧ ret ≠ 0 :=
        mmuMapRange_start_wrapped hmap hdvd (by omega) (by omega) (by omega) hfuel
      rw [mapRegion, hvaddr]
      exact ⟨ret, s', heq, fun hret => absurd hret hne⟩
    · obtain ⟨ret, s', heq, hzero, -⟩ := mmuMapRange_progress
        (mmuProtRead ||| mmuProtWrite ||| mmuProtExec) 0 hmap (Nat.dvd_zero 4096)
        (show nrPages (r.base + kernelVma + r.size - 2 ^ 64) ≤ 2 ^ 36 by
          simp only [nrPages]
          omega)
        (by omega) (show r.base + (r.base + kernelVma + r.size - 2 ^ 64) + 4096 < 2 ^ 64 by omega)
        (show nrPages (r.base + kernelVma + r.size - 2 ^ 64) < fuel by
          simp only [nrPages]
          omega)
      rw [mapRegion, hvaddr, mmuMapRange_both_wrapped hdvd (by omega) (by omega) (by omega)
        (by omega) (by omega)]
      refine ⟨ret, s', heq, fun hret => (hzero hret).mapsRegion hlt fun p hp => ?_⟩
      simp only [nrPages, pageIndex, kernelVma]
      omega

/-! ## All regions -/

theorem mapRegions_cons (A : PageAllocator σ) (fuel cr3 : ℕ) (r : Span) (regions : List Span)
    (s : KMem σ) : mapRegions A fuel cr3 (r :: regions) s =
      (mapRegion A fuel cr3 r s).bind fun x =>
        if x.1 ≠ 0 then some none else mapRegions A fuel cr3 regions x.2 := rfl

theorem mapRegions_spec (hfuel : 2 ^ 52 < fuel) : ∀ {regions : List Span} {s : KMem σ},
    MapOkWithin A cr3 s F O → (∀ r ∈ regions, IsRegion r) →
      ∃ out, mapRegions A fuel cr3 regions s = some out ∧ ∀ s', out = some s' →
        MapOkWithin A cr3 s' F O ∧ ∀ p < 2 ^ 31,
          hwTranslate s'.mem cr3 (p + kernelVma) =
            if ∃ r ∈ regions, MapsDirect r p then some p
            else hwTranslate s.mem cr3 (p + kernelVma)
  | [], s, hok, _ => by
      refine ⟨some s, rfl, fun s' hs' => ?_⟩
      obtain rfl := Option.some.inj hs'
      exact ⟨hok, fun p _ => by simp⟩
  | r :: regions, s, hok, hregions => by
      obtain ⟨ret, s₁, heq, hzero⟩ := mapRegion_spec hok (hregions r (by simp)) hfuel
      rw [mapRegions_cons, heq, Option.bind_some]
      by_cases hret : ret = 0
      · rw [if_neg (not_not.mpr hret)]
        have hone := hzero hret
        obtain ⟨out, hout, hmaps⟩ := mapRegions_spec hfuel hone.ok
          (fun r' hr' => hregions r' (List.mem_cons_of_mem r hr'))
        refine ⟨out, hout, fun s' hs' => ?_⟩
        obtain ⟨hok', hdirect⟩ := hmaps s' hs'
        refine ⟨hok', fun p hp => ?_⟩
        rw [hdirect p hp, hone.direct p hp]
        by_cases hrest : ∃ r' ∈ regions, MapsDirect r' p
        · rw [if_pos hrest, if_pos]
          obtain ⟨r', hr', hp'⟩ := hrest
          exact ⟨r', List.mem_cons_of_mem r hr', hp'⟩
        · have hiff : (∃ r' ∈ r :: regions, MapsDirect r' p) ↔ MapsDirect r p := by
            simp only [List.mem_cons, exists_eq_or_imp]
            exact or_iff_left hrest
          simp only [if_neg hrest, hiff]
      · rw [if_pos hret]
        exact ⟨none, rfl, fun s' hs' => by cases hs'⟩

theorem mapOk_newMap {s : KMem σ} (howns : A.Owns s.pages F O)
    (hram : ∀ p ∈ F, ptrToPaddr p < 2 ^ 52) (hpage : (A.alloc s.pages).1 ≠ 0) :
    MapOkWithin A (ptrToPaddr (A.alloc s.pages).1)
        ⟨(A.alloc s.pages).2, memset s.mem (A.alloc s.pages).1 0 pageSizeSmall⟩ F O ∧
      ∀ v, hwWalk (memset s.mem (A.alloc s.pages).1 0 pageSizeSmall)
        (ptrToPaddr (A.alloc s.pages).1) v = none := by
  obtain ⟨hfree, howns'⟩ := A.alloc_page howns hpage
  generalize (A.alloc s.pages).1 = page at *
  have hpg := A.page howns (Or.inl hfree)
  have hptr : paddrToPtr (ptrToPaddr page) = page := paddrToPtr_ptrToPaddr (by
    have hle := hpg.le
    simp only [pageSizeSmall] at hle
    omega)
  have hroot : IsTable (ptrToPaddr page) := by
    refine ⟨?_, hram page hfree⟩
    obtain ⟨c, hc⟩ := hpg.dvd
    rw [hc]
    simp only [ptrToPaddr, virtToPhys, sub64, kernelVma, pageSizeSmall]
    omega
  have hzero : ∀ i, entry (memset s.mem page 0 pageSizeSmall) (ptrToPaddr page) i = 0 := by
    intro i
    have hset := entry_memset (m := s.mem) hroot hroot (j := i)
    rwa [hptr, if_pos rfl] at hset
  generalize memset s.mem page 0 pageSizeSmall = m at hzero ⊢
  constructor
  · refine ⟨_, _, Set.sdiff_subset, Set.subset_insert _ _, wellFormed_of_zero hroot hzero, howns',
      ?_, fun p hp => hram p hp.1⟩
    rintro q t hq ⟨-, hne⟩
    obtain ⟨-, ht⟩ := tableAt_of_zero hzero hq
    rw [ht, hptr] at hne
    exact hne (Set.mem_singleton page)
  · intro v
    rw [hwWalk, hroot.hwAddr_eq, hwEntry_of_zero (hzero _)]
    rfl

/-- **The direct map.** `init_mmu_map` returns or panics.  If it returns, the direct map has
every page below 2 GiB of every region if and only if each of these pages is in a region that
ends below 2 GiB. -/
theorem init_mmu_map_complete_iff (A : PageAllocator σ) (fuel : ℕ) (s : KMem σ) (F O : Set ℕ)
    (memRegions : List Span) (howns : A.Owns s.pages F O)
    (hram : ∀ p ∈ F, ptrToPaddr p < 2 ^ 52) (hregions : ∀ r ∈ memRegions, IsRegion r)
    (hfuel : 2 ^ 52 < fuel) :
    ∃ out, initMmuMap A fuel s memRegions = some out ∧ ∀ cr3 s', out = some (cr3, s') →
      ((∀ r ∈ memRegions, ∀ p, r.Contains p → p < 2 ^ 31 →
          hwTranslate s'.mem cr3 (p + kernelVma) = some p) ↔
        ∀ r ∈ memRegions, ∀ p, r.Contains p → p < 2 ^ 31 →
          ∃ r' ∈ memRegions, r'.Contains p ∧ r'.base + r'.size < 2 ^ 31) := by
  simp only [initMmuMap]
  by_cases hpage : (A.alloc s.pages).1 = 0
  · rw [if_pos hpage]
    exact ⟨none, rfl, fun cr3 s' h => by cases h⟩
  rw [if_neg hpage]
  obtain ⟨hok, hempty⟩ := mapOk_newMap howns hram hpage
  obtain ⟨out, hout, hmaps⟩ := mapRegions_spec hfuel hok hregions
  rw [hout]
  refine ⟨_, rfl, fun cr3 s' h => ?_⟩
  obtain ⟨s₁, rfl, heq⟩ := Option.map_eq_some_iff.mp h
  simp only [Prod.mk.injEq] at heq
  obtain ⟨rfl, rfl⟩ := heq
  obtain ⟨-, hdirect⟩ := hmaps s₁ rfl
  have hiff : ∀ p < 2 ^ 31, hwTranslate s₁.mem (ptrToPaddr (A.alloc s.pages).1) (p + kernelVma) =
      some p ↔ ∃ r' ∈ memRegions, r'.Contains p ∧ r'.base + r'.size < 2 ^ 31 := by
    intro p hp
    rw [hdirect p hp, hwTranslate, hempty]
    by_cases hin : ∃ r ∈ memRegions, MapsDirect r p
    · rw [if_pos hin]
      obtain ⟨r', hr', hlt, hc⟩ := hin
      exact ⟨fun _ => ⟨r', hr', hc, hlt⟩, fun _ => rfl⟩
    · rw [if_neg hin]
      constructor
      · intro hc
        cases hc
      · rintro ⟨r', hr', hc, hlt⟩
        exact absurd ⟨r', hr', hlt, hc⟩ hin
  constructor
  · intro hall r hr p hc hp
    exact (hiff p hp).mp (hall r hr p hc hp)
  · intro hall r hr p hc hp
    exact (hiff p hp).mpr (hall r hr p hc hp)

/-- A region of one large page and a region of one small page, with all tables created. -/
theorem init_mmu_map_complete_two_regions :
    ∃ cr3 s', initMmuMap PageArenas.smallPages (2 ^ 52 + 1) fourPages
        [⟨0x200000, 0x200000⟩, ⟨0x400000, 0x1000⟩] = some (some (cr3, s')) ∧
      hwTranslate s'.mem cr3 (0x234567 + kernelVma) = some 0x234567 ∧
      hwTranslate s'.mem cr3 (0x400fff + kernelVma) = some 0x400fff := by
  obtain ⟨out, hout, hiff⟩ := init_mmu_map_complete_iff PageArenas.smallPages (2 ^ 52 + 1)
    fourPages _ ∅ [⟨0x200000, 0x200000⟩, ⟨0x400000, 0x1000⟩] mapOk_fourPages.owns
    mapOk_fourPages.ram
    (by
      simp only [List.mem_cons, List.not_mem_nil, or_false, forall_eq_or_imp, forall_eq]
      exact ⟨⟨by decide, by decide, by decide⟩, ⟨by decide, by decide, by decide⟩⟩)
    (by decide)
  have hsome : ((initMmuMap PageArenas.smallPages (2 ^ 52 + 1) fourPages
      [⟨0x200000, 0x200000⟩, ⟨0x400000, 0x1000⟩]).map Option.isSome) = some true := by
    decide +kernel
  rw [hout] at hsome
  obtain ⟨⟨cr3, s'⟩, rfl⟩ := Option.isSome_iff_exists.mp (Option.some.inj hsome)
  have hall := (hiff cr3 s' rfl).mpr (by
    simp only [List.mem_cons, List.not_mem_nil, or_false, forall_eq_or_imp, forall_eq,
      exists_eq_or_imp, exists_eq_left]
    exact ⟨fun p hc _ => Or.inl ⟨hc, by decide⟩, fun p hc _ => Or.inr ⟨hc, by decide⟩⟩)
  exact ⟨cr3, s', hout, hall ⟨0x200000, 0x200000⟩ (by simp) 0x234567
      ⟨by decide, by decide⟩ (by decide),
    hall ⟨0x400000, 0x1000⟩ (by simp) 0x400fff ⟨by decide, by decide⟩ (by decide)⟩

/-- **2 GiB of memory.** The end of the region wraps to 0: `mmu_map_range` returns 0 and has
mapped nothing, not even the kernel. -/
theorem init_mmu_map_two_gib :
    ∃ cr3 s', initMmuMap PageArenas.smallPages 1 fourPages [⟨0, 0x80000000⟩] =
        some (some (cr3, s')) ∧
      hwTranslate s'.mem cr3 (0x200000 + kernelVma) = none := by
  have hout : (initMmuMap PageArenas.smallPages 1 fourPages [⟨0, 0x80000000⟩]).map
      (fun out => out.map fun x => hwTranslate x.2.mem x.1 (0x200000 + kernelVma)) =
      some (some none) := by decide +kernel
  obtain ⟨out, heq, hout⟩ := Option.map_eq_some_iff.mp hout
  obtain ⟨⟨cr3, s'⟩, rfl, hnone⟩ := Option.map_eq_some_iff.mp hout
  exact ⟨cr3, s', heq, hnone⟩

end Manticore
