import Manticore.Arch.Mmu

/-!
# Mapping a range

`mmu_map_range` of `mm/mmu.c`: small pages up to the first 2 MiB boundary, large pages
from there, and small pages for what is left, with one physical address running along.

Pages of the range are counted from its start.  The loops are followed by how many
pages are mapped so far; a page of the address space is in the mapped part if its
distance from the start, in the address bits that are translated, is below that count.
-/

namespace Manticore

variable {σ : Type} (A : PageAllocator σ)

/-- One loop of `mmu_map_range`: `mapPage` at each `offset` below `stop`. Returns the
error, if any, and the running `paddr`. `none` is out of fuel. -/
def mapPages (mapPage : KMem σ → ℕ → ℕ → ℤ × KMem σ) (pageSize stop : ℕ) :
    ℕ → KMem σ → ℕ → ℕ → Option (ℤ × ℕ × KMem σ)
  | 0, _, _, _ => none
  | fuel + 1, s, offset, paddr =>
      if offset < stop then
        let (err, s) := mapPage s offset paddr
        if err ≠ 0 then some (err, paddr, s)
        else mapPages mapPage pageSize stop fuel s (add64 offset pageSize) (add64 paddr pageSize)
      else some (0, paddr, s)

/-- The guarded loops of the second branch, `if (start != stop) for (...)`. -/
def mapRun (mapPage : KMem σ → ℕ → ℕ → ℤ × KMem σ) (pageSize start stop fuel : ℕ)
    (s : KMem σ) (paddr : ℕ) : Option (ℤ × ℕ × KMem σ) :=
  if start ≠ stop then mapPages mapPage pageSize stop fuel s start paddr else some (0, paddr, s)

/-- Maps a virtual address range to a physical address range. -/
def mmuMapRange (fuel : ℕ) (s : KMem σ) (cr3 vaddr paddr size prot flags : ℕ) :
    Option (ℤ × KMem σ) :=
  if isAligned vaddr pageSizeSmall = false then some (-einval, s)
  else
    let start := vaddr
    let stop := add64 vaddr size
    let largeStart := alignUp vaddr pageSizeLarge
    let largeStop := alignDown (add64 vaddr size) pageSizeLarge
    let small := fun s offset paddr => mmuMapSmallPage A s cr3 offset paddr prot flags
    let large := fun s offset paddr => mmuMapLargePage A s cr3 offset paddr prot flags
    if largeStop < largeStart then do
      let (err, _, s) ← mapPages small pageSizeSmall stop fuel s start paddr
      some (err, s)
    else do
      let (err, paddr, s) ← mapRun small pageSizeSmall start largeStart fuel s paddr
      if err ≠ 0 then some (err, s)
      else
        let (err, paddr, s) ← mapRun large pageSizeLarge largeStart largeStop fuel s paddr
        if err ≠ 0 then some (err, s)
        else
          let (err, _, s) ← mapRun small pageSizeSmall largeStop stop fuel s paddr
          some (err, s)

/-! ## The loops -/

variable {A}

/-- **The loop rule.** `c` calls, of `w` small pages each, reach `stop`; if each call
advances `P` by `w` pages or fails and keeps it, so does the loop. -/
theorem mapPages_spec (mapPage : KMem σ → ℕ → ℕ → ℤ × KMem σ) (w stop vaddr paddr : ℕ)
    {P : ℕ → KMem σ → Prop}
    (hstep : ∀ k s, P k s → vaddr + 4096 * k < stop →
      let r := mapPage s (vaddr + 4096 * k) (paddr + 4096 * k)
      (r.1 = 0 → P (k + w) r.2) ∧ (r.1 ≠ 0 → P k r.2)) :
    ∀ {c fuel k : ℕ} {s : KMem σ}, P k s → c < fuel →
      stop ≤ vaddr + 4096 * (k + w * c) →
      (∀ b < c, vaddr + 4096 * (k + w * b) < stop) →
      vaddr + 4096 * (k + w * c) < 2 ^ 64 → paddr + 4096 * (k + w * c) < 2 ^ 64 →
      ∃ err paddr' s', mapPages mapPage (4096 * w) stop fuel s (vaddr + 4096 * k)
          (paddr + 4096 * k) = some (err, paddr', s') ∧
        (err = 0 → paddr' = paddr + 4096 * (k + w * c) ∧ P (k + w * c) s') ∧
        (err ≠ 0 → ∃ k' ≤ k + w * c, P k' s')
  | _, 0, _, _, _, hfuel, _, _, _, _ => absurd hfuel (Nat.not_lt_zero _)
  | 0, fuel + 1, k, s, hP, _, hstop, _, _, _ => by
      have hdone : ¬ vaddr + 4096 * k < stop := by simpa using hstop
      refine ⟨0, paddr + 4096 * k, s, ?_, fun _ => ⟨by simp, by simpa using hP⟩,
        fun h => absurd rfl h⟩
      rw [mapPages, if_neg hdone]
  | c + 1, fuel + 1, k, s, hP, hfuel, hstop, hlt, hv, hp => by
      have hmore : vaddr + 4096 * k < stop := by simpa using hlt 0 (by omega)
      obtain ⟨hzero, hfail⟩ := hstep k s hP hmore
      rw [mapPages, if_pos hmore]
      generalize mapPage s (vaddr + 4096 * k) (paddr + 4096 * k) = r at *
      obtain ⟨err, s₁⟩ := r
      have hshift : ∀ b, k + w + w * b = k + w * (b + 1) := fun b => by ring
      simp only at hzero hfail ⊢
      by_cases herr : err = 0
      · have hnext : ∀ x, x + 4096 * (k + w * (c + 1)) < 2 ^ 64 →
            add64 (x + 4096 * k) (4096 * w) = x + 4096 * (k + w) := by
          intro x hx
          have : k + w ≤ k + w * (c + 1) := by
            rw [← hshift]
            exact Nat.le_add_right _ _
          rw [add64_of_lt (by omega)]
          ring
        rw [if_neg (not_not.mpr herr), hnext vaddr hv, hnext paddr hp]
        have ih := mapPages_spec mapPage w stop vaddr paddr hstep (hzero herr)
          (show c < fuel by omega) (by rw [hshift]; exact hstop)
          (fun b hb => by rw [hshift]; exact hlt (b + 1) (by omega))
          (by rw [hshift]; exact hv) (by rw [hshift]; exact hp)
        rw [hshift] at ih
        exact ih
      · rw [if_pos herr]
        exact ⟨err, _, s₁, rfl, fun h => absurd h herr,
          fun _ => ⟨k, Nat.le_add_right _ _, hfail herr⟩⟩

/-! ## Progress through the range -/

/-- How many pages `v` is past `vaddr`, in the address bits that are translated. -/
def pageIndex (vaddr v : ℕ) : ℕ := (v / 2 ^ 12 + (2 ^ 36 - vaddr / 2 ^ 12 % 2 ^ 36)) % 2 ^ 36

theorem samePage_iff_pageIndex {vaddr v k : ℕ} (hk : k < 2 ^ 36) :
    SamePage v (vaddr + 4096 * k) ↔ pageIndex vaddr v = k := by
  simp only [SamePage, pageIndex]
  omega

theorem sameLargePage_iff_pageIndex {vaddr v k : ℕ} (hk : k + 512 ≤ 2 ^ 36)
    (hdvd : 2 ^ 21 ∣ vaddr + 4096 * k) :
    SameLargePage v (vaddr + 4096 * k) ↔ k ≤ pageIndex vaddr v ∧ pageIndex vaddr v < k + 512 := by
  obtain ⟨c, hc⟩ := hdvd
  simp only [SameLargePage, pageIndex]
  omega

/-- The first `n` pages of the range translate to `want`, the others as in `m`. -/
structure Progress (A : PageAllocator σ) (cr3 : ℕ) (F O : Set ℕ) (m : Mem) (vaddr : ℕ)
    (want : ℕ → Leaf) (n : ℕ) (s : KMem σ) : Prop where
  ok : MapOkWithin A cr3 s F O
  walk : ∀ v, hwWalk s.mem cr3 v =
    if pageIndex vaddr v < n then some (want (pageIndex vaddr v)) else hwWalk m cr3 v

variable {cr3 vaddr paddr prot flags : ℕ} {F O : Set ℕ} {m : Mem} {want : ℕ → Leaf} {k : ℕ}
  {s : KMem σ}

theorem Progress.small (h : Progress A cr3 F O m vaddr want k s) (hk : k < 2 ^ 36)
    (hpaddr : paddr < 2 ^ 64)
    (hwant : want k = hwSmallLeaf (makeEntry paddr (leafBits prot flags))) :
    let r := mmuMapSmallPage A s cr3 (vaddr + 4096 * k) paddr prot flags
    (r.1 = 0 → Progress A cr3 F O m vaddr want (k + 1) r.2) ∧
      (r.1 ≠ 0 → Progress A cr3 F O m vaddr want k r.2) := by
  obtain ⟨F₁, O₁, hF₁, hO₁, hmap⟩ := h.ok
  obtain ⟨hok, hzero, hfail⟩ := mmuMapSmallPage_spec hmap (vaddr + 4096 * k) hpaddr prot flags
  refine ⟨fun hr => ⟨hok.mono hF₁ hO₁, fun v => ?_⟩, fun hr => ⟨hok.mono hF₁ hO₁, fun v => ?_⟩⟩
  · rw [hzero hr, h.walk]
    by_cases hv : pageIndex vaddr v = k
    · rw [if_pos ((samePage_iff_pageIndex hk).mpr hv), if_pos (by omega), hv, hwant]
    · rw [if_neg (fun hc => hv ((samePage_iff_pageIndex hk).mp hc))]
      have hiff : pageIndex vaddr v < k + 1 ↔ pageIndex vaddr v < k := by omega
      simp only [hiff]
  · rw [hfail hr, h.walk]

theorem Progress.large (h : Progress A cr3 F O m vaddr want k s) (paddr prot flags : ℕ)
    (hk : k + 512 ≤ 2 ^ 36) (hdvd : 2 ^ 21 ∣ vaddr + 4096 * k) (hpaddr : paddr < 2 ^ 64)
    (hwant : ∀ v, k ≤ pageIndex vaddr v → pageIndex vaddr v < k + 512 →
      want (pageIndex vaddr v) =
        hwLargeLeaf (makeEntry paddr (leafBits prot flags ||| x86PePs)) v) :
    let r := mmuMapLargePage A s cr3 (vaddr + 4096 * k) paddr prot flags
    (r.1 = 0 → Progress A cr3 F O m vaddr want (k + 512) r.2) ∧
      (r.1 ≠ 0 → Progress A cr3 F O m vaddr want k r.2) := by
  obtain ⟨F₁, O₁, hF₁, hO₁, hmap⟩ := h.ok
  obtain ⟨hok, hzero, hfail⟩ := mmuMapLargePage_spec hmap (vaddr + 4096 * k) hpaddr prot flags
  refine ⟨fun hr => ⟨hok.mono hF₁ hO₁, fun v => ?_⟩, fun hr => ⟨hok.mono hF₁ hO₁, fun v => ?_⟩⟩
  · rw [hzero hr, h.walk]
    by_cases hv : SameLargePage v (vaddr + 4096 * k)
    · obtain ⟨hlo, hhi⟩ := (sameLargePage_iff_pageIndex hk hdvd).mp hv
      rw [if_pos hv, if_pos hhi, hwant v hlo hhi]
    · have hout : ¬ (k ≤ pageIndex vaddr v ∧ pageIndex vaddr v < k + 512) :=
        fun hc => hv ((sameLargePage_iff_pageIndex hk hdvd).mpr hc)
      have hiff : pageIndex vaddr v < k + 512 ↔ pageIndex vaddr v < k := by omega
      rw [if_neg hv]
      simp only [hiff]
  · rw [hfail hr, h.walk]

/-! ## The three runs -/

/-- Page `k` of the range lies in a 2 MiB block that is all inside the range. -/
def InLargeRun (vaddr size k : ℕ) : Prop :=
  vaddr ≤ (vaddr + 4096 * k) / 2 ^ 21 * 2 ^ 21 ∧
    (vaddr + 4096 * k) / 2 ^ 21 * 2 ^ 21 + 2 ^ 21 ≤ vaddr + size

instance (vaddr size k : ℕ) : Decidable (InLargeRun vaddr size k) :=
  inferInstanceAs (Decidable (_ ∧ _))

/-- The leaf that `mmu_map_range` gives page `k` of the range. -/
def rangeLeaf (vaddr paddr size prot flags k : ℕ) : Leaf :=
  if InLargeRun vaddr size k then
    hwLargeLeaf
      (makeEntry (paddr + ((vaddr + 4096 * k) / 2 ^ 21 * 2 ^ 21 - vaddr))
        (leafBits prot flags ||| x86PePs))
      (vaddr + 4096 * k)
  else hwSmallLeaf (makeEntry (paddr + 4096 * k) (leafBits prot flags))

/-- The pages of a range, the last one possibly only in part. -/
def nrPages (size : ℕ) : ℕ := (size + 4095) / 4096

variable {size fuel stop c : ℕ}

theorem mapPages_done {mapPage : KMem σ → ℕ → ℕ → ℤ × KMem σ} {pageSize offset : ℕ}
    (hfuel : 0 < fuel) (h : stop ≤ offset) :
    mapPages mapPage pageSize stop fuel s offset paddr = some (0, paddr, s) := by
  cases fuel with
  | zero => omega
  | succ fuel => rw [mapPages, if_neg (by omega)]

theorem mapPages_returns {mapPage : KMem σ → ℕ → ℕ → ℤ × KMem σ} {Q : ℤ → Prop} (hzero : Q 0)
    (hcode : ∀ s offset paddr, Q (mapPage s offset paddr).1) {pageSize stop : ℕ}
    (hstop : stop < 2 ^ 64) : ∀ {c fuel offset paddr : ℕ} {s : KMem σ}, c < fuel →
      stop = offset + pageSize * c ∨ stop ≤ offset →
      ∃ err paddr' s', mapPages mapPage pageSize stop fuel s offset paddr =
        some (err, paddr', s') ∧ Q err
  | _, 0, _, _, _, hfuel, _ => absurd hfuel (Nat.not_lt_zero _)
  | c, fuel + 1, offset, paddr, s, hfuel, hc => by
      by_cases hmore : offset < stop
      · have hq := hcode s offset paddr
        rw [mapPages, if_pos hmore]
        generalize mapPage s offset paddr = r at hq
        obtain ⟨err, s₁⟩ := r
        simp only at hq ⊢
        by_cases herr : err = 0
        · rw [if_neg (not_not.mpr herr)]
          have heq := hc.resolve_right (Nat.not_le.mpr hmore)
          obtain ⟨c, rfl⟩ : ∃ c', c = c' + 1 := by
            refine Nat.exists_eq_succ_of_ne_zero ?_
            rintro rfl
            omega
          have hstep : stop = offset + pageSize + pageSize * c := by
            rw [heq]
            ring
          have hlt : offset + pageSize < 2 ^ 64 :=
            ((Nat.le_add_right _ _).trans hstep.ge).trans_lt hstop
          rw [add64_of_lt hlt]
          exact mapPages_returns hzero hcode hstop (by omega) (Or.inl hstep)
        · rw [if_pos herr]
          exact ⟨err, paddr, s₁, rfl, hq⟩
      · exact ⟨0, paddr, s, mapPages_done (Nat.succ_pos fuel) (Nat.not_lt.mp hmore), hzero⟩

theorem mapRun_eq {mapPage : KMem σ → ℕ → ℕ → ℤ × KMem σ} {pageSize offset : ℕ}
    (hfuel : 0 < fuel) : mapRun mapPage pageSize offset stop fuel s paddr =
      mapPages mapPage pageSize stop fuel s offset paddr := by
  unfold mapRun
  split
  · rfl
  · rename_i h
    rw [mapPages_done hfuel (not_not.mp h).ge]

/-- What a run over the pages up to `n` returns. -/
def RunsTo (A : PageAllocator σ) (cr3 : ℕ) (F O : Set ℕ) (m : Mem) (vaddr paddr size prot flags n : ℕ)
    (r : Option (ℤ × ℕ × KMem σ)) : Prop :=
  ∃ err paddr' s', r = some (err, paddr', s') ∧
    (err = 0 → paddr' = paddr + 4096 * n ∧
      Progress A cr3 F O m vaddr (rangeLeaf vaddr paddr size prot flags) n s') ∧
    (err ≠ 0 → ∃ k ≤ n, Progress A cr3 F O m vaddr (rangeLeaf vaddr paddr size prot flags) k s')

theorem small_run (h : Progress A cr3 F O m vaddr (rangeLeaf vaddr paddr size prot flags) k s)
    (hfuel : c < fuel) (hlo : vaddr + 4096 * (k + c) < stop + 4096)
    (hhi : stop ≤ vaddr + 4096 * (k + c)) (hn : k + c ≤ 2 ^ 36)
    (hv : vaddr + 4096 * (k + c) < 2 ^ 64) (hp : paddr + 4096 * (k + c) < 2 ^ 64)
    (hsmall : ∀ j, k ≤ j → vaddr + 4096 * j < stop → ¬ InLargeRun vaddr size j) :
    RunsTo A cr3 F O m vaddr paddr size prot flags (k + c)
      (mapPages (fun s offset paddr => mmuMapSmallPage A s cr3 offset paddr prot flags)
        pageSizeSmall stop fuel s (vaddr + 4096 * k) (paddr + 4096 * k)) := by
  have hrun := mapPages_spec
    (fun s offset paddr => mmuMapSmallPage A s cr3 offset paddr prot flags) 1 stop vaddr paddr
    (P := fun j s => k ≤ j ∧
      Progress A cr3 F O m vaddr (rangeLeaf vaddr paddr size prot flags) j s) ?_
    ⟨le_rfl, h⟩ hfuel (by omega) (fun b hb => by omega) (by omega) (by omega)
  · rw [Nat.one_mul] at hrun
    obtain ⟨err, paddr', s', heq, hzero, hfail⟩ := hrun
    refine ⟨err, paddr', s', heq, fun he => ?_, fun he => ?_⟩
    · obtain ⟨hpad, -, hprog⟩ := hzero he
      exact ⟨hpad, hprog⟩
    · obtain ⟨j, hj, -, hprog⟩ := hfail he
      exact ⟨j, hj, hprog⟩
  · rintro j s₁ ⟨hkj, hprog⟩ hlt
    have hleaf : rangeLeaf vaddr paddr size prot flags j =
        hwSmallLeaf (makeEntry (paddr + 4096 * j) (leafBits prot flags)) := by
      rw [rangeLeaf, if_neg (hsmall j hkj hlt)]
    obtain ⟨hzero, hfail⟩ := hprog.small (by omega) (by omega) hleaf
    exact ⟨fun hr => ⟨by omega, hzero hr⟩, fun hr => ⟨hkj, hfail hr⟩⟩

theorem rangeLeaf_large {v : ℕ} (hk : k + 512 ≤ 2 ^ 36) (hdvd : 2 ^ 21 ∣ vaddr + 4096 * k)
    (hblock : vaddr + 4096 * k + 2 ^ 21 ≤ vaddr + size) (hlo : k ≤ pageIndex vaddr v)
    (hhi : pageIndex vaddr v < k + 512) :
    rangeLeaf vaddr paddr size prot flags (pageIndex vaddr v) =
      hwLargeLeaf (makeEntry (paddr + 4096 * k) (leafBits prot flags ||| x86PePs)) v := by
  have hsame : SamePage v (vaddr + 4096 * pageIndex vaddr v) :=
    (samePage_iff_pageIndex (by omega)).mpr rfl
  have hidx := ((samePage_iff _ _).mpr hsame).2
  have hstart : (vaddr + 4096 * pageIndex vaddr v) / 2 ^ 21 * 2 ^ 21 = vaddr + 4096 * k := by
    obtain ⟨c, hc⟩ := hdvd
    omega
  have hin : InLargeRun vaddr size (pageIndex vaddr v) := by
    rw [InLargeRun, hstart]
    omega
  rw [rangeLeaf, if_pos hin, hstart, Nat.add_sub_cancel_left, hwLargeLeaf, hwLargeLeaf, hidx]

theorem large_run (h : Progress A cr3 F O m vaddr (rangeLeaf vaddr paddr size prot flags) k s)
    (hfuel : c < fuel) (hstart : 2 ^ 21 ∣ vaddr + 4096 * k)
    (hstop : stop = vaddr + 4096 * (k + 512 * c)) (hle : stop ≤ vaddr + size)
    (hn : k + 512 * c ≤ 2 ^ 36) (hv : stop < 2 ^ 64)
    (hp : paddr + 4096 * (k + 512 * c) < 2 ^ 64) :
    RunsTo A cr3 F O m vaddr paddr size prot flags (k + 512 * c)
      (mapPages (fun s offset paddr => mmuMapLargePage A s cr3 offset paddr prot flags)
        pageSizeLarge stop fuel s (vaddr + 4096 * k) (paddr + 4096 * k)) := by
  have hrun := mapPages_spec
    (fun s offset paddr => mmuMapLargePage A s cr3 offset paddr prot flags) 512 stop vaddr paddr
    (P := fun j s => 2 ^ 21 ∣ vaddr + 4096 * j ∧
      Progress A cr3 F O m vaddr (rangeLeaf vaddr paddr size prot flags) j s) ?_
    ⟨hstart, h⟩ hfuel (by omega) (fun b hb => by omega) (by omega) (by omega)
  · obtain ⟨err, paddr', s', heq, hzero, hfail⟩ := hrun
    refine ⟨err, paddr', s', heq, fun he => ?_, fun he => ?_⟩
    · obtain ⟨hpad, -, hprog⟩ := hzero he
      exact ⟨hpad, hprog⟩
    · obtain ⟨j, hj, -, hprog⟩ := hfail he
      exact ⟨j, hj, hprog⟩
  · rintro j s₁ ⟨hdvd, hprog⟩ hlt
    have hroom : vaddr + 4096 * j + 2 ^ 21 ≤ stop := by
      obtain ⟨a, ha⟩ := hdvd
      obtain ⟨b, hb⟩ := hstart
      omega
    obtain ⟨hzero, hfail⟩ := hprog.large (paddr + 4096 * j) prot flags (by omega) hdvd
      (by omega)
      (fun v hlo hhi => rangeLeaf_large (by omega) hdvd (by omega) hlo hhi)
    refine ⟨fun hr => ⟨?_, hzero hr⟩, fun hr => ⟨hdvd, hfail hr⟩⟩
    obtain ⟨a, ha⟩ := hdvd
    exact ⟨a + 1, by omega⟩

theorem inLargeRun_iff {largeStart largeStop : ℕ} (hs : 2 ^ 21 ∣ largeStart)
    (hslo : vaddr ≤ largeStart) (hshi : largeStart < vaddr + 2 ^ 21) (he : 2 ^ 21 ∣ largeStop)
    (helo : largeStop ≤ vaddr + size) (hehi : vaddr + size < largeStop + 2 ^ 21) :
    InLargeRun vaddr size k ↔ largeStart ≤ vaddr + 4096 * k ∧ vaddr + 4096 * k < largeStop := by
  obtain ⟨a, rfl⟩ := hs
  obtain ⟨b, rfl⟩ := he
  simp only [InLargeRun]
  omega

theorem progress_zero (h : MapOk A cr3 s F O) (vaddr : ℕ) (want : ℕ → Leaf) :
    Progress A cr3 F O s.mem vaddr want 0 s :=
  ⟨h.within, fun v => by simp⟩

theorem isAligned_of_dvd (h : 4096 ∣ vaddr) : isAligned vaddr pageSizeSmall = true := by
  have : vaddr % 4096 = 0 := Nat.mod_eq_zero_of_dvd h
  simpa [isAligned, pageSizeSmall] using this

theorem isAligned_eq_false : isAligned vaddr pageSizeSmall = false ↔ ¬ 4096 ∣ vaddr := by
  simp [isAligned, pageSizeSmall, Nat.dvd_iff_mod_eq_zero]

theorem dvd_of_mmuMapRange {size fuel : ℕ} {s' : KMem σ}
    (h : mmuMapRange A fuel s cr3 vaddr paddr size prot flags = some (0, s')) : 4096 ∣ vaddr := by
  by_contra hnot
  rw [mmuMapRange, if_pos (isAligned_eq_false.mpr hnot)] at h
  exact absurd (some_pair_inj h).1 neg_einval_ne_zero

/-- **Mapping a range, page by page.** With enough fuel `mmu_map_range` returns; on
success all pages of the range have their leaf, on failure those up to some point.  The range
may reach into the last 2 MiB of the address space, but not start there. -/
theorem mmuMapRange_runs (prot flags : ℕ) (h : MapOk A cr3 s F O) (hdvd : 4096 ∣ vaddr)
    (hn : nrPages size ≤ 2 ^ 36) (htop : vaddr + 2 ^ 21 ≤ 2 ^ 64)
    (hv : vaddr + 4096 * nrPages size < 2 ^ 64)
    (hp : paddr + size + 4096 < 2 ^ 64) (hfuel : nrPages size < fuel) :
    ∃ ret s', mmuMapRange A fuel s cr3 vaddr paddr size prot flags = some (ret, s') ∧
      (ret = 0 → Progress A cr3 F O s.mem vaddr (rangeLeaf vaddr paddr size prot flags)
        (nrPages size) s') ∧
      (ret ≠ 0 → ∃ k ≤ nrPages size,
        Progress A cr3 F O s.mem vaddr (rangeLeaf vaddr paddr size prot flags) k s') := by
  have hN : nrPages size = (size + 4095) / 4096 := rfl
  have haligned := isAligned_of_dvd hdvd
  obtain ⟨hsdvd, hslo, hshi⟩ := PageArenas.alignUp_large
    (show vaddr + pageSizeLarge - 1 < 2 ^ 64 by simp only [pageSizeLarge]; omega)
  obtain ⟨hedvd, helo, hehi⟩ := PageArenas.alignDown_large
    (show vaddr + size < 2 ^ 64 by omega)
  simp only [mmuMapRange, haligned, add64_of_lt (show vaddr + size < 2 ^ 64 by omega)]
  generalize alignUp vaddr pageSizeLarge = ls at *
  generalize alignDown (vaddr + size) pageSizeLarge = le at *
  have hlarge := fun k => inLargeRun_iff (k := k) hsdvd hslo hshi hedvd helo hehi
  have hstart := progress_zero h vaddr (rangeLeaf vaddr paddr size prot flags)
  rw [if_neg (by simp)]
  by_cases hcross : le < ls
  · rw [if_pos hcross]
    obtain ⟨err, paddr', s', heq, hzero, hfail⟩ := small_run hstart hfuel
      (show _ < vaddr + size + 4096 by omega) (by omega) (by omega) (by omega) (by omega)
      (fun j _ hj hc => by have := (hlarge j).mp hc; omega)
    rw [Nat.mul_zero, Nat.add_zero, Nat.add_zero, Nat.zero_add] at *
    refine ⟨err, s', ?_, fun he => (hzero he).2, hfail⟩
    rw [heq]
    rfl
  rw [if_neg hcross]
  -- `a` small pages, `b` large ones, `c` small ones.
  obtain ⟨a, ha⟩ : ∃ a, ls = vaddr + 4096 * a := by
    obtain ⟨x, hx⟩ := hdvd
    obtain ⟨y, hy⟩ := hsdvd
    simp only [pageSizeLarge] at hy
    exact ⟨512 * y - x, by omega⟩
  obtain ⟨b, hb⟩ : ∃ b, le = vaddr + 4096 * (a + 512 * b) := by
    obtain ⟨x, hx⟩ := hsdvd
    obtain ⟨y, hy⟩ := hedvd
    simp only [pageSizeLarge] at hx hy
    exact ⟨y - x, by omega⟩
  obtain ⟨c, hc⟩ : ∃ c, nrPages size = a + 512 * b + c := ⟨nrPages size - (a + 512 * b), by omega⟩
  simp only [mapRun_eq (Nat.zero_lt_of_lt hfuel)]
  have hrun₁ := small_run hstart (show a < fuel by omega)
    (show _ < ls + 4096 by omega) (by omega) (by omega) (by omega) (by omega)
    (fun j _ hj hc => by have := (hlarge j).mp hc; omega)
  rw [Nat.mul_zero, Nat.add_zero, Nat.add_zero, Nat.zero_add] at hrun₁
  obtain ⟨err₁, paddr₁, s₁, heq₁, hzero₁, hfail₁⟩ := hrun₁
  simp only [heq₁, Option.bind_eq_bind, Option.bind_some]
  by_cases herr₁ : err₁ = 0
  swap
  · obtain ⟨k, hk, hprog⟩ := hfail₁ herr₁
    exact ⟨err₁, s₁, if_pos herr₁, fun he => absurd he herr₁, fun _ => ⟨k, by omega, hprog⟩⟩
  rw [if_neg (not_not.mpr herr₁)]
  obtain ⟨rfl, hprog₁⟩ := hzero₁ herr₁
  obtain ⟨err₂, paddr₂, s₂, heq₂, hzero₂, hfail₂⟩ := large_run hprog₁
    (show b < fuel by omega) (ha ▸ hsdvd) hb helo (by omega) (by omega) (by omega)
  rw [← ha] at heq₂
  simp only [heq₂, Option.bind_some]
  by_cases herr₂ : err₂ = 0
  swap
  · obtain ⟨k, hk, hprog⟩ := hfail₂ herr₂
    exact ⟨err₂, s₂, if_pos herr₂, fun he => absurd he herr₂, fun _ => ⟨k, by omega, hprog⟩⟩
  rw [if_neg (not_not.mpr herr₂)]
  obtain ⟨rfl, hprog₂⟩ := hzero₂ herr₂
  obtain ⟨err₃, paddr₃, s₃, heq₃, hzero₃, hfail₃⟩ := small_run hprog₂
    (show c < fuel by omega) (show _ < vaddr + size + 4096 by omega) (by omega) (by omega)
    (by omega) (by omega) (fun j hj _ hc => by have := (hlarge j).mp hc; omega)
  rw [← hb] at heq₃
  rw [← hc] at hzero₃ hfail₃
  simp only [heq₃, Option.bind_some]
  exact ⟨err₃, s₃, rfl, fun he => (hzero₃ he).2, hfail₃⟩

theorem mmuMapRange_progress (prot flags : ℕ) (h : MapOk A cr3 s F O) (hdvd : 4096 ∣ vaddr)
    (hn : nrPages size ≤ 2 ^ 36) (hv : vaddr + size + 2 ^ 21 < 2 ^ 64)
    (hp : paddr + size + 4096 < 2 ^ 64) (hfuel : nrPages size < fuel) :
    ∃ ret s', mmuMapRange A fuel s cr3 vaddr paddr size prot flags = some (ret, s') ∧
      (ret = 0 → Progress A cr3 F O s.mem vaddr (rangeLeaf vaddr paddr size prot flags)
        (nrPages size) s') ∧
      (ret ≠ 0 → ∃ k ≤ nrPages size,
        Progress A cr3 F O s.mem vaddr (rangeLeaf vaddr paddr size prot flags) k s') := by
  have hend : vaddr + 4096 * nrPages size < 2 ^ 64 := by
    simp only [nrPages]
    omega
  exact mmuMapRange_runs prot flags h hdvd hn (by omega) hend hp hfuel

theorem rangeLeaf_eq (hv : 4096 ∣ vaddr) (hcong : paddr % 2 ^ 21 = vaddr % 2 ^ 21)
    (hlt : paddr + 4096 * k < 2 ^ 52) :
    rangeLeaf vaddr paddr size prot flags k =
      (paddr + 4096 * k,
        leafBits prot flags ||| if InLargeRun vaddr size k then x86PePs else 0) := by
  have hp : 4096 ∣ paddr := by
    obtain ⟨c, rfl⟩ := hv
    omega
  by_cases hin : InLargeRun vaddr size k
  · rw [rangeLeaf, if_pos hin, if_pos hin, hwLargeLeaf_makeEntry]
    · have hidx := val_pgIndex 12 (vaddr + 4096 * k)
      obtain ⟨c, rfl⟩ := hv
      simp only [InLargeRun] at hin
      simp only [ptIndex, hidx]
      congr 1
      omega
    · simp only [InLargeRun] at hin
      omega
    · simp only [InLargeRun] at hin
      omega
  · have htable : IsTable (paddr + 4096 * k) := ⟨by omega, hlt⟩
    rw [rangeLeaf, if_neg hin, if_neg hin, Nat.or_zero, hwSmallLeaf_makeEntry htable]

theorem fst_rangeLeaf {size : ℕ} (hv : 4096 ∣ vaddr) (hp : 4096 ∣ paddr)
    (hlt : paddr + 4096 * k < 2 ^ 52)
    (hlarge : paddr % 2 ^ 21 = vaddr % 2 ^ 21 ∨
      (vaddr + size) / 2 ^ 21 ≤ (vaddr + (2 ^ 21 - 1)) / 2 ^ 21) :
    (rangeLeaf vaddr paddr size prot flags k).1 = paddr + 4096 * k := by
  rcases hlarge with hcong | hnone
  · rw [rangeLeaf_eq hv hcong hlt]
  · have hsmall : ¬ InLargeRun vaddr size k := by
      simp only [InLargeRun]
      omega
    have htable : IsTable (paddr + 4096 * k) := by
      constructor
      · omega
      · exact hlt
    rw [rangeLeaf, if_neg hsmall, hwSmallLeaf_makeEntry htable]

/-- **`mmu_map_range` builds exactly the requested translation.** Every page of the range
gets its frame and its leaf bits, every other page keeps its translation, and the map
stays well-formed. -/
theorem mmuMapRange_exact (A : PageAllocator σ) (s : KMem σ) (F O : Set ℕ)
    (cr3 vaddr paddr size prot flags fuel : ℕ) (h : MapOk A cr3 s F O) (hv : 4096 ∣ vaddr)
    (hp : 4096 ∣ paddr) (hcong : paddr % 2 ^ 21 = vaddr % 2 ^ 21) (hplt : paddr + size < 2 ^ 51)
    (hvlt : vaddr + size + 2 ^ 21 < 2 ^ 64)
    (halias : ∀ j k, 4096 * j < size → 4096 * k < size →
      SamePage (vaddr + 4096 * j) (vaddr + 4096 * k) → j = k)
    (hfuel : nrPages size < fuel) :
    ∃ ret s', mmuMapRange A fuel s cr3 vaddr paddr size prot flags = some (ret, s') ∧
      (ret = 0 →
        (∀ page, vaddr ≤ page → page < alignUp (vaddr + size) pageSizeSmall → 4096 ∣ page →
          hwWalk s'.mem cr3 page = some (paddr + (page - vaddr), leafBits prot flags |||
            if InLargeRun vaddr size ((page - vaddr) / 4096) then x86PePs else 0)) ∧
        (∀ v, (∀ page, vaddr ≤ page → page < alignUp (vaddr + size) pageSizeSmall →
            4096 ∣ page → ¬ SamePage v page) →
          hwWalk s'.mem cr3 v = hwWalk s.mem cr3 v) ∧
        WellFormed s'.mem cr3) := by
  have hn : nrPages size ≤ 2 ^ 36 := by
    by_contra hc
    have hbig : 4096 * 2 ^ 36 < size := by
      simp only [nrPages] at hc
      omega
    have := halias 0 (2 ^ 36) (by omega) hbig (by simp only [SamePage]; omega)
    omega
  have hup : alignUp (vaddr + size) pageSizeSmall = vaddr + 4096 * nrPages size := by
    have heq : alignUp (vaddr + size) pageSizeSmall = _ :=
      alignUp_two_pow (k := 12) (by norm_num) (by omega)
    rw [heq]
    obtain ⟨c, rfl⟩ := hv
    simp only [nrPages]
    omega
  obtain ⟨ret, s', heq, hzero, -⟩ := mmuMapRange_progress prot flags h hv hn
    hvlt (by omega : paddr + size + 4096 < 2 ^ 64) hfuel
  refine ⟨ret, s', heq, fun hret => ?_⟩
  have hprog := hzero hret
  rw [hup]
  refine ⟨?_, ?_, ?_⟩
  · intro page hlo hhi hpage
    obtain ⟨k, rfl⟩ : ∃ k, page = vaddr + 4096 * k := by
      obtain ⟨a, rfl⟩ := hv
      obtain ⟨b, rfl⟩ := hpage
      exact ⟨b - a, by omega⟩
    have hk : k < nrPages size := by omega
    have hidx : pageIndex vaddr (vaddr + 4096 * k) = k :=
      (samePage_iff_pageIndex (by omega)).mp rfl
    have hsub : vaddr + 4096 * k - vaddr = 4096 * k := Nat.add_sub_cancel_left _ _
    rw [hprog.walk, hidx, if_pos hk, hsub, Nat.mul_div_cancel_left k (by norm_num),
      rangeLeaf_eq hv hcong (by simp only [nrPages] at hk; omega)]
  · intro v hout
    rw [hprog.walk, if_neg]
    intro hc
    have hlt : pageIndex vaddr v < 2 ^ 36 := by omega
    exact hout (vaddr + 4096 * pageIndex vaddr v) (by omega) (by omega)
      (by obtain ⟨a, rfl⟩ := hv; omega) ((samePage_iff_pageIndex hlt).mpr rfl)
  · obtain ⟨F', O', -, -, hmap⟩ := hprog.ok
    exact hmap.wf

/-- Four free pages at 2 MiB, and otherwise zeroed memory. -/
def fourPages : KMem PageArenas where
  pages := PageArenas.ofSpan ⟨kernelVma + 0x200000, 0x4000⟩
  mem := fun _ => 0

theorem entry_zero (t : ℕ) (i : Fin 512) : entry (fun _ => 0) t i = 0 := by
  simp [entry, load]

theorem mapOk_of_zero {s : KMem PageArenas} {size : ℕ} (hsize : size ≤ 0x3fe00000)
    (howns : PageArenas.smallPages.Owns s.pages
      {p | pageSizeSmall ∣ p ∧ Span.Contains ⟨kernelVma + 0x200000, size⟩ p} ∅)
    (hzero : ∀ i, entry s.mem 0x1000 i = 0) :
    MapOk PageArenas.smallPages 0x1000 s
      {p | pageSizeSmall ∣ p ∧ Span.Contains ⟨kernelVma + 0x200000, size⟩ p} ∅ := by
  refine ⟨wellFormed_of_zero ⟨by decide, by decide⟩ hzero, howns, ?_, ?_⟩
  · intro q t hq hc
    obtain ⟨-, rfl⟩ := tableAt_of_zero hzero hq
    obtain ⟨-, hcov⟩ := hc
    simp [Span.Contains, paddrToPtr, add64, kernelVma] at hcov
  · rintro p ⟨-, hcov⟩
    simp only [Span.Contains, kernelVma] at hcov
    simp only [ptrToPaddr, virtToPhys, sub64, kernelVma]
    omega

theorem mapOk_fourPages_of_zero {m : Mem} (hzero : ∀ i, entry m 0x1000 i = 0) :
    MapOk PageArenas.smallPages 0x1000 { fourPages with mem := m }
      {p | pageSizeSmall ∣ p ∧ Span.Contains ⟨kernelVma + 0x200000, 0x4000⟩ p} ∅ :=
  mapOk_of_zero (by decide)
    (PageArenas.owns_ofSpan ⟨by decide, by decide, by decide, by decide, by decide⟩) hzero

theorem mapOk_fourPages : MapOk PageArenas.smallPages 0x1000 fourPages
    {p | pageSizeSmall ∣ p ∧ Span.Contains ⟨kernelVma + 0x200000, 0x4000⟩ p} ∅ :=
  mapOk_fourPages_of_zero (entry_zero 0x1000)

/-- One small page, one large page and one small page, with all tables created. -/
theorem mmuMapRange_exact_three_runs :
    ∃ s', mmuMapRange PageArenas.smallPages 600 fourPages 0x1000 0x1ff000 0x3ff000 0x202000 3 1 =
        some (0, s') ∧
      hwWalk s'.mem 0x1000 0x1ff000 =
        some (0x3ff000, x86PeP ||| x86PeRw ||| x86PeUs ||| x86PeXd) ∧
      hwWalk s'.mem 0x1000 0x234000 =
        some (0x434000, x86PeP ||| x86PeRw ||| x86PeUs ||| x86PeXd ||| x86PePs) := by
  obtain ⟨ret, s', heq, hzero⟩ := mmuMapRange_exact PageArenas.smallPages fourPages _ _ 0x1000
    0x1ff000 0x3ff000 0x202000 3 1 600 mapOk_fourPages (by decide) (by decide) (by decide)
    (by decide) (by decide)
    (by intro j k hj hk h; simp only [SamePage] at h; omega) (by decide)
  have hret : (mmuMapRange PageArenas.smallPages 600 fourPages 0x1000 0x1ff000 0x3ff000 0x202000
      3 1).map Prod.fst = some 0 := by decide +kernel
  rw [heq] at hret
  obtain rfl : ret = 0 := Option.some.inj hret
  obtain ⟨hpages, -, -⟩ := hzero rfl
  refine ⟨s', heq, ?_, ?_⟩
  · exact hpages 0x1ff000 (by decide) (by decide) (by decide)
  · exact hpages 0x234000 (by decide) (by decide) (by decide)

end Manticore
