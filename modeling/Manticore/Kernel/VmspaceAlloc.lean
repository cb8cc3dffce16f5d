import Manticore.Kernel.VmAllocate

/-!
# `process_vmspace_alloc`

`kernel/sched.rs`: a region is allocated, then populated.  The second step may fail, and
the region then stays.  The call is all or nothing exactly if it is refused by `allocate`
or can be populated at a good address.
-/

namespace Manticore

/-- User addresses end where the canonical lower half does. -/
def userLimit : ℕ := 2 ^ 47

namespace VMAddressSpace

variable {σ : Type} (A : KernelPages σ)

/-- The result code, and the start address it stores through `vmr_start`. -/
def processVmspaceAlloc (fuel : ℕ) (vm : VMAddressSpace) (s : KMem σ) (size align : ℕ) :
    Option (ℤ × ℕ × VMAddressSpace × KMem σ) :=
  match vm.allocate size align vmProtRw with
  | (.error e, vm) => some (-e, 0, vm, s)
  | (.ok (start, stop), vm) => do
      let (res, vm, s) ← vm.populate A fuel s start stop
      match res with
      | .error e => some (-e, 0, vm, s)
      | .ok () => some (0, start, vm, s)

/-- Every address of `[start, stop)` is a user address with a translation. -/
def Backed (m : Mem) (cr3 start stop : ℕ) : Prop :=
  ∀ v, start ≤ v → v < stop → v < userLimit ∧ (hwWalk m cr3 v).isSome

/-- What a successful call has done. -/
structure Added (vm vm' : VMAddressSpace) (s' : KMem σ) (start size align : ℕ) : Prop where
  region : ∃ page, vm'.vmRegions.Perm (⟨start, start + size, vmProtRw, some page⟩ :: vm.vmRegions)
  size_pos : 0 < size
  no_wrap : start + size < 2 ^ 64
  aligned : align ∣ start
  disjoint : ∀ r ∈ vm.vmRegions, r.stop ≤ start ∨ start + size ≤ r.start
  backed : Backed s'.mem vm.mmuMap start (start + size)

/-- What a failed call leaves. -/
structure Untouched (vm vm' : VMAddressSpace) (s s' : KMem σ) : Prop where
  space : vm' = vm
  walk : ∀ v, hwWalk s'.mem vm.mmuMap v = hwWalk s.mem vm.mmuMap v
  pages : s'.pages = s.pages

/-- **All or nothing.** -/
def AllOrNothing (fuel : ℕ) (vm : VMAddressSpace) (s : KMem σ) (size align : ℕ) : Prop :=
  ∃ ret start vm' s', processVmspaceAlloc A fuel vm s size align = some (ret, start, vm', s') ∧
    (ret = 0 → Added vm vm' s' start size align) ∧ (ret ≠ 0 → Untouched vm vm' s s')

/-- `allocate` refuses: no whole pages, or a region starts where the new one would be. -/
def Refused (vm : VMAddressSpace) (size align : ℕ) : Prop :=
  ¬ pageSizeSmall ∣ size ∨
    vm.range (alignUp vm.upperEnd align) (add64 (alignUp vm.upperEnd align) size) ≠ []

/-- The mask that rounds up has found a multiple of `align` that is clear of the regions,
and the new region ends below the user limit. -/
structure GoodPlace (vm : VMAddressSpace) (size align : ℕ) : Prop where
  aligned : align ∣ alignUp vm.upperEnd align
  clear : ∀ r ∈ vm.vmRegions, r.stop ≤ alignUp vm.upperEnd align ∨
    alignUp vm.upperEnd align + size ≤ r.start
  below : alignUp vm.upperEnd align + size ≤ userLimit

/-- There is a page of that size, and page tables to map it with. -/
def Resources (fuel : ℕ) (vm : VMAddressSpace) (s : KMem σ) (size align : ℕ) : Prop :=
  ∃ page s', allocPage A s size = some (page, s') ∧ page ≠ 0 ∧
    (mmuMapRange A.toPageAllocator fuel s' vm.mmuMap (alignUp vm.upperEnd align)
      (virtToPhys page) size (VMRegion.new 0 0 vmProtRw).mmuProt mmuUserPage).map Prod.fst = some 0

/-! ## The tree under `populate` -/

theorem length_setRegionPage (start page : ℕ) : ∀ rs : List VMRegion,
    (setRegionPage start page rs).length = rs.length
  | [] => rfl
  | r :: rs => by
      unfold setRegionPage
      split
      · rfl
      · rw [List.length_cons, List.length_cons, length_setRegionPage]

theorem setRegionPage_treeInsert {r : VMRegion} (page : ℕ) : ∀ {rs : List VMRegion},
    (∀ x ∈ rs, x.start ≠ r.start) →
    setRegionPage r.start page (treeInsert VMRegion.start r rs) =
      treeInsert VMRegion.start { r with page := some page } rs
  | [], _ => by simp [treeInsert, setRegionPage]
  | x :: xs, h => by
      have hx : x.start ≠ r.start := h x List.mem_cons_self
      have ih := setRegionPage_treeInsert page fun y hy => h y (List.mem_cons_of_mem x hy)
      unfold treeInsert
      by_cases hlt : r.start < x.start
      · simp [hlt, setRegionPage]
      · simp [hlt, setRegionPage, hx, ih]

variable {A} {fuel size align start stop : ℕ} {vm vm' : VMAddressSpace} {s s' : KMem σ}
  {r : VMRegion} {res : Except ℤ Unit}

/-- **`map_page_at`**: the slot of the region is set whatever `mmu_map_range` returns. -/
theorem mapPageAt_spec {vaddr page : ℕ}
    (h : mapPageAt A fuel vm s r vaddr page size = some (res, vm', s')) :
    ∃ err, mmuMapRange A.toPageAllocator fuel s vm.mmuMap vaddr (virtToPhys page) size r.mmuProt
        mmuUserPage = some (err, s') ∧
      vm' = { vm with vmRegions := setRegionPage r.start page vm.vmRegions } ∧
      res = if err ≠ 0 then .error err else .ok () := by
  simp only [mapPageAt, Option.bind_eq_bind, Option.bind_eq_some_iff] at h
  obtain ⟨⟨err, s₁⟩, hmap, h⟩ := h
  split at h <;>
  · next herr =>
      obtain ⟨rfl, rfl, rfl⟩ := some_triple_inj h
      exact ⟨err, hmap, rfl, by simp [herr]⟩

theorem mapPageAt_length {vaddr page : ℕ}
    (h : mapPageAt A fuel vm s r vaddr page size = some (res, vm', s')) :
    vm'.vmRegions.length = vm.vmRegions.length := by
  obtain ⟨err, -, rfl, -⟩ := mapPageAt_spec h
  exact length_setRegionPage r.start page vm.vmRegions

theorem populate_length (h : populate A fuel vm s start stop = some (res, vm', s')) :
    vm'.vmRegions.length = vm.vmRegions.length := by
  unfold populate at h
  split at h
  · obtain ⟨-, rfl, -⟩ := some_triple_inj h
    rfl
  · split at h
    · obtain ⟨-, rfl, -⟩ := some_triple_inj h
      rfl
    · split at h
      · obtain ⟨-, rfl, -⟩ := some_triple_inj h
        rfl
      · exact mapPageAt_length h

theorem lookup_insert (hstart : ∀ x ∈ vm.vmRegions, x.start ≠ r.start) :
    (vm.insert r).lookup r.start r.stop = some r := by
  rw [lookup, insert, treeFind_treeInsert_self hstart]
  simp

theorem ne_start_of_range (hrange : vm.range start stop = []) (hlt : start < stop) :
    ∀ x ∈ vm.vmRegions, x.start ≠ start := by
  intro x hx heq
  rw [range, List.filter_eq_nil_iff] at hrange
  have := hrange x hx
  rw [decide_eq_true_eq] at this
  omega

theorem mapPageAt_ok {vaddr page : ℕ} (h : mapPageAt A fuel vm s r vaddr page size =
    some (.ok (), vm', s')) :
    mmuMapRange A.toPageAllocator fuel s vm.mmuMap vaddr (virtToPhys page) size r.mmuProt
      mmuUserPage = some (0, s') ∧
      vm' = { vm with vmRegions := setRegionPage r.start page vm.vmRegions } := by
  obtain ⟨err, hmap, hvm, hres⟩ := mapPageAt_spec h
  obtain rfl : err = 0 := by
    by_contra hne
    rw [if_pos hne] at hres
    cases hres
  exact ⟨hmap, hvm⟩

theorem mapPageAt_new {vaddr page stop prot : ℕ} (hstart : ∀ x ∈ vm.vmRegions, x.start ≠ start)
    (h : mmuMapRange A.toPageAllocator fuel s vm.mmuMap vaddr (virtToPhys page) size
      (VMRegion.new 0 0 prot).mmuProt mmuUserPage = some (0, s')) :
    mapPageAt A fuel (vm.insert (VMRegion.new start stop prot)) s (VMRegion.new start stop prot)
      vaddr page size = some (.ok (), vm.insert ⟨start, stop, prot, some page⟩, s') := by
  have hset : setRegionPage start page (vm.insert (VMRegion.new start stop prot)).vmRegions =
      (vm.insert ⟨start, stop, prot, some page⟩).vmRegions :=
    setRegionPage_treeInsert (r := VMRegion.new start stop prot) page hstart
  have hprot : (VMRegion.new start stop prot).mmuProt = (VMRegion.new 0 0 prot).mmuProt := rfl
  have hmap : (vm.insert (VMRegion.new start stop prot)).mmuMap = vm.mmuMap := rfl
  have hbase : (VMRegion.new start stop prot).start = start := rfl
  rw [mapPageAt, hprot, hmap, hbase, hset, h]
  rfl

theorem populate_of_page {page : ℕ} (hlook : vm.lookup start stop = some r)
    (hsize : sub64 stop start = size) (halloc : allocPage A s size = some (page, s'))
    (hne : page ≠ 0) :
    populate A fuel vm s start stop = mapPageAt A fuel vm s' r start page size := by
  rw [populate, hlook]
  simp only [hsize, halloc, if_neg hne]

theorem populate_ok (hlook : vm.lookup start stop = some r) (hsize : sub64 stop start = size)
    (h : populate A fuel vm s start stop = some (.ok (), vm', s')) :
    ∃ page s₁, allocPage A s size = some (page, s₁) ∧ page ≠ 0 ∧
      mapPageAt A fuel vm s₁ r start page size = some (.ok (), vm', s') := by
  rw [populate, hlook] at h
  simp only [hsize] at h
  split at h
  · cases h
  · rename_i page s₁ halloc
    split at h
    · cases h
    · rename_i hne
      exact ⟨page, s₁, halloc, hne, h⟩

theorem mapPageAt_error {vaddr page : ℕ} {e : ℤ} (h : mapPageAt A fuel vm s r vaddr page size =
    some (.error e, vm', s')) : e ≠ 0 := by
  obtain ⟨err, -, -, hres⟩ := mapPageAt_spec h
  split at hres
  · next herr => exact Except.error.inj hres ▸ herr
  · cases hres

theorem populate_error {e : ℤ} (h : populate A fuel vm s start stop =
    some (.error e, vm', s')) : e ≠ 0 := by
  unfold populate at h
  split at h
  · obtain ⟨he, -⟩ := some_pair_inj h
    rw [← Except.error.inj he]
    decide
  · split at h
    · obtain ⟨he, -⟩ := some_pair_inj h
      rw [← Except.error.inj he]
      decide
    · split at h
      · obtain ⟨he, -⟩ := some_pair_inj h
        rw [← Except.error.inj he]
        decide
      · exact mapPageAt_error h

/-! ## Pages and translations -/

theorem allocPage_spec {cr3 page : ℕ} {F O : Set ℕ}
    (hmap : MapOk A.toPageAllocator cr3 s F O)
    (hram : virtToPhys (A.allocLarge s.pages).1 < 2 ^ 52)
    (h : allocPage A s size = some (page, s')) (hne : page ≠ 0) :
    (∃ F' O', MapOk A.toPageAllocator cr3 s' F' O') ∧ virtToPhys page < 2 ^ 52 ∧
      0 < size ∧ size ≤ pageSizeLarge := by
  unfold allocPage at h
  split at h
  · rename_i hsize
    obtain ⟨rfl, rfl⟩ := some_pair_inj h
    refine ⟨⟨F, O, hmap.wf, A.allocLarge_owns hmap.owns, hmap.unused, hmap.ram⟩, hram, ?_⟩
    rw [hsize]
    decide
  · split at h
    · rename_i hsize
      obtain ⟨rfl, rfl⟩ := some_pair_inj h
      obtain ⟨hmem, howns⟩ := A.alloc_page hmap.owns hne
      refine ⟨⟨_, _, hmap.wf, howns, ?_, ?_⟩, hmap.ram _ hmem, ?_⟩
      · intro q t ht hin
        exact hmap.unused q t ht hin.1
      · intro p hp
        exact hmap.ram p hp.1
      · rw [hsize]
        decide
    · cases h

theorem backed_of_mapped {cr3 paddr prot flags : ℕ} {F O : Set ℕ}
    (hmap : MapOk A.toPageAllocator cr3 s F O)
    (h : mmuMapRange A.toPageAllocator fuel s cr3 start paddr size prot flags = some (0, s'))
    (hstop : start + size ≤ userLimit) (hpaddr : paddr < 2 ^ 52) (hsize : size ≤ pageSizeLarge)
    (hfuel : 512 < fuel) : Backed s'.mem cr3 start (start + size) := by
  simp only [userLimit, pageSizeLarge] at hstop hsize
  have hdvd := dvd_of_mmuMapRange h
  have hnr : nrPages size ≤ 512 := by
    simp only [nrPages]
    omega
  obtain ⟨ret, s₁, heq, hzero, -⟩ := mmuMapRange_progress prot flags hmap hdvd
    (show nrPages size ≤ 2 ^ 36 by omega) (show start + size + 2 ^ 21 < 2 ^ 64 by omega)
    (show paddr + size + 4096 < 2 ^ 64 by omega) (show nrPages size < fuel by omega)
  rw [heq] at h
  obtain ⟨hret, rfl⟩ := some_pair_inj h
  intro v hlo hhi
  have hidx : pageIndex start v < nrPages size := by
    simp only [pageIndex, nrPages]
    omega
  refine ⟨lt_of_lt_of_le hhi hstop, ?_⟩
  rw [(hzero hret).walk v, if_pos hidx]
  rfl

/-! ## The call -/

theorem not_refused (h : ¬ Refused vm size align) : vm.allocate size align vmProtRw =
    (.ok (alignUp vm.upperEnd align, add64 (alignUp vm.upperEnd align) size),
      vm.insert (VMRegion.new (alignUp vm.upperEnd align)
        (add64 (alignUp vm.upperEnd align) size) vmProtRw)) := by
  simp only [Refused, not_or, not_not] at h
  obtain ⟨hdvd, hrange⟩ := h
  simp [allocate, isAligned_of_dvd hdvd, hrange]

theorem refused (h : Refused vm size align) :
    processVmspaceAlloc A fuel vm s size align = some (-einval, 0, vm, s) := by
  have heq : vm.allocate size align vmProtRw = (.error einval, vm) := by
    unfold allocate
    by_cases hdvd : pageSizeSmall ∣ size
    · have hrange := h.resolve_left (not_not.mpr hdvd)
      simp [isAligned_of_dvd hdvd, List.length_pos_iff.mpr hrange]
    · simp [isAligned_eq_false.mpr hdvd]
  rw [processVmspaceAlloc, heq]

theorem added {F O : Set ℕ} (hmap : MapOk A.toPageAllocator vm.mmuMap s F O)
    (hram : virtToPhys (A.allocLarge s.pages).1 < 2 ^ 52) (hfuel : 512 < fuel)
    (hnot : ¬ Refused vm size align) (hplace : GoodPlace vm size align)
    (hres : Resources A fuel vm s size align) :
    ∃ vm' s', processVmspaceAlloc A fuel vm s size align =
        some (0, alignUp vm.upperEnd align, vm', s') ∧
      Added vm vm' s' (alignUp vm.upperEnd align) size align := by
  obtain ⟨page, s₁, halloc, hne, hmapped⟩ := hres
  obtain ⟨⟨F', O', hmap'⟩, hpaddr, hpos, hle⟩ := allocPage_spec hmap hram halloc hne
  obtain ⟨haligned, hclear, hbelow⟩ := hplace
  have hrange := (not_or.mp hnot).2
  have heq := not_refused hnot
  generalize alignUp vm.upperEnd align = start at *
  have hlimit : start + size ≤ 2 ^ 47 := hbelow
  rw [add64_of_lt (by omega)] at heq hrange
  obtain ⟨⟨err, s₂⟩, hrun, herr⟩ := Option.map_eq_some_iff.mp hmapped
  obtain rfl : err = 0 := herr
  have hstart := ne_start_of_range (not_not.mp hrange) (by omega)
  have hpop : populate A fuel (vm.insert (VMRegion.new start (start + size) vmProtRw)) s start
      (start + size) =
        some (.ok (), vm.insert ⟨start, start + size, vmProtRw, some page⟩, s₂) := by
    have hsub : sub64 (start + size) start = size := by
      rw [sub64_of_le (by omega) (by omega)]
      omega
    have hlook : (vm.insert (VMRegion.new start (start + size) vmProtRw)).lookup start
        (start + size) = some (VMRegion.new start (start + size) vmProtRw) :=
      lookup_insert (r := VMRegion.new start (start + size) vmProtRw) hstart
    rw [populate_of_page hlook hsub halloc hne]
    exact mapPageAt_new hstart hrun
  refine ⟨vm.insert ⟨start, start + size, vmProtRw, some page⟩, s₂, ?_,
    ⟨page, treeInsert_perm _ _ _⟩, hpos, by omega, haligned, hclear,
    backed_of_mapped hmap' hrun hbelow hpaddr hle hfuel⟩
  rw [processVmspaceAlloc, heq]
  simp only [hpop, Option.bind_eq_bind, Option.bind_some]

theorem processVmspaceAlloc_cases {vm₁ : VMAddressSpace} {ret : ℤ} {start' : ℕ}
    (heq : vm.allocate size align vmProtRw = (.ok (start, stop), vm₁))
    (h : processVmspaceAlloc A fuel vm s size align = some (ret, start', vm', s')) :
    (ret ≠ 0 ∧ vm'.vmRegions.length = vm₁.vmRegions.length) ∨
      (ret = 0 ∧ start' = start ∧
        populate A fuel vm₁ s start stop = some (.ok (), vm', s')) := by
  rw [processVmspaceAlloc, heq] at h
  simp only [Option.bind_eq_bind, Option.bind_eq_some_iff] at h
  obtain ⟨⟨res, vm₂, s₂⟩, hpop, h⟩ := h
  cases res with
  | error e =>
      obtain ⟨rfl, hrest⟩ := some_pair_inj h
      obtain ⟨-, hvm⟩ := Prod.mk.inj hrest
      obtain ⟨rfl, -⟩ := Prod.mk.inj hvm
      exact Or.inl ⟨neg_ne_zero.mpr (populate_error hpop), populate_length hpop⟩
  | ok u =>
      obtain ⟨rfl, hrest⟩ := some_pair_inj h
      obtain ⟨rfl, hvm⟩ := Prod.mk.inj hrest
      obtain ⟨rfl, rfl⟩ := Prod.mk.inj hvm
      exact Or.inr ⟨rfl, rfl, hpop⟩

theorem resources_of_populate (hrange : vm.range start (start + size) = []) (hpos : 0 < size)
    (hwrap : start + size < 2 ^ 64) {prot : ℕ}
    (hpop : populate A fuel (vm.insert (VMRegion.new start (start + size) prot)) s start
      (start + size) = some (.ok (), vm', s')) :
    ∃ page s₁, allocPage A s size = some (page, s₁) ∧ page ≠ 0 ∧
      (mmuMapRange A.toPageAllocator fuel s₁ vm.mmuMap start (virtToPhys page) size
        (VMRegion.new 0 0 prot).mmuProt mmuUserPage).map Prod.fst = some 0 := by
  have hstart := ne_start_of_range hrange (by omega)
  have hlook : (vm.insert (VMRegion.new start (start + size) prot)).lookup start (start + size) =
      some (VMRegion.new start (start + size) prot) :=
    lookup_insert (r := VMRegion.new start (start + size) prot) hstart
  have hsub : sub64 (start + size) start = size := by
    rw [sub64_of_le (by omega) hwrap]
    omega
  obtain ⟨page, s₁, halloc, hne, hat⟩ := populate_ok hlook hsub hpop
  have hmapped := (mapPageAt_ok hat).1
  have hprot : (VMRegion.new start (start + size) prot).mmuProt =
      (VMRegion.new 0 0 prot).mmuProt := rfl
  have hmap : (vm.insert (VMRegion.new start (start + size) prot)).mmuMap = vm.mmuMap := rfl
  rw [hprot, hmap] at hmapped
  refine ⟨page, s₁, halloc, hne, ?_⟩
  rw [hmapped]
  rfl

theorem of_allOrNothing (hnot : ¬ Refused vm size align)
    (h : AllOrNothing A fuel vm s size align) :
    GoodPlace vm size align ∧ Resources A fuel vm s size align := by
  obtain ⟨ret, start', vm', s', hrun, hadded, huntouched⟩ := h
  have hrange := not_not.mp (not_or.mp hnot).2
  rcases processVmspaceAlloc_cases (not_refused hnot) hrun with ⟨hret, hlen⟩ | ⟨hret, hst, hpop⟩
  · -- the region is still there, so something was left behind
    rw [(huntouched hret).space] at hlen
    have hgrown := hlen.trans (treeInsert_perm _ _ _).length_eq
    rw [List.length_cons] at hgrown
    omega
  · rw [hst] at hadded
    obtain ⟨-, hpos, hwrap, haligned, hclear, hbacked⟩ := hadded hret
    rw [add64_of_lt hwrap] at hpop hrange
    refine ⟨⟨haligned, hclear, ?_⟩, resources_of_populate hrange hpos hwrap hpop⟩
    have := (hbacked (alignUp vm.upperEnd align + size - 1) (by omega) (by omega)).1
    omega

/-- **`process_vmspace_alloc` is all or nothing exactly if** it is refused outright, or has
a good place, a page of the requested size and the tables to map it. -/
theorem vmspaceAlloc_allOrNothing_iff (A : KernelPages σ) (fuel : ℕ) (vm : VMAddressSpace)
    (s : KMem σ) (F O : Set ℕ) (size align : ℕ)
    (hmap : MapOk A.toPageAllocator vm.mmuMap s F O)
    (hram : virtToPhys (A.allocLarge s.pages).1 < 2 ^ 52) (hfuel : 512 < fuel) :
    AllOrNothing A fuel vm s size align ↔
      Refused vm size align ∨ GoodPlace vm size align ∧ Resources A fuel vm s size align := by
  constructor
  · intro h
    by_cases hrefused : Refused vm size align
    · exact Or.inl hrefused
    · exact Or.inr (of_allOrNothing hrefused h)
  · intro h
    by_cases hrefused : Refused vm size align
    · refine ⟨-einval, 0, vm, s, refused hrefused, ?_, ?_⟩
      · exact fun h0 => absurd h0 neg_einval_ne_zero
      · exact fun _ => ⟨rfl, fun _ => rfl, rfl⟩
    · obtain ⟨hplace, hres⟩ := h.resolve_left hrefused
      obtain ⟨vm', s', hrun, hadded⟩ := added hmap hram hfuel hrefused hplace hres
      exact ⟨0, _, vm', s', hrun, fun _ => hadded, fun h0 => absurd rfl h0⟩

/-- One small page in an empty address space. -/
theorem vmspaceAlloc_allOrNothing_one_page :
    AllOrNothing PageArenas.kernelPages 600 (new 0x1000) fourPages 0x1000 0x1000 := by
  refine (vmspaceAlloc_allOrNothing_iff PageArenas.kernelPages 600 (new 0x1000) fourPages _ _
    0x1000 0x1000 mapOk_fourPages (by decide +kernel) (by decide)).mpr
    (Or.inr ⟨⟨by decide +kernel, by simp [new], by decide +kernel⟩, ?_⟩)
  have halloc : allocPage PageArenas.kernelPages fourPages 0x1000 =
      some ((PageArenas.smallPages.alloc fourPages.pages).1,
        ⟨(PageArenas.smallPages.alloc fourPages.pages).2, fourPages.mem⟩) := by
    rw [allocPage, if_neg (by decide), if_pos (by decide)]
    rfl
  exact ⟨_, _, halloc, by decide +kernel, by decide +kernel⟩

/-- **A failed call leaves its region behind.** Two pages, in an empty address space: the
answer is `-EINVAL`, and `[0, 0x2000)` stays allocated. -/
theorem vmspaceAlloc_two_pages_not_allOrNothing :
    ¬ AllOrNothing PageArenas.kernelPages 600 (new 0x1000) fourPages 0x2000 0x1000 := by
  rintro ⟨ret, start, vm', s', hrun, -, huntouched⟩
  have heq : (processVmspaceAlloc PageArenas.kernelPages 600 (new 0x1000) fourPages 0x2000
      0x1000).map (fun r => (r.1, r.2.2.1)) =
      some (-22, ⟨[VMRegion.new 0 0x2000 vmProtRw], 0x1000⟩) := by decide +kernel
  rw [hrun] at heq
  obtain ⟨rfl, rfl⟩ := some_pair_inj heq
  exact absurd (huntouched (by decide)).space (by decide)

end VMAddressSpace

end Manticore
