import Manticore.Kernel.VmFresh
import Manticore.Kernel.VmOwnership

/-!
# The hardware map and the region map

`map`, `populate` and `populate_from` add translations inside a region. No operation removes
one: `deallocate` removes the region and gives its page back, and the translation stays. As
long as only regions that never had a page are deallocated, every user translation lies in a
region and leads to a page that is in use.
-/

namespace Manticore

namespace OwnedSpace

variable {σ : Type} (A : KernelPages σ)

/-- **The hardware map follows the region map**: a user translation is for an address in a
region, and leads to a page that is not free. -/
def MapFollows (st : OwnedSpace σ) : Prop :=
  ∃ F O, A.Owns st.mem.pages F O ∧
    ∀ v < userLimit, ∀ leaf, hwWalk st.mem.mem st.vm.mmuMap v = some leaf →
      (∃ r ∈ st.vm.vmRegions, r.start ≤ v ∧ v < r.stop) ∧ paddrToPtr leaf.1 ∉ F

/-- The pages from `page` on, for a region of `size` bytes at `start`, are pages of memory that
the page allocator does not have, and can be mapped as they are. -/
structure Lendable (s : KMem σ) (start size page : ℕ) : Prop where
  dvd : 4096 ∣ page
  le : page + size ≤ 2 ^ 64
  ram : virtToPhys page + size ≤ 2 ^ 52
  /-- No large page is mapped askew. -/
  large : virtToPhys page % 2 ^ 21 = start % 2 ^ 21 ∨
    (start + size) / 2 ^ 21 ≤ (start + (2 ^ 21 - 1)) / 2 ^ 21
  busy : ∀ F O, A.Owns s.pages F O → ∀ k, 4096 * k < size → page + 4096 * k ∉ F

/-- What keeps the two maps in step: translations are made for user addresses, to memory that
is not free, and a region that goes never had a page. -/
def KeepsInStep (st : OwnedSpace σ) : SpaceOp → Prop
  | .allocate .. => True
  | .allocateFixed .. => True
  | .populate start stop => start ≤ stop ∧ stop ≤ userLimit ∧
      ((A.allocLarge st.mem.pages).1 ≠ 0 → ∀ F O, A.Owns st.mem.pages F O →
        LargePageOk A st.vm.mmuMap st.mem F)
  | .populateFrom start stop _ _ => start ≤ stop ∧ stop ≤ userLimit
  | .map start stop page => start ≤ stop ∧ stop ≤ userLimit ∧
      Lendable A st.mem start (stop - start) page
  | .deallocate start stop => ∀ r, st.vm.lookup start stop = some r → r.page = none
  | .drop => False

end OwnedSpace

/-! ## Page slots -/

section slots

variable {r x : VMRegion} (start page : ℕ)

theorem setRegionPage_keeps : ∀ {rs : List VMRegion}, x ∈ rs →
    ∃ y ∈ setRegionPage start page rs, y.start = x.start ∧ y.stop = x.stop ∧
      (x.page ≠ none → y.page ≠ none)
  | r :: rs, hx => by
      rw [setRegionPage]
      by_cases hr : r.start = start
      · rw [if_pos hr]
        rcases List.mem_cons.mp hx with rfl | hx
        · exact ⟨_, List.mem_cons_self, rfl, rfl, fun _ => Option.some_ne_none _⟩
        · exact ⟨x, List.mem_cons_of_mem _ hx, rfl, rfl, id⟩
      · rw [if_neg hr]
        rcases List.mem_cons.mp hx with rfl | hx
        · exact ⟨_, List.mem_cons_self, rfl, rfl, id⟩
        · obtain ⟨y, hy, hrest⟩ := setRegionPage_keeps hx
          exact ⟨y, List.mem_cons_of_mem _ hy, hrest⟩

variable {start page}

theorem mem_setRegionPage : ∀ {rs : List VMRegion}, x ∈ setRegionPage start page rs →
    ∃ y ∈ rs, y.start = x.start ∧ y.stop = x.stop
  | r :: rs, hx => by
      rw [setRegionPage] at hx
      by_cases hr : r.start = start
      · rw [if_pos hr] at hx
        rcases List.mem_cons.mp hx with rfl | hx
        · exact ⟨r, List.mem_cons_self, rfl, rfl⟩
        · exact ⟨x, List.mem_cons_of_mem _ hx, rfl, rfl⟩
      · rw [if_neg hr] at hx
        rcases List.mem_cons.mp hx with rfl | hx
        · exact ⟨_, List.mem_cons_self, rfl, rfl⟩
        · obtain ⟨y, hy, hrest⟩ := mem_setRegionPage hx
          exact ⟨y, List.mem_cons_of_mem _ hy, hrest⟩

theorem treeFind_setRegionPage (page : ℕ) : ∀ {rs : List VMRegion},
    treeFind VMRegion.start start rs = some r →
      treeFind VMRegion.start start (setRegionPage start page rs) =
        some { r with page := some page }
  | x :: rs, h => by
      rw [setRegionPage]
      by_cases hx : x.start = start
      · have hxr : x = r := by simpa [treeFind, hx] using h
        rw [if_pos hx, hxr, treeFind, List.find?_cons_of_pos]
        simp [← hxr, hx]
      · rw [if_neg hx, treeFind, List.find?_cons_of_neg (by simpa using hx)]
        rw [treeFind, List.find?_cons_of_neg (by simpa using hx)] at h
        exact treeFind_setRegionPage page h

end slots

theorem HandedOut.ptr_rangeLeaf {page size vaddr prot flags k : ℕ} (h : HandedOut page size)
    (hv : 4096 ∣ vaddr) (hk : 4096 * k < size) :
    paddrToPtr (rangeLeaf vaddr (virtToPhys page) size prot flags k).1 = page + 4096 * k := by
  have hptr := h.ptr_eq hk
  rw [Nat.mul_div_cancel_left k (by norm_num), Nat.mul_mod_right, Nat.add_zero] at hptr
  rw [h.rangeLeaf_fst hv hk, hptr]

theorem VMAddressSpace.mem_allocPage {σ : Type} {A : KernelPages σ} {s s' : KMem σ}
    {size page : ℕ} (h : allocPage A s size = some (page, s')) : s'.mem = s.mem := by
  unfold allocPage at h
  split_ifs at h <;>
  · obtain ⟨-, rfl⟩ := some_pair_inj h
    rfl

theorem MapOk.mmuMapRange_walk {σ : Type} {A : PageAllocator σ} {s s' : KMem σ} {F O : Set ℕ}
    {cr3 fuel vaddr paddr size prot flags : ℕ} {err : ℤ} (h : MapOk A cr3 s F O)
    (hsize : 4096 ∣ size) (hv : vaddr + size ≤ 2 ^ 47) (hp : paddr + size ≤ 2 ^ 52)
    (hfuel : 2 ^ 36 < fuel)
    (hrun : mmuMapRange A fuel s cr3 vaddr paddr size prot flags = some (err, s')) :
    ∃ k, 4096 * k ≤ size ∧ MapOkWithin A cr3 s' F O ∧
      ∀ v, hwWalk s'.mem cr3 v = if 4096 ∣ vaddr ∧ pageIndex vaddr v < k then
        some (rangeLeaf vaddr paddr size prot flags (pageIndex vaddr v))
        else hwWalk s.mem cr3 v := by
  by_cases hdvd : 4096 ∣ vaddr
  · obtain ⟨c, hc⟩ := hsize
    have hn : nrPages size = c := by
      rw [hc, nrPages]
      omega
    obtain ⟨ret, s₁, heq, hzero, hfail⟩ := mmuMapRange_progress prot flags h hdvd
      (show nrPages size ≤ 2 ^ 36 by omega) (show vaddr + size + 2 ^ 21 < 2 ^ 64 by omega)
      (show paddr + size + 4096 < 2 ^ 64 by omega) (show nrPages size < fuel by omega)
    rw [heq] at hrun
    obtain ⟨rfl, rfl⟩ := some_pair_inj hrun
    have hprog : ∃ k ≤ nrPages size, Progress A cr3 F O s.mem vaddr
        (rangeLeaf vaddr paddr size prot flags) k s₁ := by
      by_cases hret : ret = 0
      · exact ⟨_, le_rfl, hzero hret⟩
      · exact hfail hret
    obtain ⟨k, hk, hprog⟩ := hprog
    refine ⟨k, by omega, hprog.ok, fun v => ?_⟩
    rw [hprog.walk]
    simp only [hdvd, true_and]
  · rw [mmuMapRange, if_pos (isAligned_eq_false.mpr hdvd)] at hrun
    obtain ⟨-, rfl⟩ := some_pair_inj hrun
    exact ⟨0, by omega, h.within, fun v => by simp [hdvd]⟩

/-! ## The invariant -/

/-- The map at `vm.mmuMap` is in order, and its user translations are in regions with a page,
and lead to pages in use. -/
structure Tracks {σ : Type} (A : KernelPages σ) (vm : VMAddressSpace) (s : KMem σ)
    (F O : Set ℕ) : Prop where
  map : MapOk A.toPageAllocator vm.mmuMap s F O
  sizes : ∀ r ∈ vm.vmRegions, 4096 ∣ sub64 r.stop r.start
  used : ∀ v < userLimit, ∀ leaf, hwWalk s.mem vm.mmuMap v = some leaf →
    (∃ r ∈ vm.vmRegions, r.page ≠ none ∧ r.start ≤ v ∧ v < r.stop) ∧ paddrToPtr leaf.1 ∉ F

namespace Tracks

variable {σ : Type} {A : KernelPages σ} {vm vm' : VMAddressSpace} {s s' : KMem σ}
  {F O F' O' : Set ℕ} {r : VMRegion} {fuel start stop vaddr size page : ℕ} {res : Except ℤ Unit}

theorem take (h : Tracks A vm s F O) (hmap : MapOk A.toPageAllocator vm.mmuMap s' F' O')
    (hsub : F' ⊆ F) (hwalk : ∀ v, hwWalk s'.mem vm.mmuMap v = hwWalk s.mem vm.mmuMap v) :
    Tracks A vm s' F' O' := by
  refine ⟨hmap, h.sizes, fun v hv leaf hleaf => ?_⟩
  rw [hwalk] at hleaf
  exact (h.used v hv leaf hleaf).imp_right fun hnot hin => hnot (hsub hin)

theorem mapPageAt {r' : VMRegion} (h : Tracks A vm s F O)
    (hfind : treeFind VMRegion.start r.start vm.vmRegions = some r') (hstop : r'.stop = r.stop)
    (hlo : r.start ≤ vaddr) (hhi : vaddr + size ≤ r.stop) (hlim : r.stop ≤ userLimit)
    (hsize : 4096 ∣ size) (hram : virtToPhys page + size ≤ 2 ^ 52)
    (hframes : 4096 ∣ vaddr → ∀ k, 4096 * k < size →
      paddrToPtr (rangeLeaf vaddr (virtToPhys page) size r.mmuProt mmuUserPage k).1 ∉ F)
    (hfuel : 2 ^ 36 < fuel)
    (hrun : VMAddressSpace.mapPageAt A fuel vm s r vaddr page size = some (res, vm', s')) :
    ∃ F' O', F' ⊆ F ∧ Tracks A vm' s' F' O' := by
  simp only [userLimit] at hlim
  obtain ⟨err, hmm, rfl, -⟩ := VMAddressSpace.mapPageAt_spec hrun
  obtain ⟨k, hk, hok, hwalk⟩ := h.map.mmuMapRange_walk hsize (by omega) hram hfuel hmm
  obtain ⟨F', O', hF, -, hmap⟩ := hok
  refine ⟨F', O', hF, hmap, ?_, fun v hv leaf hleaf => ?_⟩
  · intro x hx
    obtain ⟨y, hy, hys, hyt⟩ := mem_setRegionPage hx
    rw [← hys, ← hyt]
    exact h.sizes y hy
  · simp only [userLimit] at hv
    have hleaf' := (hwalk v).symm.trans hleaf
    split_ifs at hleaf' with hin
    · obtain ⟨hdvd, hidx⟩ := hin
      obtain rfl := Option.some.inj hleaf'
      have hfound := treeFind_some (treeFind_setRegionPage page hfind)
      have hrange : vaddr ≤ v ∧ v < vaddr + size := by
        simp only [pageIndex] at hidx
        omega
      refine ⟨⟨_, hfound.1, Option.some_ne_none _, ?_, ?_⟩, fun hmem => ?_⟩
      · have hstart : r'.start = r.start := hfound.2
        show r'.start ≤ v
        omega
      · show v < r'.stop
        omega
      · exact hframes hdvd _ (by omega) (hF hmem)
    · obtain ⟨⟨x, hx, hpage, hlo, hhi⟩, hnot⟩ := h.used v hv leaf hleaf'
      obtain ⟨y, hy, hys, hyt, hyp⟩ := setRegionPage_keeps r.start page hx
      exact ⟨⟨y, hy, hyp hpage, hys ▸ hlo, hyt ▸ hhi⟩, fun hmem => hnot (hF hmem)⟩

/-! ### One case for each operation -/

theorem insertRegion (h : Tracks A vm s F O) (prot : ℕ) (hdvd : 4096 ∣ sub64 stop start) :
    Tracks A (vm.insert (VMRegion.new start stop prot)) s F O := by
  refine ⟨h.map, fun r hr => ?_, fun v hv leaf hleaf => ?_⟩
  · rcases mem_treeInsert.mp hr with rfl | hr
    · exact hdvd
    · exact h.sizes r hr
  · obtain ⟨⟨r, hr, hrest⟩, hnot⟩ := h.used v hv leaf hleaf
    exact ⟨⟨r, mem_treeInsert.mpr (Or.inr hr), hrest⟩, hnot⟩

theorem allocate (h : Tracks A vm s F O) (size align prot : ℕ) :
    Tracks A (vm.allocate size align prot).2 s F O := by
  rw [VMAddressSpace.allocate]
  by_cases haligned : isAligned size pageSizeSmall = false
  · rw [if_pos haligned]
    exact h
  · rw [if_neg haligned]
    dsimp only
    split_ifs
    · exact h
    · refine h.insertRegion prot ?_
      have hdvd := isAligned_eq_false.not_left.mp haligned
      simp only [sub64, add64]
      omega

theorem allocateFixed (h : Tracks A vm s F O) (start stop prot : ℕ) :
    Tracks A (vm.allocateFixed start stop prot).2 s F O := by
  rw [VMAddressSpace.allocateFixed]
  by_cases haligned : isAligned (sub64 stop start) pageSizeSmall = false
  · rw [if_pos haligned]
    exact h
  · rw [if_neg haligned]
    split_ifs
    · exact h
    · exact h.insertRegion prot (isAligned_eq_false.not_left.mp haligned)

theorem deallocate (h : Tracks A vm s F O)
    (hpage : ∀ r, vm.lookup start stop = some r → r.page = none) :
    Tracks A (vm.deallocate A s start stop).2.1 (vm.deallocate A s start stop).2.2 F O := by
  rw [VMAddressSpace.deallocate]
  cases hlook : vm.lookup start stop with
  | none => exact h
  | some r =>
    have hnone : r.page = none := hpage r hlook
    have hdelete : r.delete A s = s := by rw [VMRegion.delete, hnone]
    simp only [hdelete]
    refine ⟨h.map, fun x hx => h.sizes x (List.mem_of_mem_erase hx), fun v hv leaf hleaf => ?_⟩
    obtain ⟨⟨x, hx, hxp, hrest⟩, hnot⟩ := h.used v hv leaf hleaf
    have hne : x ≠ r := fun heq => hxp (heq ▸ hnone)
    exact ⟨⟨x, (List.mem_erase_of_ne hne).mpr hx, hxp, hrest⟩, hnot⟩

theorem found (h : Tracks A vm s F O) (hlook : vm.lookup start stop = some r) (hle : start ≤ stop)
    (hlim : stop ≤ userLimit) :
    treeFind VMRegion.start r.start vm.vmRegions = some r ∧ r.start = start ∧ r.stop = stop ∧
      sub64 stop start = stop - start ∧ 4096 ∣ stop - start := by
  obtain ⟨hfind, hstart⟩ := VMAddressSpace.lookup_start hlook
  have hstop : r.stop = stop := by simpa using (Option.filter_eq_some_iff.mp hlook).2
  have hsub : sub64 stop start = stop - start := by
    simp only [userLimit] at hlim
    exact sub64_of_le hle (by omega)
  have hsize := h.sizes r (treeFind_some hfind).1
  rw [hstart, hstop, hsub] at hsize
  exact ⟨hstart ▸ hfind, hstart, hstop, hsub, hsize⟩

theorem map_lent (h : Tracks A vm s F O) (hle : start ≤ stop) (hlim : stop ≤ userLimit)
    (hlend : OwnedSpace.Lendable A s start (stop - start) page) (hfuel : 2 ^ 36 < fuel)
    (hrun : VMAddressSpace.map A fuel vm s start stop page = some (res, vm', s')) :
    ∃ F' O', F' ⊆ F ∧ Tracks A vm' s' F' O' := by
  rw [VMAddressSpace.map] at hrun
  cases hlook : vm.lookup start stop with
  | none =>
    rw [hlook] at hrun
    obtain ⟨-, rfl, rfl⟩ := some_triple_inj hrun
    exact ⟨F, O, subset_rfl, h⟩
  | some r =>
    rw [hlook] at hrun
    obtain ⟨hfind, rfl, rfl, hsub, hsize⟩ := h.found hlook hle hlim
    rw [hsub] at hrun
    refine h.mapPageAt hfind rfl le_rfl (by omega) hlim hsize hlend.ram ?_ hfuel hrun
    intro hdvd k hk
    have hpage := hlend.dvd
    have hle' := hlend.le
    have hram := hlend.ram
    have hphys : 4096 ∣ virtToPhys page := by
      simp only [virtToPhys, sub64, kernelVma]
      omega
    rw [fst_rangeLeaf hdvd hphys (by omega) hlend.large]
    have hptr : paddrToPtr (virtToPhys page + 4096 * k) = page + 4096 * k := by
      simp only [virtToPhys, paddrToPtr, add64, sub64, kernelVma] at *
      omega
    rw [hptr]
    exact hlend.busy F O h.map.owns k hk

theorem allocPage_null (h : Tracks A vm s F O)
    (halloc : VMAddressSpace.allocPage A s size = some (0, s')) : Tracks A vm s' F O := by
  refine h.take ?_ subset_rfl fun v => by rw [VMAddressSpace.mem_allocPage halloc]
  unfold VMAddressSpace.allocPage at halloc
  split_ifs at halloc
  · obtain ⟨-, rfl⟩ := some_pair_inj halloc
    exact ⟨h.map.wf, A.allocLarge_owns h.map.owns, h.map.unused, h.map.ram⟩
  · obtain ⟨hnull, rfl⟩ := some_pair_inj halloc
    exact ⟨h.map.wf, A.alloc_null h.map.owns hnull, h.map.unused, h.map.ram⟩

theorem populate (h : Tracks A vm s F O) (hle : start ≤ stop) (hlim : stop ≤ userLimit)
    (hlarge : (A.allocLarge s.pages).1 ≠ 0 → LargePageOk A vm.mmuMap s F) (hfuel : 2 ^ 36 < fuel)
    (hrun : VMAddressSpace.populate A fuel vm s start stop = some (res, vm', s')) :
    ∃ F' O', F' ⊆ F ∧ Tracks A vm' s' F' O' := by
  rw [VMAddressSpace.populate] at hrun
  cases hlook : vm.lookup start stop with
  | none =>
    rw [hlook] at hrun
    obtain ⟨-, rfl, rfl⟩ := some_triple_inj hrun
    exact ⟨F, O, subset_rfl, h⟩
  | some r =>
    rw [hlook] at hrun
    obtain ⟨hfind, rfl, rfl, hsub, hsize⟩ := h.found hlook hle hlim
    rw [hsub] at hrun
    cases halloc : VMAddressSpace.allocPage A s (r.stop - r.start) with
    | none =>
      rw [halloc] at hrun
      obtain ⟨-, rfl, rfl⟩ := some_triple_inj hrun
      exact ⟨F, O, subset_rfl, h⟩
    | some x =>
      obtain ⟨page, s₁⟩ := x
      rw [halloc] at hrun
      dsimp only at hrun
      by_cases hz : page = 0
      · rw [if_pos hz] at hrun
        obtain ⟨-, rfl, rfl⟩ := some_triple_inj hrun
        exact ⟨F, O, subset_rfl, h.allocPage_null (hz ▸ halloc)⟩
      · rw [if_neg hz] at hrun
        obtain ⟨hpage, F₁, O₁, hsub₁, hmap₁, hkeep⟩ :=
          VMAddressSpace.keepsOut_of_allocPage h.map hlarge halloc hz
        have h₁ : Tracks A vm s₁ F₁ O₁ :=
          h.take hmap₁ hsub₁ fun v => by rw [VMAddressSpace.mem_allocPage halloc]
        obtain ⟨F', O', hF', h'⟩ := h₁.mapPageAt hfind rfl le_rfl (by omega) hlim hsize hpage.ram
          (fun hdvd k hk hin => by
            rw [hpage.ptr_rangeLeaf hdvd hk] at hin
            -- a free page is apart from the page that was taken
            rcases hkeep.free _ hin (page + 4096 * k) ⟨by omega, by omega⟩ with hlt | hlt
            · exact lt_irrefl _ hlt
            · simp only [pageSizeSmall] at hlt
              omega) hfuel hrun
        exact ⟨F', O', hF'.trans hsub₁, h'⟩

theorem alloc_memcpy (h : Tracks A vm s F O) (hne : (A.alloc s.pages).1 ≠ 0) (src : ℕ → UInt8) :
    Tracks A vm ⟨(A.alloc s.pages).2, memcpy s.mem (A.alloc s.pages).1 src pageSizeSmall⟩
      (F \ {(A.alloc s.pages).1}) (insert (A.alloc s.pages).1 O) := by
  obtain ⟨hmem, howns⟩ := A.alloc_page h.map.owns hne
  have hsame := h.map.entry_memcpy hmem src
  have hmap : MapOk A.toPageAllocator vm.mmuMap { s with pages := (A.alloc s.pages).2 } _ _ :=
    ⟨h.map.wf, howns, fun q t hq hin => h.map.unused q t hq hin.1, fun p hp => h.map.ram p hp.1⟩
  exact h.take (hmap.of_entries hsame) Set.sdiff_subset fun v => h.map.hwWalk_of_entries hsame v

theorem populatePages {srcStart : ℕ} (hlim : r.stop ≤ userLimit) (hfuel : 2 ^ 36 < fuel)
    {offsets : List ℕ} (hoff : ∀ o ∈ offsets, r.start + o + 4096 ≤ r.stop) {r' : VMRegion}
    (h : Tracks A vm s F O) (hfind : treeFind VMRegion.start r.start vm.vmRegions = some r')
    (hstop : r'.stop = r.stop)
    (hrun : VMAddressSpace.populatePages A fuel r r.start srcStart offsets vm s =
      some (res, vm', s')) :
    ∃ F' O', F' ⊆ F ∧ Tracks A vm' s' F' O' := by
  induction offsets generalizing vm s F O r' with
  | nil =>
    obtain ⟨-, rfl, rfl⟩ := some_triple_inj hrun
    exact ⟨F, O, subset_rfl, h⟩
  | cons o offsets ih =>
    rcases VMAddressSpace.populatePages_cons_cases hrun with
      ⟨hz, -, rfl, rfl⟩ | ⟨hne, res₁, vm₁, s₁, hmapped, hrest⟩
    · exact ⟨F, O, subset_rfl, h.take ⟨h.map.wf, A.alloc_null h.map.owns hz, h.map.unused,
        h.map.ram⟩ subset_rfl fun v => rfl⟩
    · have h₁ := h.alloc_memcpy hne fun i => s.mem (add64 srcStart o + i)
      obtain ⟨hpage, -, -⟩ := h.map.keepsOut_alloc hne
      have ho := hoff o List.mem_cons_self
      have hadd : add64 r.start o = r.start + o := by
        simp only [userLimit] at hlim
        exact add64_of_lt (by omega)
      rw [hadd] at hmapped
      obtain ⟨F₁, O₁, hF₁, h₂⟩ := h₁.mapPageAt hfind hstop (Nat.le_add_right _ _)
        (show r.start + o + pageSizeSmall ≤ r.stop from ho) hlim (by decide) hpage.ram
        (fun hdvd k hk hin => by
          have hk0 : k = 0 := by
            simp only [pageSizeSmall] at hk
            omega
          rw [hpage.ptr_rangeLeaf hdvd hk, hk0] at hin
          exact hin.2 rfl) hfuel hmapped
      have hsub : F₁ ⊆ F := hF₁.trans Set.sdiff_subset
      rcases hrest with ⟨e, -, -, rfl, rfl⟩ | ⟨-, hrest⟩
      · exact ⟨F₁, O₁, hsub, h₂⟩
      · have hfind₁ : treeFind VMRegion.start r.start vm₁.vmRegions =
            some { r' with page := some (A.alloc s.pages).1 } := by
          rw [VMAddressSpace.mapPageAt_regions hmapped]
          exact treeFind_setRegionPage _ hfind
        obtain ⟨F', O', hF', h'⟩ := ih (fun o ho => hoff o (List.mem_cons_of_mem _ ho)) h₂ hfind₁
          hstop hrest
        exact ⟨F', O', hF'.trans hsub, h'⟩

theorem populateFrom {srcStart srcStop : ℕ} (h : Tracks A vm s F O) (hle : start ≤ stop)
    (hlim : stop ≤ userLimit) (hfuel : 2 ^ 36 < fuel)
    (hrun : VMAddressSpace.populateFrom A fuel vm s start stop srcStart srcStop =
      some (res, vm', s')) :
    ∃ F' O', F' ⊆ F ∧ Tracks A vm' s' F' O' := by
  rw [VMAddressSpace.populateFrom] at hrun
  split_ifs at hrun
  · obtain ⟨-, rfl, rfl⟩ := some_triple_inj hrun
    exact ⟨F, O, subset_rfl, h⟩
  · cases hlook : vm.lookup start stop with
    | none =>
      rw [hlook] at hrun
      obtain ⟨-, rfl, rfl⟩ := some_triple_inj hrun
      exact ⟨F, O, subset_rfl, h⟩
    | some r =>
      rw [hlook] at hrun
      obtain ⟨hfind, rfl, rfl, hsub, hsize⟩ := h.found hlook hle hlim
      rw [hsub] at hrun
      refine populatePages hlim hfuel ?_ h hfind rfl hrun
      intro o ho
      obtain ⟨i, hi, rfl⟩ := List.mem_map.mp ho
      have hi := List.mem_range.mp hi
      obtain ⟨c, hc⟩ := hsize
      simp only [pageSizeSmall] at hi ⊢
      omega

end Tracks

/-! ## Runs -/

namespace OwnedSpace

variable {σ : Type} {A : KernelPages σ} {fuel : ℕ} {st : OwnedSpace σ} {op : SpaceOp}

theorem tracks_step (hfuel : 2 ^ 36 < fuel) (hop : KeepsInStep A st op)
    (h : ∃ F O, Tracks A st.vm st.mem F O) :
    ∃ F O, Tracks A (st.step A fuel op).vm (st.step A fuel op).mem F O := by
  obtain ⟨F, O, h⟩ := h
  cases op with
  | allocate size align prot =>
    have h' := h.allocate size align prot
    rw [step]
    generalize st.vm.allocate size align prot = x at h'
    obtain ⟨_ | ⟨start, stop⟩, vm⟩ := x
    · exact ⟨F, O, h'⟩
    · exact ⟨F, O, h'⟩
  | allocateFixed start stop prot =>
    have h' := h.allocateFixed start stop prot
    rw [step]
    generalize st.vm.allocateFixed start stop prot = x at h'
    obtain ⟨_ | _, vm⟩ := x
    · exact ⟨F, O, h'⟩
    · exact ⟨F, O, h'⟩
  | populate start stop =>
    obtain ⟨hle, hlim, hlarge⟩ := hop
    rw [step]
    cases hrun : st.vm.populate A fuel st.mem start stop with
    | none => exact ⟨F, O, h⟩
    | some x =>
      obtain ⟨F', O', -, h'⟩ := h.populate hle hlim
        (fun hne => hlarge hne F O h.map.owns) hfuel hrun
      exact ⟨F', O', h'⟩
  | populateFrom start stop srcStart srcStop =>
    obtain ⟨hle, hlim⟩ := hop
    rw [step]
    cases hrun : st.vm.populateFrom A fuel st.mem start stop srcStart srcStop with
    | none => exact ⟨F, O, h⟩
    | some x =>
      obtain ⟨F', O', -, h'⟩ := h.populateFrom hle hlim hfuel hrun
      exact ⟨F', O', h'⟩
  | map start stop page =>
    obtain ⟨hle, hlim, hlend⟩ := hop
    rw [step]
    cases hrun : st.vm.map A fuel st.mem start stop page with
    | none => exact ⟨F, O, h⟩
    | some x =>
      obtain ⟨F', O', -, h'⟩ := h.map_lent hle hlim hlend hfuel hrun
      exact ⟨F', O', h'⟩
  | deallocate start stop =>
    have h' := h.deallocate hop
    rw [step]
    generalize st.vm.deallocate A st.mem start stop = x at h'
    obtain ⟨_ | _, vm, s⟩ := x
    · exact ⟨F, O, h'⟩
    · exact ⟨F, O, h'⟩
  | drop => exact hop.elim

theorem mapFollows_of_tracks (h : ∃ F O, Tracks A st.vm st.mem F O) : MapFollows A st := by
  obtain ⟨F, O, h⟩ := h
  refine ⟨F, O, h.map.owns, fun v hv leaf hleaf => ?_⟩
  obtain ⟨⟨r, hr, -, hrange⟩, hnot⟩ := h.used v hv leaf hleaf
  exact ⟨⟨r, hr, hrange⟩, hnot⟩

/-- **Run theorem.** In every run in which translations are made for user addresses to memory
that is not free, and no region that had a page is deallocated, the hardware map follows the
region map. A part of such a run from the start is one itself, so this holds after every
operation. -/
theorem mapFollows_run {mmuMap : ℕ} {s : KMem σ} {F O : Set ℕ} {ops : List SpaceOp}
    (hmap : MapOk A.toPageAllocator mmuMap s F O)
    (hnone : ∀ v < userLimit, hwWalk s.mem mmuMap v = none) (hfuel : 2 ^ 36 < fuel)
    (hops : Guarded (step A fuel) (KeepsInStep A) (new mmuMap s) ops) :
    MapFollows A (run (step A fuel) (new mmuMap s) ops) := by
  apply mapFollows_of_tracks
  refine run_invariant_of_guarded (P := fun st => ∃ F O, Tracks A st.vm st.mem F O)
    (fun st op hop h => tracks_step hfuel hop h) hops ⟨F, O, hmap, ?_, ?_⟩
  · intro r hr
    cases hr
  · intro v hv leaf hleaf
    have hwalk : hwWalk s.mem mmuMap v = some leaf := hleaf
    rw [hnone v hv] at hwalk
    cases hwalk

/-- A page is populated, and a second region comes and goes unused. -/
theorem mapFollows_two_regions :
    let st := run (step PageArenas.kernelPages (2 ^ 36 + 1)) (new 0x1000 fourPages)
      [.allocate 0x1000 0x1000 vmProtRw, .populate 0 0x1000, .allocate 0x1000 0x1000 vmProtRw,
        .deallocate 0x1000 0x2000]
    hwWalk st.mem.mem st.vm.mmuMap 0 ≠ none ∧ MapFollows PageArenas.kernelPages st := by
  have hnone : ∀ v < userLimit, hwWalk fourPages.mem 0x1000 v = none := by
    intro v _
    have hentry : ∀ t i, hwEntry fourPages.mem t i = none := by
      intro t i
      rw [hwEntry, show entry fourPages.mem t i = 0 from entry_zero t i]
      rfl
    rw [hwWalk, hentry]
    rfl
  have hlarge : (PageArenas.kernelPages.allocLarge (step PageArenas.kernelPages (2 ^ 36 + 1)
      (new 0x1000 fourPages) (.allocate 0x1000 0x1000 vmProtRw)).mem.pages).1 = 0 := by
    decide +kernel
  have hlook : ((run (step PageArenas.kernelPages (2 ^ 36 + 1)) (new 0x1000 fourPages)
      [.allocate 0x1000 0x1000 vmProtRw, .populate 0 0x1000,
        .allocate 0x1000 0x1000 vmProtRw]).vm.lookup 0x1000 0x2000).map VMRegion.page =
      some none := by decide +kernel
  have hwalk : hwWalk (run (step PageArenas.kernelPages (2 ^ 36 + 1)) (new 0x1000 fourPages)
      [.allocate 0x1000 0x1000 vmProtRw, .populate 0 0x1000, .allocate 0x1000 0x1000 vmProtRw,
        .deallocate 0x1000 0x2000]).mem.mem 0x1000 0 ≠ none := by decide +kernel
  refine ⟨hwalk, mapFollows_run (A := PageArenas.kernelPages) mapOk_fourPages hnone (by norm_num)
    ⟨trivial, ⟨by decide, by decide, fun hne => absurd hlarge hne⟩, trivial, ?_, trivial⟩⟩
  intro r hr
  rw [run_cons, run_cons, run_cons, run_nil, hr] at hlook
  exact Option.some.inj hlook

/-- A page is populated and deallocated: the translation is still there, and no region is. -/
theorem mapFollows_deallocated :
    let st := run (step PageArenas.kernelPages (2 ^ 36 + 1)) (new 0x1000 fourPages)
      [.allocate 0x1000 0x1000 vmProtRw, .populate 0 0x1000, .deallocate 0 0x1000]
    st.vm.vmRegions = [] ∧ hwWalk st.mem.mem st.vm.mmuMap 0 ≠ none ∧
      ¬ MapFollows PageArenas.kernelPages st := by
  have hend : (run (step PageArenas.kernelPages (2 ^ 36 + 1)) (new 0x1000 fourPages)
      [.allocate 0x1000 0x1000 vmProtRw, .populate 0 0x1000, .deallocate 0 0x1000]).vm.vmRegions =
        [] ∧
      hwWalk (run (step PageArenas.kernelPages (2 ^ 36 + 1)) (new 0x1000 fourPages)
        [.allocate 0x1000 0x1000 vmProtRw, .populate 0 0x1000, .deallocate 0 0x1000]).mem.mem
        (run (step PageArenas.kernelPages (2 ^ 36 + 1)) (new 0x1000 fourPages)
        [.allocate 0x1000 0x1000 vmProtRw, .populate 0 0x1000, .deallocate 0 0x1000]).vm.mmuMap
        0 ≠ none := by decide +kernel
  intro st
  refine ⟨hend.1, hend.2, ?_⟩
  rintro ⟨F, O, -, h⟩
  obtain ⟨leaf, hleaf⟩ := Option.ne_none_iff_exists'.mp hend.2
  obtain ⟨⟨r, hr, -⟩, -⟩ := h 0 (by decide) leaf hleaf
  have hregions : st.vm.vmRegions = [] := hend.1
  rw [hregions] at hr
  cases hr

end OwnedSpace

end Manticore
