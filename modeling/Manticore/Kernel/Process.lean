import Manticore.Base.Run
import Manticore.Kernel.VmspaceAlloc
import Manticore.Mm.MmuFrame

/-!
# Spawning processes

`process_spawn` and `parse_elf_image` of `kernel/process.rs`.  An image is what the ELF
reader gives for it.  `none` is a call that does not return: an `expect` that fails, a
fault in the kernel, or out of fuel.

A new address space is built on the map that is loaded at the time, and the only maps that
are ever loaded are those of processes.  So all processes share the first one.
-/

namespace Manticore

/-! ## The image -/

/-- A program header. -/
structure ElfSegment where
  isLoad : Bool
  isRead : Bool
  isWrite : Bool
  isExecute : Bool
  virtualAddr : ℕ
  memSize : ℕ
  offset : ℕ
  fileSize : ℕ
deriving DecidableEq, Repr

/-- An image at `start`; `bss` is the address and the size of the section. -/
structure ElfImage where
  start : ℕ
  segments : List ElfSegment
  bss : Option (ℕ × ℕ)
  entryPoint : ℕ
deriving DecidableEq, Repr

/-- No segment of the image has a page to load. -/
def ElfImage.LoadsNothing (image : ElfImage) : Prop :=
  ∀ seg ∈ image.segments, seg.isLoad = true →
    alignUp (add64 seg.virtualAddr seg.memSize) pageSizeSmall = seg.virtualAddr

def elfPhdrFlagsToProt (seg : ElfSegment) : ℕ :=
  let prot := 0
  let prot := if seg.isRead then prot ||| vmProtRead else prot
  let prot := if seg.isWrite then prot ||| vmProtWrite else prot
  if seg.isExecute then prot ||| vmProtExec else prot

/-- `memset` at addresses that the map translates. -/
def memsetUser (cr3 : ℕ) (b : UInt8) : ℕ → ℕ → Mem → Option Mem
  | 0, _, m => some m
  | n + 1, v, m => do
      let leaf ← hwWalk m cr3 v
      memsetUser cr3 b n (v + 1) (memset m (paddrToPtr leaf.1 + v % pageSizeSmall) b 1)

def zeroBss (cr3 : ℕ) (image : ElfImage) (m : Mem) : Option Mem :=
  match image.bss with
  | none => some m
  | some (addr, size) => memsetUser cr3 0 size addr m

namespace VMAddressSpace

variable {σ : Type} (A : KernelPages σ) (fuel : ℕ)

/-- The region of one segment, filled from the image; both calls are expected to succeed. -/
def loadSegment (vm : VMAddressSpace) (s : KMem σ) (start stop prot srcStart srcStop : ℕ) :
    Option (VMAddressSpace × KMem σ) :=
  match vm.allocateFixed start stop prot with
  | (.error _, _) => none
  | (.ok (), vm) => do
      let (res, vm, s) ← vm.populateFrom A fuel s start stop srcStart srcStop
      match res with
      | .error _ => none
      | .ok () => some (vm, s)

/-- The loop over the program headers. -/
def loadSegments (imageStart : ℕ) :
    List ElfSegment → VMAddressSpace → KMem σ → Option (VMAddressSpace × KMem σ)
  | [], vm, s => some (vm, s)
  | seg :: segs, vm, s =>
      if seg.isLoad then do
        let start := seg.virtualAddr
        let stop := alignUp (add64 start seg.memSize) pageSizeSmall
        let srcStart := add64 imageStart seg.offset
        let srcStop := add64 srcStart seg.fileSize
        let (vm, s) ← vm.loadSegment A fuel s start stop (elfPhdrFlagsToProt seg) srcStart srcStop
        loadSegments imageStart segs vm s
      else loadSegments imageStart segs vm s

/-- Returns the entry point. -/
def parseElfImage (image : ElfImage) (vm : VMAddressSpace) (s : KMem σ) :
    Option (ℕ × VMAddressSpace × KMem σ) := do
  let (vm, s) ← loadSegments A fuel image.start image.segments vm s
  let mem ← zeroBss vm.mmuMap image s.mem
  some (image.entryPoint, vm, { s with mem := mem })

/-- `allocate_fixed`, then `populate`: how the stack and the event buffer are made. -/
def allocatePopulated (vm : VMAddressSpace) (s : KMem σ) (start stop : ℕ) :
    Option (Except ℤ Unit × VMAddressSpace × KMem σ) :=
  match vm.allocateFixed start stop vmProtRw with
  | (.error e, vm) => some (.error e, vm, s)
  | (.ok (), vm) => vm.populate A fuel s start stop

end VMAddressSpace

def stackTop : ℕ := 0x40000000
def stackStart : ℕ := stackTop - pageSizeLarge
def eventBufStart : ℕ := 0x80000000
def eventBufEnd : ℕ := eventBufStart + 4096

/-! ## The kernel -/

/-- Memory, the map that is loaded, and the address spaces of the processes.  The event
ring and the task state of a process hold no translations and are left out. -/
structure KernelState (σ : Type) where
  mem : KMem σ
  current : ℕ
  processes : List VMAddressSpace

namespace KernelState

variable {σ : Type} (A : KernelPages σ) (fuel : ℕ)

/-- `process_spawn`. A failed call drops the address space and returns `e.errno()`, which is `-e`. -/
def spawn (st : KernelState σ) (image : ElfImage) : Option (ℤ × KernelState σ) := do
  let (_, vm, s) ← (VMAddressSpace.new st.current).parseElfImage A fuel image st.mem
  let (res, vm, s) ← vm.allocatePopulated A fuel s stackStart stackTop
  match res with
  | .error e => some (-e, { st with mem := (vm.delete A s).2 })
  | .ok () => do
      let (res, vm, s) ← vm.allocatePopulated A fuel s eventBufStart eventBufEnd
      match res with
      | .error e => some (-e, { st with mem := (vm.delete A s).2 })
      | .ok () => some (0, { st with mem := s, processes := st.processes ++ [vm] })

inductive Op where
  | spawn (image : ElfImage)
  | switchTo (idx : ℕ)
deriving DecidableEq, Repr

def step (st : KernelState σ) : Op → KernelState σ
  | .spawn image =>
      match st.spawn A fuel image with
      | none => st
      | some (_, st') => st'
  | .switchTo idx =>
      match st.processes[idx]? with
      | none => st
      | some p => { st with current := p.mmuMap }

/-- After boot: one map, no process. -/
def boot (s : KMem σ) (current : ℕ) : KernelState σ := ⟨s, current, []⟩

/-- `v` is a user address that the map translates to `leaf`, for user mode. -/
def UserTranslates (m : Mem) (cr3 v : ℕ) (leaf : Leaf) : Prop :=
  v < userLimit ∧ hwWalk m cr3 v = some leaf ∧ leaf.2 &&& x86PeUs ≠ 0

/-- **Nobody is disturbed**: the user translations of the processes that were there stay,
and no process can reach a page of another one's regions. -/
structure Undisturbed (st st' : KernelState σ) : Prop where
  kept : ∀ p ∈ st.processes, ∀ v leaf, UserTranslates st'.mem.mem p.mmuMap v leaf ↔
    UserTranslates st.mem.mem p.mmuMap v leaf
  apart : ∀ (i j : ℕ) (p q : VMAddressSpace), st'.processes[i]? = some p → st'.processes[j]? = some q → i ≠ j →
    ∀ r ∈ p.vmRegions, ∀ page, r.page = some page → ∀ v leaf,
      UserTranslates st'.mem.mem q.mmuMap v leaf →
        ¬ (virtToPhys page ≤ leaf.1 ∧ leaf.1 < virtToPhys page + (r.stop - r.start))

/-- The `.bss` of the image is not laid over page tables. -/
def BssClear (st : KernelState σ) (image : ElfImage) : Prop :=
  ∀ vm s m, VMAddressSpace.loadSegments A fuel image.start image.segments
      (VMAddressSpace.new st.current) st.mem = some (vm, s) →
    zeroBss st.current image s.mem = some m →
    ∀ q t i, tableAt s.mem st.current q = some t → entry m t i = entry s.mem t i

end KernelState

/-! ## The operations keep the map in order -/

namespace VMAddressSpace

variable {σ : Type} {A : KernelPages σ} {fuel : ℕ} {vm vm' : VMAddressSpace} {s s' : KMem σ}
  {start stop srcStart srcStop : ℕ} {r : VMRegion} {res : Except ℤ Unit} {F O : Set ℕ}

/-- `vm'` has the map of `vm`, and it is in order in `s'` if it was in `s`. -/
structure KeepsMap (A : KernelPages σ) (vm : VMAddressSpace) (s : KMem σ) (vm' : VMAddressSpace)
    (s' : KMem σ) : Prop where
  map_eq : vm'.mmuMap = vm.mmuMap
  ok : ∀ F O, MapOkWithin A.toPageAllocator vm.mmuMap s F O →
    MapOkWithin A.toPageAllocator vm.mmuMap s' F O

theorem KeepsMap.refl (A : KernelPages σ) (vm : VMAddressSpace) (s : KMem σ) :
    KeepsMap A vm s vm s := ⟨rfl, fun _ _ h => h⟩

theorem KeepsMap.of_some_eq {res' : Except ℤ Unit} (A : KernelPages σ)
    (h : some (res', vm, s) = some (res, vm', s')) : KeepsMap A vm s vm' s' := by
  obtain ⟨-, rfl, rfl⟩ := some_triple_inj h
  exact KeepsMap.refl A _ _

theorem KeepsMap.trans {vm₁ : VMAddressSpace} {s₁ : KMem σ} (h : KeepsMap A vm s vm₁ s₁)
    (h' : KeepsMap A vm₁ s₁ vm' s') : KeepsMap A vm s vm' s' := by
  refine ⟨h'.map_eq.trans h.map_eq, fun F O hok => ?_⟩
  have hok₁ := h.ok F O hok
  rw [← h.map_eq] at hok₁ ⊢
  exact h'.ok F O hok₁

theorem keepsMap_mapPageAt {vaddr page size : ℕ}
    (h : mapPageAt A fuel vm s r vaddr page size = some (res, vm', s')) :
    KeepsMap A vm s vm' s' := by
  obtain ⟨err, hrun, rfl, -⟩ := mapPageAt_spec h
  exact ⟨rfl, fun F O hmap => hmap.mmuMapRange (sub64_lt _ _) hrun⟩

theorem keepsMap_allocPage {page size : ℕ} {s₁ : KMem σ} (vm : VMAddressSpace)
    (h : allocPage A s size = some (page, s₁)) : KeepsMap A vm s vm s₁ := by
  refine ⟨rfl, fun F O hmap => ?_⟩
  unfold allocPage at h
  split at h
  · obtain ⟨-, rfl⟩ := some_pair_inj h
    obtain ⟨F₁, O₁, hF, hO, hmap⟩ := hmap
    exact ⟨F₁, O₁, hF, hO, hmap.wf, A.allocLarge_owns hmap.owns, hmap.unused, hmap.ram⟩
  · split at h
    · obtain ⟨-, rfl⟩ := some_pair_inj h
      exact hmap.alloc
    · cases h

theorem keepsMap_populate (h : populate A fuel vm s start stop = some (res, vm', s')) :
    KeepsMap A vm s vm' s' := by
  unfold populate at h
  split at h
  · exact KeepsMap.of_some_eq A h
  · split at h
    · exact KeepsMap.of_some_eq A h
    · rename_i page s₁ halloc
      have hkeep := keepsMap_allocPage vm halloc
      split at h
      · obtain ⟨-, rfl, rfl⟩ := some_triple_inj h
        exact hkeep
      · exact hkeep.trans (keepsMap_mapPageAt h)

theorem keepsMap_populatePages {offsets : List ℕ}
    (h : populatePages A fuel r start srcStart offsets vm s = some (res, vm', s')) :
    KeepsMap A vm s vm' s' := by
  induction offsets generalizing vm s with
  | nil =>
      rw [populatePages] at h
      exact KeepsMap.of_some_eq A h
  | cons offset rest ih =>
      rcases populatePages_cons_cases h with ⟨-, -, rfl, rfl⟩ | ⟨hne, res₁, vm₁, s₁, hat, hrest⟩
      · exact ⟨rfl, fun F O hmap => hmap.alloc⟩
      · have hcopy : ∀ src, KeepsMap A vm s vm (filled A.toPageAllocator s src) := fun src =>
          ⟨rfl, fun F O hmap => hmap.alloc_memcpy hne src⟩
        have hkeep := (hcopy _).trans (keepsMap_mapPageAt hat)
        rcases hrest with ⟨e, -, -, rfl, rfl⟩ | ⟨-, hrest⟩
        · exact hkeep
        · exact hkeep.trans (ih hrest)

theorem keepsMap_populateFrom
    (h : populateFrom A fuel vm s start stop srcStart srcStop = some (res, vm', s')) :
    KeepsMap A vm s vm' s' := by
  unfold populateFrom at h
  simp only at h
  split at h
  · exact KeepsMap.of_some_eq A h
  · split at h
    · exact KeepsMap.of_some_eq A h
    · exact keepsMap_populatePages h

theorem allocateFixed_ok {prot : ℕ} (h : vm.allocateFixed start stop prot = (.ok (), vm')) :
    vm' = vm.insert (VMRegion.new start stop prot) ∧ vm.range start stop = [] := by
  unfold allocateFixed at h
  simp only at h
  split at h
  · cases h
  · split at h
    · cases h
    · rename_i hrange
      obtain ⟨-, rfl⟩ := Prod.mk.inj h
      exact ⟨rfl, List.length_eq_zero_iff.mp (Nat.eq_zero_of_not_pos hrange)⟩

theorem keepsMap_allocateFixed {prot : ℕ} (s : KMem σ) (A : KernelPages σ)
    (h : vm.allocateFixed start stop prot = (res, vm')) : KeepsMap A vm s vm' s := by
  unfold allocateFixed at h
  simp only at h
  split_ifs at h <;>
  · obtain ⟨-, rfl⟩ := Prod.mk.inj h
    exact ⟨rfl, fun _ _ h => h⟩

theorem keepsMap_loadSegment {prot : ℕ}
    (h : loadSegment A fuel vm s start stop prot srcStart srcStop = some (vm', s')) :
    KeepsMap A vm s vm' s' := by
  unfold loadSegment at h
  split at h
  · cases h
  · rename_i vm₁ hfixed
    have hkeep := keepsMap_allocateFixed s A hfixed
    simp only [Option.bind_eq_bind, Option.bind_eq_some_iff] at h
    obtain ⟨⟨res, vm₂, s₂⟩, hpop, h⟩ := h
    rcases res with e | ⟨⟩
    · cases h
    · obtain ⟨rfl, rfl⟩ := some_pair_inj h
      exact hkeep.trans (keepsMap_populateFrom hpop)

theorem keepsMap_loadSegments {imageStart : ℕ} {segs : List ElfSegment}
    (h : loadSegments A fuel imageStart segs vm s = some (vm', s')) : KeepsMap A vm s vm' s' := by
  induction segs generalizing vm s with
  | nil =>
      rw [loadSegments] at h
      obtain ⟨rfl, rfl⟩ := some_pair_inj h
      exact KeepsMap.refl A _ _
  | cons seg segs ih =>
      rw [loadSegments] at h
      by_cases hload : seg.isLoad
      · rw [if_pos hload] at h
        obtain ⟨⟨vm₁, s₁⟩, hone, h⟩ := Option.bind_eq_some_iff.mp h
        exact (keepsMap_loadSegment hone).trans (ih h)
      · rw [if_neg hload] at h
        exact ih h

theorem keepsMap_allocatePopulated
    (h : allocatePopulated A fuel vm s start stop = some (res, vm', s')) :
    KeepsMap A vm s vm' s' := by
  unfold allocatePopulated at h
  split at h
  · rename_i e vm₁ hfixed
    obtain ⟨-, rfl, rfl⟩ := some_triple_inj h
    exact keepsMap_allocateFixed _ A hfixed
  · rename_i vm₁ hfixed
    exact (keepsMap_allocateFixed s A hfixed).trans (keepsMap_populate h)

theorem leafBits_user (prot : ℕ) : leafBits prot mmuUserPage &&& x86PeUs ≠ 0 := by
  have hprot := mmuProtToHw_mem prot
  simp only [List.mem_cons, List.not_mem_nil, or_false] at hprot
  rw [leafBits]
  rcases hprot with h | h | h | h <;> rw [h] <;> decide

theorem hwWalk_mapped_small {cr3 paddr prot : ℕ} (hmap : MapOk A.toPageAllocator cr3 s F O)
    (htable : IsTable paddr) (hdvd : 4096 ∣ start) (hlt : start + 2 ^ 22 < 2 ^ 64)
    (hfuel : 1 < fuel)
    (h : mmuMapRange A.toPageAllocator fuel s cr3 start paddr pageSizeSmall prot mmuUserPage =
      some (0, s')) :
    hwWalk s'.mem cr3 start = some (paddr, leafBits prot mmuUserPage) := by
  have hp := htable.lt
  obtain ⟨ret, s₁, heq, hzero, -⟩ := mmuMapRange_progress prot mmuUserPage hmap hdvd
    (show nrPages pageSizeSmall ≤ 2 ^ 36 by decide)
    (show start + pageSizeSmall + 2 ^ 21 < 2 ^ 64 by simp only [pageSizeSmall]; omega)
    (show paddr + pageSizeSmall + 4096 < 2 ^ 64 by simp only [pageSizeSmall]; omega)
    (show nrPages pageSizeSmall < fuel from hfuel)
  rw [heq] at h
  obtain ⟨hret, rfl⟩ := some_pair_inj h
  have hidx : pageIndex start start = 0 := by
    simp only [pageIndex]
    omega
  have hnot : ¬ InLargeRun start pageSizeSmall 0 := by
    simp only [InLargeRun, pageSizeSmall]
    omega
  rw [(hzero hret).walk, hidx, if_pos (by decide), rangeLeaf, if_neg hnot, Nat.mul_zero,
    Nat.add_zero, hwSmallLeaf_makeEntry htable]

theorem allocatePopulated_small (hmap : MapOkWithin A.toPageAllocator vm.mmuMap s F O)
    (hdvd : 4096 ∣ start) (hlt : start + 2 ^ 22 < 2 ^ 64) (hfuel : 1 < fuel)
    (h : allocatePopulated A fuel vm s start (start + pageSizeSmall) = some (.ok (), vm', s')) :
    ∃ page bits, (⟨start, start + pageSizeSmall, vmProtRw, some page⟩ : VMRegion) ∈ vm'.vmRegions ∧
      hwWalk s'.mem vm.mmuMap start = some (virtToPhys page, bits) ∧ bits &&& x86PeUs ≠ 0 := by
  unfold allocatePopulated at h
  split at h
  · exact absurd (some_pair_inj h).1 (by simp)
  rename_i vm₁ hfixed
  obtain ⟨rfl, hrange⟩ := allocateFixed_ok hfixed
  have hpos : start < start + pageSizeSmall := Nat.lt_add_of_pos_right (by decide)
  have hstart := ne_start_of_range hrange hpos
  have hlook : (vm.insert (VMRegion.new start (start + pageSizeSmall) vmProtRw)).lookup start
      (start + pageSizeSmall) = some (VMRegion.new start (start + pageSizeSmall) vmProtRw) :=
    lookup_insert (r := VMRegion.new start (start + pageSizeSmall) vmProtRw) hstart
  have hsub : sub64 (start + pageSizeSmall) start = pageSizeSmall := by
    rw [sub64_of_le hpos.le (by simp only [pageSizeSmall]; omega), Nat.add_sub_cancel_left]
  obtain ⟨page, s₁, halloc, hne, hat⟩ := populate_ok hlook hsub h
  obtain ⟨hmapped, hvm⟩ := mapPageAt_ok hat
  have hmmu : (vm.insert (VMRegion.new start (start + pageSizeSmall) vmProtRw)).mmuMap =
      vm.mmuMap := rfl
  rw [hmmu] at hmapped
  generalize (VMRegion.new start (start + pageSizeSmall) vmProtRw).mmuProt = prot at hmapped
  have hsmall : allocPage A s pageSizeSmall = some ((A.alloc s.pages).1,
      { s with pages := (A.alloc s.pages).2 }) := by
    rw [allocPage, if_neg (by decide), if_pos rfl]
  rw [hsmall] at halloc
  obtain ⟨rfl, rfl⟩ := some_pair_inj halloc
  obtain ⟨F₁, O₁, -, -, hmap⟩ := hmap
  obtain ⟨hmem, howns⟩ := A.alloc_page hmap.owns hne
  have hmap' : MapOk A.toPageAllocator vm.mmuMap { s with pages := (A.alloc s.pages).2 } _ _ :=
    ⟨hmap.wf, howns, fun q t hq hin => hmap.unused q t hq hin.1, fun p hp => hmap.ram p hp.1⟩
  have htable : IsTable (virtToPhys (A.alloc s.pages).1) := (hmap.isTable_page hmem).1
  refine ⟨_, _, ?_, hwWalk_mapped_small hmap' htable hdvd hlt hfuel hmapped, leafBits_user prot⟩
  rw [hvm]
  show _ ∈ setRegionPage start _ (treeInsert VMRegion.start _ vm.vmRegions)
  have hset := setRegionPage_treeInsert (r := VMRegion.new start (start + pageSizeSmall) vmProtRw)
    (A.alloc s.pages).1 hstart
  exact hset ▸ mem_treeInsert.mpr (Or.inl rfl)

end VMAddressSpace

/-! ## Spawning -/

namespace KernelState

variable {σ : Type} {A : KernelPages σ} {fuel : ℕ} {st st' : KernelState σ} {image : ElfImage}
  {F O : Set ℕ}

theorem allocatePopulated_error {vm vm' : VMAddressSpace} {s s' : KMem σ} {start stop : ℕ} {e : ℤ}
    (h : vm.allocatePopulated A fuel s start stop = some (.error e, vm', s')) : e ≠ 0 := by
  unfold VMAddressSpace.allocatePopulated at h
  split at h
  · rename_i e' vm₁ hfixed
    have he := Except.error.inj (some_pair_inj h).1
    rw [← he]
    unfold VMAddressSpace.allocateFixed at hfixed
    simp only at hfixed
    split_ifs at hfixed
    · rw [← Except.error.inj (Prod.mk.inj hfixed).1]
      decide
    · rw [← Except.error.inj (Prod.mk.inj hfixed).1]
      decide
    · cases (Prod.mk.inj hfixed).1
  · exact VMAddressSpace.populate_error h

theorem spawn_ok (h : st.spawn A fuel image = some (0, st')) :
    ∃ entry vm₁ s₁ vm₂ s₂ vm₃ s₃,
      (VMAddressSpace.new st.current).parseElfImage A fuel image st.mem = some (entry, vm₁, s₁) ∧
      vm₁.allocatePopulated A fuel s₁ stackStart stackTop = some (.ok (), vm₂, s₂) ∧
      vm₂.allocatePopulated A fuel s₂ eventBufStart eventBufEnd = some (.ok (), vm₃, s₃) ∧
      st' = { st with mem := s₃, processes := st.processes ++ [vm₃] } := by
  simp only [spawn, Option.bind_eq_bind, Option.bind_eq_some_iff] at h
  obtain ⟨⟨entry, vm₁, s₁⟩, hparse, ⟨res, vm₂, s₂⟩, hstack, h⟩ := h
  rcases res with e | ⟨⟩
  · have he := (some_pair_inj h).1
    exact absurd (neg_eq_zero.mp he) (allocatePopulated_error hstack)
  · obtain ⟨⟨res, vm₃, s₃⟩, hevent, h⟩ := Option.bind_eq_some_iff.mp h
    rcases res with e | ⟨⟩
    · have he := (some_pair_inj h).1
      exact absurd (neg_eq_zero.mp he) (allocatePopulated_error hevent)
    · obtain ⟨-, rfl⟩ := some_pair_inj h
      exact ⟨entry, vm₁, s₁, vm₂, s₂, vm₃, s₃, hparse, hstack, hevent, rfl⟩

theorem parseElfImage_mmuMap {entryPoint : ℕ} {vm : VMAddressSpace} {s : KMem σ}
    (h : (VMAddressSpace.new st.current).parseElfImage A fuel image st.mem =
      some (entryPoint, vm, s)) : vm.mmuMap = st.current := by
  simp only [VMAddressSpace.parseElfImage, Option.bind_eq_bind, Option.bind_eq_some_iff] at h
  obtain ⟨⟨vm₁, s₁⟩, hload, m, -, h⟩ := h
  obtain ⟨-, hrest⟩ := some_pair_inj h
  obtain ⟨rfl, -⟩ := Prod.mk.inj hrest
  exact (VMAddressSpace.keepsMap_loadSegments hload).map_eq

theorem mapOkWithin_parseElfImage {entryPoint : ℕ} {vm : VMAddressSpace} {s : KMem σ}
    (hmap : MapOk A.toPageAllocator st.current st.mem F O) (hbss : st.BssClear A fuel image)
    (h : (VMAddressSpace.new st.current).parseElfImage A fuel image st.mem =
      some (entryPoint, vm, s)) : MapOkWithin A.toPageAllocator st.current s F O := by
  have hvm := parseElfImage_mmuMap h
  simp only [VMAddressSpace.parseElfImage, Option.bind_eq_bind, Option.bind_eq_some_iff] at h
  obtain ⟨⟨vm₁, s₁⟩, hload, m, hzero, h⟩ := h
  obtain ⟨-, hrest⟩ := some_pair_inj h
  obtain ⟨rfl, rfl⟩ := Prod.mk.inj hrest
  obtain ⟨F₁, O₁, hF, hO, hmap₁⟩ :=
    (VMAddressSpace.keepsMap_loadSegments hload).ok F O hmap.within
  rw [hvm] at hzero
  exact ⟨F₁, O₁, hF, hO, hmap₁.of_entries (hbss vm₁ s₁ m hload hzero)⟩

theorem eventBuffer_reachable (hmap : MapOk A.toPageAllocator st.current st.mem F O)
    (hbss : st.BssClear A fuel image) (hfuel : 1 < fuel)
    (h : st.spawn A fuel image = some (0, st')) :
    ∃ vm page bits, st'.processes = st.processes ++ [vm] ∧
      (⟨eventBufStart, eventBufEnd, vmProtRw, some page⟩ : VMRegion) ∈ vm.vmRegions ∧
      UserTranslates st'.mem.mem st.current eventBufStart (virtToPhys page, bits) := by
  obtain ⟨entryPoint, vm₁, s₁, vm₂, s₂, vm₃, s₃, hparse, hstack, hevent, rfl⟩ := spawn_ok h
  have hvm₁ := parseElfImage_mmuMap hparse
  have hok₁ := mapOkWithin_parseElfImage hmap hbss hparse
  rw [← hvm₁] at hok₁
  have hkeep := VMAddressSpace.keepsMap_allocatePopulated hstack
  have hvm₂ := hkeep.map_eq
  have hok₂ := hkeep.ok F O hok₁
  rw [← hvm₂] at hok₂
  obtain ⟨page, bits, hregion, hwalk, hus⟩ := VMAddressSpace.allocatePopulated_small hok₂
    (show 4096 ∣ eventBufStart by decide)
    (show eventBufStart + 2 ^ 22 < 2 ^ 64 by norm_num [eventBufStart]) hfuel hevent
  rw [hvm₂, hvm₁] at hwalk
  exact ⟨vm₃, page, bits, rfl, hregion, by decide, hwalk, hus⟩

/-! ## Whole runs -/

/-- All processes have the map that is loaded. -/
def Shared (st : KernelState σ) : Prop := ∀ p ∈ st.processes, p.mmuMap = st.current

theorem spawn_cases {ret : ℤ} (h : st.spawn A fuel image = some (ret, st')) :
    st'.current = st.current ∧
      (ret ≠ 0 ∧ st'.processes = st.processes ∨
        ret = 0 ∧ ∃ vm, vm.mmuMap = st.current ∧ st'.processes = st.processes ++ [vm]) := by
  by_cases hret : ret = 0
  · subst hret
    obtain ⟨entryPoint, vm₁, s₁, vm₂, s₂, vm₃, s₃, hparse, hstack, hevent, rfl⟩ := spawn_ok h
    have hvm₂ := (VMAddressSpace.keepsMap_allocatePopulated hstack).map_eq
    have hvm₃ := (VMAddressSpace.keepsMap_allocatePopulated hevent).map_eq
    exact ⟨rfl, Or.inr ⟨rfl, vm₃, hvm₃.trans (hvm₂.trans (parseElfImage_mmuMap hparse)), rfl⟩⟩
  · simp only [spawn, Option.bind_eq_bind, Option.bind_eq_some_iff] at h
    obtain ⟨⟨entry, vm₁, s₁⟩, -, ⟨res, vm₂, s₂⟩, -, h⟩ := h
    rcases res with e | ⟨⟩
    · obtain ⟨-, rfl⟩ := some_pair_inj h
      exact ⟨rfl, Or.inl ⟨hret, rfl⟩⟩
    · obtain ⟨⟨res, vm₃, s₃⟩, -, h⟩ := Option.bind_eq_some_iff.mp h
      rcases res with e | ⟨⟩
      · obtain ⟨-, rfl⟩ := some_pair_inj h
        exact ⟨rfl, Or.inl ⟨hret, rfl⟩⟩
      · exact absurd (some_pair_inj h).1.symm hret

theorem Shared.step {op : Op} (h : Shared st) : Shared (step A fuel st op) := by
  cases op with
  | spawn image =>
      rw [KernelState.step]
      rcases hspawn : st.spawn A fuel image with _ | ⟨ret, st'⟩
      · exact h
      · obtain ⟨hcur, ⟨-, hprocs⟩ | ⟨-, vm, hvm, hprocs⟩⟩ := spawn_cases hspawn
        · intro p hp
          rw [hprocs] at hp
          exact (h p hp).trans hcur.symm
        · intro p hp
          rw [hprocs] at hp
          rcases List.mem_append.mp hp with hp | hp
          · exact (h p hp).trans hcur.symm
          · rw [List.mem_singleton.mp hp, hvm]
            exact hcur.symm
  | switchTo idx =>
      rw [KernelState.step]
      rcases hidx : st.processes[idx]? with _ | p
      · exact h
      · intro q hq
        exact (h q hq).trans (h p (List.mem_of_getElem? hidx)).symm

theorem shared_run (A : KernelPages σ) (fuel : ℕ) (s : KMem σ) (current : ℕ) (ops : List Op) :
    Shared (run (step A fuel) (boot s current) ops) :=
  run_invariant (fun _ _ h => h.step) (List.forall_mem_nil _)

/-! ## Calls that fail -/

theorem loadSegment_empty {vm vm' : VMAddressSpace} {s s' : KMem σ} {start prot a b : ℕ}
    (h : vm.loadSegment A fuel s start start prot a b = some (vm', s')) : s' = s := by
  unfold VMAddressSpace.loadSegment at h
  split at h
  · cases h
  · obtain ⟨⟨res, vm₁, s₁⟩, hpop, h⟩ := Option.bind_eq_some_iff.mp h
    have hsize : VMAddressSpace.pageOffsets (sub64 start start) = [] := by
      rw [show sub64 start start = 0 by unfold sub64; omega]
      rfl
    have hsame : s₁ = s := by
      unfold VMAddressSpace.populateFrom at hpop
      dsimp only at hpop
      rw [hsize] at hpop
      split at hpop
      · exact (congrArg (·.2.2) (Option.some.inj hpop)).symm
      · split at hpop <;> exact (congrArg (·.2.2) (Option.some.inj hpop)).symm
    rcases res with e | ⟨⟩
    · cases h
    · exact (congrArg Prod.snd (Option.some.inj h)).symm.trans hsame

theorem loadSegments_empty {imageStart : ℕ} {segs : List ElfSegment} {vm vm' : VMAddressSpace}
    {s s' : KMem σ} (hempty : ∀ seg ∈ segs, seg.isLoad = true →
      alignUp (add64 seg.virtualAddr seg.memSize) pageSizeSmall = seg.virtualAddr)
    (h : VMAddressSpace.loadSegments A fuel imageStart segs vm s = some (vm', s')) : s' = s := by
  induction segs generalizing vm s with
  | nil => exact (congrArg Prod.snd (Option.some.inj h)).symm
  | cons seg segs ih =>
      obtain ⟨hseg, hsegs⟩ := List.forall_mem_cons.mp hempty
      rw [VMAddressSpace.loadSegments] at h
      by_cases hload : seg.isLoad
      · rw [if_pos hload] at h
        obtain ⟨⟨vm₁, s₁⟩, hone, h⟩ := Option.bind_eq_some_iff.mp h
        rw [hseg hload] at hone
        exact (ih hsegs h).trans (loadSegment_empty hone)
      · rw [if_neg hload] at h
        exact ih hsegs h

theorem allocatePopulated_stack {vm vm' : VMAddressSpace} {s s' : KMem σ} {res : Except ℤ Unit}
    (hnone : (A.allocLarge s.pages).1 = 0)
    (h : vm.allocatePopulated A fuel s stackStart stackTop = some (res, vm', s')) :
    (∃ e, res = .error e) ∧ s'.mem = s.mem := by
  unfold VMAddressSpace.allocatePopulated at h
  split at h
  · obtain ⟨rfl, rfl, rfl⟩ := some_triple_inj h
    exact ⟨⟨_, rfl⟩, rfl⟩
  · have hsize : sub64 stackTop stackStart = pageSizeLarge := by decide
    unfold VMAddressSpace.populate at h
    rw [hsize, VMAddressSpace.allocPage, if_pos rfl, hnone] at h
    dsimp only at h
    simp only [if_true] at h
    split at h <;>
    · obtain ⟨rfl, -, rfl⟩ := some_triple_inj h
      exact ⟨⟨_, rfl⟩, rfl⟩

theorem mem_delete (vm : VMAddressSpace) (s : KMem σ) : (vm.delete A s).2.mem = s.mem := by
  unfold VMAddressSpace.delete
  dsimp only
  induction vm.vmRegions generalizing s with
  | nil => rfl
  | cons r rs ih =>
      rw [List.foldl_cons, ih]
      unfold VMRegion.delete
      split <;> rfl

theorem hwWalk_spawn_of_no_stack {ret : ℤ} (hmap : MapOk A.toPageAllocator st.current st.mem F O)
    (hbss : st.BssClear A fuel image) (hempty : image.LoadsNothing)
    (hnone : (A.allocLarge st.mem.pages).1 = 0) (h : st.spawn A fuel image = some (ret, st')) :
    st'.processes = st.processes ∧
      ∀ v, hwWalk st'.mem.mem st.current v = hwWalk st.mem.mem st.current v := by
  simp only [spawn, VMAddressSpace.parseElfImage, Option.bind_eq_bind,
    Option.bind_eq_some_iff] at h
  obtain ⟨_, ⟨⟨vm₁, s₁⟩, hload, m, hzero, hparse⟩, ⟨res, vm₂, s₂⟩, hstack, h⟩ := h
  obtain rfl := Option.some.inj hparse
  have hvm := (VMAddressSpace.keepsMap_loadSegments hload).map_eq
  obtain rfl := loadSegments_empty hempty hload
  obtain ⟨⟨e, rfl⟩, hmem⟩ := allocatePopulated_stack (s := ⟨st.mem.pages, m⟩) hnone hstack
  obtain ⟨-, rfl⟩ := some_pair_inj h
  refine ⟨rfl, fun v => ?_⟩
  dsimp only at hzero hvm
  rw [hvm] at hzero
  rw [mem_delete, hmem]
  exact hmap.hwWalk_of_entries (hbss vm₁ _ m hload hzero) v

theorem undisturbed_of_walks (hlen : st.processes.length = 1) (hprocs : st'.processes = st.processes)
    (hshared : Shared st)
    (hwalk : ∀ v, hwWalk st'.mem.mem st.current v = hwWalk st.mem.mem st.current v) :
    Undisturbed st st' := by
  refine ⟨fun p hp v leaf => ?_, fun i j p q hi hj hij => ?_⟩
  · rw [hshared p hp]
    simp only [UserTranslates, hwalk]
  · rw [hprocs] at hi hj
    have hi' := (List.getElem?_eq_some_iff.mp hi).1
    have hj' := (List.getElem?_eq_some_iff.mp hj).1
    omega

theorem undisturbed_of_nil {ret : ℤ} (hnil : st.processes = [])
    (h : st.spawn A fuel image = some (ret, st')) : Undisturbed st st' := by
  refine ⟨fun p hp => absurd hp (by rw [hnil]; exact List.not_mem_nil), ?_⟩
  intro i j p q hi hj hij
  have hlen : st'.processes.length ≤ 1 := by
    obtain ⟨-, ⟨-, hprocs⟩ | ⟨-, vm, -, hprocs⟩⟩ := spawn_cases h <;> rw [hprocs, hnil]
    · exact Nat.zero_le 1
    · exact le_rfl
  have hi' := (List.getElem?_eq_some_iff.mp hi).1
  have hj' := (List.getElem?_eq_some_iff.mp hj).1
  omega

/-- **When spawning disturbs nobody.** In every state that spawning and switching lead to, the
processes share one map, and the new process is put into it.  So a call disturbs nobody if nobody is
there, and a call that returns 0 only then; with one process there, a call disturbs nobody, too, that
has no page to load and gets no stack. -/
theorem spawn_undisturbed_iff (A : KernelPages σ) (fuel : ℕ) (s : KMem σ) (current : ℕ)
    (ops : List Op) (st' : KernelState σ) (image : ElfImage) (F O : Set ℕ) (ret : ℤ)
    (hmap : MapOk A.toPageAllocator (run (step A fuel) (boot s current) ops).current
      (run (step A fuel) (boot s current) ops).mem F O)
    (hbss : (run (step A fuel) (boot s current) ops).BssClear A fuel image) (hfuel : 1 < fuel)
    (hspawn : (run (step A fuel) (boot s current) ops).spawn A fuel image = some (ret, st')) :
    let st := run (step A fuel) (boot s current) ops
    (st.processes = [] ∨ st.processes.length = 1 ∧ image.LoadsNothing ∧
        (A.allocLarge st.mem.pages).1 = 0 → Undisturbed st st') ∧
      (ret = 0 → Undisturbed st st' → st.processes = []) := by
  intro st
  have hshared : Shared st := shared_run A fuel s current ops
  change MapOk A.toPageAllocator st.current st.mem F O at hmap
  change st.BssClear A fuel image at hbss
  change st.spawn A fuel image = some (ret, st') at hspawn
  generalize st = st at *
  constructor
  · rintro (hnil | ⟨hlen, hempty, hnone⟩)
    · exact undisturbed_of_nil hnil hspawn
    · obtain ⟨hprocs, hwalk⟩ := hwWalk_spawn_of_no_stack hmap hbss hempty hnone hspawn
      exact undisturbed_of_walks hlen hprocs hshared hwalk
  · rintro rfl h
    obtain ⟨vm, page, bits, hprocs, hregion, hreach⟩ :=
      eventBuffer_reachable hmap hbss hfuel hspawn
    by_contra hne
    -- the first process reaches the event buffer of the new one
    obtain ⟨p, ps, hps⟩ := List.exists_cons_of_ne_nil hne
    have hp : st'.processes[0]? = some p := by
      rw [hprocs, hps]
      rfl
    have hnew : st'.processes[st.processes.length]? = some vm := by
      rw [hprocs, List.getElem?_append_right le_rfl, Nat.sub_self]
      rfl
    have hdiff : st.processes.length ≠ 0 := fun h => hne (List.length_eq_zero_iff.mp h)
    have hcur : p.mmuMap = st.current := hshared p (by rw [hps]; exact List.mem_cons_self)
    rw [← hcur] at hreach
    exact h.apart _ 0 vm p hnew hp hdiff _ hregion page rfl _ _ hreach
      ⟨le_rfl, Nat.lt_add_of_pos_right (show 0 < eventBufEnd - eventBufStart by decide)⟩

/-- Sixteen free small pages at 2 MiB, four large ones at 4 MiB, otherwise zeroed memory. -/
def freshMemory : KMem PageArenas where
  pages := { PageArenas.ofSpan ⟨kernelVma + 0x200000, 0x10000⟩ with
    large := ⟨[⟨kernelVma + 0x400000, 0x800000⟩]⟩ }
  mem := fun _ => 0

/-- An image without segments. -/
def emptyImage : ElfImage := ⟨0, [], none, 0⟩

theorem mapOk_freshMemory : MapOk PageArenas.smallPages 0x1000 freshMemory
    {p | pageSizeSmall ∣ p ∧ Span.Contains ⟨kernelVma + 0x200000, 0x10000⟩ p} ∅ :=
  mapOk_of_zero (by decide)
    (PageArenas.owns_ofSpan ⟨by decide, by decide, by decide, by decide, by decide⟩)
    (entry_zero 0x1000)

/-- The first process disturbs nobody. -/
theorem spawn_undisturbed_first : ∃ st', (boot freshMemory 0x1000).spawn PageArenas.kernelPages 600
    emptyImage = some (0, st') ∧ Undisturbed (boot freshMemory 0x1000) st' := by
  have hret : ((boot freshMemory 0x1000).spawn PageArenas.kernelPages 600 emptyImage).map
      Prod.fst = some 0 := by decide +kernel
  obtain ⟨⟨ret, st'⟩, hspawn, hret⟩ := Option.map_eq_some_iff.mp hret
  obtain rfl : ret = 0 := hret
  have hbss : (boot freshMemory 0x1000).BssClear PageArenas.kernelPages 600 emptyImage := by
    intro vm s m _ hzero q t i _
    obtain rfl : s.mem = m := Option.some.inj hzero
    rfl
  exact ⟨st', hspawn, (spawn_undisturbed_iff PageArenas.kernelPages 600 freshMemory 0x1000 [] st'
    emptyImage _ _ 0 mapOk_freshMemory hbss (by decide) hspawn).1 (.inl rfl)⟩

/-- **The second process takes over the event buffer of the first**: both have the map that
was loaded at boot, and the fixed address of the buffer is translated anew. -/
theorem spawn_second_disturbs : ∃ st', (run (step PageArenas.kernelPages 600)
      (boot freshMemory 0x1000) [.spawn emptyImage]).spawn PageArenas.kernelPages 600 emptyImage =
        some (0, st') ∧
    ¬ Undisturbed (run (step PageArenas.kernelPages 600) (boot freshMemory 0x1000)
      [.spawn emptyImage]) st' := by
  have hafter : ((run (step PageArenas.kernelPages 600) (boot freshMemory 0x1000)
      [.spawn emptyImage]).spawn PageArenas.kernelPages 600 emptyImage).map
      (fun r => (r.1, hwWalk r.2.mem.mem 0x1000 eventBufStart)) =
      some (0, some (0x205000, x86PeP ||| x86PeRw ||| x86PeUs ||| x86PeXd)) := by decide +kernel
  have hbefore : hwWalk (run (step PageArenas.kernelPages 600) (boot freshMemory 0x1000)
      [.spawn emptyImage]).mem.mem 0x1000 eventBufStart =
      some (0x202000, x86PeP ||| x86PeRw ||| x86PeUs ||| x86PeXd) := by decide +kernel
  have hfirst : (run (step PageArenas.kernelPages 600) (boot freshMemory 0x1000)
      [.spawn emptyImage]).processes.map VMAddressSpace.mmuMap = [0x1000] := by decide +kernel
  generalize run (step PageArenas.kernelPages 600) (boot freshMemory 0x1000)
    [.spawn emptyImage] = st at *
  obtain ⟨⟨ret, st'⟩, hspawn, hafter⟩ := Option.map_eq_some_iff.mp hafter
  obtain ⟨hret, hwalk⟩ := Prod.mk.inj hafter
  obtain rfl : ret = 0 := hret
  refine ⟨st', hspawn, fun h => ?_⟩
  obtain ⟨p, hp, hmap⟩ := List.mem_map.mp
    (show 0x1000 ∈ st.processes.map VMAddressSpace.mmuMap by rw [hfirst]; exact List.mem_cons_self)
  have hkept := (h.kept p hp eventBufStart _).mp
    (by rw [hmap]; exact ⟨by decide, hwalk, by decide⟩)
  rw [hmap] at hkept
  exact absurd (hbefore.symm.trans hkept.2.1) (by decide)

end KernelState

end Manticore
