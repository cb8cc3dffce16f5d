import Manticore.Mm.Mmu

/-!
# The virtual memory manager: functions

`kernel/vm.rs`.  The red-black tree of regions is an ordered tree keyed by `start`.
Arithmetic is that of the release build: it wraps.  `fuel` bounds the loops of
`mmu_map_range`; `none` is out of fuel.
-/

namespace Manticore

def vmProtRead : ℕ := 0b001
def vmProtWrite : ℕ := 0b010
def vmProtExec : ℕ := 0b100
def vmProtRw : ℕ := vmProtRead ||| vmProtWrite

/-- The page allocator as the Rust side sees it: with large pages, too. -/
structure KernelPages (σ : Type) extends PageAllocator σ where
  allocLarge : σ → ℕ × σ
  /-- Large pages come from an arena of their own. -/
  allocLarge_owns : ∀ {s F O}, Owns s F O → Owns (allocLarge s).2 F O

/-- The kernel's two page arenas. -/
def PageArenas.kernelPages : KernelPages PageArenas where
  toPageAllocator := PageArenas.smallPages
  allocLarge := PageArenas.pageAllocLarge
  allocLarge_owns := fun h => h

/-- A contiguous region of virtual addresses, `[start, stop)`, and its page slot. -/
structure VMRegion where
  start : ℕ
  stop : ℕ
  prot : ℕ
  page : Option ℕ
deriving DecidableEq, Repr

namespace VMRegion

def new (start stop prot : ℕ) : VMRegion := ⟨start, stop, prot, none⟩

def mmuProt (r : VMRegion) : ℕ :=
  let prot := 0
  let prot := if r.prot &&& vmProtRead ≠ 0 then prot ||| mmuProtRead else prot
  let prot := if r.prot &&& vmProtWrite ≠ 0 then prot ||| mmuProtWrite else prot
  if r.prot &&& vmProtExec ≠ 0 then prot ||| mmuProtExec else prot

end VMRegion

/-- The regions in the order of their starts, and the MMU map. -/
structure VMAddressSpace where
  vmRegions : List VMRegion
  mmuMap : ℕ
deriving DecidableEq, Repr

/-- `region.page.set(Some(page))` for the region found at `start`. -/
def setRegionPage (start page : ℕ) : List VMRegion → List VMRegion
  | [] => []
  | r :: rs =>
      if r.start = start then { r with page := some page } :: rs
      else r :: setRegionPage start page rs

namespace VMAddressSpace

variable {σ : Type} (A : KernelPages σ)

def new (mmuMap : ℕ) : VMAddressSpace := ⟨[], mmuMap⟩

/-- The regions that start in `[start, stop)`. -/
def range (vm : VMAddressSpace) (start stop : ℕ) : List VMRegion :=
  vm.vmRegions.filter fun r => decide (start ≤ r.start ∧ r.start < stop)

/-- The end of the last region, `0` if there is none. -/
def upperEnd (vm : VMAddressSpace) : ℕ := (vm.vmRegions.getLast?.map VMRegion.stop).getD 0

def insert (vm : VMAddressSpace) (r : VMRegion) : VMAddressSpace :=
  { vm with vmRegions := treeInsert VMRegion.start r vm.vmRegions }

/-- The `Box` of the region, which comes from the kernel heap (the small pages), is left out. -/
def allocate (vm : VMAddressSpace) (size align prot : ℕ) :
    Except ℤ (ℕ × ℕ) × VMAddressSpace :=
  if isAligned size pageSizeSmall = false then (.error einval, vm)
  else
    let start := alignUp vm.upperEnd align
    let stop := add64 start size
    if (vm.range start stop).length > 0 then (.error einval, vm)
    else (.ok (start, stop), vm.insert (VMRegion.new start stop prot))

def allocateFixed (vm : VMAddressSpace) (start stop prot : ℕ) :
    Except ℤ Unit × VMAddressSpace :=
  let size := sub64 stop start
  if isAligned size pageSizeSmall = false then (.error einval, vm)
  else if (vm.range start stop).length > 0 then (.error einval, vm)
  else (.ok (), vm.insert (VMRegion.new start stop prot))

/-- The region at `start`, if it ends at `stop`. -/
def lookup (vm : VMAddressSpace) (start stop : ℕ) : Option VMRegion :=
  (treeFind VMRegion.start start vm.vmRegions).filter fun r => decide (r.stop = stop)

end VMAddressSpace

/-- `delete`, which also runs when a region is dropped: the page goes to the small arena. -/
def VMRegion.delete {σ : Type} (A : KernelPages σ) (r : VMRegion) (s : KMem σ) : KMem σ :=
  match r.page with
  | some page => { s with pages := A.free s.pages page }
  | none => s

namespace VMAddressSpace

variable {σ : Type} (A : KernelPages σ)

def deallocate (vm : VMAddressSpace) (s : KMem σ) (start stop : ℕ) :
    Except ℤ Unit × VMAddressSpace × KMem σ :=
  match vm.lookup start stop with
  | none => (.error einval, vm, s)
  | some r => (.ok (), { vm with vmRegions := vm.vmRegions.erase r }, r.delete A s)

/-- Dropping the address space drops its regions. -/
def delete (vm : VMAddressSpace) (s : KMem σ) : VMAddressSpace × KMem σ :=
  ({ vm with vmRegions := [] }, vm.vmRegions.foldl (fun s r => r.delete A s) s)

/-- The second half of `map` and `populate`: put `page` into the slot of `r`, then map
`size` bytes at `vaddr` to it. -/
def mapPageAt (fuel : ℕ) (vm : VMAddressSpace) (s : KMem σ) (r : VMRegion)
    (vaddr page size : ℕ) : Option (Except ℤ Unit × VMAddressSpace × KMem σ) := do
  let vm := { vm with vmRegions := setRegionPage r.start page vm.vmRegions }
  let (err, s) ← mmuMapRange A.toPageAllocator fuel s vm.mmuMap vaddr (virtToPhys page) size
    r.mmuProt mmuUserPage
  if err ≠ 0 then some (.error err, vm, s) else some (.ok (), vm, s)

def map (fuel : ℕ) (vm : VMAddressSpace) (s : KMem σ) (start stop page : ℕ) :
    Option (Except ℤ Unit × VMAddressSpace × KMem σ) :=
  match vm.lookup start stop with
  | none => some (.error einval, vm, s)
  | some r => mapPageAt A fuel vm s r start page (sub64 stop start)

/-- `page_alloc_large` or `page_alloc_small`, by the size; `none` for any other size. -/
def allocPage (s : KMem σ) (size : ℕ) : Option (ℕ × KMem σ) :=
  if size = pageSizeLarge then
    some ((A.allocLarge s.pages).1, { s with pages := (A.allocLarge s.pages).2 })
  else if size = pageSizeSmall then
    some ((A.alloc s.pages).1, { s with pages := (A.alloc s.pages).2 })
  else none

def populate (fuel : ℕ) (vm : VMAddressSpace) (s : KMem σ) (start stop : ℕ) :
    Option (Except ℤ Unit × VMAddressSpace × KMem σ) :=
  match vm.lookup start stop with
  | none => some (.error einval, vm, s)
  | some r =>
      match allocPage A s (sub64 stop start) with
      | none => some (.error einval, vm, s)
      | some (page, s) =>
          if page = 0 then some (.error enomem, vm, s)
          else mapPageAt A fuel vm s r start page (sub64 stop start)

/-- The loop of `populate_from` over the offsets still to do. -/
def populatePages (fuel : ℕ) (r : VMRegion) (start srcStart : ℕ) :
    List ℕ → VMAddressSpace → KMem σ → Option (Except ℤ Unit × VMAddressSpace × KMem σ)
  | [], vm, s => some (.ok (), vm, s)
  | offset :: rest, vm, s =>
      let (page, pages) := A.alloc s.pages
      let s := { s with pages := pages }
      if page = 0 then some (.error enomem, vm, s)
      else do
        let src := fun i => s.mem (add64 srcStart offset + i)
        let s := { s with mem := memcpy s.mem page src pageSizeSmall }
        let (res, vm, s) ← mapPageAt A fuel vm s r (add64 start offset) page pageSizeSmall
        match res with
        | .error e => some (.error e, vm, s)
        | .ok () => populatePages fuel r start srcStart rest vm s

/-- `(0..size).step_by(PAGE_SIZE_SMALL)`. -/
def pageOffsets (size : ℕ) : List ℕ :=
  (List.range ((size + pageSizeSmall - 1) / pageSizeSmall)).map (· * pageSizeSmall)

def populateFrom (fuel : ℕ) (vm : VMAddressSpace) (s : KMem σ)
    (start stop srcStart srcStop : ℕ) : Option (Except ℤ Unit × VMAddressSpace × KMem σ) :=
  let size := sub64 stop start
  if size < sub64 srcStop srcStart then some (.error einval, vm, s)
  else
    match vm.lookup start stop with
    | none => some (.error einval, vm, s)
    | some r => populatePages A fuel r start srcStart (pageOffsets size) vm s

end VMAddressSpace

/-- The state after a page was taken and filled. -/
def filled {σ : Type} (A : PageAllocator σ) (s : KMem σ) (src : ℕ → UInt8) : KMem σ :=
  ⟨(A.alloc s.pages).2, memcpy s.mem (A.alloc s.pages).1 src pageSizeSmall⟩

theorem VMAddressSpace.populatePages_cons_cases {σ : Type} {A : KernelPages σ}
    {fuel start srcStart o : ℕ} {os : List ℕ} {r : VMRegion} {vm vm' : VMAddressSpace}
    {s s' : KMem σ} {res : Except ℤ Unit}
    (h : populatePages A fuel r start srcStart (o :: os) vm s = some (res, vm', s')) :
    (A.alloc s.pages).1 = 0 ∧ res = .error enomem ∧ vm' = vm ∧
        s' = { s with pages := (A.alloc s.pages).2 } ∨
      (A.alloc s.pages).1 ≠ 0 ∧ ∃ res₁ vm₁ s₁,
        mapPageAt A fuel vm (filled A.toPageAllocator s fun i => s.mem (add64 srcStart o + i)) r
          (add64 start o) (A.alloc s.pages).1 pageSizeSmall = some (res₁, vm₁, s₁) ∧
        ((∃ e, res₁ = .error e ∧ res = .error e ∧ vm' = vm₁ ∧ s' = s₁) ∨
          res₁ = .ok () ∧
            populatePages A fuel r start srcStart os vm₁ s₁ = some (res, vm', s')) := by
  rw [populatePages] at h
  dsimp only at h
  by_cases hz : (A.alloc s.pages).1 = 0
  · rw [if_pos hz] at h
    obtain ⟨rfl, rfl, rfl⟩ := some_triple_inj h
    exact Or.inl ⟨hz, rfl, rfl, rfl⟩
  · rw [if_neg hz, Option.bind_eq_bind] at h
    obtain ⟨⟨res₁, vm₁, s₁⟩, hmapped, hrest⟩ := Option.bind_eq_some_iff.mp h
    refine Or.inr ⟨hz, res₁, vm₁, s₁, hmapped, ?_⟩
    cases res₁ with
    | error e =>
        obtain ⟨rfl, rfl, rfl⟩ := some_triple_inj hrest
        exact Or.inl ⟨e, rfl, rfl, rfl, rfl⟩
    | ok _ => exact Or.inr ⟨rfl, hrest⟩

end Manticore
