import Manticore.Base.Word
import Manticore.Base.Memory
import Manticore.Base.RadixTree
import Manticore.Kernel.PageAllocator

/-!
# x86_64 page tables

The entry format of `arch/x86_64/mmu.c`, the hardware's page walk, and what a
well-formed four-level map is.  Memory is addressed by kernel pointer: the physical
address `a` is seen at `paddr_to_ptr(a)`.
-/

namespace Manticore

/-! ## Entries -/

def kernelVma : ℕ := 0xffffffff80000000

def virtToPhys (addr : ℕ) : ℕ := sub64 addr kernelVma

def physToVirt (addr : ℕ) : ℕ := add64 addr kernelVma

def ptrToPaddr (page : ℕ) : ℕ := virtToPhys page

def paddrToPtr (paddr : ℕ) : ℕ := add64 paddr kernelVma

def x86PeP : ℕ := 1 <<< 0
def x86PeRw : ℕ := 1 <<< 1
def x86PeUs : ℕ := 1 <<< 2
def x86PePcd : ℕ := 1 <<< 4
def x86PePs : ℕ := 1 <<< 7
def x86PeXd : ℕ := 1 <<< 63

/-- The flags of an entry, by the kernel's reckoning; the same at every level. -/
def pgFlagsMask : ℕ := 0x80000000000007ff

/-- `make_pml4e`, `make_pdpte`, `make_pde` and `make_pte`. -/
def makeEntry (paddr flags : ℕ) : ℕ := paddr ||| flags

/-- `pml4e_is_none`, `pdpte_is_none` and `pde_is_none`. -/
def entryIsNone (e : ℕ) : Bool := e == 0

/-- `pml4e_paddr`, `pdpte_paddr` and `pde_paddr`. -/
def entryPaddr (e : ℕ) : ℕ := e &&& not64 pgFlagsMask

def pdeIsLarge (e : ℕ) : Bool := e &&& x86PePs != 0

/-- The index into a table at a level that translates the bits from `shift` on. -/
def pgIndex (shift vaddr : ℕ) : Fin 512 :=
  ⟨(vaddr >>> shift) &&& (1 <<< 9 - 1), Nat.lt_of_le_of_lt Nat.and_le_right (by decide)⟩

def pml4Index (vaddr : ℕ) : Fin 512 := pgIndex 39 vaddr
def pdptIndex (vaddr : ℕ) : Fin 512 := pgIndex 30 vaddr
def pdIndex (vaddr : ℕ) : Fin 512 := pgIndex 21 vaddr
def ptIndex (vaddr : ℕ) : Fin 512 := pgIndex 12 vaddr

/-- Where entry `i` of the table at physical address `t` is. -/
def entryPtr (t : ℕ) (i : Fin 512) : ℕ := paddrToPtr t + 8 * i

/-- Entry `i` of the table at physical address `t`. -/
def entry (m : Mem) (t : ℕ) (i : Fin 512) : ℕ := load m (entryPtr t i) 8

/-! ## The hardware walk -/

/-- Bits 12 to 51: the address of a table or of a small page. -/
def hwAddr (e : ℕ) : ℕ := e &&& 0x000ffffffffff000

/-- Bits 21 to 51: the address of a large page. -/
def hwLargeAddr (e : ℕ) : ℕ := e &&& 0x000fffffffe00000

def hwPresent (e : ℕ) : Bool := e &&& x86PeP != 0

/-- Entry `i` of the table at `t`, if it is present. -/
def hwEntry (m : Mem) (t : ℕ) (i : Fin 512) : Option ℕ :=
  let e := entry m t i
  if hwPresent e then some e else none

/-- The 4 KiB frame that the walk finds, and the bits of the leaf entry that are not its
address. -/
abbrev Leaf : Type := ℕ × ℕ

def hwSmallLeaf (pte : ℕ) : Leaf := (hwAddr pte, pte &&& not64 0x000ffffffffff000)

def hwLargeLeaf (pde vaddr : ℕ) : Leaf :=
  (hwLargeAddr pde + 4096 * ptIndex vaddr, pde &&& not64 0x000fffffffe00000)

/-- The walk: PML4, PDPT, PD, then PT unless PS is set. -/
def hwWalk (m : Mem) (cr3 vaddr : ℕ) : Option Leaf := do
  let pml4e ← hwEntry m (hwAddr cr3) (pml4Index vaddr)
  let pdpte ← hwEntry m (hwAddr pml4e) (pdptIndex vaddr)
  let pde ← hwEntry m (hwAddr pdpte) (pdIndex vaddr)
  if pdeIsLarge pde then some (hwLargeLeaf pde vaddr)
  else
    let pte ← hwEntry m (hwAddr pde) (ptIndex vaddr)
    some (hwSmallLeaf pte)

/-! ## Well-formed maps -/

/-- A page that can hold a table: aligned, with a 52-bit physical address. -/
structure IsTable (t : ℕ) : Prop where
  dvd : 4096 ∣ t
  lt : t < 2 ^ 52

/-- The table that entry `i` of the table at `t` leads to. -/
def childTable (m : Mem) (d t : ℕ) (i : Fin 512) : Option ℕ :=
  if d < 3 ∧ entry m t i ≠ 0 ∧ pdeIsLarge (entry m t i) = false then
    some (entryPaddr (entry m t i))
  else none

/-- The table at a path of indices, the last index first. -/
def tableAt (m : Mem) (cr3 : ℕ) (path : List (Fin 512)) : Option ℕ :=
  descend (childTable m) cr3 path

/-- A well-formed four-level map.  Tables are distinct pages, none reachable by two
paths; entries above the leaves are empty or present pointers to a table, which the
kernel and the hardware read alike, and large pages sit in page directories only. -/
structure WellFormed (m : Mem) (cr3 : ℕ) : Prop where
  root : IsTable cr3
  distinct : NoShare (childTable m) cr3
  large : ∀ path t i, tableAt m cr3 path = some t → path.length < 2 →
    pdeIsLarge (entry m t i) = false
  pointer : ∀ path t i, tableAt m cr3 path = some t → path.length < 3 →
    entry m t i ≠ 0 → pdeIsLarge (entry m t i) = false →
    hwPresent (entry m t i) = true ∧ entryPaddr (entry m t i) = hwAddr (entry m t i)

/-! ## Addresses and bits -/

theorem entryPaddr_eq (e : ℕ) : entryPaddr e = e % 2 ^ 63 / 2 ^ 11 * 2 ^ 11 :=
  and_two_pow_sub_two_pow e (by norm_num : 11 ≤ 63)

theorem hwAddr_eq (e : ℕ) : hwAddr e = e % 2 ^ 52 / 2 ^ 12 * 2 ^ 12 :=
  and_two_pow_sub_two_pow e (by norm_num : 12 ≤ 52)

theorem hwLargeAddr_eq (e : ℕ) : hwLargeAddr e = e % 2 ^ 52 / 2 ^ 21 * 2 ^ 21 :=
  and_two_pow_sub_two_pow e (by norm_num : 21 ≤ 52)

theorem isTable_hwAddr (e : ℕ) : IsTable (hwAddr e) := by
  rw [hwAddr_eq]
  exact ⟨Dvd.intro_left _ rfl, by omega⟩

theorem IsTable.hwAddr_eq {t : ℕ} (h : IsTable t) : hwAddr t = t := by
  have hlt := h.lt
  obtain ⟨c, rfl⟩ := h.dvd
  rw [Manticore.hwAddr_eq]
  omega

theorem val_pgIndex (shift vaddr : ℕ) :
    (pgIndex shift vaddr : ℕ) = vaddr / 2 ^ shift % 512 := by
  show (vaddr >>> shift) &&& (2 ^ 9 - 1) = _
  rw [Nat.and_two_pow_sub_one_eq_mod, Nat.shiftRight_eq_div_pow]

theorem paddrToPtr_ptrToPaddr {p : ℕ} (h : p < 2 ^ 64) : paddrToPtr (ptrToPaddr p) = p := by
  simp only [paddrToPtr, ptrToPaddr, virtToPhys, add64, sub64, kernelVma]
  omega

theorem IsTable.ptr_dvd {t : ℕ} (h : IsTable t) : 4096 ∣ paddrToPtr t := by
  obtain ⟨c, rfl⟩ := h.dvd
  simp only [paddrToPtr, add64, kernelVma]
  omega

theorem IsTable.ptr_apart {t u : ℕ} (ht : IsTable t) (hu : IsTable u) (hne : t ≠ u) :
    paddrToPtr t + 4096 ≤ paddrToPtr u ∨ paddrToPtr u + 4096 ≤ paddrToPtr t := by
  obtain ⟨a, ha⟩ := ht.ptr_dvd
  obtain ⟨b, hb⟩ := hu.ptr_dvd
  have hneq : paddrToPtr t ≠ paddrToPtr u := by
    have := ht.lt
    have := hu.lt
    simp only [paddrToPtr, add64, kernelVma]
    omega
  omega

/-! ## Writing entries -/

variable {m : Mem} {t u f e : ℕ} {i j : Fin 512}

theorem entry_store (ht : IsTable t) (hu : IsTable u) (he : e < 2 ^ 64) :
    entry (store m (entryPtr t i) 8 e) u j = if u = t ∧ j = i then e else entry m u j := by
  split
  · rename_i h
    rw [h.1, h.2]
    exact load_store_same he
  · rename_i h
    apply load_store_of_disjoint
    have hi := i.isLt
    have hj := j.isLt
    simp only [entryPtr]
    by_cases hut : u = t
    · have hji : (j : ℕ) ≠ i := fun hv => h ⟨hut, Fin.ext hv⟩
      rw [hut]
      omega
    · have := ht.ptr_apart hu (Ne.symm hut)
      omega

theorem entry_memset (hf : IsTable f) (hu : IsTable u) :
    entry (memset m (paddrToPtr f) 0 pageSizeSmall) u j =
      if u = f then 0 else entry m u j := by
  have hj := j.isLt
  split
  · rename_i h
    rw [h]
    exact load_memset_zero (by simp only [entryPtr]; omega)
      (by simp only [entryPtr, pageSizeSmall]; omega)
  · rename_i h
    apply load_memset_of_disjoint
    have := hf.ptr_apart hu (Ne.symm h)
    simp only [entryPtr, pageSizeSmall]
    omega

/-! ## The walk, by paths of tables -/

variable {m' : Mem} {cr3 d : ℕ} {path : List (Fin 512)}

theorem childTable_of_zero (h : entry m t i = 0) : childTable m d t i = none := by
  simp [childTable, h]

theorem childTable_of_large (h : pdeIsLarge (entry m t i) = true) :
    childTable m d t i = none := by
  simp [childTable, h]

theorem childTable_leaf (h : 3 ≤ d) : childTable m d t i = none := by
  have hd : ¬ d < 3 := by omega
  simp [childTable, hd]

theorem childTable_congr (h : entry m' t i = entry m t i) :
    childTable m' d t i = childTable m d t i := by
  rw [childTable, childTable, h]

theorem tableAt_cons (h : tableAt m cr3 path = some t) :
    tableAt m cr3 (i :: path) = childTable m path.length t i :=
  descend_cons_of_some h

theorem tableAt_cons_none (h : tableAt m cr3 path = none) :
    tableAt m cr3 (i :: path) = none :=
  descend_cons_of_none h

theorem tableAt_cons_some (h : tableAt m cr3 path = some t) (hd : path.length < 3)
    (hne : entry m t i ≠ 0) (hsmall : pdeIsLarge (entry m t i) = false) :
    tableAt m cr3 (i :: path) = some (entryPaddr (entry m t i)) := by
  rw [tableAt_cons h, childTable, if_pos ⟨hd, hne, hsmall⟩]

theorem entry_of_hwEntry (h : hwEntry m t i = some e) : entry m t i = e := by
  simp only [hwEntry] at h
  split at h
  · exact Option.some.inj h
  · cases h

theorem hwEntry_congr (h : entry m' t i = entry m t i) : hwEntry m' t i = hwEntry m t i := by
  simp only [hwEntry, h]

theorem hwEntry_of_zero (h : entry m t i = 0) : hwEntry m t i = none := by
  simp [hwEntry, h, hwPresent]

theorem hwEntry_of_present (h : entry m t i = e) (he : hwPresent e = true) :
    hwEntry m t i = some e := by
  simp [hwEntry, h, he]

namespace WellFormed

theorem isTable (h : WellFormed m cr3) : ∀ {path : List (Fin 512)} {t : ℕ},
    tableAt m cr3 path = some t → IsTable t
  | [], t, hp => by
      cases hp
      exact h.root
  | i :: path, t, hp => by
      cases hu : tableAt m cr3 path with
      | none =>
          rw [tableAt_cons_none hu] at hp
          cases hp
      | some u =>
          rw [tableAt_cons hu, childTable] at hp
          split at hp
          · rename_i hptr
            cases hp
            rw [(h.pointer path u i hu hptr.1 hptr.2.1 hptr.2.2).2]
            exact isTable_hwAddr _
          · cases hp

theorem map_hwEntry (h : WellFormed m cr3) (hp : tableAt m cr3 path = some t)
    (hd : path.length < 3) (hsmall : pdeIsLarge (entry m t i) = false) :
    (hwEntry m t i).map hwAddr = tableAt m cr3 (i :: path) := by
  by_cases hzero : entry m t i = 0
  · rw [tableAt_cons hp, childTable_of_zero hzero]
    rw [hwEntry_of_zero hzero, Option.map_none]
  · obtain ⟨hpresent, haddr⟩ := h.pointer path t i hp hd hzero hsmall
    rw [tableAt_cons_some hp hd hzero hsmall, haddr]
    simp [hwEntry, hpresent]

end WellFormed

/-- The path of the page directory that translates `vaddr`. -/
def pdPath (vaddr : ℕ) : List (Fin 512) := [pdptIndex vaddr, pml4Index vaddr]

/-- The path of the page table that translates `vaddr`. -/
def ptPath (vaddr : ℕ) : List (Fin 512) := pdIndex vaddr :: pdPath vaddr

/-- The second half of the walk, from the page directory on. -/
def walkFrom (m : Mem) (pd : Option ℕ) (pt : Option ℕ) (vaddr : ℕ) : Option Leaf :=
  pd.bind fun pd =>
    let pde := entry m pd (pdIndex vaddr)
    if pdeIsLarge pde then (hwEntry m pd (pdIndex vaddr)).map (hwLargeLeaf · vaddr)
    else pt.bind fun pt => (hwEntry m pt (ptIndex vaddr)).map hwSmallLeaf

theorem walkFrom_none (m : Mem) (pt : Option ℕ) (vaddr : ℕ) : walkFrom m none pt vaddr = none :=
  rfl

theorem walkFrom_congr {pd : ℕ} {pt : Option ℕ} {vaddr : ℕ}
    (hpd : entry m' pd (pdIndex vaddr) = entry m pd (pdIndex vaddr))
    (hpt : ∀ t, pt = some t → entry m' t (ptIndex vaddr) = entry m t (ptIndex vaddr)) :
    walkFrom m' (some pd) pt vaddr = walkFrom m (some pd) pt vaddr := by
  simp only [walkFrom, Option.bind_some, hpd, hwEntry_congr hpd]
  cases pt with
  | none => rw [Option.bind_none, Option.bind_none]
  | some t => rw [Option.bind_some, Option.bind_some, hwEntry_congr (hpt t rfl)]

/-- **The hardware walk follows the kernel's tables.** -/
theorem WellFormed.hwWalk_eq (h : WellFormed m cr3) (vaddr : ℕ) :
    hwWalk m cr3 vaddr =
      walkFrom m (tableAt m cr3 (pdPath vaddr)) (tableAt m cr3 (ptPath vaddr)) vaddr := by
  have hroot : tableAt m cr3 [] = some cr3 := rfl
  have hpdpt := h.map_hwEntry (i := pml4Index vaddr) hroot (by simp)
    (h.large [] cr3 _ hroot (by simp))
  rw [hwWalk, h.root.hwAddr_eq]
  cases hpml4e : hwEntry m cr3 (pml4Index vaddr) with
  | none =>
      rw [hpml4e, Option.map_none] at hpdpt
      simp [walkFrom, pdPath, tableAt_cons_none hpdpt.symm]
  | some pml4e =>
      rw [hpml4e, Option.map_some] at hpdpt
      have hpd := h.map_hwEntry (i := pdptIndex vaddr) hpdpt.symm (by simp)
        (h.large _ _ _ hpdpt.symm (by simp))
      simp only [Option.bind_eq_bind, Option.bind_some]
      cases hpdpte : hwEntry m (hwAddr pml4e) (pdptIndex vaddr) with
      | none =>
          rw [hpdpte, Option.map_none] at hpd
          simp [walkFrom, pdPath, ← hpd]
      | some pdpte =>
          rw [hpdpte, Option.map_some] at hpd
          have hpath : tableAt m cr3 (pdPath vaddr) = some (hwAddr pdpte) := hpd.symm
          simp only [Option.bind_some, walkFrom, hpath]
          cases hlarge : pdeIsLarge (entry m (hwAddr pdpte) (pdIndex vaddr)) with
          | true =>
              simp only [if_true]
              cases hpde : hwEntry m (hwAddr pdpte) (pdIndex vaddr) with
              | none => rfl
              | some pde =>
                  rw [entry_of_hwEntry hpde] at hlarge
                  simp [hlarge]
          | false =>
              have hpt := h.map_hwEntry (i := pdIndex vaddr) hpath (by simp [pdPath]) hlarge
              have hpt' : tableAt m cr3 (ptPath vaddr) = _ := hpt.symm
              rw [hpt']
              cases hpde : hwEntry m (hwAddr pdpte) (pdIndex vaddr) with
              | none => simp
              | some pde =>
                  rw [entry_of_hwEntry hpde] at hlarge
                  simp only [Option.bind_some, hlarge, Option.map_some]
                  cases hwEntry m (hwAddr pde) (ptIndex vaddr) <;> rfl

theorem tableAt_of_zero (hzero : ∀ i, entry m cr3 i = 0) : ∀ {path : List (Fin 512)} {t : ℕ},
    tableAt m cr3 path = some t → path = [] ∧ t = cr3
  | [], t, h => ⟨rfl, (Option.some.inj h).symm⟩
  | i :: path, t, h => by
      exfalso
      cases hu : tableAt m cr3 path with
      | none =>
          rw [tableAt_cons_none hu] at h
          cases h
      | some u =>
          obtain ⟨-, rfl⟩ := tableAt_of_zero hzero hu
          rw [tableAt_cons hu, childTable_of_zero (hzero i)] at h
          cases h

theorem wellFormed_of_zero (hroot : IsTable cr3) (hzero : ∀ i, entry m cr3 i = 0) :
    WellFormed m cr3 := by
  refine ⟨hroot, ?_, ?_, ?_⟩
  · intro p q t hp hq
    rw [(tableAt_of_zero hzero hp).1, (tableAt_of_zero hzero hq).1]
  · intro path t i hp _
    obtain ⟨-, rfl⟩ := tableAt_of_zero hzero hp
    rw [hzero]
    rfl
  · intro path t i hp _ hne _
    obtain ⟨-, rfl⟩ := tableAt_of_zero hzero hp
    exact absurd (hzero i) hne

/-! ## What each kind of write does to the map -/

/-- An entry that points to a table: present, small, with an address on which kernel and
hardware agree. -/
structure IsPointer (e f : ℕ) : Prop where
  lt : e < 2 ^ 64
  present : hwPresent e = true
  small : pdeIsLarge e = false
  paddr : entryPaddr e = f
  hw : hwAddr e = f

theorem IsPointer.ne_zero (h : IsPointer e f) : e ≠ 0 := by
  rintro rfl
  exact absurd h.present (by decide)

namespace WellFormed

theorem path_eq (h : WellFormed m cr3) {q : List (Fin 512)} (hp : tableAt m cr3 path = some t)
    (hq : tableAt m cr3 q = some t) : q = path :=
  h.distinct q path t hq hp

end WellFormed

/-- From `m` to `m'`, entry `i` of the table `t` at `path`, empty before, is made to
point to the fresh zeroed table `f`. -/
structure Links (m m' : Mem) (cr3 : ℕ) (path : List (Fin 512)) (t : ℕ) (i : Fin 512)
    (e f : ℕ) : Prop where
  at_path : tableAt m cr3 path = some t
  depth : path.length < 3
  zero : entry m t i = 0
  pointer : IsPointer e f
  fresh : ∀ q, tableAt m cr3 q ≠ some f
  entries : ∀ u j, IsTable u →
    entry m' u j = if u = t ∧ j = i then e else if u = f then 0 else entry m u j

namespace Links

variable (h : WellFormed m cr3) (hl : Links m m' cr3 path t i e f)

include hl

theorem entry_fresh (j : Fin 512) : entry m' f j = 0 := by
  have hf : IsTable f := hl.pointer.hw ▸ isTable_hwAddr e
  rw [hl.entries f j hf, if_neg, if_pos rfl]
  rintro ⟨rfl, -⟩
  exact hl.fresh path hl.at_path

theorem below : tableAt m cr3 (i :: path) = none := by
  rw [tableAt_cons hl.at_path, childTable_of_zero hl.zero]

include h

theorem entry_new : entry m' t i = e := by
  rw [hl.entries t i (h.isTable hl.at_path), if_pos ⟨rfl, rfl⟩]

theorem entry_old {q : List (Fin 512)} (hq : tableAt m cr3 q = some u)
    (hne : ¬ (q = path ∧ j = i)) : entry m' u j = entry m u j := by
  rw [hl.entries u j (h.isTable hq), if_neg, if_neg]
  · rintro rfl
    exact hl.fresh q hq
  · rintro ⟨rfl, rfl⟩
    exact hne ⟨h.path_eq hl.at_path hq, rfl⟩

theorem tableAt_eq (q : List (Fin 512)) :
    tableAt m' cr3 q = if q = i :: path then some f else tableAt m cr3 q := by
  refine descend_link hl.at_path (childTable_of_zero hl.zero) ?_ ?_ ?_ q
  · rw [childTable, hl.entry_new h, if_pos ⟨hl.depth, hl.pointer.ne_zero, hl.pointer.small⟩,
      hl.pointer.paddr]
  · intro d j
    exact childTable_of_zero (hl.entry_fresh j)
  · intro q u j hq hne
    exact childTable_congr (hl.entry_old h hq hne)

theorem entry_cases {q : List (Fin 512)} (hq : tableAt m' cr3 q = some u) :
    entry m' u j = 0 ∨ entry m' u j = e ∨
      tableAt m cr3 q = some u ∧ entry m' u j = entry m u j := by
  rw [hl.tableAt_eq h] at hq
  split at hq
  · cases hq
    exact Or.inl (hl.entry_fresh j)
  · by_cases hji : q = path ∧ j = i
    · obtain ⟨rfl, rfl⟩ := hji
      rw [hl.at_path] at hq
      cases hq
      exact Or.inr (Or.inl (hl.entry_new h))
    · exact Or.inr (Or.inr ⟨hq, hl.entry_old h hq hji⟩)

theorem wellFormed : WellFormed m' cr3 := by
  refine ⟨h.root, h.distinct.link hl.fresh (hl.tableAt_eq h), ?_, ?_⟩
  · intro q u j hq hlen
    rcases hl.entry_cases h (j := j) hq with hz | he | ⟨hold, he⟩
    · rw [hz]
      rfl
    · rw [he]
      exact hl.pointer.small
    · rw [he]
      exact h.large q u j hold hlen
  · intro q u j hq hlen hne hsmall
    rcases hl.entry_cases h (j := j) hq with hz | he | ⟨hold, he⟩
    · exact absurd hz hne
    · rw [he]
      exact ⟨hl.pointer.present, hl.pointer.paddr.trans hl.pointer.hw.symm⟩
    · rw [he] at hne hsmall ⊢
      exact h.pointer q u j hold hlen hne hsmall

theorem hwWalk_eq (vaddr : ℕ) : hwWalk m' cr3 vaddr = hwWalk m cr3 vaddr := by
  have htab := hl.tableAt_eq h
  rw [(hl.wellFormed h).hwWalk_eq, h.hwWalk_eq]
  by_cases hpd : pdPath vaddr = i :: path
  · -- The new table is the page directory: its entry is empty.
    have hpt : tableAt m' cr3 (ptPath vaddr) = none := by
      have hnew : tableAt m' cr3 (pdPath vaddr) = some f := by rw [htab, if_pos hpd]
      rw [ptPath, tableAt_cons hnew, childTable_of_zero (hl.entry_fresh _)]
    rw [hpt, htab, if_pos hpd, hpd, hl.below]
    simp [walkFrom, hl.entry_fresh, pdeIsLarge]
  rw [htab, if_neg hpd]
  cases hold : tableAt m cr3 (pdPath vaddr) with
  | none => rw [walkFrom_none, walkFrom_none]
  | some pd =>
      by_cases hpt : pdPath vaddr = path ∧ pdIndex vaddr = i
      · -- The new table is the page table: its entry is empty.
        obtain ⟨hpath, hidx⟩ := hpt
        have hpdt : pd = t := Option.some.inj (hold.symm.trans (hpath ▸ hl.at_path))
        have hptPath : ptPath vaddr = i :: path := by rw [ptPath, hpath, hidx]
        have hlarge : pdeIsLarge (entry m' t i) = false := by
          rw [hl.entry_new h]
          exact hl.pointer.small
        have hlarge' : pdeIsLarge (entry m t i) = false := by
          rw [hl.zero]
          rfl
        rw [htab, hptPath, if_pos rfl, hl.below]
        simp [walkFrom, hpdt, hidx, hlarge, hlarge', hwEntry_of_zero (hl.entry_fresh _)]
      · have hpde := hl.entry_old h hold hpt
        have hptPath : ptPath vaddr ≠ i :: path := fun hc =>
          hpt ⟨(List.cons.inj hc).2, (List.cons.inj hc).1⟩
        have hlen : ¬ (ptPath vaddr = path ∧ ptIndex vaddr = i) := by
          rintro ⟨hc, -⟩
          have hd := hl.depth
          rw [← hc] at hd
          simp [ptPath, pdPath] at hd
        rw [htab, if_neg hptPath]
        exact walkFrom_congr hpde fun _ hleaf => hl.entry_old h hleaf hlen

end Links

/-- From `m` to `m'`, entry `i` of the table `t` at `path` is overwritten by `e`; neither
the old entry nor the new one leads to a table. -/
structure Overwrites (m m' : Mem) (cr3 : ℕ) (path : List (Fin 512)) (t : ℕ) (i : Fin 512)
    (e : ℕ) : Prop where
  at_path : tableAt m cr3 path = some t
  leaf : path.length = 3 ∨ path.length = 2 ∧ pdeIsLarge e = true ∧
    (entry m t i = 0 ∨ pdeIsLarge (entry m t i) = true)
  entries : ∀ u j, IsTable u → entry m' u j = if u = t ∧ j = i then e else entry m u j

namespace Overwrites

variable (h : WellFormed m cr3) (ho : Overwrites m m' cr3 path t i e)

include h ho

theorem entry_new : entry m' t i = e := by
  rw [ho.entries t i (h.isTable ho.at_path), if_pos ⟨rfl, rfl⟩]

theorem entry_old {q : List (Fin 512)} (hq : tableAt m cr3 q = some u)
    (hne : ¬ (q = path ∧ j = i)) : entry m' u j = entry m u j := by
  rw [ho.entries u j (h.isTable hq), if_neg]
  rintro ⟨rfl, rfl⟩
  exact hne ⟨h.path_eq ho.at_path hq, rfl⟩

theorem tableAt_eq (q : List (Fin 512)) : tableAt m' cr3 q = tableAt m cr3 q := by
  refine descend_congr ?_ q
  intro q u j hq
  by_cases hji : q = path ∧ j = i
  · obtain ⟨rfl, rfl⟩ := hji
    have hut : u = t := Option.some.inj (hq.symm.trans ho.at_path)
    rcases ho.leaf with hlen | ⟨-, hlarge, hold⟩
    · rw [childTable_leaf hlen.ge, childTable_leaf hlen.ge]
    · rw [hut, childTable_of_large (by rw [ho.entry_new h]; exact hlarge)]
      rcases hold with hz | hl
      · rw [childTable_of_zero hz]
      · rw [childTable_of_large hl]
  · exact childTable_congr (ho.entry_old h hq hji)

theorem wellFormed : WellFormed m' cr3 := by
  have htab := ho.tableAt_eq h
  refine ⟨h.root, ?_, ?_, ?_⟩
  · intro q q' u hq hq'
    exact h.distinct q q' u ((htab q).symm.trans hq) ((htab q').symm.trans hq')
  · intro q u j hq hlen
    rw [htab] at hq
    rw [ho.entry_old h hq, h.large q u j hq hlen]
    rintro ⟨rfl, -⟩
    rcases ho.leaf with h3 | ⟨h2, -⟩ <;> omega
  · intro q u j hq hlen hne hsmall
    rw [htab] at hq
    by_cases hji : q = path ∧ j = i
    · obtain ⟨rfl, rfl⟩ := hji
      have hut : u = t := Option.some.inj (hq.symm.trans ho.at_path)
      rcases ho.leaf with h3 | ⟨-, hlarge, -⟩
      · omega
      · rw [hut, ho.entry_new h, hlarge] at hsmall
        cases hsmall
    · rw [ho.entry_old h hq hji] at hne hsmall ⊢
      exact h.pointer q u j hq hlen hne hsmall

theorem hwWalk_small (hlen : path.length = 3) (he : hwPresent e = true) (vaddr : ℕ) :
    hwWalk m' cr3 vaddr =
      if ptPath vaddr = path ∧ ptIndex vaddr = i then some (hwSmallLeaf e)
      else hwWalk m cr3 vaddr := by
  rw [(ho.wellFormed h).hwWalk_eq, h.hwWalk_eq, ho.tableAt_eq h, ho.tableAt_eq h]
  have hpdlen : pdPath vaddr ≠ path := by
    rintro rfl
    simp [pdPath] at hlen
  cases hpd : tableAt m cr3 (pdPath vaddr) with
  | none =>
      have hpt : tableAt m cr3 (ptPath vaddr) = none := tableAt_cons_none hpd
      rw [walkFrom_none, walkFrom_none, if_neg]
      rintro ⟨rfl, -⟩
      cases hpt.symm.trans ho.at_path
  | some pd =>
      have hpde : entry m' pd (pdIndex vaddr) = entry m pd (pdIndex vaddr) :=
        ho.entry_old h hpd fun hc => hpdlen hc.1
      by_cases hmine : ptPath vaddr = path ∧ ptIndex vaddr = i
      · obtain ⟨rfl, rfl⟩ := hmine
        have hsmall : pdeIsLarge (entry m pd (pdIndex vaddr)) = false := by
          cases hl : pdeIsLarge (entry m pd (pdIndex vaddr)) with
          | false => rfl
          | true =>
              have hnone : tableAt m cr3 (ptPath vaddr) = none := by
                rw [ptPath, tableAt_cons hpd, childTable_of_large hl]
              cases hnone.symm.trans ho.at_path
        simp [walkFrom, hpde, hsmall, ho.at_path, hwEntry_of_present (ho.entry_new h) he]
      · rw [if_neg hmine]
        exact walkFrom_congr hpde fun _ hpt => ho.entry_old h hpt hmine

theorem hwWalk_large (hlen : path.length = 2) (he : hwPresent e = true)
    (hlarge : pdeIsLarge e = true) (vaddr : ℕ) :
    hwWalk m' cr3 vaddr =
      if pdPath vaddr = path ∧ pdIndex vaddr = i then some (hwLargeLeaf e vaddr)
      else hwWalk m cr3 vaddr := by
  rw [(ho.wellFormed h).hwWalk_eq, h.hwWalk_eq, ho.tableAt_eq h, ho.tableAt_eq h]
  by_cases hmine : pdPath vaddr = path ∧ pdIndex vaddr = i
  · obtain ⟨rfl, rfl⟩ := hmine
    have hnew := ho.entry_new h
    rw [if_pos ⟨rfl, rfl⟩, ho.at_path]
    simp [walkFrom, hnew, hlarge, hwEntry_of_present hnew he]
  · rw [if_neg hmine]
    cases hpd : tableAt m cr3 (pdPath vaddr) with
    | none => rw [walkFrom_none, walkFrom_none]
    | some pd =>
        have hptlen : ¬ (ptPath vaddr = path ∧ ptIndex vaddr = i) := by
          rintro ⟨rfl, -⟩
          simp [ptPath, pdPath] at hlen
        exact walkFrom_congr (ho.entry_old h hpd hmine) fun _ hpt => ho.entry_old h hpt hptlen

end Overwrites

end Manticore
