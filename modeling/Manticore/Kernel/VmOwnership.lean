import Manticore.Kernel.VmspaceAlloc

/-!
# Who owns the page of a region

A region has one page slot.  `populate` and `populate_from` put a page there that they got
from an arena, `map` puts there a page that its caller keeps, and whatever the slot holds
when the region goes is given to the small page arena.

The slots are followed by a ledger beside the address space: which arena a page came from,
or that it was lent, and what was obtained and given back so far.
-/

namespace Manticore

inductive Arena where
  | small
  | large
deriving DecidableEq, Repr

/-- What a page slot holds. -/
inductive Slot where
  | empty
  | owned (arena : Arena) (page : ℕ)
  | lent (page : ℕ)
deriving DecidableEq, Repr

namespace Slot

def page : Slot → Option ℕ
  | empty => none
  | owned _ page => some page
  | lent page => some page

def toOwned : Slot → Option (Arena × ℕ)
  | owned arena page => some (arena, page)
  | _ => none

end Slot

/-- An address space, the memory, and the ledger: the pages obtained for regions, what was
given to `page_free_small`, and the regions with their slots. -/
structure OwnedSpace (σ : Type) where
  vm : VMAddressSpace
  mem : KMem σ
  obtained : List (Arena × ℕ)
  returned : List Slot
  slots : List (VMRegion × Slot)

/-- The start of a region in the ledger. -/
def slotKey (e : VMRegion × Slot) : ℕ := e.1.start

/-- The ledger's side of `region.page.set(..)`. -/
def putSlot (start : ℕ) (slot : Slot) : List (VMRegion × Slot) → List (VMRegion × Slot)
  | [] => []
  | e :: es =>
      if e.1.start = start then ({ e.1 with page := slot.page }, slot) :: es
      else e :: putSlot start slot es

/-- The pages that the regions own. -/
def held (slots : List (VMRegion × Slot)) : List (Arena × ℕ) :=
  slots.filterMap fun e => e.2.toOwned

/-! ## What the operations obtain -/

namespace VMAddressSpace

variable {σ : Type} (A : KernelPages σ)

def arenaOf (size : ℕ) : Arena := if size = pageSizeLarge then .large else .small

/-- The page that `populate` gets, if it gets one. -/
def populateObtains (vm : VMAddressSpace) (s : KMem σ) (start stop : ℕ) : List (Arena × ℕ) :=
  match vm.lookup start stop with
  | none => []
  | some _ =>
      match allocPage A s (sub64 stop start) with
      | none => []
      | some (page, _) => if page = 0 then [] else [(arenaOf (sub64 stop start), page)]

/-- The rounds of the loop of `populate_from` that copy a page: the offset, and the page that is
filled. -/
def populatePagesTrace (fuel : ℕ) (r : VMRegion) (start srcStart : ℕ) :
    List ℕ → VMAddressSpace → KMem σ → List (ℕ × ℕ)
  | [], _, _ => []
  | offset :: rest, vm, s =>
      let (page, pages) := A.alloc s.pages
      let s := { s with pages := pages }
      if page = 0 then []
      else
        let src := fun i => s.mem (add64 srcStart offset + i)
        let s := { s with mem := memcpy s.mem page src pageSizeSmall }
        (offset, page) ::
          match mapPageAt A fuel vm s r (add64 start offset) page pageSizeSmall with
          | some (.ok (), vm, s) => populatePagesTrace fuel r start srcStart rest vm s
          | _ => []

/-- The pages of the loop of `populate_from`. -/
def populatePagesObtains (fuel : ℕ) (r : VMRegion) (start srcStart : ℕ) (offsets : List ℕ)
    (vm : VMAddressSpace) (s : KMem σ) : List (Arena × ℕ) :=
  (populatePagesTrace A fuel r start srcStart offsets vm s).map fun round => (.small, round.2)

def populateFromObtains (fuel : ℕ) (vm : VMAddressSpace) (s : KMem σ)
    (start stop srcStart srcStop : ℕ) : List (Arena × ℕ) :=
  let size := sub64 stop start
  if size < sub64 srcStop srcStart then []
  else
    match vm.lookup start stop with
    | none => []
    | some r => populatePagesObtains A fuel r start srcStart (pageOffsets size) vm s

end VMAddressSpace

/-! ## Runs -/

inductive SpaceOp where
  | allocate (size align prot : ℕ)
  | allocateFixed (start stop prot : ℕ)
  | populate (start stop : ℕ)
  | populateFrom (start stop srcStart srcStop : ℕ)
  | map (start stop page : ℕ)
  | deallocate (start stop : ℕ)
  | drop
deriving DecidableEq, Repr

namespace OwnedSpace

variable {σ : Type} (A : KernelPages σ) (fuel : ℕ)

/-- No regions, nothing obtained. -/
def new (mmuMap : ℕ) (s : KMem σ) : OwnedSpace σ := ⟨VMAddressSpace.new mmuMap, s, [], [], []⟩

/-- A new region has an empty slot. -/
def register (st : OwnedSpace σ) (vm : VMAddressSpace) (start stop prot : ℕ) : OwnedSpace σ :=
  { st with
    vm := vm
    slots := treeInsert slotKey (VMRegion.new start stop prot, .empty) st.slots }

/-- The pages `ps` went into the slot at `start`, one after the other. -/
def obtain (st : OwnedSpace σ) (start : ℕ) (ps : List (Arena × ℕ)) : OwnedSpace σ :=
  { st with
    obtained := st.obtained ++ ps
    slots := ps.foldl (fun slots p => putSlot start (.owned p.1 p.2) slots) st.slots }

/-- An operation that runs out of fuel does not return. -/
def step (st : OwnedSpace σ) : SpaceOp → OwnedSpace σ
  | .allocate size align prot =>
      match st.vm.allocate size align prot with
      | (.ok (start, stop), vm) => st.register vm start stop prot
      | (.error _, vm) => { st with vm := vm }
  | .allocateFixed start stop prot =>
      match st.vm.allocateFixed start stop prot with
      | (.ok (), vm) => st.register vm start stop prot
      | (.error _, vm) => { st with vm := vm }
  | .populate start stop =>
      match st.vm.populate A fuel st.mem start stop with
      | none => st
      | some (_, vm, s) =>
          { st.obtain start (st.vm.populateObtains A st.mem start stop) with vm := vm, mem := s }
  | .populateFrom start stop srcStart srcStop =>
      match st.vm.populateFrom A fuel st.mem start stop srcStart srcStop with
      | none => st
      | some (_, vm, s) =>
          { st.obtain start
              (st.vm.populateFromObtains A fuel st.mem start stop srcStart srcStop) with
            vm := vm, mem := s }
  | .map start stop page =>
      match st.vm.map A fuel st.mem start stop page with
      | none => st
      | some (_, vm, s) =>
          { st with
            vm := vm
            mem := s
            slots := if (st.vm.lookup start stop).isSome then putSlot start (.lent page) st.slots
              else st.slots }
  | .deallocate start stop =>
      let (res, vm, s) := st.vm.deallocate A st.mem start stop
      match res with
      | .error _ => { st with vm := vm, mem := s }
      | .ok () =>
          { st with
            vm := vm
            mem := s
            returned := st.returned ++ ((treeFind slotKey start st.slots).map Prod.snd).toList.filter
              (· ≠ .empty)
            slots := st.slots.eraseP fun e => slotKey e == start }
  | .drop =>
      let (vm, s) := st.vm.delete A st.mem
      { st with
        vm := vm
        mem := s
        returned := st.returned ++ (st.slots.map Prod.snd).filter (· ≠ .empty)
        slots := [] }

/-- **Every page obtained is accounted for**: it was given back once, to its own arena, or
is in the slot of a region; and nothing else was given back. -/
structure Accounted (st : OwnedSpace σ) : Prop where
  regions : st.slots.map Prod.fst = st.vm.vmRegions
  pages : ∀ e ∈ st.slots, e.1.page = e.2.page
  exact : st.obtained.Perm (st.returned.filterMap Slot.toOwned ++ held st.slots)
  home : ∀ slot ∈ st.returned, ∃ page, slot = .owned .small page

/-- The slot can be set to a page without losing one. -/
def SlotFree (st : OwnedSpace σ) (start : ℕ) : Prop :=
  ∀ e ∈ treeFind slotKey start st.slots, e.2.toOwned = none

/-- The slot holds nothing, or a small page of its own. -/
def Returnable (slot : Slot) : Prop := slot = .empty ∨ ∃ page, slot = .owned .small page

instance (st : OwnedSpace σ) (start : ℕ) : Decidable (st.SlotFree start) :=
  inferInstanceAs (Decidable (∀ e ∈ treeFind slotKey start st.slots, e.2.toOwned = none))

instance : DecidablePred Returnable
  | .empty => isTrue (Or.inl rfl)
  | .owned .small page => isTrue (Or.inr ⟨page, rfl⟩)
  | .owned .large _ => isFalse (by rintro (h | ⟨_, h⟩) <;> cases h)
  | .lent _ => isFalse (by rintro (h | ⟨_, h⟩) <;> cases h)

/-- The steps at which no page is lost and none is given to the wrong place. -/
def Careful (st : OwnedSpace σ) : SpaceOp → Prop
  | .allocate .. => True
  | .allocateFixed .. => True
  | .populate start stop => st.vm.populateObtains A st.mem start stop = [] ∨ st.SlotFree start
  | .populateFrom start stop srcStart srcStop =>
      let ps := st.vm.populateFromObtains A fuel st.mem start stop srcStart srcStop
      ps = [] ∨ ps.length = 1 ∧ st.SlotFree start
  | .map start stop _ => st.vm.lookup start stop = none ∨ st.SlotFree start
  | .deallocate start stop => st.vm.lookup start stop = none ∨
      ∀ e ∈ treeFind slotKey start st.slots, Returnable e.2
  | .drop => ∀ e ∈ st.slots, Returnable e.2

instance (st : OwnedSpace σ) : DecidablePred (Careful A fuel st)
  | .allocate .. => inferInstanceAs (Decidable True)
  | .allocateFixed .. => inferInstanceAs (Decidable True)
  | .populate .. => inferInstanceAs (Decidable (_ ∨ _))
  | .populateFrom .. => inferInstanceAs (Decidable (_ ∨ _ ∧ _))
  | .map .. => inferInstanceAs (Decidable (_ ∨ _))
  | .deallocate .. => inferInstanceAs (Decidable (_ ∨ _))
  | .drop => inferInstanceAs (Decidable (∀ e ∈ st.slots, Returnable e.2))

end OwnedSpace

/-! ## The ledger follows the regions -/

section slots

variable {start : ℕ} {slot : Slot} {e : VMRegion × Slot} {es pre post : List (VMRegion × Slot)}

theorem treeFind_split (h : treeFind slotKey start es = some e) :
    e.1.start = start ∧ ∃ pre post, es = pre ++ e :: post ∧ ∀ x ∈ pre, x.1.start ≠ start := by
  obtain ⟨he, pre, post, rfl, hpre⟩ := List.find?_eq_some_iff_append.mp h
  refine ⟨by simpa [slotKey] using he, pre, post, rfl, ?_⟩
  intro x hx
  simpa [slotKey] using hpre x hx

theorem putSlot_split (hpre : ∀ x ∈ pre, x.1.start ≠ start) (he : e.1.start = start) :
    putSlot start slot (pre ++ e :: post) =
      pre ++ ({ e.1 with page := slot.page }, slot) :: post := by
  induction pre with
  | nil => rw [List.nil_append, putSlot, if_pos he, List.nil_append]
  | cons x xs ih =>
      rw [List.cons_append, putSlot, if_neg (hpre x List.mem_cons_self),
        ih fun y hy => hpre y (List.mem_cons_of_mem _ hy), List.cons_append]

theorem map_putSlot {page : ℕ} (hslot : slot.page = some page) (es : List (VMRegion × Slot)) :
    (putSlot start slot es).map Prod.fst = setRegionPage start page (es.map Prod.fst) := by
  induction es with
  | nil => rfl
  | cons x xs ih =>
      rw [putSlot, List.map_cons, setRegionPage]
      by_cases hx : x.1.start = start
      · rw [if_pos hx, if_pos hx, List.map_cons, hslot]
      · rw [if_neg hx, if_neg hx, List.map_cons, ih]

theorem page_putSlot (h : ∀ x ∈ es, x.1.page = x.2.page) :
    ∀ x ∈ putSlot start slot es, x.1.page = x.2.page := by
  induction es with
  | nil => exact h
  | cons y ys ih =>
      intro x hx
      rw [putSlot] at hx
      by_cases hy : y.1.start = start
      · rw [if_pos hy] at hx
        rcases List.mem_cons.mp hx with rfl | hx
        · rfl
        · exact h x (List.mem_cons_of_mem _ hx)
      · rw [if_neg hy] at hx
        rcases List.mem_cons.mp hx with rfl | hx
        · exact h x List.mem_cons_self
        · exact ih (fun z hz => h z (List.mem_cons_of_mem _ hz)) x hx

@[simp] theorem held_nil : held [] = [] := rfl

theorem held_append (es es' : List (VMRegion × Slot)) : held (es ++ es') = held es ++ held es' :=
  List.filterMap_append

theorem held_cons (e : VMRegion × Slot) (es : List (VMRegion × Slot)) :
    held (e :: es) = e.2.toOwned.toList ++ held es := by
  simp only [held, List.filterMap_cons]
  cases e.2.toOwned <;> rfl

theorem held_putSlot (slot : Slot) (hfind : treeFind slotKey start es = some e)
    (hfree : e.2.toOwned = none) :
    (held (putSlot start slot es)).Perm (slot.toOwned.toList ++ held es) := by
  obtain ⟨he, pre, post, rfl, hpre⟩ := treeFind_split hfind
  rw [putSlot_split hpre he, held_append, held_append, held_cons, held_cons, hfree,
    Option.toList_none, List.nil_append]
  exact List.perm_append_comm_assoc _ _ _

theorem held_eraseP (hfind : treeFind slotKey start es = some e) :
    (held es).Perm (e.2.toOwned.toList ++ held (es.eraseP fun x => slotKey x == start)) := by
  obtain ⟨he, pre, post, rfl, hpre⟩ := treeFind_split hfind
  have hskip : ∀ x ∈ pre, ¬ (slotKey x == start) = true := fun x hx => by
    simpa [slotKey] using hpre x hx
  rw [List.eraseP_append_right _ hskip, List.eraseP_cons_of_pos (by simpa [slotKey] using he),
    held_append, held_append, held_cons]
  exact List.perm_append_comm_assoc _ _ _

theorem map_treeInsert_fst (x : VMRegion × Slot) (es : List (VMRegion × Slot)) :
    (treeInsert slotKey x es).map Prod.fst = treeInsert VMRegion.start x.1 (es.map Prod.fst) := by
  induction es with
  | nil => rfl
  | cons y ys ih =>
      rw [treeInsert, List.map_cons, treeInsert]
      by_cases hlt : slotKey x < slotKey y
      · rw [if_pos hlt, if_pos (by exact hlt)]
        rfl
      · rw [if_neg hlt, if_neg (by exact hlt), List.map_cons, ih]

theorem treeFind_map_fst (start : ℕ) (es : List (VMRegion × Slot)) :
    treeFind VMRegion.start start (es.map Prod.fst) =
      (treeFind slotKey start es).map Prod.fst := by
  rw [treeFind, List.find?_map]
  rfl

end slots

/-! ## Each operation keeps the account -/

namespace VMAddressSpace

variable {σ : Type} {A : KernelPages σ} {fuel : ℕ} {vm vm' : VMAddressSpace} {s s' : KMem σ}
  {start stop srcStart srcStop : ℕ} {r : VMRegion} {res : Except ℤ Unit}

/-- The slot at `start` after the pages `ps`: the last one stays. -/
def setRegionPages (start : ℕ) (ps : List (Arena × ℕ)) (rs : List VMRegion) : List VMRegion :=
  ps.foldl (fun rs p => setRegionPage start p.2 rs) rs

theorem lookup_start (h : vm.lookup start stop = some r) :
    treeFind VMRegion.start start vm.vmRegions = some r ∧ r.start = start := by
  have hfind := (Option.filter_eq_some_iff.mp h).1
  exact ⟨hfind, (treeFind_some hfind).2⟩

theorem mapPageAt_regions {vaddr page size : ℕ}
    (h : mapPageAt A fuel vm s r vaddr page size = some (res, vm', s')) :
    vm'.vmRegions = setRegionPage r.start page vm.vmRegions := by
  obtain ⟨err, -, rfl, -⟩ := mapPageAt_spec h
  rfl

theorem map_regions {page : ℕ} (h : map A fuel vm s start stop page = some (res, vm', s')) :
    vm'.vmRegions = if (vm.lookup start stop).isSome then setRegionPage start page vm.vmRegions
      else vm.vmRegions := by
  unfold map at h
  rcases hlook : vm.lookup start stop with _ | r
  · rw [hlook] at h
    obtain ⟨-, rfl, -⟩ := some_triple_inj h
    rfl
  · rw [hlook] at h
    rw [mapPageAt_regions h, (lookup_start hlook).2]
    rfl

theorem populate_regions (h : populate A fuel vm s start stop = some (res, vm', s')) :
    vm'.vmRegions = setRegionPages start (vm.populateObtains A s start stop) vm.vmRegions := by
  unfold populate at h
  unfold populateObtains
  rcases hlook : vm.lookup start stop with _ | r
  · rw [hlook] at h
    obtain ⟨-, rfl, -⟩ := some_triple_inj h
    rfl
  · rw [hlook] at h
    rcases halloc : allocPage A s (sub64 stop start) with _ | ⟨page, s₁⟩
    · rw [halloc] at h
      obtain ⟨-, rfl, -⟩ := some_triple_inj h
      rfl
    · rw [halloc] at h
      by_cases hnull : page = 0
      · simp only [if_pos hnull] at h ⊢
        obtain ⟨-, rfl, -⟩ := some_triple_inj h
        rfl
      · simp only [if_neg hnull] at h ⊢
        rw [mapPageAt_regions h, (lookup_start hlook).2]
        rfl

theorem populatePages_regions (hr : r.start = start) {offsets : List ℕ}
    (h : populatePages A fuel r start srcStart offsets vm s = some (res, vm', s')) :
    vm'.vmRegions = setRegionPages start
      (populatePagesObtains A fuel r start srcStart offsets vm s) vm.vmRegions := by
  induction offsets generalizing vm s with
  | nil =>
      rw [populatePages] at h
      obtain ⟨-, rfl, -⟩ := some_triple_inj h
      rfl
  | cons offset rest ih =>
      rw [populatePagesObtains, populatePagesTrace]
      rcases populatePages_cons_cases h with
        ⟨hnull, -, rfl, -⟩ | ⟨hne, res₁, vm₁, s₁, hmap, hrest⟩
      · simp only [if_pos hnull]
        rfl
      · have hset := mapPageAt_regions hmap
        rw [hr] at hset
        rw [filled] at hmap
        simp only [if_neg hne, hmap]
        rcases hrest with ⟨e, rfl, -, rfl, -⟩ | ⟨rfl, hrest⟩
        · exact hset
        · rw [ih hrest, hset]
          rfl

theorem populateFrom_regions
    (h : populateFrom A fuel vm s start stop srcStart srcStop = some (res, vm', s')) :
    vm'.vmRegions = setRegionPages start
      (vm.populateFromObtains A fuel s start stop srcStart srcStop) vm.vmRegions := by
  unfold populateFrom at h
  unfold populateFromObtains
  by_cases hsize : sub64 stop start < sub64 srcStop srcStart
  · simp only [if_pos hsize] at h ⊢
    obtain ⟨-, rfl, -⟩ := some_triple_inj h
    rfl
  · simp only [if_neg hsize] at h ⊢
    rcases hlook : vm.lookup start stop with _ | r
    · rw [hlook] at h
      obtain ⟨-, rfl, -⟩ := some_triple_inj h
      rfl
    · rw [hlook] at h
      exact populatePages_regions (lookup_start hlook).2 h

end VMAddressSpace

namespace OwnedSpace

variable {σ : Type} {A : KernelPages σ} {fuel : ℕ} {st : OwnedSpace σ} {vm : VMAddressSpace}
  {s : KMem σ} {start stop : ℕ} {r : VMRegion}

theorem Accounted.entry (h : Accounted st) (hlook : st.vm.lookup start stop = some r) :
    ∃ slot, treeFind slotKey start st.slots = some (r, slot) := by
  have hfind := (VMAddressSpace.lookup_start hlook).1
  rw [← h.regions, treeFind_map_fst, Option.map_eq_some_iff] at hfind
  obtain ⟨⟨r', slot⟩, hfind, rfl⟩ := hfind
  exact ⟨slot, hfind⟩

theorem Accounted.register (h : Accounted st) (prot : ℕ) :
    Accounted (st.register (st.vm.insert (VMRegion.new start stop prot)) start stop prot) := by
  have hperm := treeInsert_perm slotKey (VMRegion.new start stop prot, Slot.empty) st.slots
  refine ⟨?_, ?_, ?_, h.home⟩
  · show (treeInsert slotKey _ st.slots).map Prod.fst = treeInsert VMRegion.start _ st.vm.vmRegions
    rw [map_treeInsert_fst, h.regions]
  · intro e he
    rcases List.mem_cons.mp (hperm.mem_iff.mp he) with rfl | he
    · rfl
    · exact h.pages e he
  · refine h.exact.trans (List.Perm.append_left _ ?_)
    have hheld := hperm.filterMap fun e => e.2.toOwned
    rw [List.filterMap_cons_none rfl] at hheld
    exact hheld.symm

theorem Accounted.put (slot : Slot) {page : ℕ} {e : VMRegion × Slot} (h : Accounted st)
    (hslot : slot.page = some page) (hfind : treeFind slotKey start st.slots = some e)
    (hfree : e.2.toOwned = none)
    (hvm : vm.vmRegions = setRegionPage start page st.vm.vmRegions) :
    Accounted { st with
      vm := vm
      mem := s
      obtained := st.obtained ++ slot.toOwned.toList
      slots := putSlot start slot st.slots } := by
  refine ⟨?_, page_putSlot h.pages, ?_, h.home⟩
  · show (putSlot start slot st.slots).map Prod.fst = vm.vmRegions
    rw [map_putSlot hslot, h.regions, hvm]
  · show (st.obtained ++ slot.toOwned.toList).Perm
      (st.returned.filterMap Slot.toOwned ++ held (putSlot start slot st.slots))
    have hput := held_putSlot slot hfind hfree
    refine (h.exact.append_right _).trans ?_
    rw [List.append_assoc]
    exact List.Perm.append_left _ (List.perm_append_comm.trans hput.symm)

theorem Accounted.obtain {ps : List (Arena × ℕ)} (h : Accounted st)
    (hps : ps = [] ∨ ps.length = 1 ∧ st.SlotFree start)
    (hfound : ps ≠ [] → ∃ r, st.vm.lookup start stop = some r)
    (hvm : vm.vmRegions = VMAddressSpace.setRegionPages start ps st.vm.vmRegions) :
    Accounted { st.obtain start ps with vm := vm, mem := s } := by
  rcases hps with rfl | ⟨hlen, hfree⟩
  · refine ⟨h.regions.trans hvm.symm, h.pages, ?_, h.home⟩
    show (st.obtained ++ []).Perm _
    rw [List.append_nil]
    exact h.exact
  · obtain ⟨⟨arena, page⟩, rfl⟩ := List.length_eq_one_iff.mp hlen
    obtain ⟨r, hlook⟩ := hfound (List.cons_ne_nil _ _)
    obtain ⟨slot, hfind⟩ := h.entry hlook
    exact h.put (.owned arena page) rfl hfind (hfree _ hfind) hvm

theorem lookup_of_populateObtains {vm : VMAddressSpace}
    (h : vm.populateObtains A s start stop ≠ []) : ∃ r, vm.lookup start stop = some r := by
  rcases hlook : vm.lookup start stop with _ | r
  · exact absurd (by rw [VMAddressSpace.populateObtains, hlook]) h
  · exact ⟨r, rfl⟩

theorem lookup_of_populateFromObtains {vm : VMAddressSpace} {srcStart srcStop : ℕ}
    (h : vm.populateFromObtains A fuel s start stop srcStart srcStop ≠ []) :
    ∃ r, vm.lookup start stop = some r := by
  rcases hlook : vm.lookup start stop with _ | r
  · refine absurd ?_ h
    simp only [VMAddressSpace.populateFromObtains, hlook, ite_self]
  · exact ⟨r, rfl⟩

theorem populateObtains_length (A : KernelPages σ) (vm : VMAddressSpace) (s : KMem σ)
    (start stop : ℕ) : (vm.populateObtains A s start stop).length ≤ 1 := by
  unfold VMAddressSpace.populateObtains
  split
  · exact Nat.zero_le _
  · split
    · exact Nat.zero_le _
    · split <;> simp

theorem Returnable.filter {slot : Slot} (h : Returnable slot) :
    ([slot].filter (· ≠ .empty)).filterMap Slot.toOwned = slot.toOwned.toList ∧
      ∀ x ∈ [slot].filter (· ≠ .empty), ∃ page, x = .owned .small page := by
  rcases h with rfl | ⟨page, rfl⟩
  · exact ⟨rfl, List.forall_mem_nil _⟩
  · exact ⟨rfl, fun x hx => ⟨page, List.mem_singleton.mp hx⟩⟩

theorem Accounted.deallocate (h : Accounted st) (hlook : st.vm.lookup start stop = some r)
    (hret : ∀ e ∈ treeFind slotKey start st.slots, Returnable e.2) :
    Accounted { st with
      vm := { st.vm with vmRegions := st.vm.vmRegions.erase r }
      mem := s
      returned := st.returned ++
        ((treeFind slotKey start st.slots).map Prod.snd).toList.filter (· ≠ .empty)
      slots := st.slots.eraseP fun e => slotKey e == start } := by
  obtain ⟨slot, hfind⟩ := h.entry hlook
  obtain ⟨hfilter, hhome⟩ := (hret _ hfind).filter
  have hreturned : ((treeFind slotKey start st.slots).map Prod.snd).toList = [slot] := by
    rw [hfind]
    rfl
  rw [hreturned]
  refine ⟨?_, fun e he => h.pages e (List.mem_of_mem_eraseP he), ?_, ?_⟩
  · -- the region that `erase` removes is the first one with that start
    show (st.slots.eraseP fun e => slotKey e == start).map Prod.fst = st.vm.vmRegions.erase r
    obtain ⟨hr, pre, post, hsplit, hpre⟩ := treeFind_split hfind
    have hskip : ∀ x ∈ pre, ¬ (slotKey x == start) = true := fun x hx => by
      simpa [slotKey] using hpre x hx
    have hnot : r ∉ pre.map Prod.fst := by
      intro hmem
      obtain ⟨x, hx, rfl⟩ := List.mem_map.mp hmem
      exact hpre x hx hr
    rw [← h.regions, hsplit, List.eraseP_append_right _ hskip,
      List.eraseP_cons_of_pos (by simpa [slotKey] using hr), List.map_append, List.map_append,
      List.map_cons, List.erase_append_right _ hnot, List.erase_cons_head]
  · show st.obtained.Perm ((st.returned ++ [slot].filter (· ≠ .empty)).filterMap Slot.toOwned ++
      held (st.slots.eraseP fun e => slotKey e == start))
    rw [List.filterMap_append, hfilter, List.append_assoc]
    exact h.exact.trans (List.Perm.append_left _ (held_eraseP hfind))
  · intro x hx
    rcases List.mem_append.mp hx with hx | hx
    · exact h.home x hx
    · exact hhome x hx

theorem returned_held {es : List (VMRegion × Slot)} (hret : ∀ e ∈ es, Returnable e.2) :
    ((es.map Prod.snd).filter (· ≠ .empty)).filterMap Slot.toOwned = held es ∧
      ∀ x ∈ (es.map Prod.snd).filter (· ≠ .empty), ∃ page, x = .owned .small page := by
  induction es with
  | nil => exact ⟨rfl, List.forall_mem_nil _⟩
  | cons e es ih =>
      obtain ⟨hfilter, hhome⟩ := ih fun x hx => hret x (List.mem_cons_of_mem _ hx)
      obtain ⟨hfilter₁, hhome₁⟩ := (hret e List.mem_cons_self).filter
      have hcons : ((e :: es).map Prod.snd).filter (· ≠ .empty) =
          [e.2].filter (· ≠ .empty) ++ (es.map Prod.snd).filter (· ≠ .empty) := by
        rw [← List.filter_append, List.map_cons]
        rfl
      rw [hcons, List.filterMap_append, hfilter, hfilter₁, held_cons]
      refine ⟨rfl, fun x hx => ?_⟩
      rcases List.mem_append.mp hx with hx | hx
      · exact hhome₁ x hx
      · exact hhome x hx

theorem Accounted.drop (h : Accounted st) (hret : ∀ e ∈ st.slots, Returnable e.2) :
    Accounted (step A fuel st .drop) := by
  obtain ⟨hfilter, hhome⟩ := returned_held hret
  refine ⟨rfl, List.forall_mem_nil _, ?_, ?_⟩
  · show st.obtained.Perm ((st.returned ++ (st.slots.map Prod.snd).filter (· ≠ .empty)).filterMap
      Slot.toOwned ++ [])
    rw [List.filterMap_append, hfilter, List.append_nil]
    exact h.exact
  · intro x hx
    rcases List.mem_append.mp hx with hx | hx
    · exact h.home x hx
    · exact hhome x hx

theorem Accounted.step {op : SpaceOp} (h : Accounted st) (hcareful : Careful A fuel st op) :
    Accounted (step A fuel st op) := by
  cases op with
  | allocate size align prot =>
      simp only [OwnedSpace.step, VMAddressSpace.allocate]
      split_ifs
      · exact h
      · exact h
      · exact h.register prot
  | allocateFixed start stop prot =>
      simp only [OwnedSpace.step, VMAddressSpace.allocateFixed]
      split_ifs
      · exact h
      · exact h
      · exact h.register prot
  | populate start stop =>
      rw [OwnedSpace.step]
      rcases hpop : st.vm.populate A fuel st.mem start stop with _ | ⟨res, vm, s⟩
      · exact h
      · refine h.obtain ?_ lookup_of_populateObtains (VMAddressSpace.populate_regions hpop)
        by_cases hnil : st.vm.populateObtains A st.mem start stop = []
        · exact Or.inl hnil
        · have hlen := populateObtains_length A st.vm st.mem start stop
          exact Or.inr ⟨le_antisymm hlen (List.length_pos_iff.mpr hnil),
            hcareful.resolve_left hnil⟩
  | populateFrom start stop srcStart srcStop =>
      rw [OwnedSpace.step]
      rcases hpop : st.vm.populateFrom A fuel st.mem start stop srcStart srcStop
        with _ | ⟨res, vm, s⟩
      · exact h
      · exact h.obtain hcareful lookup_of_populateFromObtains
          (VMAddressSpace.populateFrom_regions hpop)
  | map start stop page =>
      rw [OwnedSpace.step]
      rcases hmap : st.vm.map A fuel st.mem start stop page with _ | ⟨res, vm, s⟩
      · exact h
      · have hregions := VMAddressSpace.map_regions hmap
        rcases hlook : st.vm.lookup start stop with _ | r
        · rw [hlook] at hregions
          exact ⟨h.regions.trans hregions.symm, h.pages, h.exact, h.home⟩
        · obtain ⟨slot, hfind⟩ := h.entry hlook
          have hfree := hcareful.resolve_left (by rw [hlook]; exact Option.some_ne_none r)
          rw [hlook] at hregions
          have hput := h.put (.lent page) (s := s) rfl hfind (hfree _ hfind) hregions
          have hnone : (Slot.lent page).toOwned.toList = [] := rfl
          rw [hnone, List.append_nil] at hput
          exact hput
  | deallocate start stop =>
      rcases hlook : st.vm.lookup start stop with _ | r
      · simp only [OwnedSpace.step, VMAddressSpace.deallocate, hlook]
        exact h
      · have hret := hcareful.resolve_left (by rw [hlook]; exact Option.some_ne_none r)
        simp only [OwnedSpace.step, VMAddressSpace.deallocate, hlook]
        exact h.deallocate hlook hret
  | drop => exact h.drop hcareful

/-! ## Whole runs -/

/-- Nothing is lost or given to the wrong place by the operations `ops` on a new address
space, and after it is dropped every page obtained has been given back once. -/
structure PagesReturned (A : KernelPages σ) (fuel mmuMap : ℕ) (s : KMem σ) (ops : List SpaceOp) :
    Prop where
  accounted : ∀ pre, pre <+: ops → Accounted (run (step A fuel) (new mmuMap s) pre)
  returned : (run (step A fuel) (new mmuMap s) (ops ++ [.drop])).obtained.Perm
    ((run (step A fuel) (new mmuMap s) (ops ++ [.drop])).returned.filterMap Slot.toOwned)
  home : ∀ slot ∈ (run (step A fuel) (new mmuMap s) (ops ++ [.drop])).returned,
    ∃ page, slot = .owned .small page

theorem accounted_new (mmuMap : ℕ) (s : KMem σ) : Accounted (new mmuMap s) :=
  ⟨rfl, List.forall_mem_nil _, List.Perm.refl _, List.forall_mem_nil _⟩

theorem Accounted.run {ops : List SpaceOp} (h : Accounted st)
    (hcareful : Guarded (OwnedSpace.step A fuel) (Careful A fuel) st ops) :
    Accounted (run (OwnedSpace.step A fuel) st ops) :=
  run_invariant_of_guarded (fun _ _ hok hst => Accounted.step hst hok) hcareful h

/-- **Pages are returned once, to their own arena**, if no step overwrites a slot that owns
a page, and no region goes whose slot holds a lent or a large page. -/
theorem pagesReturned_of_careful {mmuMap : ℕ} {ops : List SpaceOp}
    (hcareful : Guarded (step A fuel) (Careful A fuel) (new mmuMap s) (ops ++ [.drop])) :
    PagesReturned A fuel mmuMap s ops := by
  have hall := (accounted_new mmuMap s).run hcareful
  have hempty : (run (step A fuel) (new mmuMap s) (ops ++ [.drop])).slots = [] := by
    rw [run_append]
    rfl
  refine ⟨?_, ?_, hall.home⟩
  · rintro pre ⟨post, rfl⟩
    rw [List.append_assoc] at hcareful
    exact (accounted_new mmuMap s).run hcareful.of_append
  · have hexact := hall.exact
    rw [hempty, held_nil, List.append_nil] at hexact
    exact hexact

/-- A page of its own for a region, and again for another one after the first is gone. -/
theorem pagesReturned_two_regions : PagesReturned PageArenas.kernelPages 600 0x1000 fourPages
    [.allocateFixed 0x5000 0x6000 vmProtRw, .populate 0x5000 0x6000, .deallocate 0x5000 0x6000,
      .allocateFixed 0x7000 0x8000 vmProtRw, .populate 0x7000 0x8000] :=
  pagesReturned_of_careful (by decide +kernel)

/-- **A page that the caller keeps is given away.** The driver maps its receive page into a
region of the process; when the address space is dropped, the page goes to the small page
arena. -/
theorem pagesReturned_lent_page : ¬ PagesReturned PageArenas.kernelPages 600 0x1000 fourPages
    [.allocateFixed 0x5000 0x6000 vmProtRw, .map 0x5000 0x6000 (kernelVma + 0x900000)] := by
  intro h
  have hreturned : Slot.lent (kernelVma + 0x900000) ∈ (run (step PageArenas.kernelPages 600)
      (new 0x1000 fourPages) ([.allocateFixed 0x5000 0x6000 vmProtRw,
        .map 0x5000 0x6000 (kernelVma + 0x900000)] ++ [.drop])).returned := by decide +kernel
  obtain ⟨page, hpage⟩ := h.home _ hreturned
  cases hpage

end OwnedSpace

end Manticore
