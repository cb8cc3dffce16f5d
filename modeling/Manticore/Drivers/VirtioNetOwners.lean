import Manticore.Kernel.VmOwnership
import Manticore.Drivers.VirtioNet

/-!
# Several owners of the network device

`VirtioNetDevice::acquire` adds the process to the listeners, maps the receive page into its
address space, stores the address in the one `rx_buffer_addr` of the driver, and sets up an
I/O queue; it may fail after each of these.  `recv` then sends one event to each listener, all
with the address that was stored last.

`owner` records that a call of `process_acquire` by the process has succeeded.
-/

namespace Manticore

/-- A `PACKET_RX` event. -/
structure PacketEvent where
  addr : ℕ
  len : ℕ
deriving DecidableEq, Repr

/-- A process as the driver sees it. -/
structure OwnerProcess where
  vmspace : VMAddressSpace
  events : List PacketEvent
  owner : Bool
deriving DecidableEq, Repr

/-- The driver's `notifier` and `rx_buffer_addr`, the processes by their index, and kernel
memory. -/
structure NetOwners (σ : Type) where
  kmem : KMem σ
  procs : List OwnerProcess
  listeners : List ℕ
  rxBufferAddr : Option ℕ

namespace NetOwners

variable {σ : Type} (A : KernelPages σ) (fuel rxPage : ℕ)

def setVmspace (st : NetOwners σ) (pid : ℕ) (vm : VMAddressSpace) (s : KMem σ) : NetOwners σ :=
  { st with kmem := s, procs := st.procs.modify pid fun p => { p with vmspace := vm } }

/-- The second half of `acquire`: the I/O queue. -/
def acquireIo (st : NetOwners σ) (pid : ℕ) (vm : VMAddressSpace) :
    Option (Except ℤ Unit × NetOwners σ) :=
  match vm.allocate ioBufSize pageSizeSmall vmProtRw with
  | (.error e, vm) => some (.error e, st.setVmspace pid vm st.kmem)
  | (.ok (start, stop), vm) => do
      let (res, vm, s) ← vm.populate A fuel st.kmem start stop
      some (res, st.setVmspace pid vm s)

/-- `VirtioNetDevice::acquire` by the process `pid`, `none` if a mapping runs out of fuel. -/
def acquire (st : NetOwners σ) (pid : ℕ) (vm : VMAddressSpace) :
    Option (Except ℤ Unit × NetOwners σ) :=
  let st := { st with listeners := st.listeners ++ [pid] }
  match vm.allocate pageSizeSmall pageSizeSmall vmProtRead with
  | (.error e, vm) => some (.error e, st.setVmspace pid vm st.kmem)
  | (.ok (start, stop), vm) => do
      let (res, vm, s) ← vm.map A fuel st.kmem start stop rxPage
      match res with
      | .error e => some (.error e, st.setVmspace pid vm s)
      | .ok () => acquireIo A fuel { st.setVmspace pid vm s with rxBufferAddr := some start } pid vm

/-- `process_acquire("/dev/eth")` by the process `pid`. -/
def processAcquire (st : NetOwners σ) (pid : ℕ) : Option (Except ℤ Unit × NetOwners σ) :=
  match st.procs[pid]? with
  | none => none
  | some p => do
      let (res, st) ← acquire A fuel rxPage st pid p.vmspace
      match res with
      | .error e => some (.error e, st)
      | .ok () => some (.ok (), { st with
          procs := st.procs.modify pid fun p => { p with owner := true } })

/-- `on_event` of one listener. -/
def onEvent (e : PacketEvent) (procs : List OwnerProcess) (pid : ℕ) : List OwnerProcess :=
  procs.modify pid fun p => { p with events := pushBounded eventQueueSlots p.events e }

/-- A packet of `bufLen` bytes with its header is received. -/
def recv (st : NetOwners σ) (bufLen : ℕ) : NetOwners σ :=
  match st.rxBufferAddr with
  | none => st
  | some addr =>
      let e := ⟨add64 addr sizeofVirtioNetHdr, sub64 bufLen sizeofVirtioNetHdr⟩
      { st with procs := st.listeners.foldl (onEvent e) st.procs }

inductive Op where
  | acquire (pid : ℕ)
  | packet (bufLen : ℕ)
deriving DecidableEq, Repr

def step (st : NetOwners σ) : Op → NetOwners σ
  | .acquire pid => ((processAcquire A fuel rxPage st pid).map Prod.snd).getD st
  | .packet bufLen => st.recv bufLen

/-! ## The law -/

/-- The address lies in a region of the process that is mapped to the receive page. -/
def CanRead (p : OwnerProcess) (addr : ℕ) : Prop :=
  ∃ r ∈ p.vmspace.vmRegions, r.page = some rxPage ∧ r.start ≤ addr ∧ addr < r.stop

/-- **A packet is announced once to each owner.** The next packet adds to the ring of each
process one event that it can read if it is an owner with room in its ring, and nothing if
it is not an owner. -/
def AnnouncesOnce (st : NetOwners σ) : Prop :=
  ∀ (bufLen pid : ℕ) (p : OwnerProcess), st.procs[pid]? = some p →
    ∃ new, (st.recv bufLen).procs[pid]? = some { p with events := p.events ++ new } ∧
      (p.owner = false → new = []) ∧
      (p.owner = true → p.events.length + 1 ≠ eventQueueSlots →
        ∃ e, new = [e] ∧ CanRead rxPage p e.addr)

/-- The process has not tried before, the call succeeds, and its receive region lies where
the region of every owner does. -/
def Agrees (st : NetOwners σ) : Op → Prop
  | .acquire pid => pid ∉ st.listeners ∧ ∃ p, st.procs[pid]? = some p ∧
      (processAcquire A fuel rxPage st pid).map Prod.fst = some (.ok ()) ∧
      alignUp p.vmspace.upperEnd pageSizeSmall + pageSizeSmall < 2 ^ 64 ∧
      ∀ addr, st.rxBufferAddr = some addr → alignUp p.vmspace.upperEnd pageSizeSmall = addr
  | .packet _ => True

/-- No process has called `process_acquire` yet. -/
def start (kmem : KMem σ) (spaces : List VMAddressSpace) : NetOwners σ where
  kmem := kmem
  procs := spaces.map fun vm => ⟨vm, [], false⟩
  listeners := []
  rxBufferAddr := none

/-! ## Address spaces under `acquire` -/

section spaces

variable {A fuel rxPage} {vm vm' : VMAddressSpace} {s s' : KMem σ} {r : VMRegion}
  {size align prot first last pid : ℕ} {st st' : NetOwners σ}

theorem allocate_ok (h : vm.allocate size align prot = (.ok (first, last), vm')) :
    first = alignUp vm.upperEnd align ∧ last = add64 first size ∧ vm.range first last = [] ∧
      vm' = vm.insert (VMRegion.new first last prot) := by
  unfold VMAddressSpace.allocate at h
  split at h
  · cases (Prod.mk.inj h).1
  · simp only at h
    split at h
    · cases (Prod.mk.inj h).1
    · next hrange =>
        obtain ⟨hok, hvm⟩ := Prod.mk.inj h
        obtain ⟨rfl, rfl⟩ := Prod.mk.inj (Except.ok.inj hok)
        exact ⟨rfl, rfl, List.eq_nil_of_length_eq_zero (by omega), hvm.symm⟩

theorem start_ne_of_range (h : vm.range first last = []) (hlt : first < last) :
    ∀ x ∈ vm.vmRegions, x.start ≠ first := by
  intro x hx heq
  have hmem : x ∈ vm.range first last :=
    List.mem_filter.mpr ⟨hx, by simp only [decide_eq_true_eq]; omega⟩
  rw [h] at hmem
  exact List.not_mem_nil hmem

theorem mem_setRegionPage_of_ne {first page : ℕ} : ∀ {rs : List VMRegion}, r ∈ rs →
    r.start ≠ first → r ∈ setRegionPage first page rs
  | x :: xs, hr, hne => by
      unfold setRegionPage
      rcases List.mem_cons.mp hr with rfl | hr
      · rw [if_neg hne]
        exact List.mem_cons_self
      · split
        · exact List.mem_cons_of_mem _ hr
        · exact List.mem_cons_of_mem _ (mem_setRegionPage_of_ne hr hne)

theorem mem_setRegionPages_of_ne {first : ℕ} (hne : r.start ≠ first) :
    ∀ (ps : List (Arena × ℕ)) {rs : List VMRegion}, r ∈ rs →
      r ∈ VMAddressSpace.setRegionPages first ps rs
  | [], _, hr => hr
  | _ :: ps, _, hr => mem_setRegionPages_of_ne hne ps (mem_setRegionPage_of_ne hr hne)

theorem procs_setVmspace_of_ne {q : ℕ} (hq : q ≠ pid) :
    (st.setVmspace pid vm s).procs[q]? = st.procs[q]? := by
  simp [setVmspace, Ne.symm hq]

theorem procs_setVmspace_self : (st.setVmspace pid vm s).procs[pid]? =
    st.procs[pid]?.map fun p => { p with vmspace := vm } := by
  simp [setVmspace]

theorem acquireIo_ok (h : acquireIo A fuel st pid vm = some (.ok (), st'))
    (hr : r ∈ vm.vmRegions) (hlow : r.start + pageSizeSmall < 2 ^ 64) :
    ∃ vm' s', st' = st.setVmspace pid vm' s' ∧ r ∈ vm'.vmRegions := by
  unfold acquireIo at h
  rcases halloc : vm.allocate ioBufSize pageSizeSmall vmProtRw with ⟨res, vm₁⟩
  rw [halloc] at h
  cases res with
  | error e => cases (some_pair_inj h).1
  | ok bounds =>
      obtain ⟨first, last⟩ := bounds
      simp only [Option.bind_eq_bind, Option.bind_eq_some_iff] at h
      obtain ⟨⟨res, vm₂, s₂⟩, hpop, h⟩ := h
      obtain ⟨-, hlast, hrange, rfl⟩ := allocate_ok halloc
      have hne : r.start ≠ first := by
        by_cases hwrap : first + ioBufSize < 2 ^ 64
        · rw [add64_of_lt hwrap] at hlast
          exact start_ne_of_range hrange (by simp only [hlast, ioBufSize]; omega) r hr
        · simp only [ioBufSize, pageSizeSmall] at hwrap hlow
          omega
      refine ⟨vm₂, s₂, (some_pair_inj h).2.symm, ?_⟩
      rw [VMAddressSpace.populate_regions hpop]
      exact mem_setRegionPages_of_ne hne _ (mem_treeInsert.mpr (Or.inr hr))

theorem acquire_ok (h : acquire A fuel rxPage st pid vm = some (.ok (), st'))
    (hlow : alignUp vm.upperEnd pageSizeSmall + pageSizeSmall < 2 ^ 64) :
    st'.listeners = st.listeners ++ [pid] ∧
      st'.rxBufferAddr = some (alignUp vm.upperEnd pageSizeSmall) ∧
      (∀ q, q ≠ pid → st'.procs[q]? = st.procs[q]?) ∧
      ∃ vm', st'.procs[pid]? = st.procs[pid]?.map (fun p => { p with vmspace := vm' }) ∧
        ∃ r ∈ vm'.vmRegions, r.page = some rxPage ∧
          r.start = alignUp vm.upperEnd pageSizeSmall ∧ r.stop = r.start + pageSizeSmall := by
  unfold acquire at h
  rcases halloc : vm.allocate pageSizeSmall pageSizeSmall vmProtRead with ⟨res, vm₁⟩
  simp only [halloc] at h
  cases res with
  | error e => cases (some_pair_inj h).1
  | ok bounds =>
      obtain ⟨first, last⟩ := bounds
      simp only [Option.bind_eq_bind, Option.bind_eq_some_iff] at h
      obtain ⟨⟨res, vm₂, s₂⟩, hmap, h⟩ := h
      obtain ⟨hfirst, hlast, hrange, rfl⟩ := allocate_ok halloc
      rw [← hfirst] at hlow ⊢
      rw [add64_of_lt hlow] at hlast
      have hnew := start_ne_of_range hrange (by simp only [hlast, pageSizeSmall]; omega)
      -- the new region is found, and gets the receive page
      have hlook : (vm.insert (VMRegion.new first last vmProtRead)).lookup first last =
          some (VMRegion.new first last vmProtRead) := by
        have hfind : treeFind VMRegion.start first (treeInsert VMRegion.start
            (VMRegion.new first last vmProtRead) vm.vmRegions) =
              some (VMRegion.new first last vmProtRead) :=
          treeFind_treeInsert_self (a := VMRegion.new first last vmProtRead) hnew
        show (treeFind VMRegion.start first _).filter _ = _
        rw [VMAddressSpace.insert, hfind]
        simp [VMRegion.new]
      have hset : setRegionPage first rxPage (treeInsert VMRegion.start
          (VMRegion.new first last vmProtRead) vm.vmRegions) =
            treeInsert VMRegion.start ⟨first, last, vmProtRead, some rxPage⟩ vm.vmRegions :=
        VMAddressSpace.setRegionPage_treeInsert (r := VMRegion.new first last vmProtRead) rxPage
          hnew
      have hregions := VMAddressSpace.map_regions hmap
      rw [hlook, Option.isSome_some, if_pos rfl, VMAddressSpace.insert, hset] at hregions
      have hmem : (⟨first, last, vmProtRead, some rxPage⟩ : VMRegion) ∈ vm₂.vmRegions := by
        rw [hregions]
        exact mem_treeInsert.mpr (Or.inl rfl)
      cases res with
      | error e => cases (some_pair_inj h).1
      | ok u =>
          obtain ⟨vm₃, s₃, rfl, hkept⟩ := acquireIo_ok h hmem hlow
          refine ⟨rfl, rfl, ?_, vm₃, ?_, _, hkept, rfl, rfl, hlast⟩
          · intro q hq
            rw [procs_setVmspace_of_ne hq]
            exact procs_setVmspace_of_ne (s := s₂) hq
          · rw [procs_setVmspace_self]
            show Option.map _ (({ st with listeners := _ }.setVmspace pid vm₂ s₂).procs[pid]?) = _
            rw [procs_setVmspace_self, Option.map_map]
            rfl

end spaces

/-! ## Packets -/

section packets

variable {rxPage} {st : NetOwners σ} {e : PacketEvent}

theorem procs_foldl_onEvent (e : PacketEvent) {pid : ℕ} :
    ∀ {l : List ℕ} {procs : List OwnerProcess}, l.Nodup → (l.foldl (onEvent e) procs)[pid]? =
      if pid ∈ l then procs[pid]?.map fun p =>
        { p with events := pushBounded eventQueueSlots p.events e }
      else procs[pid]?
  | [], _, _ => rfl
  | q :: l, procs, hnodup => by
      obtain ⟨hq, hl⟩ := List.nodup_cons.mp hnodup
      rw [List.foldl_cons, procs_foldl_onEvent e hl]
      by_cases hpid : pid = q
      · subst hpid
        rw [if_neg hq, if_pos List.mem_cons_self]
        simp [onEvent]
      · have hsame : (onEvent e procs q)[pid]? = procs[pid]? := by
          simp [onEvent, Ne.symm hpid]
        rw [hsame]
        simp [hpid]

/-- The owners are the listeners, and all have their receive region at the driver's address. -/
structure Inv (rxPage : ℕ) (st : NetOwners σ) : Prop where
  nodup : st.listeners.Nodup
  owner_iff : ∀ (pid : ℕ) (p : OwnerProcess), st.procs[pid]? = some p →
    (p.owner = true ↔ pid ∈ st.listeners)
  reads : ∀ (pid : ℕ) (p : OwnerProcess), st.procs[pid]? = some p → p.owner = true →
    ∃ addr, st.rxBufferAddr = some addr ∧ addr + pageSizeSmall < 2 ^ 64 ∧
      ∃ r ∈ p.vmspace.vmRegions, r.page = some rxPage ∧ r.start = addr ∧
        r.stop = addr + pageSizeSmall

theorem inv_start (kmem : KMem σ) (spaces : List VMAddressSpace) :
    Inv rxPage (start kmem spaces) := by
  have howner : ∀ (pid : ℕ) (p : OwnerProcess), (start kmem spaces).procs[pid]? = some p →
      p.owner = false := by
    intro pid p hp
    rw [start, List.getElem?_map] at hp
    obtain ⟨vm, -, rfl⟩ := Option.map_eq_some_iff.mp hp
    rfl
  refine ⟨List.nodup_nil, ?_, ?_⟩
  · intro pid p hp
    simp [howner pid p hp, start]
  · intro pid p hp ho
    rw [howner pid p hp] at ho
    cases ho

theorem Inv.recv_procs (h : Inv rxPage st) (bufLen : ℕ) {pid : ℕ} {p : OwnerProcess}
    (hp : st.procs[pid]? = some p) :
    ∃ new, (st.recv bufLen).procs[pid]? = some { p with events := p.events ++ new } ∧
      (p.owner = false → new = []) ∧
      (p.owner = true → p.events.length + 1 ≠ eventQueueSlots →
        ∃ e, new = [e] ∧ CanRead rxPage p e.addr) := by
  by_cases ho : p.owner = true
  · obtain ⟨addr, haddr, hlow, r, hr, hpage, hstart, hstop⟩ := h.reads pid p hp ho
    have hmem := (h.owner_iff pid p hp).mp ho
    have hhdr : add64 addr sizeofVirtioNetHdr = addr + sizeofVirtioNetHdr :=
      add64_of_lt (by simp only [pageSizeSmall, sizeofVirtioNetHdr] at *; omega)
    simp only [recv, haddr, procs_foldl_onEvent _ h.nodup, if_pos hmem, hp, Option.map_some]
    by_cases hfull : p.events.length + 1 = eventQueueSlots
    · exact ⟨[], by simp [pushBounded, hfull], fun _ => rfl, fun _ hne => absurd hfull hne⟩
    · refine ⟨[_], by rw [pushBounded_of_room hfull], ?_, fun _ _ => ⟨_, rfl, r, hr, hpage, ?_⟩⟩
      · intro hnot
        rw [ho] at hnot
        cases hnot
      · show r.start ≤ add64 addr sizeofVirtioNetHdr ∧ add64 addr sizeofVirtioNetHdr < r.stop
        rw [hhdr, hstart, hstop, pageSizeSmall, sizeofVirtioNetHdr]
        omega
  · have hnot : pid ∉ st.listeners := fun hmem => ho ((h.owner_iff pid p hp).mpr hmem)
    refine ⟨[], ?_, fun _ => rfl, fun hc => absurd hc ho⟩
    unfold recv
    split
    · simpa using hp
    · rw [procs_foldl_onEvent _ h.nodup, if_neg hnot]
      simpa using hp

theorem Inv.announcesOnce (h : Inv rxPage st) : AnnouncesOnce rxPage st :=
  fun bufLen _ _ hp => h.recv_procs bufLen hp

theorem Inv.recv (h : Inv rxPage st) (bufLen : ℕ) : Inv rxPage (st.recv bufLen) := by
  have hlisteners : (st.recv bufLen).listeners = st.listeners := by
    unfold NetOwners.recv
    split <;> rfl
  have haddr : (st.recv bufLen).rxBufferAddr = st.rxBufferAddr := by
    unfold NetOwners.recv
    split <;> rfl
  -- a process after the packet is a process before it, with other events
  have hback : ∀ (pid : ℕ) (p' : OwnerProcess), (st.recv bufLen).procs[pid]? = some p' →
      ∃ p, st.procs[pid]? = some p ∧ p'.owner = p.owner ∧ p'.vmspace = p.vmspace := by
    intro pid p' hp'
    rcases hp : st.procs[pid]? with _ | p
    · unfold NetOwners.recv at hp'
      split at hp'
      · rw [hp] at hp'
        cases hp'
      · rw [procs_foldl_onEvent _ h.nodup, hp] at hp'
        simp at hp'
    · obtain ⟨new, hnew, -⟩ := h.recv_procs bufLen hp
      rw [hnew] at hp'
      obtain rfl := Option.some.inj hp'
      exact ⟨p, rfl, rfl, rfl⟩
  refine ⟨hlisteners ▸ h.nodup, ?_, ?_⟩
  · intro pid p' hp'
    obtain ⟨p, hp, ho, -⟩ := hback pid p' hp'
    rw [hlisteners, ho]
    exact h.owner_iff pid p hp
  · intro pid p' hp' ho'
    obtain ⟨p, hp, ho, hvm⟩ := hback pid p' hp'
    rw [haddr, hvm]
    exact h.reads pid p hp (ho ▸ ho')

end packets

/-! ## Runs -/

section runs

variable {A fuel rxPage} {st : NetOwners σ}

theorem Inv.acquire (h : Inv rxPage st) {pid : ℕ} (hok : Agrees A fuel rxPage st (.acquire pid)) :
    Inv rxPage (step A fuel rxPage st (.acquire pid)) := by
  obtain ⟨hnew, p, hp, hret, hlow, hsame⟩ := hok
  obtain ⟨⟨res, st'⟩, hcall, hres⟩ := Option.map_eq_some_iff.mp hret
  have hstep : step A fuel rxPage st (.acquire pid) = st' := by
    simp only [step, hcall, Option.map_some, Option.getD_some]
  rw [hstep]
  simp only at hres
  subst hres
  simp only [processAcquire, hp, Option.bind_eq_bind, Option.bind_eq_some_iff] at hcall
  obtain ⟨⟨res, st₁⟩, hacq, hcall⟩ := hcall
  cases res with
  | error e => cases (some_pair_inj hcall).1
  | ok u =>
      obtain ⟨hlisteners, haddr, hothers, vm', hself, r, hr, hpage, hstart, hstop⟩ :=
        acquire_ok hacq hlow
      obtain rfl := (some_pair_inj hcall).2
      -- the processes after the call
      have hother : ∀ q, q ≠ pid →
          (st₁.procs.modify pid fun p => { p with owner := true })[q]? = st.procs[q]? := by
        intro q hq
        rw [← hothers q hq]
        simp [Ne.symm hq]
      have hmine : (st₁.procs.modify pid fun p => { p with owner := true })[pid]? =
          some { p with vmspace := vm', owner := true } := by
        simp [hself, hp]
      refine ⟨?_, ?_, ?_⟩
      · show st₁.listeners.Nodup
        rw [hlisteners]
        exact List.Nodup.append h.nodup (List.nodup_singleton _) (by simpa using hnew)
      · intro q p' hp'
        show p'.owner = true ↔ q ∈ st₁.listeners
        rw [hlisteners, List.mem_append, List.mem_singleton]
        by_cases hq : q = pid
        · subst hq
          obtain rfl := Option.some.inj (hmine.symm.trans hp')
          simp
        · rw [h.owner_iff q p' ((hother q hq).symm.trans hp')]
          simp [hq]
      · intro q p' hp' ho
        refine ⟨_, haddr, hlow, ?_⟩
        by_cases hq : q = pid
        · subst hq
          obtain rfl := Option.some.inj (hmine.symm.trans hp')
          exact ⟨r, hr, hpage, hstart, hstart ▸ hstop⟩
        · obtain ⟨addr, hrx, -, hregion⟩ :=
            h.reads q p' ((hother q hq).symm.trans hp') ho
          rw [hsame addr hrx]
          exact hregion

theorem Inv.step (h : Inv rxPage st) {op : Op} (hok : Agrees A fuel rxPage st op) :
    Inv rxPage (step A fuel rxPage st op) := by
  cases op with
  | acquire pid => exact h.acquire hok
  | packet bufLen => exact h.recv bufLen

/-- **Each packet is announced once to each owner**, in every run in which each process
acquires the device at most once, with success, and all at the same address. -/
theorem run_announcesOnce {kmem : KMem σ} {spaces : List VMAddressSpace} {ops : List Op}
    (hok : Guarded (NetOwners.step A fuel rxPage) (Agrees A fuel rxPage) (start kmem spaces) ops) :
    AnnouncesOnce rxPage (run (NetOwners.step A fuel rxPage) (start kmem spaces) ops) :=
  (run_invariant_of_guarded (P := Inv rxPage) (fun _ _ hop h => h.step hop) hok
    (inv_start kmem spaces)).announcesOnce

end runs

/-- Sixteen free pages, the receive page outside them, and two processes. -/
def twoProcesses : NetOwners PageArenas :=
  start ⟨PageArenas.ofSpan ⟨kernelVma + 0x200000, 0x10000⟩, fun _ => 0⟩
    [.new 0x1000, .new 0x3000]

def rxPageAddr : ℕ := kernelVma + 0x900000

/-- Two processes with the same regions share the device. -/
theorem run_announcesOnce_two :
    let st := run (step PageArenas.kernelPages 600 rxPageAddr) twoProcesses
      [.acquire 0, .packet 100, .acquire 1]
    AnnouncesOnce rxPageAddr st ∧ st.listeners = [0, 1] := by
  have haddr : ∀ addr, (step PageArenas.kernelPages 600 rxPageAddr
      (step PageArenas.kernelPages 600 rxPageAddr twoProcesses (.acquire 0))
      (.packet 100)).rxBufferAddr = some addr → 0 = addr := by
    intro addr haddr
    have hfirst : (step PageArenas.kernelPages 600 rxPageAddr (step PageArenas.kernelPages 600
        rxPageAddr twoProcesses (.acquire 0)) (.packet 100)).rxBufferAddr = some 0 := by
      decide +kernel
    exact Option.some.inj (hfirst.symm.trans haddr)
  have hok : Guarded (step PageArenas.kernelPages 600 rxPageAddr)
      (Agrees PageArenas.kernelPages 600 rxPageAddr) twoProcesses
      [.acquire 0, .packet 100, .acquire 1] :=
    ⟨⟨by decide, ⟨.new 0x1000, [], false⟩, rfl, by decide +kernel, by decide,
      fun _ hnone => nomatch hnone⟩, trivial,
      ⟨by decide +kernel, ⟨.new 0x3000, [], false⟩, by decide +kernel, by decide +kernel,
        by decide, haddr⟩, trivial⟩
  exact ⟨run_announcesOnce hok, by decide +kernel⟩

/-- **A process that acquires the device twice is told of each packet twice.** -/
theorem acquire_twice_announces_twice :
    ¬ AnnouncesOnce rxPageAddr
      (run (step PageArenas.kernelPages 600 rxPageAddr) twoProcesses [.acquire 0, .acquire 0]) := by
  have hbefore : (run (step PageArenas.kernelPages 600 rxPageAddr) twoProcesses
      [.acquire 0, .acquire 0]).procs[0]?.map (fun p => (p.events, p.owner)) =
      some ([], true) := by decide +kernel
  have hafter : ((run (step PageArenas.kernelPages 600 rxPageAddr) twoProcesses
      [.acquire 0, .acquire 0]).recv 100).procs[0]?.map (fun p => p.events.length) = some 2 := by
    decide +kernel
  generalize run (step PageArenas.kernelPages 600 rxPageAddr) twoProcesses
    [.acquire 0, .acquire 0] = st at hbefore hafter ⊢
  intro h
  obtain ⟨p, hp, hsome⟩ := Option.map_eq_some_iff.mp hbefore
  obtain ⟨hevents, howner⟩ := Prod.mk.inj hsome
  obtain ⟨new, hrecv, -, hone⟩ := h 100 0 p hp
  obtain ⟨e, rfl, -⟩ := hone howner (by rw [hevents]; decide)
  rw [hrecv, hevents] at hafter
  cases hafter

end NetOwners

end Manticore
