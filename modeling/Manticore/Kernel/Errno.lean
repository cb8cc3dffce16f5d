import Manticore.Kernel.VmspaceAlloc
import Manticore.Kernel.IoQueue

/-!
# Error numbers

`kernel/errno.rs`: an `Error` is made from a positive constant, and `errno` negates it on the way
to user space.  `mmu_map_range` is written in C and returns its error negated already, and `map`
and `populate` make an `Error` of that.  `errno` turns it into a positive number.

`Signed` says of a result whether `mmu_map_range` refused, by its sign.
-/

namespace Manticore

variable {σ : Type}

/-- `Error::errno`. -/
def errno (e : ℤ) : ℤ := -e

/-! ## The codes of `mmu_map_range` -/

section Codes

variable (A : PageAllocator σ)

theorem neg_enomem_le_zero : -enomem ≤ 0 := by decide

theorem neg_einval_le_zero : -einval ≤ 0 := by decide

theorem mmuMapSmallPage_le_zero (s : KMem σ) (cr3 vaddr paddr prot flags : ℕ) :
    (mmuMapSmallPage A s cr3 vaddr paddr prot flags).1 ≤ 0 := by
  unfold mmuMapSmallPage
  dsimp only
  split
  · exact neg_enomem_le_zero
  · split
    · exact neg_enomem_le_zero
    · split
      · exact neg_einval_le_zero
      · exact le_rfl

theorem mmuMapLargePage_le_zero (s : KMem σ) (cr3 vaddr paddr prot flags : ℕ) :
    (mmuMapLargePage A s cr3 vaddr paddr prot flags).1 ≤ 0 := by
  unfold mmuMapLargePage
  dsimp only
  split
  · exact neg_enomem_le_zero
  · split
    · exact neg_einval_le_zero
    · exact le_rfl

theorem mapPages_code {mapPage : KMem σ → ℕ → ℕ → ℤ × KMem σ}
    (hcode : ∀ s offset paddr, (mapPage s offset paddr).1 ≤ 0) {pageSize start stop fuel : ℕ}
    (hpage : 4096 ≤ pageSize) (hstop : stop < 2 ^ 64) (hdvd : pageSize ∣ stop)
    (hstart : pageSize ∣ start) (hfuel : 2 ^ 52 < fuel) (s : KMem σ) (paddr : ℕ) :
    ∃ err paddr' s', mapPages mapPage pageSize stop fuel s start paddr =
      some (err, paddr', s') ∧ err ≤ 0 := by
  obtain ⟨c, hc⟩ := Nat.dvd_sub hdvd hstart
  -- 2 ^ 52 pages are the whole address space
  have hcount : c ≤ 2 ^ 52 := by
    have hpages : 4096 * c ≤ stop - start := hc ▸ Nat.mul_le_mul_right c hpage
    omega
  refine mapPages_returns (Q := fun err => err ≤ 0) le_rfl hcode hstop (hcount.trans_lt hfuel) ?_
  omega

theorem mapRun_code {mapPage : KMem σ → ℕ → ℕ → ℤ × KMem σ}
    (hcode : ∀ s offset paddr, (mapPage s offset paddr).1 ≤ 0) {pageSize start stop fuel : ℕ}
    (hpage : 4096 ≤ pageSize) (hstop : stop < 2 ^ 64) (hdvd : pageSize ∣ stop)
    (hstart : pageSize ∣ start) (hfuel : 2 ^ 52 < fuel) (s : KMem σ) (paddr : ℕ) :
    ∃ err paddr' s', mapRun mapPage pageSize start stop fuel s paddr =
      some (err, paddr', s') ∧ err ≤ 0 := by
  rw [mapRun_eq (by omega)]
  exact mapPages_code hcode hpage hstop hdvd hstart hfuel s paddr

theorem mmuMapRange_code (s : KMem σ) (cr3 vaddr paddr prot flags : ℕ) {size fuel : ℕ}
    (hsize : 4096 ∣ size) (hfuel : 2 ^ 52 < fuel) :
    ∃ err s', mmuMapRange A fuel s cr3 vaddr paddr size prot flags = some (err, s') ∧
      err ≤ 0 := by
  have hsmall := mmuMapSmallPage_le_zero A
  have hlarge := mmuMapLargePage_le_zero A
  unfold mmuMapRange
  by_cases hal : isAligned vaddr pageSizeSmall = false
  · rw [if_pos hal]
    exact ⟨_, s, rfl, by decide⟩
  rw [if_neg hal]
  dsimp only
  have hvaddr : pageSizeSmall ∣ vaddr := isAligned_eq_false.not_left.mp hal
  have hstop := add64_lt vaddr size
  have hstopDvd : pageSizeSmall ∣ add64 vaddr size := by
    simp only [add64, pageSizeSmall] at hvaddr ⊢
    omega
  obtain ⟨hlsDvd, hlsLe, -⟩ : pageSizeLarge ∣ alignUp vaddr pageSizeLarge ∧ _ :=
    PageArenas.alignDown_large (sub64_lt _ _)
  obtain ⟨hleDvd, hleLe, -⟩ := PageArenas.alignDown_large hstop
  have hls : alignUp vaddr pageSizeLarge < 2 ^ 64 := hlsLe.trans_lt (sub64_lt _ _)
  have hpages : ∀ {x : ℕ}, pageSizeLarge ∣ x → pageSizeSmall ∣ x := fun hx =>
    Dvd.dvd.trans (by decide) hx
  have hcode := fun (s : KMem σ) o p => hsmall s cr3 o p prot flags
  have hpage : 4096 ≤ pageSizeSmall := le_rfl
  split
  · obtain ⟨err, paddr', s', heq, herr⟩ := mapPages_code hcode hpage hstop hstopDvd hvaddr hfuel
      s paddr
    exact ⟨err, s', by rw [heq]; rfl, herr⟩
  · obtain ⟨err₁, paddr₁, s₁, heq₁, herr₁⟩ := mapRun_code hcode hpage hls (hpages hlsDvd) hvaddr
      hfuel s paddr
    simp only [heq₁, Option.bind_eq_bind, Option.bind_some]
    split
    · exact ⟨err₁, s₁, rfl, herr₁⟩
    · obtain ⟨err₂, paddr₂, s₂, heq₂, herr₂⟩ := mapRun_code
        (fun s o p => hlarge s cr3 o p prot flags) (by decide) (hleLe.trans_lt hstop) hleDvd hlsDvd
        hfuel s₁ paddr₁
      simp only [heq₂, Option.bind_some]
      split
      · exact ⟨err₂, s₂, rfl, herr₂⟩
      · obtain ⟨err₃, paddr₃, s₃, heq₃, herr₃⟩ := mapRun_code hcode hpage hstop hstopDvd
          (hpages hleDvd) hfuel s₂ paddr₂
        exact ⟨err₃, s₃, by rw [heq₃]; rfl, herr₃⟩

end Codes

/-! ## Results and their signs -/

/-- A result of Rust code in which `mmu_map_range` succeeds wherever it is called, if `maps`
holds: an error is positive then, and negative else. -/
def Signed {α : Type} (res : Except ℤ α) (maps : Prop) : Prop :=
  match res with
  | .ok _ => maps
  | .error e => maps ∧ 0 < e ∨ ¬ maps ∧ e < 0

theorem signed_error {α : Type} {e : ℤ} {maps : Prop} (hmaps : maps) (he : 0 < e) :
    Signed (.error e : Except ℤ α) maps := Or.inl ⟨hmaps, he⟩

theorem einval_pos : 0 < einval := by decide

theorem Signed.congr {α : Type} {res : Except ℤ α} {maps maps' : Prop} (h : Signed res maps)
    (hiff : maps ↔ maps') : Signed res maps' := by
  rwa [← propext hiff]

namespace VMAddressSpace

variable (A : KernelPages σ) (fuel : ℕ)

/-- `mmu_map_range` returns 0 for this page. -/
def RangeMaps (vm : VMAddressSpace) (s : KMem σ) (r : VMRegion) (vaddr page size : ℕ) : Prop :=
  (mmuMapRange A.toPageAllocator fuel s vm.mmuMap vaddr (virtToPhys page) size r.mmuProt
    mmuUserPage).map Prod.fst = some 0

/-- `mmu_map_range` returns 0 if `map` calls it. -/
def MapMaps (vm : VMAddressSpace) (s : KMem σ) (start stop page : ℕ) : Prop :=
  ∀ r, vm.lookup start stop = some r → RangeMaps A fuel vm s r start page (sub64 stop start)

/-- `mmu_map_range` returns 0 if `populate` calls it. -/
def PopulateMaps (vm : VMAddressSpace) (s : KMem σ) (start stop : ℕ) : Prop :=
  ∀ r page s', vm.lookup start stop = some r →
    allocPage A s (sub64 stop start) = some (page, s') → page ≠ 0 →
      RangeMaps A fuel vm s' r start page (sub64 stop start)

variable {A fuel} {vm : VMAddressSpace} {s : KMem σ} {start stop : ℕ}

theorem mapPageAt_signed (vm : VMAddressSpace) (s : KMem σ) (r : VMRegion) (vaddr page : ℕ)
    {size : ℕ} (hsize : 4096 ∣ size) (hfuel : 2 ^ 52 < fuel) :
    ∃ res vm' s', mapPageAt A fuel vm s r vaddr page size = some (res, vm', s') ∧
      Signed res (RangeMaps A fuel vm s r vaddr page size) := by
  obtain ⟨err, s', heq, herr⟩ := mmuMapRange_code A.toPageAllocator s vm.mmuMap vaddr
    (virtToPhys page) r.mmuProt mmuUserPage hsize hfuel
  simp only [mapPageAt, RangeMaps, heq, Option.bind_eq_bind, Option.bind_some, Option.map_some,
    Option.some.injEq]
  by_cases hzero : err = 0
  · rw [if_neg (not_not.mpr hzero)]
    exact ⟨_, _, _, rfl, hzero⟩
  · rw [if_pos hzero]
    exact ⟨_, _, _, rfl, Or.inr ⟨hzero, by omega⟩⟩

theorem map_signed (vm : VMAddressSpace) (s : KMem σ) (page : ℕ)
    (hsize : 4096 ∣ sub64 stop start) (hfuel : 2 ^ 52 < fuel) :
    ∃ res vm' s', map A fuel vm s start stop page = some (res, vm', s') ∧
      Signed res (MapMaps A fuel vm s start stop page) := by
  cases hlook : vm.lookup start stop with
  | none =>
      refine ⟨.error einval, vm, s, by rw [map, hlook], signed_error ?_ (by decide)⟩
      intro r hr
      rw [hlook] at hr
      cases hr
  | some r =>
      obtain ⟨res, vm', s', heq, hres⟩ := mapPageAt_signed vm s r start page hsize hfuel
      refine ⟨res, vm', s', by rw [map, hlook]; exact heq, hres.congr ?_⟩
      simp [MapMaps, hlook]

theorem allocPage_size {size page : ℕ} {s' : KMem σ} (h : allocPage A s size = some (page, s')) :
    4096 ∣ size := by
  unfold allocPage at h
  split at h
  · next hsize =>
      rw [hsize]
      decide
  · split at h
    · next hsize =>
        rw [hsize]
        decide
    · cases h

theorem populate_signed (vm : VMAddressSpace) (s : KMem σ) (start stop : ℕ)
    (hfuel : 2 ^ 52 < fuel) :
    ∃ res vm' s', populate A fuel vm s start stop = some (res, vm', s') ∧
      Signed res (PopulateMaps A fuel vm s start stop) := by
  cases hlook : vm.lookup start stop with
  | none =>
      refine ⟨.error einval, vm, s, by rw [populate, hlook], signed_error ?_ (by decide)⟩
      intro r page s' hr
      rw [hlook] at hr
      cases hr
  | some r =>
      cases halloc : allocPage A s (sub64 stop start) with
      | none =>
          refine ⟨.error einval, vm, s, by rw [populate, hlook]; simp only [halloc],
            signed_error ?_ (by decide)⟩
          intro r page s' _ hpage
          rw [halloc] at hpage
          cases hpage
      | some x =>
          obtain ⟨page, s₁⟩ := x
          by_cases hz : page = 0
          · refine ⟨.error enomem, vm, s₁, ?_, signed_error ?_ (by decide)⟩
            · rw [populate, hlook]
              simp only [halloc, if_pos hz]
            · intro r page' s' _ hpage hne
              rw [halloc] at hpage
              obtain ⟨rfl, -⟩ := some_pair_inj hpage
              exact absurd hz hne
          · obtain ⟨res, vm', s', heq, hres⟩ := mapPageAt_signed vm s₁ r start page
              (allocPage_size halloc) hfuel
            refine ⟨res, vm', s', ?_, hres.congr ?_⟩
            · rw [populate, hlook]
              simp only [halloc, if_neg hz]
              exact heq
            · simp [PopulateMaps, hlook, halloc, hz]

theorem allocate_error {size align prot : ℕ} {e : ℤ} {vm' : VMAddressSpace}
    (h : vm.allocate size align prot = (.error e, vm')) : 0 < e := by
  rw [allocate] at h
  split at h
  · obtain ⟨he, -⟩ := Prod.mk.inj h
    rw [← Except.error.inj he]
    decide
  · dsimp only at h
    split at h
    · obtain ⟨he, -⟩ := Prod.mk.inj h
      rw [← Except.error.inj he]
      decide
    · cases h

theorem allocate_stop {size align prot : ℕ} {vm' : VMAddressSpace}
    (h : vm.allocate size align prot = (.ok (start, stop), vm')) : stop = add64 start size := by
  rw [allocate] at h
  split at h
  · cases h
  · dsimp only at h
    split at h
    · cases h
    · obtain ⟨hok, -⟩ := Prod.mk.inj h
      obtain ⟨rfl, rfl⟩ := Prod.mk.inj (Except.ok.inj hok)
      rfl

theorem forall_allocated_iff {size align prot : ℕ} {vm₁ : VMAddressSpace}
    (h : vm.allocate size align prot = (.ok (start, stop), vm₁))
    {Q : ℕ → ℕ → VMAddressSpace → Prop} :
    (∀ a b vm', vm.allocate size align prot = (.ok (a, b), vm') → Q a b vm') ↔
      Q start stop vm₁ := by
  refine ⟨fun hall => hall _ _ _ h, fun hq a b vm' h' => ?_⟩
  rw [h] at h'
  obtain ⟨hab, rfl⟩ := Prod.mk.inj h'
  obtain ⟨rfl, rfl⟩ := Prod.mk.inj (Except.ok.inj hab)
  exact hq

variable (A fuel)

/-- `mmu_map_range` returns 0 if `process_vmspace_alloc` gets to it. -/
def VmspaceMaps (vm : VMAddressSpace) (s : KMem σ) (size align : ℕ) : Prop :=
  ∀ start stop vm₁, vm.allocate size align vmProtRw = (.ok (start, stop), vm₁) →
    vm₁.PopulateMaps A fuel s start stop

variable {A fuel}

theorem allocate_populate_signed (hfuel : 2 ^ 52 < fuel) (vm : VMAddressSpace) (s : KMem σ)
    (size align : ℕ) :
    (∃ e vm₁, vm.allocate size align vmProtRw = (.error e, vm₁) ∧
      Signed (.error e : Except ℤ Unit) (vm.VmspaceMaps A fuel s size align)) ∨
    ∃ start stop vm₁ res vm' s', vm.allocate size align vmProtRw = (.ok (start, stop), vm₁) ∧
      vm₁.populate A fuel s start stop = some (res, vm', s') ∧
      Signed res (vm.VmspaceMaps A fuel s size align) := by
  rcases halloc : vm.allocate size align vmProtRw with ⟨e | ⟨start, stop⟩, vm₁⟩
  · refine Or.inl ⟨e, vm₁, rfl, signed_error ?_ (allocate_error halloc)⟩
    intro _ _ _ h
    rw [halloc] at h
    cases h
  · obtain ⟨res, vm', s', hpop, hsigned⟩ := populate_signed vm₁ s start stop hfuel
    refine Or.inr ⟨start, stop, vm₁, res, vm', s', rfl, hpop, hsigned.congr ?_⟩
    rw [VmspaceMaps, forall_allocated_iff halloc]

end VMAddressSpace

/-! ## `process_acquire` -/

/-- What `acquire` reads and sets of the virtio-net device. -/
structure NetDevice where
  rxPage : ℕ
  rxBufferAddr : Option ℕ
  /-- Where the ring of the I/O queue is. -/
  ioQueue : Option ℕ
  listeners : ℕ
deriving DecidableEq, Repr

def rxPageSize : ℕ := pageSizeSmall

/-- `VirtioNetDevice::acquire`, up to the ring that `IOQueue::new` writes into the new page. -/
def NetDevice.acquire (A : KernelPages σ) (fuel : ℕ) (dev : NetDevice) (vm : VMAddressSpace)
    (s : KMem σ) : Option (Except ℤ Unit × NetDevice × VMAddressSpace × KMem σ) :=
  let dev := { dev with listeners := dev.listeners + 1 }
  match vm.allocate rxPageSize pageSizeSmall vmProtRead with
  | (.error e, vm) => some (.error e, dev, vm, s)
  | (.ok (rxBufStart, rxBufStop), vm) => do
      let (res, vm, s) ← vm.map A fuel s rxBufStart rxBufStop dev.rxPage
      match res with
      | .error e => some (.error e, dev, vm, s)
      | .ok () =>
          let dev := { dev with rxBufferAddr := some rxBufStart }
          match vm.allocate ioBufSize pageSizeSmall vmProtRw with
          | (.error e, vm) => some (.error e, dev, vm, s)
          | (.ok (ioBufStart, ioBufStop), vm) => do
              let (res, vm, s) ← vm.populate A fuel s ioBufStart ioBufStop
              match res with
              | .error e => some (.error e, dev, vm, s)
              | .ok () => some (.ok (), { dev with ioQueue := some ioBufStart }, vm, s)

/-- The current process and the devices by name. -/
structure AcquireState (σ : Type) where
  devices : String → Option NetDevice
  /-- `desc_table`. -/
  deviceSpace : List String
  vmspace : VMAddressSpace
  mem : KMem σ

/-- `as i32`. -/
def toI32 (n : ℕ) : ℤ :=
  if n % 2 ^ 32 < 2 ^ 31 then (n % 2 ^ 32 : ℕ) else (n % 2 ^ 32 : ℕ) - 2 ^ 32

namespace AcquireState

variable (A : KernelPages σ) (fuel : ℕ)

/-- What `process_acquire` has in hand before it makes a number of it: a descriptor, or the
error of `Process::acquire` or of the device. -/
def acquire (st : AcquireState σ) (name : String) :
    Option (Except ℤ ℕ × AcquireState σ) :=
  match st.devices name with
  | none => some (.error einval, st)
  | some dev => do
      let desc := st.deviceSpace.length
      let st := { st with deviceSpace := st.deviceSpace ++ [name] }
      let (res, dev, vm, s) ← dev.acquire A fuel st.vmspace st.mem
      let st := { st with
        devices := Function.update st.devices name (some dev), vmspace := vm, mem := s }
      match res with
      | .error e => some (.error e, st)
      | .ok () => some (.ok desc, st)

def processAcquire (st : AcquireState σ) (name : String) : Option (ℤ × AcquireState σ) :=
  (st.acquire A fuel name).map fun r =>
    match r.1 with
    | .ok desc => (toI32 desc, r.2)
    | .error e => (errno e, r.2)

/-- The device was found and is set up. -/
def Acquired (st : AcquireState σ) (name : String) : Prop :=
  ∃ desc st', st.acquire A fuel name = some (.ok desc, st')

end AcquireState

section Acquire

variable (A : KernelPages σ) (fuel : ℕ)

/-- `mmu_map_range` returns 0 wherever `acquire` of the device gets to it. -/
def NetDevice.AcquireMaps (dev : NetDevice) (vm : VMAddressSpace) (s : KMem σ) : Prop :=
  ∀ rxBufStart rxBufStop vm₁,
    vm.allocate rxPageSize pageSizeSmall vmProtRead = (.ok (rxBufStart, rxBufStop), vm₁) →
    vm₁.MapMaps A fuel s rxBufStart rxBufStop dev.rxPage ∧
    ∀ vm₂ s₂ ioBufStart ioBufStop vm₃,
      vm₁.map A fuel s rxBufStart rxBufStop dev.rxPage = some (.ok (), vm₂, s₂) →
      vm₂.allocate ioBufSize pageSizeSmall vmProtRw = (.ok (ioBufStart, ioBufStop), vm₃) →
      vm₃.PopulateMaps A fuel s₂ ioBufStart ioBufStop

variable {A fuel}

theorem NetDevice.acquireMaps_iff {dev : NetDevice} {vm vm₁ vm₂ : VMAddressSpace} {s s₂ : KMem σ}
    {rxBufStart rxBufStop : ℕ} {res : Except ℤ Unit}
    (halloc : vm.allocate rxPageSize pageSizeSmall vmProtRead =
      (.ok (rxBufStart, rxBufStop), vm₁))
    (hmap : vm₁.map A fuel s rxBufStart rxBufStop dev.rxPage = some (res, vm₂, s₂)) :
    dev.AcquireMaps A fuel vm s ↔ vm₁.MapMaps A fuel s rxBufStart rxBufStop dev.rxPage ∧
      (res = .ok () → vm₂.VmspaceMaps A fuel s₂ ioBufSize pageSizeSmall) := by
  unfold NetDevice.AcquireMaps
  rw [VMAddressSpace.forall_allocated_iff halloc]
  refine and_congr_right fun _ => ⟨fun h hok a b vm₃ => ?_, fun h vm₂' s₂' a b vm₃ hmap' => ?_⟩
  · exact h vm₂ s₂ a b vm₃ (hok ▸ hmap)
  · rw [hmap] at hmap'
    obtain ⟨hok, hrest⟩ := Prod.mk.inj (Option.some.inj hmap')
    obtain ⟨rfl, rfl⟩ := Prod.mk.inj hrest
    exact h hok a b vm₃

theorem NetDevice.acquire_signed (hfuel : 2 ^ 52 < fuel) (dev : NetDevice) (vm : VMAddressSpace)
    (s : KMem σ) :
    ∃ res dev' vm' s', dev.acquire A fuel vm s = some (res, dev', vm', s') ∧
      Signed res (dev.AcquireMaps A fuel vm s) := by
  rcases halloc : vm.allocate rxPageSize pageSizeSmall vmProtRead with
    ⟨e | ⟨rxBufStart, rxBufStop⟩, vm₁⟩
  · refine ⟨.error e, _, vm₁, s, by simp only [NetDevice.acquire, halloc]; rfl,
      signed_error ?_ (VMAddressSpace.allocate_error halloc)⟩
    intro _ _ _ h
    rw [halloc] at h
    cases h
  have hsize : 4096 ∣ sub64 rxBufStop rxBufStart := by
    rw [VMAddressSpace.allocate_stop halloc]
    simp only [sub64, add64, rxPageSize, pageSizeSmall]
    omega
  obtain ⟨res, vm₂, s₂, hmap, hsigned⟩ := VMAddressSpace.map_signed (A := A) vm₁ s dev.rxPage
    hsize hfuel
  have hcond := NetDevice.acquireMaps_iff halloc hmap
  cases res with
  | error e =>
      refine ⟨.error e, { dev with listeners := dev.listeners + 1 }, vm₂, s₂, ?_,
        hsigned.congr ?_⟩
      · simp only [NetDevice.acquire, halloc, hmap, Option.bind_eq_bind, Option.bind_some]
      · rw [hcond]
        exact ⟨fun h => ⟨h, fun hok => by cases hok⟩, fun h => h.1⟩
  | ok u =>
      have hmaps : vm₁.MapMaps A fuel s rxBufStart rxBufStop dev.rxPage := hsigned
      have hiff : vm₂.VmspaceMaps A fuel s₂ ioBufSize pageSizeSmall ↔
          dev.AcquireMaps A fuel vm s := by
        rw [hcond]
        exact ⟨fun h => ⟨hmaps, fun _ => h⟩, fun h => h.2 rfl⟩
      rcases VMAddressSpace.allocate_populate_signed hfuel vm₂ s₂ ioBufSize pageSizeSmall with
        ⟨e, vm₃, halloc₂, hsigned₂⟩ | ⟨ioBufStart, ioBufStop, vm₃, res₂, vm₄, s₄, halloc₂, hpop,
          hsigned₂⟩
      · refine ⟨.error e, { dev with
          listeners := dev.listeners + 1, rxBufferAddr := some rxBufStart }, vm₃, s₂, ?_,
          hsigned₂.congr hiff⟩
        simp only [NetDevice.acquire, halloc, hmap, Option.bind_eq_bind, Option.bind_some, halloc₂]
      · cases res₂ with
        | error e =>
            refine ⟨.error e, { dev with
              listeners := dev.listeners + 1, rxBufferAddr := some rxBufStart }, vm₄, s₄, ?_,
              hsigned₂.congr hiff⟩
            simp only [NetDevice.acquire, halloc, hmap, Option.bind_eq_bind, Option.bind_some,
              halloc₂, hpop]
        | ok u =>
            refine ⟨.ok (), { dev with
              listeners := dev.listeners + 1, rxBufferAddr := some rxBufStart,
              ioQueue := some ioBufStart }, vm₄, s₄, ?_, hiff.mp hsigned₂⟩
            simp only [NetDevice.acquire, halloc, hmap, Option.bind_eq_bind, Option.bind_some,
              halloc₂, hpop]

/-! ## What user space sees -/

variable (A fuel)

/-- `mmu_map_range` returns 0 wherever `process_acquire` gets to it. -/
def AcquireState.Maps (st : AcquireState σ) (name : String) : Prop :=
  ∀ dev, st.devices name = some dev → dev.AcquireMaps A fuel st.vmspace st.mem

namespace VMAddressSpace

/-- A region was allocated and populated. -/
def VmspaceAllocated (vm : VMAddressSpace) (s : KMem σ) (size align : ℕ) : Prop :=
  ∃ start stop vm₁ vm' s', vm.allocate size align vmProtRw = (.ok (start, stop), vm₁) ∧
    vm₁.populate A fuel s start stop = some (.ok (), vm', s')

end VMAddressSpace

variable {A fuel}

theorem Signed.errno_iff {α : Type} {e : ℤ} {maps : Prop}
    (h : Signed (.error e : Except ℤ α) maps) {succeeded : Prop} (hnot : ¬ succeeded) :
    (0 ≤ errno e ↔ succeeded) ↔ maps := by
  rw [iff_false_right hnot, errno]
  rcases h with ⟨hmaps, he⟩ | ⟨hmaps, he⟩
  · exact iff_of_true (by omega) hmaps
  · exact iff_of_false (by omega) hmaps

theorem toI32_nonneg_iff (n : ℕ) : 0 ≤ toI32 n ↔ n % 2 ^ 32 < 2 ^ 31 := by
  unfold toI32
  by_cases h : n % 2 ^ 32 < 2 ^ 31
  · rw [if_pos h]
    exact iff_of_true (Int.natCast_nonneg _) h
  · rw [if_neg h]
    have hlt := Nat.mod_lt n (Nat.two_pow_pos 32)
    exact iff_of_false (by omega) h

theorem processVmspaceAlloc_nonneg_iff (hfuel : 2 ^ 52 < fuel) (vm : VMAddressSpace) (s : KMem σ)
    (size align : ℕ) : ∃ ret start vm' s',
      vm.processVmspaceAlloc A fuel s size align = some (ret, start, vm', s') ∧
      ((0 ≤ ret ↔ vm.VmspaceAllocated A fuel s size align) ↔
        vm.VmspaceMaps A fuel s size align) := by
  rcases VMAddressSpace.allocate_populate_signed hfuel vm s size align with
    ⟨e, vm₁, halloc, hsigned⟩ | ⟨start, stop, vm₁, res, vm', s', halloc, hpop, hsigned⟩
  · refine ⟨errno e, 0, vm₁, s, by simp only [VMAddressSpace.processVmspaceAlloc, halloc]; rfl,
      hsigned.errno_iff ?_⟩
    rintro ⟨_, _, _, _, _, h, -⟩
    rw [halloc] at h
    cases h
  · cases res with
    | error e =>
        refine ⟨errno e, 0, vm', s', ?_, hsigned.errno_iff ?_⟩
        · simp only [VMAddressSpace.processVmspaceAlloc, halloc, hpop, Option.bind_eq_bind,
            Option.bind_some]
          rfl
        · rintro ⟨a, b, vm₂, vm₃, s₃, halloc', hpop'⟩
          have hsame := (VMAddressSpace.forall_allocated_iff halloc (Q := fun a b vm₂ =>
            vm₂.populate A fuel s a b = some (.error e, vm', s'))).mpr hpop a b vm₂ halloc'
          rw [hsame] at hpop'
          cases hpop'
    | ok u =>
        refine ⟨0, start, vm', s', ?_, iff_of_true (iff_of_true le_rfl ?_) hsigned⟩
        · simp only [VMAddressSpace.processVmspaceAlloc, halloc, hpop, Option.bind_eq_bind,
            Option.bind_some]
        · exact ⟨start, stop, vm₁, vm', s', halloc, hpop⟩

theorem AcquireState.not_acquired {st st' : AcquireState σ} {name : String} {e : ℤ}
    (h : st.acquire A fuel name = some (.error e, st')) : ¬ st.Acquired A fuel name := by
  rintro ⟨desc, st'', hok⟩
  rw [h] at hok
  cases hok

theorem AcquireState.processAcquire_nonneg_iff (hfuel : 2 ^ 52 < fuel) (st : AcquireState σ)
    (name : String) : ∃ ret st', st.processAcquire A fuel name = some (ret, st') ∧
      ((0 ≤ ret ↔ st.Acquired A fuel name) ↔ st.Maps A fuel name ∧
        (st.Acquired A fuel name → st.deviceSpace.length % 2 ^ 32 < 2 ^ 31)) := by
  cases hdev : st.devices name with
  | none =>
      have hrun : st.acquire A fuel name = some (.error einval, st) := by
        simp only [AcquireState.acquire, hdev]
      have hnot := AcquireState.not_acquired hrun
      have hmaps : st.Maps A fuel name := fun dev h => by
        rw [hdev] at h
        cases h
      refine ⟨errno einval, st, by rw [AcquireState.processAcquire, hrun]; rfl, ?_⟩
      have hsigned : Signed (.error einval : Except ℤ Unit) _ := signed_error hmaps einval_pos
      rw [hsigned.errno_iff hnot]
      exact ⟨fun _ => ⟨hmaps, fun h => absurd h hnot⟩, fun _ => hmaps⟩
  | some dev =>
      obtain ⟨res, dev', vm', s', hacq, hsigned⟩ :=
        NetDevice.acquire_signed (A := A) hfuel dev st.vmspace st.mem
      have hiff : dev.AcquireMaps A fuel st.vmspace st.mem ↔ st.Maps A fuel name := by
        simp [AcquireState.Maps, hdev]
      cases res with
      | error e =>
          have hrun : st.acquire A fuel name = some (.error e, { st with
              devices := Function.update st.devices name (some dev')
              deviceSpace := st.deviceSpace ++ [name], vmspace := vm', mem := s' }) := by
            simp only [AcquireState.acquire, hdev, hacq, Option.bind_eq_bind, Option.bind_some]
          have hnot := AcquireState.not_acquired hrun
          refine ⟨errno e, _, by rw [AcquireState.processAcquire, hrun]; rfl, ?_⟩
          rw [(hsigned.congr hiff).errno_iff hnot]
          exact ⟨fun h => ⟨h, fun h' => absurd h' hnot⟩, fun h => h.1⟩
      | ok u =>
          have hrun : st.acquire A fuel name = some (.ok st.deviceSpace.length, { st with
              devices := Function.update st.devices name (some dev')
              deviceSpace := st.deviceSpace ++ [name], vmspace := vm', mem := s' }) := by
            simp only [AcquireState.acquire, hdev, hacq, Option.bind_eq_bind, Option.bind_some]
          have hyes : st.Acquired A fuel name := ⟨_, _, hrun⟩
          refine ⟨toI32 st.deviceSpace.length, _,
            by rw [AcquireState.processAcquire, hrun]; rfl, ?_⟩
          rw [iff_true_right hyes, toI32_nonneg_iff]
          exact ⟨fun h => ⟨hiff.mp hsigned, fun _ => h⟩, fun h => h.2 hyes⟩

/-- **Failures are negative numbers** exactly if `mmu_map_range` does not refuse. With it refusing,
`process_acquire` and `process_vmspace_alloc` answer with a positive number; a descriptor is
negative only if its index does not fit. -/
theorem failures_negative_iff (A : KernelPages σ) (fuel : ℕ) (hfuel : 2 ^ 52 < fuel)
    (st : AcquireState σ) (name : String) (size align : ℕ) :
    (∃ ret st', st.processAcquire A fuel name = some (ret, st') ∧
      ((0 ≤ ret ↔ st.Acquired A fuel name) ↔ st.Maps A fuel name ∧
        (st.Acquired A fuel name → st.deviceSpace.length % 2 ^ 32 < 2 ^ 31))) ∧
    ∃ ret start vm' s',
      st.vmspace.processVmspaceAlloc A fuel st.mem size align = some (ret, start, vm', s') ∧
      ((0 ≤ ret ↔ st.vmspace.VmspaceAllocated A fuel st.mem size align) ↔
        st.vmspace.VmspaceMaps A fuel st.mem size align) :=
  ⟨st.processAcquire_nonneg_iff hfuel name,
    processVmspaceAlloc_nonneg_iff hfuel st.vmspace st.mem size align⟩

/-- A network device, an empty address space, and `n` bytes of free pages. -/
def oneNic (n : ℕ) : AcquireState PageArenas where
  devices := fun name =>
    if name = "/dev/eth" then some ⟨kernelVma + 0x100000, none, none, 0⟩ else none
  deviceSpace := []
  vmspace := VMAddressSpace.new 0x1000
  mem := ⟨PageArenas.ofSpan ⟨kernelVma + 0x200000, n⟩, fun _ => 0⟩

/-- An unknown device. -/
theorem failures_negative_unknown_device :
    (oneNic 0x4000).devices "/dev/null" = none ∧ ∃ ret st',
      (oneNic 0x4000).processAcquire PageArenas.kernelPages (2 ^ 53) "/dev/null" =
        some (ret, st') ∧ ret < 0 := by
  refine ⟨by decide, ?_⟩
  obtain ⟨⟨ret, st', hrun, hiff⟩, -⟩ := failures_negative_iff PageArenas.kernelPages (2 ^ 53)
    (by norm_num) (oneNic 0x4000) "/dev/null" 0x1000 0x1000
  have hnone : (oneNic 0x4000).devices "/dev/null" = none := by decide
  have hnot : ¬ (oneNic 0x4000).Acquired PageArenas.kernelPages (2 ^ 53) "/dev/null" := by
    rintro ⟨desc, st₁, h⟩
    simp only [AcquireState.acquire, hnone] at h
    cases h
  have hmaps : (oneNic 0x4000).Maps PageArenas.kernelPages (2 ^ 53) "/dev/null" := fun dev h => by
    rw [hnone] at h
    cases h
  have hlaw := hiff.mpr ⟨hmaps, fun h => absurd h hnot⟩
  exact ⟨ret, st', hrun, not_le.mp fun h => hnot (hlaw.mp h)⟩

/-- **Out of page tables.** With one free page, `process_vmspace_alloc` gets its page and no
table to map it with, and answers 12; so does `process_acquire`, which needs three tables. -/
theorem failures_answer_twelve :
    ((oneNic 0x1000).vmspace.processVmspaceAlloc PageArenas.kernelPages 600 (oneNic 0x1000).mem
        0x1000 0x1000).map Prod.fst = some 12 ∧
      ((oneNic 0x1000).processAcquire PageArenas.kernelPages 600 "/dev/eth").map Prod.fst =
        some 12 ∧
      ((oneNic 0x1000).acquire PageArenas.kernelPages 600 "/dev/eth").map (fun r => r.1.toOption) =
        some none := by
  refine ⟨by decide +kernel, by decide +kernel, by decide +kernel⟩

end Acquire

end Manticore
