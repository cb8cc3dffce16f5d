import Manticore.Base.Run
import Manticore.Arch.Platform
import Manticore.Arch.Setup

/-!
# Windows to device memory

`ioremap` of `arch/x86_64/ioremap.c` takes virtual addresses from `kernel_vm_end` on, and maps
them to device memory.  `parse_memory_map` has set `kernel_vm_end` to the highest start of a
memory map entry, so a window can lie on the direct map, and its address has nothing to do with
the alignment of the device memory.
-/

namespace Manticore

/-- `kernel_vm_end`, and the memory with the current map in it. -/
structure IoSpace (σ : Type) where
  kernelVmEnd : ℕ
  kmem : KMem σ

/-- Maps an I/O memory region; 0 is `NULL`. -/
def ioremap {σ : Type} (A : PageAllocator σ) (fuel cr3 : ℕ) (io : IoSpace σ)
    (ioMemStart ioMemSize : ℕ) : Option (ℕ × IoSpace σ) := do
  let ret := io.kernelVmEnd
  let kernelVmEnd := add64 io.kernelVmEnd (alignUp ioMemSize pageSizeSmall)
  let (err, kmem) ← mmuMapRange A fuel io.kmem cr3 ret ioMemStart ioMemSize
    (mmuProtRead ||| mmuProtWrite) mmuNocache
  if err ≠ 0 then some (0, ⟨kernelVmEnd, kmem⟩) else some (ret, ⟨kernelVmEnd, kmem⟩)

/-! ## Where windows start -/

namespace Platform

theorem kernelVmEnd_step (kernelEnd : ℕ) (st : Platform) (op : BootOp) :
    (step kernelEnd st op).kernelVmEnd = st.kernelVmEnd ∨
      ∃ e, op = .entry e ∧
        (step kernelEnd st op).kernelVmEnd =
          alignUp (add64 e.baseAddr kernelVma) pageSizeSmall := by
  cases op with
  | module modStart modEnd =>
      left
      rw [step, parseModule]
  | entry e =>
      rw [step, parseEntry]
      by_cases hend : st.kernelVmEnd < alignUp (add64 e.baseAddr kernelVma) pageSizeSmall
      · exact Or.inr ⟨e, rfl, by simp only [if_pos hend, apply_ite kernelVmEnd, ite_self]⟩
      · exact Or.inl (by simp only [if_neg hend, apply_ite kernelVmEnd, ite_self])

theorem dvd_kernelVmEnd (kernelEnd : ℕ) (ops : List BootOp) :
    4096 ∣ (run (step kernelEnd) boot ops).kernelVmEnd := by
  refine run_invariant (P := fun st : Platform => 4096 ∣ st.kernelVmEnd) ?_ (Nat.dvd_zero 4096)
  intro st op h
  rcases kernelVmEnd_step kernelEnd st op with heq | ⟨e, -, heq⟩
  · rw [heq]
    exact h
  · rw [heq]
    exact dvd_alignUp_page _

end Platform

/-! ## One call -/

/-- The call asks for whole pages of device memory, and its window lies between the direct map
and the last 2 MiB of the address space.  If the window is so large that it gets large pages, the
device memory is aligned as the window is. -/
structure IoOk {σ : Type} (memRegions : List Span) (io : IoSpace σ) (ioMemStart ioMemSize : ℕ) :
    Prop where
  start_dvd : 4096 ∣ ioMemStart
  phys : ioMemStart + ioMemSize ≤ 2 ^ 52
  large : ioMemStart % 2 ^ 21 = io.kernelVmEnd % 2 ^ 21 ∨
    (io.kernelVmEnd + ioMemSize) / 2 ^ 21 ≤ (io.kernelVmEnd + (2 ^ 21 - 1)) / 2 ^ 21
  direct : ∀ r ∈ memRegions, ∀ p, r.Contains p → p < 2 ^ 31 → p + kernelVma < io.kernelVmEnd
  lo : kernelVma ≤ io.kernelVmEnd
  hi : io.kernelVmEnd + 2 ^ 21 ≤ 2 ^ 64
  fits : io.kernelVmEnd + ioMemSize + 4096 ≤ 2 ^ 64

variable {σ : Type} {A : PageAllocator σ} {F O : Set ℕ} {memRegions : List Span}
  {io io' : IoSpace σ} {cr3 fuel vaddr paddr size start prot flags k : ℕ}

/-- **One call of `ioremap`** leaves every kernel address below the window alone, and maps the
window unless it returns `NULL`. -/
theorem ioremap_spec (h : MapOkWithin A cr3 io.kmem F O) (hdvd : 4096 ∣ io.kernelVmEnd)
    (hok : IoOk memRegions io start size) (hfuel : 2 ^ 52 < fuel) :
    ∃ ret io', ioremap A fuel cr3 io start size = some (ret, io') ∧
      MapOkWithin A cr3 io'.kmem F O ∧ io'.kernelVmEnd = io.kernelVmEnd + 4096 * nrPages size ∧
      (∀ v, kernelVma ≤ v → v < io.kernelVmEnd →
        hwWalk io'.kmem.mem cr3 v = hwWalk io.kmem.mem cr3 v) ∧
      (ret = 0 ∨ ret = io.kernelVmEnd ∧
        ∀ k < size, hwTranslate io'.kmem.mem cr3 (ret + k) = some (start + k)) := by
  obtain ⟨F₁, O₁, hF₁, hO₁, hmap⟩ := h
  have hlo := hok.lo
  have hhi := hok.hi
  have hfits := hok.fits
  have hphys := hok.phys
  simp only [kernelVma] at hlo
  have hN : nrPages size = (size + 4095) / 4096 := rfl
  have hend : add64 io.kernelVmEnd (alignUp size pageSizeSmall) =
      io.kernelVmEnd + 4096 * nrPages size := by
    have hup : alignUp size pageSizeSmall = (size + 2 ^ 12 - 1) / 2 ^ 12 * 2 ^ 12 :=
      alignUp_two_pow (k := 12) (by norm_num) (by omega)
    rw [hup, add64_of_lt (by omega)]
    omega
  obtain ⟨err, s', heq, hzero, hfail⟩ := mmuMapRange_runs (mmuProtRead ||| mmuProtWrite)
    mmuNocache hmap hdvd (show nrPages size ≤ 2 ^ 36 by omega) hhi (by omega)
    (show start + size + 4096 < 2 ^ 64 by omega) (show nrPages size < fuel by omega)
  have hbelow : ∀ {n : ℕ}, n ≤ nrPages size → Progress A cr3 F₁ O₁ io.kmem.mem io.kernelVmEnd
      (rangeLeaf io.kernelVmEnd start size (mmuProtRead ||| mmuProtWrite) mmuNocache) n s' →
      ∀ v, kernelVma ≤ v → v < io.kernelVmEnd →
        hwWalk s'.mem cr3 v = hwWalk io.kmem.mem cr3 v := by
    intro n hn hprog v hv hlt
    rw [hprog.walk, if_neg]
    simp only [kernelVma] at hv
    simp only [pageIndex]
    omega
  simp only [ioremap, heq, hend, Option.bind_eq_bind, Option.bind_some]
  by_cases herr : err = 0
  · have hprog := hzero herr
    rw [if_neg (not_not.mpr herr)]
    refine ⟨io.kernelVmEnd, _, rfl, hprog.ok.mono hF₁ hO₁, rfl, hbelow le_rfl hprog,
      Or.inr ⟨rfl, fun k hk => ?_⟩⟩
    have hidx : pageIndex io.kernelVmEnd (io.kernelVmEnd + k) = k / 4096 := by
      simp only [pageIndex]
      omega
    have hframe : (rangeLeaf io.kernelVmEnd start size (mmuProtRead ||| mmuProtWrite) mmuNocache
        (k / 4096)).1 = start + 4096 * (k / 4096) :=
      fst_rangeLeaf hdvd hok.start_dvd (by omega) hok.large
    have hoffset : (io.kernelVmEnd + k) % 4096 = k % 4096 := by omega
    rw [hwTranslate, hprog.walk, hidx, if_pos (by omega), Option.map_some, hframe, hoffset]
    congr 1
    omega
  · obtain ⟨n, hn, hprog⟩ := hfail herr
    rw [if_pos herr]
    exact ⟨0, _, rfl, hprog.ok.mono hF₁ hO₁, rfl, hbelow hn hprog, Or.inl rfl⟩

/-! ## Runs -/

/-- A call of `ioremap` and what it returned. -/
structure IoWindow where
  ret : ℕ
  start : ℕ
  size : ℕ

/-- The state after some calls, and the calls, the last one first. -/
structure IoRun (σ : Type) where
  io : IoSpace σ
  windows : List IoWindow

namespace IoRun

/-- A call, as start and size of the device memory. -/
def step (A : PageAllocator σ) (fuel cr3 : ℕ) (st : IoRun σ) (call : ℕ × ℕ) : IoRun σ :=
  match ioremap A fuel cr3 st.io call.1 call.2 with
  | some (ret, io) => ⟨io, ⟨ret, call.1, call.2⟩ :: st.windows⟩
  | none => st

/-- The window shows its device memory, and lies between the direct map and the next window. -/
structure WindowOk (cr3 : ℕ) (io : IoSpace σ) (w : IoWindow) : Prop where
  maps : ∀ k < w.size, hwTranslate io.kmem.mem cr3 (w.ret + k) = some (w.start + k)
  lo : kernelVma ≤ w.ret
  le : w.ret + w.size ≤ io.kernelVmEnd

/-- What holds between the calls; `m` is the memory before the first one. -/
structure Inv (A : PageAllocator σ) (cr3 : ℕ) (F O : Set ℕ) (memRegions : List Span) (m : Mem)
    (st : IoRun σ) : Prop where
  map : MapOkWithin A cr3 st.io.kmem F O
  dvd : 4096 ∣ st.io.kernelVmEnd
  windows : ∀ w ∈ st.windows, w.ret ≠ 0 → WindowOk cr3 st.io w
  apart : st.windows.Pairwise fun w w' => w.ret ≠ 0 → w'.ret ≠ 0 →
    Span.Apart ⟨w.ret, w.size⟩ ⟨w'.ret, w'.size⟩
  direct : ∀ r ∈ memRegions, ∀ p, r.Contains p → p < 2 ^ 31 →
    hwWalk st.io.kmem.mem cr3 (p + kernelVma) = hwWalk m cr3 (p + kernelVma)

variable {m : Mem} {st : IoRun σ} {call : ℕ × ℕ}

theorem WindowOk.keep {w : IoWindow} (h : WindowOk cr3 io w)
    (hend : io.kernelVmEnd ≤ io'.kernelVmEnd)
    (hbelow : ∀ v, kernelVma ≤ v → v < io.kernelVmEnd →
      hwWalk io'.kmem.mem cr3 v = hwWalk io.kmem.mem cr3 v) : WindowOk cr3 io' w := by
  refine ⟨fun k hk => ?_, h.lo, h.le.trans hend⟩
  have hle := h.le
  have hlo := h.lo
  rw [hwTranslate, hbelow _ (by omega) (by omega)]
  exact h.maps k hk

theorem Inv.step (h : Inv A cr3 F O memRegions m st)
    (hok : IoOk memRegions st.io call.1 call.2) (hfuel : 2 ^ 52 < fuel) :
    Inv A cr3 F O memRegions m (st.step A fuel cr3 call) ∧
      ∃ ret, (st.step A fuel cr3 call).windows = ⟨ret, call.1, call.2⟩ :: st.windows := by
  obtain ⟨ret, io', heq, hmap, hend, hbelow, hret⟩ := ioremap_spec h.map h.dvd hok hfuel
  have hstep : st.step A fuel cr3 call = ⟨io', ⟨ret, call.1, call.2⟩ :: st.windows⟩ := by
    simp only [IoRun.step, heq]
  rw [hstep]
  have hle : st.io.kernelVmEnd ≤ io'.kernelVmEnd := hend ▸ Nat.le_add_right _ _
  refine ⟨⟨hmap, ?_, ?_, ?_, ?_⟩, ret, rfl⟩
  · rw [hend]
    exact (Nat.dvd_add_right h.dvd).mpr (Dvd.intro _ rfl)
  · intro w hw hne
    rcases List.mem_cons.mp hw with rfl | hw
    · obtain ⟨hret, hwin⟩ := hret.resolve_left hne
      refine ⟨hwin, ?_, ?_⟩
      · simp only [hret]
        exact hok.lo
      · simp only [hret, hend, nrPages]
        omega
    · exact (h.windows w hw hne).keep hle hbelow
  · refine List.pairwise_cons.mpr ⟨fun w hw hne hne' => Or.inr ?_, h.apart⟩
    obtain ⟨hret, -⟩ := hret.resolve_left hne
    simp only [hret]
    exact (h.windows w hw hne').le
  · intro r hr p hc hp
    rw [hbelow _ (Nat.le_add_left _ _) (hok.direct r hr p hc hp)]
    exact h.direct r hr p hc hp

theorem Inv.run (hfuel : 2 ^ 52 < fuel) : ∀ {calls : List (ℕ × ℕ)} {st : IoRun σ},
    Inv A cr3 F O memRegions m st →
      Guarded (IoRun.step A fuel cr3) (fun st call => IoOk memRegions st.io call.1 call.2) st
        calls →
      Inv A cr3 F O memRegions m (Manticore.run (IoRun.step A fuel cr3) st calls) ∧
        (Manticore.run (IoRun.step A fuel cr3) st calls).windows.map (fun w => (w.start, w.size)) =
          calls.reverse ++ st.windows.map fun w => (w.start, w.size)
  | [], _, h, _ => ⟨h, rfl⟩
  | call :: calls, st, h, hcalls => by
      obtain ⟨hstep, ret, hlog⟩ := h.step hcalls.1 hfuel
      obtain ⟨hrun, hlogs⟩ := Inv.run hfuel hstep hcalls.2
      rw [run_cons]
      refine ⟨hrun, ?_⟩
      rw [hlogs, hlog]
      simp

end IoRun

/-- **Windows are correct.** Let `kernel_vm_end` be set by the boot memory map `ops`, and every
call meet `IoOk`.  Then all calls return, each window shows its device memory, windows do not
overlap, and the direct map is as it was. -/
theorem ioremap_windows (A : PageAllocator σ) (fuel cr3 kernelEnd : ℕ)
    (ops : List Platform.BootOp) (kmem : KMem σ) (F O : Set ℕ) (calls : List (ℕ × ℕ))
    (hmap : MapOk A cr3 kmem F O) (hfuel : 2 ^ 52 < fuel)
    (hcalls : Guarded (IoRun.step A fuel cr3)
      (fun st call => IoOk (run (Platform.step kernelEnd) Platform.boot ops).memRegions st.io
        call.1 call.2)
      ⟨⟨(run (Platform.step kernelEnd) Platform.boot ops).kernelVmEnd, kmem⟩, []⟩ calls) :
    let platform := run (Platform.step kernelEnd) Platform.boot ops
    let st := run (IoRun.step A fuel cr3) ⟨⟨platform.kernelVmEnd, kmem⟩, []⟩ calls
    st.windows.map (fun w => (w.start, w.size)) = calls.reverse ∧
      (∀ w ∈ st.windows, w.ret ≠ 0 → ∀ k < w.size,
        hwTranslate st.io.kmem.mem cr3 (w.ret + k) = some (w.start + k)) ∧
      (st.windows.Pairwise fun w w' => w.ret ≠ 0 → w'.ret ≠ 0 →
        Span.Apart ⟨w.ret, w.size⟩ ⟨w'.ret, w'.size⟩) ∧
      ∀ r ∈ platform.memRegions, ∀ p, r.Contains p → p < 2 ^ 31 →
        hwWalk st.io.kmem.mem cr3 (p + kernelVma) = hwWalk kmem.mem cr3 (p + kernelVma) := by
  have hstart : IoRun.Inv A cr3 F O (run (Platform.step kernelEnd) Platform.boot ops).memRegions
      kmem.mem ⟨⟨(run (Platform.step kernelEnd) Platform.boot ops).kernelVmEnd, kmem⟩, []⟩ :=
    ⟨hmap.within, Platform.dvd_kernelVmEnd kernelEnd ops, by simp, List.Pairwise.nil,
      fun _ _ _ _ _ => rfl⟩
  obtain ⟨hinv, hlog⟩ := hstart.run hfuel hcalls
  refine ⟨?_, fun w hw hne => (hinv.windows w hw hne).maps, hinv.apart, hinv.direct⟩
  simpa using hlog

/-- 1 GiB of memory, and a reserved entry behind it that `kernel_vm_end` is set to. -/
def oneGib : List Platform.BootOp :=
  [.entry ⟨0, 0x9f000, 1⟩, .entry ⟨0x100000, 0x3ff00000, 1⟩, .entry ⟨0x40000000, 0x10000, 2⟩]

theorem kernelVmEnd_oneGib :
    (run (Platform.step kernelVma) Platform.boot oneGib).kernelVmEnd = kernelVma + 0x40000000 := by
  decide

theorem lt_of_mem_oneGib {r : Span} {p : ℕ}
    (hr : r ∈ (run (Platform.step kernelVma) Platform.boot oneGib).memRegions)
    (hc : r.Contains p) : p < 0x40000000 := by
  have hregions : (run (Platform.step kernelVma) Platform.boot oneGib).memRegions =
      [⟨0, 0x9f000⟩, ⟨0x100000, 0x3ff00000⟩] := by decide
  rw [hregions] at hr
  simp only [List.mem_cons, List.not_mem_nil, or_false] at hr
  rcases hr with rfl | rfl
  · exact hc.2.trans (by decide)
  · exact hc.2.trans_le (by decide)

/-- Two windows of a page and of four pages. -/
theorem ioremap_windows_two :
    let vmEnd := (run (Platform.step kernelVma) Platform.boot oneGib).kernelVmEnd
    let st := run (IoRun.step PageArenas.smallPages (2 ^ 52 + 1) 0x1000)
      ⟨⟨vmEnd, fourPages⟩, []⟩ [(0xfebf1000, 0x1000), (0xfe000000, 0x4000)]
    st.windows.map IoWindow.ret = [kernelVma + 0x40001000, kernelVma + 0x40000000] ∧
      ∀ w ∈ st.windows, w.ret ≠ 0 → ∀ k < w.size,
        hwTranslate st.io.kmem.mem 0x1000 (w.ret + k) = some (w.start + k) := by
  have hguard : Guarded (IoRun.step PageArenas.smallPages (2 ^ 52 + 1) 0x1000)
      (fun st call => IoOk (run (Platform.step kernelVma) Platform.boot oneGib).memRegions st.io
        call.1 call.2)
      ⟨⟨(run (Platform.step kernelVma) Platform.boot oneGib).kernelVmEnd, fourPages⟩, []⟩
      [(0xfebf1000, 0x1000), (0xfe000000, 0x4000)] := by
    have hsecond : (IoRun.step PageArenas.smallPages (2 ^ 52 + 1) 0x1000
        ⟨⟨(run (Platform.step kernelVma) Platform.boot oneGib).kernelVmEnd, fourPages⟩, []⟩
        (0xfebf1000, 0x1000)).io.kernelVmEnd = kernelVma + 0x40001000 := by decide +kernel
    refine ⟨⟨by decide, by decide, Or.inr ?_, ?_, ?_, ?_, ?_⟩,
      ⟨by decide, by decide, Or.inr ?_, ?_, ?_, ?_, ?_⟩, trivial⟩
    · simp only [kernelVmEnd_oneGib]
      decide
    · intro r hr p hc _
      have := lt_of_mem_oneGib hr hc
      simp only [kernelVmEnd_oneGib]
      omega
    · simp only [kernelVmEnd_oneGib]
      decide
    · simp only [kernelVmEnd_oneGib]
      decide
    · simp only [kernelVmEnd_oneGib]
      decide
    · rw [hsecond]
      decide
    · intro r hr p hc _
      have := lt_of_mem_oneGib hr hc
      rw [hsecond]
      omega
    · rw [hsecond]
      decide
    · rw [hsecond]
      decide
    · rw [hsecond]
      decide
  obtain ⟨-, hmaps, -⟩ := ioremap_windows PageArenas.smallPages (2 ^ 52 + 1) 0x1000 kernelVma
    oneGib fourPages _ ∅ _ mapOk_fourPages (by decide) hguard
  exact ⟨by decide +kernel, hmaps⟩

/-- **Registers that do not start on a page.** The window of 256 bytes at `0xfebf1100` shows
device memory from `0xfebf1000` on. -/
theorem ioremap_not_page_aligned :
    let vmEnd := (run (Platform.step kernelVma) Platform.boot oneGib).kernelVmEnd
    (ioremap PageArenas.smallPages 2 0x1000 ⟨vmEnd, fourPages⟩ 0xfebf1100 0x100).map
        (fun x => (x.1, hwTranslate x.2.kmem.mem 0x1000 x.1)) =
      some (kernelVma + 0x40000000, some 0xfebf1000) := by
  decide +kernel

end Manticore
