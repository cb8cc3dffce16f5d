import Manticore.Kernel.Vm

/-!
# Floating and fixed allocation

Regions are allocated above the last one and removed in any order.  The regions stay in
order and apart, so the last one ends highest, and the range query of `allocate` never
finds anything.

`allocate_fixed` relies on the same query, which looks at where regions start.  A region that
starts below the range and reaches into it is not seen.
-/

namespace Manticore

/-- Regions of whole pages, in order, none reaching into the next. -/
structure RegionsOk (rs : List VMRegion) : Prop where
  separated : rs.Pairwise fun a b => a.stop ≤ b.start
  nonempty : ∀ r ∈ rs, r.start < r.stop
  pages : ∀ r ∈ rs, pageSizeSmall ∣ r.stop - r.start

namespace RegionsOk

variable {rs : List VMRegion} {r r' : VMRegion} {start : ℕ}

theorem nil : RegionsOk [] := ⟨List.Pairwise.nil, by simp, by simp⟩

theorem starts (h : RegionsOk rs) : KeySorted VMRegion.start rs :=
  h.separated.imp_of_mem fun ha _ hab => lt_of_lt_of_le (h.nonempty _ ha) hab

theorem eq_of_start (h : RegionsOk rs) (hr : r ∈ rs) (hr' : r' ∈ rs)
    (heq : r.start = r'.start) : r = r' := by
  have hnodup : (rs.map VMRegion.start).Nodup := by
    rw [List.Nodup, List.pairwise_map]
    exact h.starts.imp ne_of_lt
  exact List.inj_on_of_nodup_map hnodup hr hr' heq

theorem stop_le_upperEnd {vm : VMAddressSpace} (h : RegionsOk vm.vmRegions)
    (hr : r ∈ vm.vmRegions) : r.stop ≤ vm.upperEnd := by
  rcases hlast : vm.vmRegions.getLast? with _ | last
  · rw [List.getLast?_eq_none_iff.mp hlast] at hr
    cases hr
  · obtain ⟨pre, hpre⟩ := List.getLast?_eq_some_iff.mp hlast
    rw [VMAddressSpace.upperEnd, hlast]
    show r.stop ≤ last.stop
    have hmem : last ∈ vm.vmRegions := by simp [hpre]
    have hlt := h.nonempty last hmem
    have hsep := h.separated
    rw [hpre] at hr hsep
    rcases List.mem_append.mp hr with hr | hr
    · have := (List.pairwise_append.mp hsep).2.2 r hr last (by simp)
      omega
    · rw [List.mem_singleton.mp hr]

theorem erase (h : RegionsOk rs) (r : VMRegion) : RegionsOk (rs.erase r) :=
  ⟨h.separated.sublist List.erase_sublist, fun x hx => h.nonempty x (List.mem_of_mem_erase hx),
    fun x hx => h.pages x (List.mem_of_mem_erase hx)⟩

theorem insert (h : RegionsOk rs) (habove : ∀ x ∈ rs, x.stop ≤ r.start) (hlt : r.start < r.stop)
    (hpages : pageSizeSmall ∣ r.stop - r.start) : RegionsOk (treeInsert VMRegion.start r rs) := by
  refine ⟨?_, ?_, ?_⟩
  · refine pairwise_treeInsert h.separated ?_ (fun x hx _ => habove x hx) (h.starts.imp le_of_lt)
    intro x hx hxlt
    have := habove x hx
    have := h.nonempty x hx
    omega
  · intro x hx
    rcases mem_treeInsert.mp hx with rfl | hx
    · exact hlt
    · exact h.nonempty x hx
  · intro x hx
    rcases mem_treeInsert.mp hx with rfl | hx
    · exact hpages
    · exact h.pages x hx

end RegionsOk

theorem isLeast_alignUp {x k : ℕ} (h : x + 2 ^ k < 2 ^ 64) :
    IsLeast {y | 2 ^ k ∣ y ∧ x ≤ y} (alignUp x (2 ^ k)) := by
  have hk : k < 64 := (Nat.pow_lt_pow_iff_right (by norm_num : 1 < 2)).mp (by omega)
  have hpos : 0 < 2 ^ k := Nat.pos_of_ne_zero (by positivity)
  rw [alignUp_two_pow hk (by omega)]
  have hdm := Nat.div_add_mod (x + 2 ^ k - 1) (2 ^ k)
  have hmod := Nat.mod_lt (x + 2 ^ k - 1) hpos
  refine ⟨⟨Dvd.intro_left _ rfl, ?_⟩, ?_⟩
  · rw [mul_comm]
    omega
  · rintro y ⟨⟨c, rfl⟩, hy⟩
    rw [mul_comm]
    refine Nat.mul_le_mul_left _ ?_
    have hle : (x + 2 ^ k - 1) / 2 ^ k < c + 1 := by
      rw [Nat.div_lt_iff_lt_mul hpos, add_mul, one_mul, mul_comm c]
      omega
    omega

/-! ## The operations -/

inductive VmOp where
  | allocate (size align prot : ℕ)
  | deallocate (start stop : ℕ)
deriving DecidableEq, Repr

namespace VMAddressSpace

variable {σ : Type} (A : KernelPages σ)

def step (st : VMAddressSpace × KMem σ) : VmOp → VMAddressSpace × KMem σ
  | .allocate size align prot => ((st.1.allocate size align prot).2, st.2)
  | .deallocate start stop => (st.1.deallocate A st.2 start stop).2

/-- Whole pages, a power of two, and no sum above `2 ^ 64 - 1`. -/
def Admissible (st : VMAddressSpace × KMem σ) : VmOp → Prop
  | .allocate size align _ => 0 < size ∧ pageSizeSmall ∣ size ∧ (∃ k, align = 2 ^ k) ∧
      st.1.upperEnd + align < 2 ^ 64 ∧ alignUp st.1.upperEnd align + size < 2 ^ 64
  | .deallocate .. => True

variable {A} {vm : VMAddressSpace} {s : KMem σ} {size align prot start stop : ℕ}

theorem allocate_spec (h : RegionsOk vm.vmRegions)
    (hadm : Admissible (vm, s) (.allocate size align prot)) :
    let r := VMRegion.new (alignUp vm.upperEnd align) (alignUp vm.upperEnd align + size) prot
    vm.allocate size align prot = (.ok (r.start, r.stop), vm.insert r) ∧
      IsLeast {y | align ∣ y ∧ vm.upperEnd ≤ y} r.start ∧
      RegionsOk (vm.insert r).vmRegions := by
  obtain ⟨hpos, hdvd, ⟨k, rfl⟩, hup, hstop⟩ := hadm
  intro r
  have hleast := isLeast_alignUp hup
  have habove : ∀ x ∈ vm.vmRegions, x.stop ≤ r.start := fun x hx =>
    le_trans (h.stop_le_upperEnd hx) hleast.1.2
  refine ⟨?_, hleast, ?_⟩
  · have haligned := isAligned_of_dvd hdvd
    have hempty : vm.range (alignUp vm.upperEnd (2 ^ k)) (alignUp vm.upperEnd (2 ^ k) + size) = [] := by
      rw [range, List.filter_eq_nil_iff]
      intro x hx
      have h₁ := habove x hx
      have h₂ := h.nonempty x hx
      simp only [r, VMRegion.new] at h₁
      rw [decide_eq_true_eq]
      omega
    simp only [allocate, haligned, add64_of_lt hstop, hempty, List.length_nil]
    rfl
  · refine h.insert habove ?_ ?_
    · show alignUp vm.upperEnd (2 ^ k) < alignUp vm.upperEnd (2 ^ k) + size
      omega
    · show pageSizeSmall ∣ alignUp vm.upperEnd (2 ^ k) + size - alignUp vm.upperEnd (2 ^ k)
      rw [Nat.add_sub_cancel_left]
      exact hdvd

theorem lookup_eq_some {r : VMRegion} (h : RegionsOk vm.vmRegions) :
    vm.lookup start stop = some r ↔ r ∈ vm.vmRegions ∧ r.start = start ∧ r.stop = stop := by
  rw [lookup, Option.filter_eq_some_iff, decide_eq_true_eq]
  constructor
  · rintro ⟨hfind, hstop⟩
    obtain ⟨hmem, hstart⟩ := treeFind_some hfind
    exact ⟨hmem, hstart, hstop⟩
  · rintro ⟨hmem, hstart, hstop⟩
    refine ⟨?_, hstop⟩
    rcases hfind : treeFind VMRegion.start start vm.vmRegions with _ | r'
    · exact absurd hstart (treeFind_none hfind r hmem)
    · obtain ⟨hmem', hstart'⟩ := treeFind_some hfind
      rw [h.eq_of_start hmem' hmem (hstart'.trans hstart.symm)]

theorem lookup_eq_none (h : RegionsOk vm.vmRegions) :
    vm.lookup start stop = none ↔ ¬ ∃ r ∈ vm.vmRegions, r.start = start ∧ r.stop = stop := by
  rw [← Option.not_isSome_iff_eq_none, Option.isSome_iff_exists]
  simp only [lookup_eq_some h]

theorem step_ok (st : VMAddressSpace × KMem σ) (op : VmOp) (hadm : Admissible st op)
    (h : RegionsOk st.1.vmRegions) : RegionsOk (step A st op).1.vmRegions := by
  cases op with
  | allocate size align prot =>
      obtain ⟨heq, -, hok⟩ := allocate_spec h hadm
      rw [step, heq]
      exact hok
  | deallocate start stop =>
      rw [step, deallocate]
      rcases st.1.lookup start stop with _ | r
      · exact h
      · exact h.erase r

/-- **Floating allocation keeps regions disjoint.** After any run of admissible requests
the regions are apart; a further request gets the least aligned address above them, and a
region is removed exactly if it is there. -/
theorem floating_allocation (A : KernelPages σ) (cr3 : ℕ) (s₀ : KMem σ) (ops : List VmOp)
    (hops : Guarded (step A) Admissible (new cr3, s₀) ops) :
    let st := run (step A) (new cr3, s₀) ops
    RegionsOk st.1.vmRegions ∧
      (∀ size align prot, Admissible st (.allocate size align prot) → ∃ start,
        IsLeast {y | align ∣ y ∧ ∀ r ∈ st.1.vmRegions, r.stop ≤ y} start ∧
          (st.1.allocate size align prot).1 = .ok (start, start + size) ∧
          (st.1.allocate size align prot).2.vmRegions.Perm
            (VMRegion.new start (start + size) prot :: st.1.vmRegions)) ∧
      (∀ start stop, (∃ r ∈ st.1.vmRegions, r.start = start ∧ r.stop = stop ∧
          (st.1.deallocate A st.2 start stop).1 = .ok () ∧
          (st.1.deallocate A st.2 start stop).2.1.vmRegions = st.1.vmRegions.erase r) ∨
        (¬ ∃ r ∈ st.1.vmRegions, r.start = start ∧ r.stop = stop) ∧
          st.1.deallocate A st.2 start stop = (.error einval, st.1, st.2)) := by
  intro st
  have hok : RegionsOk st.1.vmRegions :=
    run_invariant_of_guarded (P := fun st => RegionsOk st.1.vmRegions) step_ok hops RegionsOk.nil
  refine ⟨hok, ?_, ?_⟩
  · intro size align prot hadm
    obtain ⟨heq, hleast, -⟩ := allocate_spec hok hadm
    refine ⟨_, ⟨⟨hleast.1.1, fun r hr => le_trans (hok.stop_le_upperEnd hr) hleast.1.2⟩, ?_⟩, ?_, ?_⟩
    · rintro y ⟨hdvd, hy⟩
      refine hleast.2 ⟨hdvd, ?_⟩
      rcases hlast : st.1.vmRegions.getLast? with _ | last
      · rw [upperEnd, hlast]
        exact Nat.zero_le _
      · rw [upperEnd, hlast]
        exact hy last (List.mem_of_getLast? hlast)
    · rw [heq]
      rfl
    · rw [heq]
      exact treeInsert_perm _ _ _
  · intro start stop
    rcases hfind : st.1.lookup start stop with _ | r
    · refine Or.inr ⟨(lookup_eq_none hok).mp hfind, ?_⟩
      rw [deallocate, hfind]
    · obtain ⟨hmem, hstart, hstop⟩ := (lookup_eq_some hok).mp hfind
      refine Or.inl ⟨r, hmem, hstart, hstop, ?_⟩
      rw [deallocate, hfind]
      exact ⟨rfl, rfl⟩

/-- Two allocations, the first removed. -/
theorem floating_allocation_two_regions :
    let st := run (step PageArenas.kernelPages) (new 0x1000, fourPages)
      [.allocate 0x1000 0x1000 3, .allocate 0x2000 0x200000 3, .deallocate 0 0x1000]
    RegionsOk st.1.vmRegions ∧ st.1.vmRegions = [VMRegion.new 0x200000 0x202000 3] := by
  refine ⟨(floating_allocation PageArenas.kernelPages 0x1000 fourPages _ ?_).1, by decide +kernel⟩
  refine ⟨⟨by decide, by decide, ⟨12, rfl⟩, by decide +kernel, by decide +kernel⟩,
    ⟨by decide, by decide, ⟨21, rfl⟩, by decide +kernel, by decide +kernel⟩, trivial, trivial⟩

end VMAddressSpace

/-! ## Fixed allocation -/

/-- The addresses of a region. -/
def VMRegion.addrs (r : VMRegion) : Set ℕ := Set.Ico r.start r.stop

/-- No two regions share an address. -/
def RegionsDisjoint (rs : List VMRegion) : Prop := rs.Pairwise fun a b => Disjoint a.addrs b.addrs

theorem RegionsDisjoint.perm {rs rs' : List VMRegion} (h : RegionsDisjoint rs)
    (hp : rs.Perm rs') : RegionsDisjoint rs' := hp.pairwise h fun hab => hab.symm

namespace VMAddressSpace

variable {start stop : ℕ}

/-- No region has an address in `[start, stop)`. -/
def IsFree (vm : VMAddressSpace) (start stop : ℕ) : Prop :=
  ∀ r ∈ vm.vmRegions, Disjoint r.addrs (Set.Ico start stop)

/-- **Fixed allocation is exact**: it succeeds if and only if the range is free; then the region
is added and the regions are disjoint, and else nothing changes. -/
structure FixedExact (vm : VMAddressSpace) (start stop prot : ℕ) : Prop where
  ok_iff : (vm.allocateFixed start stop prot).1 = .ok () ↔ vm.IsFree start stop
  added : (vm.allocateFixed start stop prot).1 = .ok () →
    (vm.allocateFixed start stop prot).2.vmRegions.Perm
      (VMRegion.new start stop prot :: vm.vmRegions)
  disjoint : (vm.allocateFixed start stop prot).1 = .ok () →
    RegionsDisjoint (vm.allocateFixed start stop prot).2.vmRegions
  unchanged : ∀ e, (vm.allocateFixed start stop prot).1 = .error e →
    (vm.allocateFixed start stop prot).2 = vm

/-- A region that starts below the range reaches into it. -/
def ReachesIn (vm : VMAddressSpace) (start : ℕ) : Prop :=
  ∃ r ∈ vm.vmRegions, r.start < start ∧ start < r.stop

/-- A region with addresses starts in the range. -/
def StartsIn (vm : VMAddressSpace) (start stop : ℕ) : Prop :=
  ∃ r ∈ vm.vmRegions, start ≤ r.start ∧ r.start < stop ∧ r.start < r.stop

/-- An empty region starts in the range, which `allocate` of no bytes leaves behind. -/
def EmptyIn (vm : VMAddressSpace) (start stop : ℕ) : Prop :=
  ∃ r ∈ vm.vmRegions, start ≤ r.start ∧ r.start < stop ∧ r.stop ≤ r.start

theorem isFree_iff (vm : VMAddressSpace) (hlt : start < stop) :
    vm.IsFree start stop ↔ ¬ vm.ReachesIn start ∧ ¬ vm.StartsIn start stop := by
  simp only [IsFree, VMRegion.addrs, Set.Ico_disjoint_Ico, ReachesIn, StartsIn, not_exists,
    not_and, ← forall_and]
  refine forall_congr' fun r => imp_congr_right fun _ => ?_
  omega

theorem range_eq_nil_iff (vm : VMAddressSpace) (start stop : ℕ) :
    vm.range start stop = [] ↔ ¬ vm.StartsIn start stop ∧ ¬ vm.EmptyIn start stop := by
  simp only [range, List.filter_eq_nil_iff, decide_eq_true_eq, StartsIn, EmptyIn, not_exists,
    not_and, ← forall_and]
  refine forall_congr' fun r => imp_congr_right fun _ => ?_
  omega

theorem allocateFixed_cases (vm : VMAddressSpace) (prot : ℕ) (hle : start ≤ stop) (hstop : stop < 2 ^ 64)
    (hdvd : pageSizeSmall ∣ stop - start) :
    (vm.range start stop = [] ∧ vm.allocateFixed start stop prot =
        (.ok (), vm.insert (VMRegion.new start stop prot))) ∨
      (vm.range start stop ≠ [] ∧ vm.allocateFixed start stop prot = (.error einval, vm)) := by
  have haligned : isAligned (sub64 stop start) pageSizeSmall = true := by
    rw [sub64_of_le hle hstop]
    exact isAligned_of_dvd hdvd
  simp only [allocateFixed, haligned, Bool.true_eq_false, if_false, gt_iff_lt,
    List.length_pos_iff]
  by_cases hrange : vm.range start stop = []
  · exact Or.inl ⟨hrange, by rw [if_neg (not_not.mpr hrange)]⟩
  · exact Or.inr ⟨hrange, by rw [if_pos hrange]⟩

/-- **Fixed allocation misses regions that reach in.** Over disjoint regions it is exact if and
only if a region with addresses starts in the range, or regions that reach in from below and
empty ones inside are both there or both not. -/
theorem allocateFixed_exact_iff (vm : VMAddressSpace) (prot : ℕ)
    (h : RegionsDisjoint vm.vmRegions) (hlt : start < stop) (hstop : stop < 2 ^ 64) (hdvd : pageSizeSmall ∣ stop - start) :
    FixedExact vm start stop prot ↔
      vm.StartsIn start stop ∨ (vm.ReachesIn start ↔ vm.EmptyIn start stop) := by
  have hfree := isFree_iff vm hlt
  have hnil := range_eq_nil_iff vm start stop
  rcases allocateFixed_cases vm prot (le_of_lt hlt) hstop hdvd with
    ⟨hrange, heq⟩ | ⟨hrange, heq⟩
  · have hperm : (vm.insert (VMRegion.new start stop prot)).vmRegions.Perm
        (VMRegion.new start stop prot :: vm.vmRegions) := treeInsert_perm _ _ _
    constructor
    · rintro ⟨hok, -, -, -⟩
      rw [heq, hfree] at hok
      have := hok.mp rfl
      tauto
    · intro hcond
      have hisFree : vm.IsFree start stop := by
        rw [hfree]
        tauto
      refine ⟨by rw [heq]; exact iff_of_true rfl hisFree, fun _ => heq ▸ hperm, fun _ => ?_, ?_⟩
      · rw [heq]
        refine RegionsDisjoint.perm (List.pairwise_cons.mpr ⟨fun r hr => ?_, h⟩) hperm.symm
        exact (hisFree r hr).symm
      · intro e he
        rw [heq] at he
        cases he
  · constructor
    · rintro ⟨hok, -, -, -⟩
      rw [heq, hfree] at hok
      have hnot : ¬ (¬ vm.ReachesIn start ∧ ¬ vm.StartsIn start stop) := fun hc =>
        absurd (hok.mpr hc) (by simp)
      tauto
    · intro hcond
      have hnotFree : ¬ vm.IsFree start stop := by
        rw [hfree]
        tauto
      refine ⟨by rw [heq]; exact iff_of_false (by simp) hnotFree, fun hc => ?_, fun hc => ?_,
        fun e _ => by rw [heq]⟩
      · rw [heq] at hc
        cases hc
      · rw [heq] at hc
        cases hc

/-- A range between two regions. -/
theorem allocateFixed_exact_between :
    FixedExact ⟨[VMRegion.new 0x1000 0x2000 3, VMRegion.new 0x6000 0x8000 3], 0x1000⟩ 0x4000 0x5000
      3 :=
  (allocateFixed_exact_iff ⟨[VMRegion.new 0x1000 0x2000 3, VMRegion.new 0x6000 0x8000 3], 0x1000⟩ 3
    (by simp [RegionsDisjoint, VMRegion.addrs, VMRegion.new]) (by decide) (by decide) (by decide)).mpr
    (Or.inr (by simp [ReachesIn, EmptyIn, VMRegion.new]))

/-- **A range inside a region.** The region starts below it, the call succeeds, and the two
regions share their addresses. -/
theorem allocateFixed_inside :
    let vm : VMAddressSpace := ⟨[VMRegion.new 0 0x3000 3], 0x1000⟩
    RegionsDisjoint vm.vmRegions ∧ (vm.allocateFixed 0x1000 0x2000 3).1 = .ok () ∧
      ¬ vm.IsFree 0x1000 0x2000 ∧
      ¬ RegionsDisjoint (vm.allocateFixed 0x1000 0x2000 3).2.vmRegions := by
  refine ⟨List.pairwise_singleton _ _, rfl, ?_, ?_⟩
  · simp [IsFree, VMRegion.addrs, VMRegion.new]
  · show ¬ RegionsDisjoint [VMRegion.new 0 0x3000 3, VMRegion.new 0x1000 0x2000 3]
    simp [RegionsDisjoint, VMRegion.addrs, VMRegion.new]

end VMAddressSpace

end Manticore
