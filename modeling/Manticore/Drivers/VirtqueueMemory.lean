import Manticore.Mm.Kmalloc

/-!
# The memory of a virtqueue

`Virtqueue::new` allocates descriptor table, available ring and used ring with sizes that are
written out there and once more in `free`.  An element of the used ring has eight bytes; the size
requested counts four, and it depends on the size class whether the block is large enough.
-/

namespace Manticore

structure VirtqueueMemory where
  queueSize : ℕ
  rawDescriptorTablePtr : ℕ
  rawAvailableRingPtr : ℕ
  rawUsedRingPtr : ℕ
deriving DecidableEq, Repr

namespace VirtqueueMemory

variable {σ : Type} (A : PageAllocator σ) (sc kc : ℕ)

/-- `Virtqueue::new`; the inner `none` is a panic, the outer one a fault. -/
def new (s : KmemState σ) (queueSize : ℕ) : Option (Option VirtqueueMemory × KmemState σ) := do
  let (rawDescriptorTablePtr, s) ← s.kmemZalloc A sc kc (mul64 queueSize 16)
  if rawDescriptorTablePtr = 0 then some (none, s)
  else
    let (rawAvailableRingPtr, s) ← s.kmemZalloc A sc kc (add64 (mul64 queueSize 2) 6)
    if rawAvailableRingPtr = 0 then some (none, s)
    else
      let (rawUsedRingPtr, s) ← s.kmemZalloc A sc kc (add64 (mul64 queueSize 4) 6)
      if rawUsedRingPtr = 0 then some (none, s)
      else some (some ⟨queueSize, rawDescriptorTablePtr, rawAvailableRingPtr, rawUsedRingPtr⟩, s)

/-- The calls that `free` makes, each with its pointer and its size. -/
def frees (vm : VirtqueueMemory) : List (ℕ × ℕ) :=
  [(vm.rawDescriptorTablePtr, mul64 vm.queueSize 16),
    (vm.rawAvailableRingPtr, add64 (mul64 vm.queueSize 2) 6),
    (vm.rawUsedRingPtr, add64 (mul64 vm.queueSize 4) 6)]

def free (s : KmemState σ) (vm : VirtqueueMemory) : Option (KmemState σ) :=
  vm.frees.foldlM (fun s call => s.kmemFree A kc call.1 call.2) s

/-- What driver and device touch of the three parts: descriptors of 16 bytes, and rings of a
header of 4 bytes with entries of 2 and of 8 bytes. -/
def touched (vm : VirtqueueMemory) : List Span :=
  [⟨vm.rawDescriptorTablePtr, 16 * vm.queueSize⟩,
    ⟨vm.rawAvailableRingPtr, 4 + 2 * vm.queueSize⟩,
    ⟨vm.rawUsedRingPtr, 4 + 8 * vm.queueSize⟩]

/-- The call of `free` goes to the cache that the block came from, and the block has all the bytes
of `part`. -/
def InBlock (s : KmemState σ) (call : ℕ × ℕ) (part : Span) : Prop :=
  ∃ c, (c, call.1) ∈ s.live ∧ kmemSizeToCache kc call.2 = some c ∧
    ∀ x, part.Contains x → Span.Contains ⟨call.1, s.blockBytes c⟩ x

/-- **The memory is large enough**, and `free` gives it back where it came from. -/
def LargeEnough (s : KmemState σ) (vm : VirtqueueMemory) : Prop :=
  List.Forall₂ (InBlock kc s) vm.frees vm.touched

end VirtqueueMemory

/-! ## Which sizes fit -/

namespace VirtqueueMemory

variable {σ : Type} {A : PageAllocator σ} {sc kc : ℕ} {P F O : Set ℕ} {s s' : KmemState σ}
  {vs : List CacheView} {lost : List ℕ}

/-- The sizes for which the class of the used ring makes up for the bytes not requested. -/
def Roomy (queueSize : ℕ) : Prop :=
  queueSize ≤ 3 ∨ queueSize + 1 ∈ [8, 16, 32, 64, 128, 256]

instance (queueSize : ℕ) : Decidable (Roomy queueSize) := inferInstanceAs (Decidable (_ ∨ _))

theorem usedRing_fits_iff {q : ℕ} (h : q ≤ 256) :
    4 + 8 * q ≤ kmemClass (add64 (mul64 q 4) 6) ↔ Roomy q := by
  revert h
  revert q
  decide +kernel

theorem Roomy.le {q : ℕ} (h : Roomy q) : q ≤ 256 := by
  rcases h with h | h
  · omega
  · simp only [List.mem_cons, List.not_mem_nil, or_false] at h
    omega

theorem classes_fit_iff (q : ℕ) :
    (16 * q ≤ kmemClass (mul64 q 16) ∧ 4 + 2 * q ≤ kmemClass (add64 (mul64 q 2) 6) ∧
      4 + 8 * q ≤ kmemClass (add64 (mul64 q 4) 6)) ↔ Roomy q := by
  constructor
  · rintro ⟨hdesc, -, hused⟩
    have := kmemClass_le (mul64 q 16)
    exact (usedRing_fits_iff (by omega)).mp hused
  · intro h
    have hle := h.le
    have hdesc : mul64 q 16 = 16 * q := by
      unfold mul64
      omega
    have havail : add64 (mul64 q 2) 6 = 2 * q + 6 := by
      unfold mul64 add64
      omega
    refine ⟨?_, ?_, (usedRing_fits_iff hle).mpr h⟩
    · rw [hdesc]
      exact le_kmemClass (by omega)
    · rw [havail]
      exact (show 4 + 2 * q ≤ 2 * q + 6 by omega).trans (le_kmemClass (by omega))

theorem inBlock_iff {c ptr size n : ℕ} (hserving : KmemState.Serving kc size s)
    (hcache : kmemSizeToCache kc size = some c) (hlive : (c, ptr) ∈ s.live) :
    InBlock kc s (ptr, size) ⟨ptr, n⟩ ↔ n ≤ kmemClass size := by
  rw [← hserving.blockBytes_eq hcache]
  constructor
  · rintro ⟨c', -, hcache', hbytes⟩
    obtain rfl : c = c' := Option.some.inj (hcache.symm.trans hcache')
    by_contra hlt
    have hlast := hbytes (ptr + s.blockBytes c) ⟨Nat.le_add_right _ _, by
      show ptr + s.blockBytes c < ptr + n
      omega⟩
    exact absurd hlast.2 (lt_irrefl _)
  · intro hle
    refine ⟨c, hlive, hcache, fun x hx => ⟨hx.1, ?_⟩⟩
    have : x < ptr + n := hx.2
    show x < ptr + s.blockBytes c
    omega

theorem new_classes (queueSize : ℕ) (h : s.Backed A sc P F O vs lost)
    (hserving : ∀ size ∈ [mul64 queueSize 16, add64 (mul64 queueSize 2) 6,
      add64 (mul64 queueSize 4) 6], KmemState.Serving kc size s) :
    ∃ r s', new A sc kc s queueSize = some (r, s') ∧
      ∀ vm, r = some vm → (vm.LargeEnough kc s' ↔
        16 * queueSize ≤ kmemClass (mul64 queueSize 16) ∧
          4 + 2 * queueSize ≤ kmemClass (add64 (mul64 queueSize 2) 6) ∧
          4 + 8 * queueSize ≤ kmemClass (add64 (mul64 queueSize 4) 6)) := by
  have hserve₁ := hserving _ List.mem_cons_self
  have hserve₂ := hserving _ (List.mem_cons_of_mem _ List.mem_cons_self)
  have hserve₃ := hserving _ (List.mem_cons_of_mem _ (List.mem_cons_of_mem _ List.mem_cons_self))
  obtain ⟨p₁, s₁, F₁, O₁, vs₁, hrun₁, hback₁, hext₁, hlive₁⟩ := h.kmemZalloc hserve₁
  by_cases hp₁ : p₁ = 0
  · exact ⟨none, s₁, by simp [new, hrun₁, hp₁], fun _ hvm => nomatch hvm⟩
  obtain ⟨p₂, s₂, F₂, O₂, vs₂, hrun₂, hback₂, hext₂, hlive₂⟩ :=
    hback₁.kmemZalloc (hserve₂.extends hext₁)
  by_cases hp₂ : p₂ = 0
  · exact ⟨none, s₂, by simp [new, hrun₁, hp₁, hrun₂, hp₂], fun _ hvm => nomatch hvm⟩
  obtain ⟨p₃, s₃, F₃, O₃, vs₃, hrun₃, -, hext₃, hlive₃⟩ :=
    hback₂.kmemZalloc ((hserve₃.extends hext₁).extends hext₂)
  by_cases hp₃ : p₃ = 0
  · exact ⟨none, s₃, by simp [new, hrun₁, hp₁, hrun₂, hp₂, hrun₃, hp₃], fun _ hvm => nomatch hvm⟩
  refine ⟨some ⟨queueSize, p₁, p₂, p₃⟩, s₃, by simp [new, hrun₁, hp₁, hrun₂, hp₂, hrun₃, hp₃], ?_⟩
  rintro vm hvm
  obtain rfl := Option.some.inj hvm
  -- all three blocks are in use in the end, and the caches are as they were
  obtain ⟨c₁, hcache₁, hmem₁⟩ := hlive₁ hp₁
  obtain ⟨c₂, hcache₂, hmem₂⟩ := hlive₂ hp₂
  obtain ⟨c₃, hcache₃, hmem₃⟩ := hlive₃ hp₃
  have hext := (hext₁.trans hext₂).trans hext₃
  rw [LargeEnough, frees, touched]
  simp only [List.forall₂_cons, List.forall₂_nil_left_iff, and_true]
  rw [inBlock_iff (hserve₁.extends hext) hcache₁ (hext₃.live _ (hext₂.live _ hmem₁)),
    inBlock_iff (hserve₂.extends hext) hcache₂ (hext₃.live _ hmem₂),
    inBlock_iff (hserve₃.extends hext) hcache₃ hmem₃]

/-- **When the memory of a virtqueue is large enough.** `new` does not fault; if it does not panic
either, the blocks have every byte that driver and device touch exactly for the queue sizes whose
used ring ends up in a class of almost twice the request. -/
theorem new_largeEnough_iff (queueSize : ℕ) (h : s.Backed A sc P F O vs lost)
    (hserving : ∀ size ∈ [mul64 queueSize 16, add64 (mul64 queueSize 2) 6,
      add64 (mul64 queueSize 4) 6], KmemState.Serving kc size s) :
    ∃ r s', new A sc kc s queueSize = some (r, s') ∧
      ∀ vm, r = some vm → (vm.LargeEnough kc s' ↔ Roomy queueSize) := by
  obtain ⟨r, s', hnew, hiff⟩ := new_classes queueSize h hserving
  exact ⟨r, s', hnew, fun vm hvm => (hiff vm hvm).trans (classes_fit_iff queueSize)⟩

/-- A queue of two, from the smallest class. -/
theorem new_largeEnough_two : ∃ s vm s', bootKmalloc 0x4000 [(0x3000, 32)] = some s ∧
    new PageArenas.smallPages 0x2000 0x3000 s 2 = some (some vm, s') ∧
    vm.LargeEnough 0x3000 s' := by
  obtain ⟨s, F, O, vs, lost, hs, hback⟩ := backed_bootKmalloc_concat
    (backed_bootKmalloc_nil (n := 0x4000) ⟨by decide, by decide, by decide, by decide, by decide⟩)
    (by rfl) (show StaticCache [] 0x3000 32 by decide)
  have hboot : bootKmalloc 0x4000 [(0x3000, 32)] = some s := hs
  have htable : (bootKmalloc 0x4000 [(0x3000, 32)]).map
      (fun s => decide (s.HasCaches [(0x3000, 32)])) = some true := by decide +kernel
  have hptrs : (bootKmalloc 0x4000 [(0x3000, 32)]).bind (fun s =>
      (new PageArenas.smallPages 0x2000 0x3000 s 2).map Prod.fst) =
      some (some ⟨2, 0x100000, 0x100020, 0x100040⟩) := by decide +kernel
  rw [hboot, Option.map_some, Option.some.injEq] at htable
  rw [hboot, Option.bind_some] at hptrs
  have hsel : ∀ size ∈ [mul64 2 16, add64 (mul64 2 2) 6, add64 (mul64 2 4) 6],
      ∃ e ∈ [(0x3000, 32)], kmemSizeToCache 0x3000 size = some e.1 ∧ kmemClass size = e.2 := by
    decide
  obtain ⟨r, s', hnew, hiff⟩ := new_largeEnough_iff 2 hback
    fun size hsize => (of_decide_eq_true htable).serving (hsel size hsize)
  rw [hnew, Option.map_some, Option.some.injEq] at hptrs
  dsimp only at hptrs
  subst hptrs
  exact ⟨s, _, s', hboot, hnew, (hiff _ rfl).mpr (by decide)⟩

/-- What `kmem_init` makes for a queue of 256. -/
def caches256 : List (ℕ × ℕ) :=
  [(0x2000, sizeofKmemSlab), (0x3000 + 5 * 64, 1024), (0x3000 + 6 * 64, 2048),
    (0x3000 + 7 * 64, 4096)]

theorem backed_caches256 : KmemState.Backed.Next PageArenas.smallPages 0x2000 (bootPages 0x8000)
    (bootKmalloc 0x8000 caches256) := by
  have h₁ := backed_bootKmalloc_concat
    (backed_bootKmalloc_nil (n := 0x8000) ⟨by decide, by decide, by decide, by decide, by decide⟩)
    (by rfl) (show StaticCache [] 0x2000 sizeofKmemSlab by decide)
  have h₂ := backed_bootKmalloc_concat h₁ (by decide +kernel)
    (show StaticCache [0x2000] (0x3000 + 5 * 64) 1024 by decide)
  have h₃ := backed_bootKmalloc_concat h₂ (by decide +kernel)
    (show StaticCache [0x3000 + 5 * 64, 0x2000] (0x3000 + 6 * 64) 2048 by decide)
  have h₄ := backed_bootKmalloc_concat h₃ (by decide +kernel)
    (show StaticCache [0x3000 + 6 * 64, 0x3000 + 5 * 64, 0x2000] (0x3000 + 7 * 64) 4096 by decide)
  rw [List.nil_append, List.append_assoc, List.append_assoc] at h₄
  exact h₄

/-- A queue of 256: the used ring is a block of 2048 bytes, and the device writes 2052. -/
theorem new_used_ring_short : ∃ s F O vs lost vm s', bootKmalloc 0x8000 caches256 = some s ∧
    s.Backed PageArenas.smallPages 0x2000 (bootPages 0x8000) F O vs lost ∧
    s.HasCaches caches256 ∧
    new PageArenas.smallPages 0x2000 0x3000 s 256 = some (some vm, s') ∧
    vm = ⟨256, 0x103000, 0x101000, 0x102000⟩ ∧ ¬ vm.LargeEnough 0x3000 s' := by
  obtain ⟨s, F, O, vs, lost, hboot, hback⟩ := backed_caches256
  have htable : (bootKmalloc 0x8000 caches256).map (fun s => decide (s.HasCaches caches256)) =
      some true := by decide +kernel
  have hptrs : (bootKmalloc 0x8000 caches256).bind (fun s =>
      (new PageArenas.smallPages 0x2000 0x3000 s 256).map Prod.fst) =
      some (some ⟨256, 0x103000, 0x101000, 0x102000⟩) := by decide +kernel
  rw [hboot, Option.map_some, Option.some.injEq] at htable
  rw [hboot, Option.bind_some] at hptrs
  have hsel : ∀ size ∈ [mul64 256 16, add64 (mul64 256 2) 6, add64 (mul64 256 4) 6],
      ∃ e ∈ caches256, kmemSizeToCache 0x3000 size = some e.1 ∧ kmemClass size = e.2 := by
    decide
  have hcaches : s.HasCaches caches256 := of_decide_eq_true htable
  obtain ⟨r, s', hnew, hiff⟩ := new_classes 256 hback
    fun size hsize => hcaches.serving (hsel size hsize)
  rw [hnew, Option.map_some, Option.some.injEq] at hptrs
  dsimp only at hptrs
  subst hptrs
  refine ⟨s, F, O, vs, lost, _, s', hboot, hback, hcaches, hnew, rfl, fun hlarge => ?_⟩
  exact absurd ((hiff _ rfl).mp hlarge).2.2 (by decide)

end VirtqueueMemory

end Manticore
