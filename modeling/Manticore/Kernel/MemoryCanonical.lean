import Manticore.Kernel.Memory

/-!
# Arenas are canonical

In an arena in which no segment ends where another begins, the segments are the maximal runs
of free pages.  Allocation and freeing keep it so: `alloc` cuts a page off the front of the
first segment, and `free` joins the page with the segment before and the segment after it.
So an arena is determined by its set of free pages, whatever the order of the frees was.
-/

namespace Manticore

namespace MemoryArena

variable {P : ℕ} {arena : MemoryArena} {seg : MemorySegment} {p : ℕ}

/-- A run of pages of `F` that neither the page before nor the page after it extends. -/
structure MaximalRun (P : ℕ) (F : Set ℕ) (seg : MemorySegment) : Prop where
  size_pos : 0 < seg.size
  dvd_base : P ∣ seg.base
  dvd_size : P ∣ seg.size
  pages : ∀ p, P ∣ p → seg.Contains p → p ∈ F
  before : ∀ p, p + P = seg.base → p ∉ F
  after : seg.base + seg.size ∉ F

/-- No segment ends where another begins. -/
def NoTouch (arena : MemoryArena) : Prop :=
  ∀ s ∈ arena.segments, ∀ t ∈ arena.segments, s.base + s.size ≠ t.base

/-! ## Segments and maximal runs -/

theorem MaximalRun.eq {F : Set ℕ} {s t : MemorySegment} (hs : MaximalRun P F s)
    (ht : MaximalRun P F t) (hmem : t.Contains s.base) : s = t := by
  have hbase : s.base = t.base := by
    by_contra hne
    have hlt : t.base < s.base := lt_of_le_of_ne hmem.1 (Ne.symm hne)
    have hle := add_le_of_dvd_of_lt ht.dvd_base hs.dvd_base hlt
    -- the page before `s` lies in `t`
    refine hs.before (s.base - P) (by omega) (ht.pages _ ?_ ⟨by omega, ?_⟩)
    · exact Nat.dvd_sub hs.dvd_base (dvd_refl P)
    · have := hmem.2
      omega
  have hdvd : ∀ r : MemorySegment, MaximalRun P F r → P ∣ r.base + r.size := fun r hr =>
    Nat.dvd_add hr.dvd_base hr.dvd_size
  have hsize : s.size = t.size := by
    rcases Nat.lt_trichotomy s.size t.size with hlt | heq | hlt
    · exact absurd (ht.pages _ (hdvd s hs) ⟨by omega, by omega⟩) hs.after
    · exact heq
    · exact absurd (hs.pages _ (hdvd t ht) ⟨by omega, by omega⟩) ht.after
  obtain ⟨sbase, ssize⟩ := s
  obtain ⟨tbase, tsize⟩ := t
  simp only at hbase hsize
  rw [hbase, hsize]

theorem maximalRun_of_mem (h : Wf P arena) (hno : NoTouch arena) (hseg : seg ∈ arena.segments) :
    MaximalRun P (freePages P arena) seg := by
  have hp := h.pages seg hseg
  refine ⟨hp.size_pos, hp.dvd_base, hp.dvd_size, fun p hdvd hin => ⟨hdvd, seg, hseg, hin⟩, ?_, ?_⟩
  · rintro p hpb ⟨hdvd, t, ht, hin⟩
    have hend := (h.pages t ht).page_le hdvd hin
    have hpos := hp.pos
    have hne : seg ≠ t := by
      rintro rfl
      have := hin.1
      omega
    rcases h.separated.apart hseg ht hne with hbelow | habove
    · have := hin.1
      have := hp.size_pos
      omega
    · exact hno t ht seg hseg (by omega)
  · rintro ⟨-, t, ht, hin⟩
    have hne : seg ≠ t := by
      rintro rfl
      exact lt_irrefl _ hin.2
    rcases h.separated.apart hseg ht hne with hbelow | habove
    · exact hno seg hseg t ht (le_antisymm hbelow hin.1)
    · have := hin.2
      omega

/-- **The segments are exactly the maximal runs of free pages.** -/
theorem mem_segments_iff (h : Wf P arena) (hno : NoTouch arena) :
    seg ∈ arena.segments ↔ MaximalRun P (freePages P arena) seg := by
  constructor
  · exact maximalRun_of_mem h hno
  · intro hrun
    have hfree := hrun.pages seg.base hrun.dvd_base ⟨le_rfl, Nat.lt_add_of_pos_right hrun.size_pos⟩
    obtain ⟨-, t, ht, hin⟩ := hfree
    rw [hrun.eq (maximalRun_of_mem h hno ht) hin]
    exact ht

theorem eq_of_freePages_eq {arena' : MemoryArena} (h : Wf P arena) (hno : NoTouch arena)
    (h' : Wf P arena') (hno' : NoTouch arena') (heq : freePages P arena = freePages P arena') :
    arena = arena' := by
  have hperm : arena.segments.Perm arena'.segments := by
    rw [List.perm_ext_iff_of_nodup (h.separated.nodup h.size_pos)
      (h'.separated.nodup h'.size_pos)]
    intro seg
    rw [mem_segments_iff h hno, mem_segments_iff h' hno', heq]
  have hsegs : arena.segments = arena'.segments := by
    refine hperm.eq_of_pairwise ?_ (h.separated.keySorted h.size_pos)
      (h'.separated.keySorted h'.size_pos)
    intro a b _ _ hab hba
    exact absurd (lt_trans hab hba) (lt_irrefl _)
  obtain ⟨segs⟩ := arena
  obtain ⟨segs'⟩ := arena'
  exact congrArg MemoryArena.mk hsegs

/-! ## Allocation -/

theorem NoTouch.alloc (hno : NoTouch arena) (h : Wf P arena) : NoTouch (arena.alloc P).2 := by
  obtain ⟨segs⟩ := arena
  cases segs with
  | nil => exact hno
  | cons seg rest =>
      have hp := h.pages seg List.mem_cons_self
      rcases Nat.eq_or_lt_of_le hp.le_size with heq | hlt
      · rw [alloc_whole heq.symm]
        exact fun s hs t ht => hno s (List.mem_cons_of_mem _ hs) t (List.mem_cons_of_mem _ ht)
      · rw [alloc_split h hlt]
        -- the segment keeps its end, and every other one lies behind it
        have hbehind := (List.pairwise_cons.mp h.separated).1
        intro s hs t ht
        rcases List.mem_cons.mp hs with rfl | hs <;> rcases List.mem_cons.mp ht with rfl | ht
        · show seg.base + P + (seg.size - P) ≠ seg.base + P
          omega
        · have := hno seg List.mem_cons_self t (List.mem_cons_of_mem _ ht)
          show seg.base + P + (seg.size - P) ≠ t.base
          omega
        · have := hbehind s hs
          have := (h.pages s (List.mem_cons_of_mem _ hs)).size_pos
          show s.base + s.size ≠ seg.base + P
          omega
        · exact hno s (List.mem_cons_of_mem _ hs) t (List.mem_cons_of_mem _ ht)

/-! ## Freeing -/

theorem coalesceNext_noTouch {s : MemorySegment} {l : List MemorySegment} (h : Wf P ⟨l⟩)
    (hno : NoTouch ⟨l⟩) (hs : PageSegment P s) :
    (∀ u ∈ (coalesceNext l s.base s.size).2, u ∈ l) ∧
      ∀ u ∈ l, s.base + (coalesceNext l s.base s.size).1 ≠ u.base := by
  unfold coalesceNext
  rw [add64_of_lt hs.lt]
  cases hfind : treeFind Span.base (s.base + s.size) l with
  | none =>
      refine ⟨fun u hu => hu, fun u hu heq => ?_⟩
      exact treeFind_none hfind u hu heq.symm
  | some next =>
      obtain ⟨hnext, hbase⟩ := treeFind_some hfind
      have hbound := (h.pages next hnext).lt
      simp only [hbase, if_true]
      rw [add64_of_lt (by omega)]
      refine ⟨fun u hu => List.mem_of_mem_erase hu, fun u hu heq => ?_⟩
      exact hno next hnext u hu (by omega)

theorem coalescePrev_noTouch {s : MemorySegment} {l : List MemorySegment} (h : Wf P ⟨l⟩)
    (hno : NoTouch ⟨l⟩) (hs : PageSegment P s) :
    (∀ u ∈ (coalescePrev l s.base s.size).2, u ∈ l) ∧
      (coalescePrev l s.base s.size).1.base + (coalescePrev l s.base s.size).1.size =
        s.base + s.size ∧
      ∀ u ∈ l, u.base + u.size ≠ (coalescePrev l s.base s.size).1.base := by
  have hlt := hs.lt
  unfold coalescePrev
  cases hfind : treeUpperBound Span.base s.base l with
  | none =>
      refine ⟨fun u hu => hu, rfl, fun u hu heq => ?_⟩
      have := treeUpperBound_none hfind u hu
      have := h.size_pos u hu
      simp only at heq
      omega
  | some prev =>
      obtain ⟨hprev, hbelow, hlast⟩ :=
        treeUpperBound_some (h.separated.keySorted h.size_pos) hfind
      have hpage := h.pages prev hprev
      simp only [add64_of_lt hpage.lt]
      split
      · rename_i htouch
        rw [add64_of_lt (by omega)]
        refine ⟨fun u hu => List.mem_of_mem_erase hu, by simp only; omega, fun u hu heq => ?_⟩
        exact hno u hu prev hprev heq
      · rename_i htouch
        refine ⟨fun u hu => hu, rfl, fun u hu heq => ?_⟩
        simp only at heq
        -- a segment that ended at `s` would be the last one below it
        have hpos := h.size_pos u hu
        have hle := hlast u hu (by omega)
        by_cases hup : u = prev
        · exact htouch (hup ▸ heq)
        · have := hpage.size_pos
          rcases h.separated.apart hu hprev hup with h1 | h1 <;> omega

theorem NoTouch.free {s : MemorySegment} (hno : NoTouch arena) (h : Wf P arena)
    (hs : PageSegment P s) (hapart : ∀ u ∈ arena.segments, s.Apart u) :
    NoTouch (arena.free s.base s.size) := by
  have hnext := coalesceNext_absorbs h hs hapart
  obtain ⟨hsub, hafter⟩ := coalesceNext_noTouch h hno hs
  have hno' : NoTouch ⟨(coalesceNext arena.segments s.base s.size).2⟩ := fun u hu v hv =>
    hno u (hsub u hu) v (hsub v hv)
  have hprev := coalescePrev_absorbs hnext.wf hnext.page hnext.apart
  obtain ⟨hsub', hend, hbefore⟩ := coalescePrev_noTouch hnext.wf hno' hnext.page
  intro u hu v hv
  have hpos := hprev.page.size_pos
  rcases mem_treeInsert.mp hu with rfl | hu <;> rcases mem_treeInsert.mp hv with rfl | hv
  · exact (Nat.lt_add_of_pos_right hpos).ne'
  · exact fun heq => hafter v (hsub v (hsub' v hv)) (hend.symm.trans heq)
  · exact hbefore u (hsub' u hu)
  · exact hno' u (hsub' u hu) v (hsub' v hv)

/-! ## Histories -/

namespace History

variable {registered : Set ℕ} {s : History}

theorem inv_start (h : Wf P arena) : Inv P (freePages P arena) ⟨arena, ∅⟩ := by
  refine ⟨h, ?_, by simp, by simp⟩
  rintro p ⟨hdvd, t, ht, hin⟩
  have hp := h.pages t ht
  have hend := hp.page_le hdvd hin
  have hlt := hp.lt
  have hpos := hp.base_pos
  have := hin.1
  exact ⟨by simp only; omega, hp.pos, hdvd, dvd_refl P, by simp only; omega⟩

/-- The invariant of a history, with the arena in canonical form. -/
def Canonical (P : ℕ) (registered : Set ℕ) (s : History) : Prop :=
  Inv P registered s ∧ NoTouch s.arena

theorem Canonical.step (h : Canonical P registered s) (op : PageOp) (hok : Ok s op) :
    Canonical P registered (step P s op) := by
  refine ⟨h.1.step op hok, ?_⟩
  cases op with
  | alloc => exact h.2.alloc h.1.wf
  | free p =>
      have hreg : p ∈ registered := by
        rw [← h.1.union]
        exact Or.inr hok
      exact h.2.free h.1.wf (h.1.page p hreg) fun u hu => h.1.outstanding_apart hok hu

theorem Canonical.run (h : Canonical P registered s) {ops : List PageOp}
    (hops : Guarded (History.step P) Ok s ops) :
    Canonical P registered (run (History.step P) s ops) :=
  run_invariant_of_guarded (fun _ op hok h => h.step op hok) hops h

theorem Canonical.frees : ∀ {l : List ℕ} {s : History}, Canonical P registered s → l.Nodup →
    (∀ p ∈ l, p ∈ s.outstanding) →
      Canonical P registered (Manticore.run (History.step P) s (l.map .free)) ∧
        freePages P (Manticore.run (History.step P) s (l.map .free)).arena =
          freePages P s.arena ∪ {p | p ∈ l}
  | [], s, h, _, _ => ⟨h, by simp⟩
  | p :: l, s, h, hnodup, hout => by
      obtain ⟨hp, hl⟩ := List.nodup_cons.mp hnodup
      have hok := hout p List.mem_cons_self
      have hstep := h.step (.free p) hok
      obtain ⟨hcan, hpages⟩ := hstep.frees hl fun q hq =>
        Finset.mem_erase.mpr ⟨fun heq => hp (heq ▸ hq), hout q (List.mem_cons_of_mem _ hq)⟩
      refine ⟨hcan, ?_⟩
      rw [List.map_cons, run_cons, hpages]
      show freePages P (s.arena.free p P) ∪ _ = _
      rw [(h.1.free_outstanding hok).2]
      ext q
      simp only [Set.mem_union, Set.mem_insert_iff, Set.mem_ofPred_eq, List.mem_cons]
      tauto

theorem union_diff_of_kept {α : Type*} {F F' O O' : Set α} (hunion : F ∪ O = F' ∪ O')
    (hd : Disjoint F O) (hd' : Disjoint F' O') (hsub : O ⊆ O') : F' ∪ O' \ O = F := by
  ext p
  constructor
  · rintro (hp | ⟨hp, hnot⟩)
    · exact ((Set.ext_iff.mp hunion p).mpr (Or.inl hp)).resolve_right
        fun hO => Set.disjoint_left.mp hd' hp (hsub hO)
    · exact ((Set.ext_iff.mp hunion p).mpr (Or.inr hp)).resolve_right hnot
  · intro hp
    exact ((Set.ext_iff.mp hunion p).mp (Or.inl hp)).imp id
      fun hO' => ⟨hO', Set.disjoint_left.mp hd hp⟩

theorem Canonical.allocs (h : Canonical P registered s) (n : ℕ) :
    Canonical P registered (Manticore.run (History.step P) s (List.replicate n .alloc)) ∧
      s.outstanding ⊆
        (Manticore.run (History.step P) s (List.replicate n .alloc)).outstanding := by
  induction n generalizing s with
  | zero => exact ⟨h, Finset.Subset.refl _⟩
  | succ n ih =>
      obtain ⟨hcan, hsub⟩ := ih (h.step .alloc trivial)
      refine ⟨hcan, Finset.Subset.trans ?_ hsub⟩
      intro p hp
      simp only [History.step]
      split
      · exact hp
      · exact Finset.mem_insert_of_mem hp

end History

/-- **Arenas are canonical.** After every history the segments are the maximal runs of free
pages; the order of frees does not matter; and freeing what a run of allocations returned
gives the arena back. -/
theorem arena_canonical (P : ℕ) (arena : MemoryArena) (hwf : Wf P arena) (hno : NoTouch arena)
    (ops : List PageOp) (hops : Guarded (History.step P) History.Ok ⟨arena, ∅⟩ ops) :
    let s := run (History.step P) ⟨arena, ∅⟩ ops
    (∀ seg, seg ∈ s.arena.segments ↔ MaximalRun P (freePages P s.arena) seg) ∧
      (∀ l l' : List ℕ, l.Nodup → (∀ p ∈ l, p ∈ s.outstanding) → l.Perm l' →
        (run (History.step P) s (l.map .free)).arena =
          (run (History.step P) s (l'.map .free)).arena) ∧
      ∀ (n : ℕ) (l : List ℕ), l.Nodup →
        (∀ p, p ∈ l ↔ p ∈ (run (History.step P) s (List.replicate n .alloc)).outstanding ∧
          p ∉ s.outstanding) →
        (run (History.step P) (run (History.step P) s (List.replicate n .alloc))
          (l.map .free)).arena = s.arena := by
  intro s
  have h : History.Canonical P (freePages P arena) s :=
    History.Canonical.run ⟨History.inv_start hwf, hno⟩ hops
  refine ⟨fun seg => mem_segments_iff h.1.wf h.2, ?_, ?_⟩
  · intro l l' hnodup hout hperm
    obtain ⟨hcan, hpages⟩ := h.frees hnodup hout
    obtain ⟨hcan', hpages'⟩ := h.frees (hperm.nodup_iff.mp hnodup) fun p hp =>
      hout p (hperm.mem_iff.mpr hp)
    refine eq_of_freePages_eq hcan.1.wf hcan.2 hcan'.1.wf hcan'.2 ?_
    rw [hpages, hpages']
    congr 1
    ext p
    exact hperm.mem_iff
  · intro n l hnodup hl
    obtain ⟨hcan, hsub⟩ := h.allocs n
    obtain ⟨hcan', hpages⟩ := hcan.frees hnodup fun p hp => ((hl p).mp hp).1
    refine eq_of_freePages_eq hcan'.1.wf hcan'.2 h.1.wf h.2 ?_
    have hset : {p | p ∈ l} = (_ : Set ℕ) \ _ := Set.ext hl
    rw [hpages, hset]
    exact History.union_diff_of_kept (h.1.union.trans hcan.1.union.symm) h.1.disjoint
      hcan.1.disjoint (Finset.coe_subset.mpr hsub)

/-- Three pages, allocated and freed. -/
theorem arena_canonical_three_pages :
    (run (History.step 4096) (run (History.step 4096) ⟨⟨[⟨4096, 12288⟩]⟩, ∅⟩
      (List.replicate 3 .alloc)) ([8192, 4096, 12288].map .free)).arena = ⟨[⟨4096, 12288⟩]⟩ := by
  have hwf : Wf 4096 ⟨[⟨4096, 12288⟩]⟩ := by
    refine ⟨List.pairwise_singleton _ _, ?_⟩
    intro seg hseg
    rw [List.mem_singleton.mp hseg]
    exact ⟨by decide, by decide, by decide, by decide, by decide⟩
  have hno : NoTouch ⟨[⟨4096, 12288⟩]⟩ := by
    unfold NoTouch
    decide
  refine (arena_canonical 4096 _ hwf hno [] trivial).2.2 3 _ (by decide) ?_
  intro p
  have hout : (run (History.step 4096) ⟨⟨[⟨4096, 12288⟩]⟩, ∅⟩
      (List.replicate 3 .alloc)).outstanding = {4096, 8192, 12288} := by decide
  show _ ↔ p ∈ (run (History.step 4096) ⟨⟨[⟨4096, 12288⟩]⟩, ∅⟩
      (List.replicate 3 .alloc)).outstanding ∧ p ∉ (∅ : Finset ℕ)
  rw [hout]
  simp
  tauto

end MemoryArena

end Manticore
