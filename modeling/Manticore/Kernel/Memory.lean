import Mathlib
import Manticore.Base.Word
import Manticore.Base.Run
import Manticore.Base.Span

/-!
# The page arenas

`MemoryArena` of `kernel/memory.rs`.  The red-black tree of segments is an ordered
tree keyed by `base`; the segment headers that the allocator keeps inside the free
memory are the elements of that tree.

The abstract view of an arena is the set of its free pages.  `alloc` takes the least
one, `free` adds one back; coalescing is invisible.
-/

namespace Manticore

def pageSizeSmall : ℕ := 4 * 2 ^ 10

def pageSizeLarge : ℕ := 2 * 2 ^ 20

/-- A contiguous span of free memory. -/
abbrev MemorySegment : Type := Span

/-- Splits `size` bytes from the beginning of the segment. -/
def MemorySegment.split (seg : MemorySegment) (size : ℕ) : MemorySegment :=
  ⟨add64 seg.base size, sub64 seg.size size⟩

/-- Memory segments, ordered by base address. -/
structure MemoryArena where
  segments : List MemorySegment
deriving DecidableEq, Repr

namespace MemoryArena

def new : MemoryArena := ⟨[]⟩

/-- `alloc`; `0` is the null pointer. -/
def alloc (arena : MemoryArena) (size : ℕ) : ℕ × MemoryArena :=
  match arena.segments with
  | [] => (0, arena)
  | seg :: rest =>
      if seg.size < size then (0, arena)
      else if size < seg.size then (seg.base, ⟨MemorySegment.split seg size :: rest⟩)
      else (seg.base, ⟨rest⟩)

def addToFreelist (arena : MemoryArena) (seg : MemorySegment) : MemoryArena :=
  ⟨treeInsert Span.base seg arena.segments⟩

/-- First half of `free`: coalesce `[addr, addr + size)` with the next segment.
Returns the new size and the remaining segments. -/
def coalesceNext (segments : List MemorySegment) (addr size : ℕ) :
    ℕ × List MemorySegment :=
  match treeFind Span.base (add64 addr size) segments with
  | some next =>
      if add64 addr size = next.base then (add64 size next.size, segments.erase next)
      else (size, segments)
  | none => (size, segments)

/-- Second half of `free`: coalesce with the previous segment.  Returns the new
segment and the remaining ones. -/
def coalescePrev (segments : List MemorySegment) (addr size : ℕ) :
    MemorySegment × List MemorySegment :=
  match treeUpperBound Span.base addr segments with
  | some prev =>
      if add64 prev.base prev.size = addr then
        (⟨prev.base, add64 size prev.size⟩, segments.erase prev)
      else (⟨addr, size⟩, segments)
  | none => (⟨addr, size⟩, segments)

def free (arena : MemoryArena) (addr size : ℕ) : MemoryArena :=
  let (size, segments) := coalesceNext arena.segments addr size
  let (seg, segments) := coalescePrev segments addr size
  addToFreelist ⟨segments⟩ seg

/-! ## The abstract view: a set of pages -/

/-- The free pages of size `P`. -/
def freePages (P : ℕ) (arena : MemoryArena) : Set ℕ :=
  {p | P ∣ p ∧ Span.Covered arena.segments p}

/-- A segment of whole pages, clear of address `0` and of the end of memory. -/
structure PageSegment (P : ℕ) (seg : MemorySegment) : Prop where
  base_pos : 0 < seg.base
  size_pos : 0 < seg.size
  dvd_base : P ∣ seg.base
  dvd_size : P ∣ seg.size
  lt : seg.base + seg.size < 2 ^ 64

/-- Segments of whole pages, in order and disjoint. -/
structure Wf (P : ℕ) (arena : MemoryArena) : Prop where
  separated : Span.Separated arena.segments
  pages : ∀ seg ∈ arena.segments, PageSegment P seg

variable {P : ℕ} {arena : MemoryArena} {seg : MemorySegment} {p x : ℕ}

theorem PageSegment.pos (h : PageSegment P seg) : 0 < P :=
  Nat.pos_of_dvd_of_pos h.dvd_size h.size_pos

theorem PageSegment.le_size (h : PageSegment P seg) : P ≤ seg.size :=
  Nat.le_of_dvd h.size_pos h.dvd_size

theorem PageSegment.page_le (h : PageSegment P seg) (hp : P ∣ p)
    (hx : seg.Contains p) : p + P ≤ seg.base + seg.size := by
  have hdvd : P ∣ seg.base + seg.size - p :=
    Nat.dvd_sub (Nat.dvd_add h.dvd_base h.dvd_size) hp
  have hlt := hx.2
  have := Nat.le_of_dvd (by omega) hdvd
  omega

theorem Wf.size_pos (h : Wf P arena) : ∀ seg ∈ arena.segments, 0 < seg.size :=
  fun seg hseg => (h.pages seg hseg).size_pos

theorem wf_new : Wf P new := ⟨List.Pairwise.nil, by simp [new]⟩

theorem Wf.addToFreelist (h : Wf P arena) (hseg : PageSegment P seg)
    (hapart : ∀ t ∈ arena.segments, seg.Apart t) : Wf P (arena.addToFreelist seg) := by
  refine ⟨h.separated.insert hseg.size_pos hapart, ?_⟩
  intro t ht
  rcases mem_treeInsert.mp ht with rfl | ht
  · exact hseg
  · exact h.pages t ht

theorem freePages_addToFreelist :
    freePages P (arena.addToFreelist seg) =
      {p | P ∣ p ∧ seg.Contains p} ∪ freePages P arena := by
  ext p
  simp only [freePages, addToFreelist, Span.covered_treeInsert, Set.mem_ofPred_eq,
    Set.mem_union]
  tauto

/-! ## Allocation takes the least free page -/

theorem mem_freePages_base (h : Wf P arena) (hseg : seg ∈ arena.segments) :
    seg.base ∈ freePages P arena := by
  have hp := h.pages seg hseg
  exact ⟨hp.dvd_base, seg, hseg, le_rfl, by have := hp.size_pos; omega⟩

theorem isLeast_freePages {rest : List MemorySegment} (h : Wf P ⟨seg :: rest⟩) :
    IsLeast (freePages P ⟨seg :: rest⟩) seg.base := by
  refine ⟨mem_freePages_base h List.mem_cons_self, ?_⟩
  rintro p ⟨-, t, ht, hle, -⟩
  rcases List.mem_cons.mp ht with rfl | ht
  · exact hle
  · have := (List.pairwise_cons.mp h.separated).1 t ht
    omega

theorem not_covered_rest {rest : List MemorySegment} (h : Wf P ⟨seg :: rest⟩) :
    ¬ Span.Covered rest seg.base := by
  rintro ⟨t, ht, hle, -⟩
  have hsep := (List.pairwise_cons.mp h.separated).1 t ht
  have hpos := h.size_pos seg List.mem_cons_self
  omega

theorem add_le_of_dvd_of_lt (hx : P ∣ x) (hp : P ∣ p) (hlt : x < p) : x + P ≤ p := by
  have := Nat.le_of_dvd (by omega) (Nat.dvd_sub hp hx)
  omega

theorem alloc_split {rest : List MemorySegment} (h : Wf P ⟨seg :: rest⟩)
    (hlt : P < seg.size) :
    alloc ⟨seg :: rest⟩ P = (seg.base, ⟨⟨seg.base + P, seg.size - P⟩ :: rest⟩) := by
  have hp := h.pages seg List.mem_cons_self
  have hbound := hp.lt
  have hsplit : MemorySegment.split seg P = ⟨seg.base + P, seg.size - P⟩ := by
    unfold MemorySegment.split
    rw [add64_of_lt (by omega), sub64_of_le (by omega) (by omega)]
  simp [alloc, hsplit, hlt, Nat.le_of_lt hlt]

theorem alloc_whole {rest : List MemorySegment} (heq : seg.size = P) :
    alloc ⟨seg :: rest⟩ P = (seg.base, ⟨rest⟩) := by
  simp [alloc, heq]

theorem Wf.alloc (h : Wf P arena) : Wf P (arena.alloc P).2 := by
  obtain ⟨segs⟩ := arena
  cases segs with
  | nil => exact h
  | cons seg rest =>
      obtain ⟨hsep, hrest⟩ := List.pairwise_cons.mp h.separated
      have hpages : ∀ t ∈ rest, PageSegment P t := fun t ht =>
        h.pages t (List.mem_cons_of_mem _ ht)
      have hp := h.pages seg List.mem_cons_self
      rcases Nat.eq_or_lt_of_le hp.le_size with heq | hlt
      · rw [alloc_whole heq.symm]
        exact ⟨hrest, hpages⟩
      · rw [alloc_split h hlt]
        refine ⟨List.pairwise_cons.mpr ⟨?_, hrest⟩, ?_⟩
        · intro t ht
          have := hsep t ht
          simp only
          omega
        · intro t ht
          rcases List.mem_cons.mp ht with rfl | ht
          · have hbound := hp.lt
            have hpos := hp.base_pos
            exact ⟨by simp only; omega, by simp only; omega,
              Nat.dvd_add hp.dvd_base dvd_rfl, Nat.dvd_sub hp.dvd_size dvd_rfl,
              by simp only; omega⟩
          · exact hpages t ht

/-- **Allocation.** It fails exactly on the empty arena, and otherwise takes the least
free page and nothing else. -/
theorem alloc_spec (h : Wf P arena) :
    ((arena.alloc P).1 = 0 ∧ freePages P arena = ∅ ∧ (arena.alloc P).2 = arena) ∨
      ((arena.alloc P).1 ≠ 0 ∧ IsLeast (freePages P arena) (arena.alloc P).1 ∧
        freePages P (arena.alloc P).2 = freePages P arena \ {(arena.alloc P).1}) := by
  obtain ⟨segs⟩ := arena
  cases segs with
  | nil =>
      left
      refine ⟨rfl, ?_, rfl⟩
      ext p
      simp [freePages]
  | cons seg rest =>
      right
      have hp := h.pages seg List.mem_cons_self
      have hleast := isLeast_freePages h
      have hnot := not_covered_rest h
      have hpos := hp.base_pos
      rcases Nat.eq_or_lt_of_le hp.le_size with heq | hlt
      · rw [alloc_whole heq.symm]
        refine ⟨by simp only; omega, hleast, ?_⟩
        ext p
        simp only [freePages, Span.covered_cons, Span.Contains, Set.mem_ofPred_eq,
          Set.mem_sdiff, Set.mem_singleton_iff]
        constructor
        · rintro ⟨hdvd, hcov⟩
          exact ⟨⟨hdvd, Or.inr hcov⟩, fun hpb => hnot (hpb ▸ hcov)⟩
        · rintro ⟨⟨hdvd, hin | hcov⟩, hne⟩
          · -- the only page of a one-page segment is its base
            have := add_le_of_dvd_of_lt hp.dvd_base hdvd (by omega)
            omega
          · exact ⟨hdvd, hcov⟩
      · rw [alloc_split h hlt]
        refine ⟨by simp only; omega, hleast, ?_⟩
        ext p
        simp only [freePages, Span.covered_cons, Span.Contains, Set.mem_ofPred_eq,
          Set.mem_sdiff, Set.mem_singleton_iff]
        constructor
        · rintro ⟨hdvd, hin | hcov⟩
          · have hP := hp.pos
            exact ⟨⟨hdvd, Or.inl (by omega)⟩, by omega⟩
          · exact ⟨⟨hdvd, Or.inr hcov⟩, fun hpb => hnot (hpb ▸ hcov)⟩
        · rintro ⟨⟨hdvd, hin | hcov⟩, hne⟩
          · have := add_le_of_dvd_of_lt hp.dvd_base hdvd (by omega)
            exact ⟨hdvd, Or.inl (by omega)⟩
          · exact ⟨hdvd, Or.inr hcov⟩

/-! ## Freeing coalesces, and adds exactly the freed span -/

/-- `t` with the segments `l'` stands for the same memory as `s` with `l`, and is
ready to be inserted. -/
structure Absorbs (P : ℕ) (s : MemorySegment) (l : List MemorySegment)
    (t : MemorySegment) (l' : List MemorySegment) : Prop where
  wf : Wf P ⟨l'⟩
  page : PageSegment P t
  apart : ∀ u ∈ l', t.Apart u
  covers : ∀ x, t.Contains x ∨ Span.Covered l' x ↔ s.Contains x ∨ Span.Covered l x

theorem Absorbs.refl {s : MemorySegment} {l : List MemorySegment} (h : Wf P ⟨l⟩)
    (hs : PageSegment P s) (hapart : ∀ u ∈ l, s.Apart u) : Absorbs P s l s l :=
  ⟨h, hs, hapart, fun _ => Iff.rfl⟩

theorem PageSegment.join {s t : MemorySegment} (hs : PageSegment P s)
    (ht : PageSegment P t) (hst : s.base + s.size = t.base) : PageSegment P (s.join t) :=
  ⟨hs.base_pos, Nat.add_pos_left hs.size_pos _, hs.dvd_base,
    Nat.dvd_add hs.dvd_size ht.dvd_size, by
      have := ht.lt
      simp only [Span.join]
      omega⟩

theorem absorbs_join {s t u : MemorySegment} {l : List MemorySegment} (h : Wf P ⟨l⟩)
    (hapart : ∀ v ∈ l, s.Apart v) (hu : u ∈ l) (ht : PageSegment P t)
    (hcontains : ∀ x, t.Contains x ↔ s.Contains x ∨ u.Contains x)
    (hjoin : ∀ v : Span, 0 < v.size → s.Apart v → u.Apart v → t.Apart v) :
    Absorbs P s l t (l.erase u) := by
  have hmem := fun v => Span.mem_erase (s := u) (t := v) h.separated h.size_pos
  refine ⟨⟨h.separated.erase u, fun v hv => h.pages v (List.mem_of_mem_erase hv)⟩,
    ht, ?_, ?_⟩
  · intro v hv
    obtain ⟨hne, hvl⟩ := (hmem v).mp hv
    exact hjoin v (h.size_pos v hvl) (hapart v hvl)
      (h.separated.apart hu hvl (Ne.symm hne))
  · intro x
    rw [hcontains, Span.covered_erase (l := l) h.separated h.size_pos hu]
    tauto

theorem coalesceNext_absorbs {s : MemorySegment} {l : List MemorySegment} (h : Wf P ⟨l⟩)
    (hs : PageSegment P s) (hapart : ∀ u ∈ l, s.Apart u) :
    Absorbs P s l ⟨s.base, (coalesceNext l s.base s.size).1⟩
      (coalesceNext l s.base s.size).2 := by
  have hlt := hs.lt
  unfold coalesceNext
  rw [add64_of_lt hlt]
  cases hfind : treeFind Span.base (s.base + s.size) l with
  | none => exact Absorbs.refl h hs hapart
  | some next =>
      obtain ⟨hnext, hbase⟩ := treeFind_some hfind
      have hpage := h.pages next hnext
      have hbound := hpage.lt
      simp only [hbase, if_true]
      rw [add64_of_lt (by omega)]
      exact absorbs_join h hapart hnext (hs.join hpage hbase.symm)
        (fun x => Span.contains_join hbase.symm)
        (fun v hv h1 h2 => Span.join_apart hbase.symm hv h1 h2)

theorem coalescePrev_absorbs {s : MemorySegment} {l : List MemorySegment} (h : Wf P ⟨l⟩)
    (hs : PageSegment P s) (hapart : ∀ u ∈ l, s.Apart u) :
    Absorbs P s l (coalescePrev l s.base s.size).1 (coalescePrev l s.base s.size).2 := by
  have hlt := hs.lt
  unfold coalescePrev
  cases hfind : treeUpperBound Span.base s.base l with
  | none => exact Absorbs.refl h hs hapart
  | some prev =>
      obtain ⟨hprev, hbelow, -⟩ :=
        treeUpperBound_some (h.separated.keySorted h.size_pos) hfind
      have hpage := h.pages prev hprev
      simp only [add64_of_lt hpage.lt]
      split
      · rename_i htouch
        rw [add64_of_lt (by omega), Nat.add_comm]
        refine absorbs_join h hapart hprev (hpage.join hs htouch) ?_ ?_
        · intro x
          rw [or_comm]
          exact Span.contains_join htouch
        · intro v hv h1 h2
          exact Span.join_apart htouch hv h2 h1
      · exact Absorbs.refl h hs hapart

/-- **Freeing.** A span apart from the free memory is added to it, whichever of its
neighbours it is joined with. -/
theorem free_spec {s : MemorySegment} (h : Wf P arena) (hs : PageSegment P s)
    (hapart : ∀ u ∈ arena.segments, s.Apart u) :
    Wf P (arena.free s.base s.size) ∧
      freePages P (arena.free s.base s.size) =
        {p | P ∣ p ∧ s.Contains p} ∪ freePages P arena := by
  have hnext := coalesceNext_absorbs h hs hapart
  have hprev := coalescePrev_absorbs hnext.wf hnext.page hnext.apart
  refine ⟨hprev.wf.addToFreelist hprev.page hprev.apart, ?_⟩
  unfold free
  rw [freePages_addToFreelist]
  ext p
  have hcovers := (hprev.covers p).trans (hnext.covers p)
  simp only [freePages, Set.mem_union, Set.mem_ofPred_eq, ← and_or_left]
  exact and_congr_right fun _ => hcovers

/-! ## Histories of page allocations

The state of a history is the arena and the pages handed out and not yet returned. -/

inductive PageOp where
  | alloc
  | free (p : ℕ)

structure History where
  arena : MemoryArena
  outstanding : Finset ℕ

namespace History

/-- The arena to which the spans were added one after another. -/
def init (spans : List MemorySegment) : History :=
  ⟨spans.foldl addToFreelist new, ∅⟩

def step (P : ℕ) (s : History) : PageOp → History
  | .alloc =>
      let (p, arena) := s.arena.alloc P
      ⟨arena, if p = 0 then s.outstanding else insert p s.outstanding⟩
  | .free p => ⟨s.arena.free p P, s.outstanding.erase p⟩

/-- Only outstanding pages are freed. -/
def Ok (s : History) : PageOp → Prop
  | .alloc => True
  | .free p => p ∈ s.outstanding

/-- Free and outstanding pages are the registered pages, each exactly once. -/
structure Inv (P : ℕ) (registered : Set ℕ) (s : History) : Prop where
  wf : Wf P s.arena
  page : ∀ p ∈ registered, PageSegment P ⟨p, P⟩
  union : freePages P s.arena ∪ s.outstanding = registered
  disjoint : Disjoint (freePages P s.arena) s.outstanding

variable {registered : Set ℕ} {s : History}

theorem page_apart (hseg : PageSegment P seg) (hp : P ∣ p) (hnot : ¬ seg.Contains p) :
    Span.Apart ⟨p, P⟩ seg := by
  rcases Nat.lt_or_ge p seg.base with hlt | hge
  · exact Or.inl (add_le_of_dvd_of_lt hp hseg.dvd_base hlt)
  · right
    by_contra hlt
    exact hnot ⟨hge, by simpa using hlt⟩

theorem Inv.outstanding_apart (h : Inv P registered s) (hp : p ∈ s.outstanding)
    (hseg : seg ∈ s.arena.segments) : Span.Apart ⟨p, P⟩ seg := by
  have hreg : p ∈ registered := by
    rw [← h.union]
    exact Or.inr hp
  have hdvd : P ∣ p := (h.page p hreg).dvd_base
  refine page_apart (h.wf.pages seg hseg) hdvd ?_
  intro hin
  exact Set.disjoint_left.mp h.disjoint ⟨hdvd, seg, hseg, hin⟩ hp

theorem pages_of_one (hP : P ∣ p) (hpos : 0 < P) :
    {q | P ∣ q ∧ Span.Contains ⟨p, P⟩ q} = {p} := by
  ext q
  simp only [Set.mem_ofPred_eq, Set.mem_singleton_iff, Span.Contains]
  constructor
  · rintro ⟨hdvd, hle, hlt⟩
    by_contra hne
    have := add_le_of_dvd_of_lt hP hdvd (by omega)
    omega
  · rintro rfl
    exact ⟨hP, le_rfl, by omega⟩

theorem Inv.free_outstanding (h : Inv P registered s) (hp : p ∈ s.outstanding) :
    Wf P (s.arena.free p P) ∧
      freePages P (s.arena.free p P) = insert p (freePages P s.arena) := by
  have hreg : p ∈ registered := by
    rw [← h.union]
    exact Or.inr hp
  have hpage := h.page p hreg
  obtain ⟨hwf, hfree⟩ := free_spec h.wf hpage fun u hu => h.outstanding_apart hp hu
  refine ⟨hwf, ?_⟩
  rw [hfree, pages_of_one hpage.dvd_base hpage.pos]
  rfl

theorem Inv.step (h : Inv P registered s) (op : PageOp) (hok : Ok s op) :
    Inv P registered (step P s op) := by
  cases op with
  | alloc =>
      have hwf := h.wf.alloc
      rcases alloc_spec h.wf with ⟨hzero, -, hsame⟩ | ⟨hne, hleast, hminus⟩
      · simp only [History.step, hzero, hsame, if_true]
        exact ⟨h.wf, h.page, h.union, h.disjoint⟩
      · simp only [History.step, if_neg hne]
        refine ⟨hwf, h.page, ?_, ?_⟩
        · rw [hminus, Finset.coe_insert, ← h.union]
          ext q
          simp only [Set.mem_union, Set.mem_sdiff, Set.mem_singleton_iff,
            Set.mem_insert_iff]
          constructor
          · rintro (hq | rfl | hq)
            · exact Or.inl hq.1
            · exact Or.inl hleast.1
            · exact Or.inr hq
          · rintro (hq | hq)
            · by_cases heq : q = (s.arena.alloc P).1
              · exact Or.inr (Or.inl heq)
              · exact Or.inl ⟨hq, heq⟩
            · exact Or.inr (Or.inr hq)
        · rw [hminus, Finset.coe_insert, Set.disjoint_left]
          rintro q ⟨hq, hneq⟩ hq'
          rcases hq' with rfl | hq'
          · exact hneq rfl
          · exact Set.disjoint_left.mp h.disjoint hq hq'
  | free p =>
      obtain ⟨hwf, hfree⟩ := h.free_outstanding hok
      refine ⟨hwf, h.page, ?_, ?_⟩
      · simp only [History.step, hfree, Finset.coe_erase]
        rw [← h.union]
        ext q
        simp only [Set.mem_union, Set.mem_insert_iff, Set.mem_sdiff,
          Set.mem_singleton_iff]
        constructor
        · rintro ((rfl | hq) | hq)
          · exact Or.inr hok
          · exact Or.inl hq
          · exact Or.inr hq.1
        · rintro (hq | hq)
          · exact Or.inl (Or.inr hq)
          · by_cases heq : q = p
            · exact Or.inl (Or.inl heq)
            · exact Or.inr ⟨hq, heq⟩
      · simp only [History.step, hfree, Finset.coe_erase]
        rw [Set.disjoint_left]
        rintro q (rfl | hq) ⟨hq', hne⟩
        · exact hne rfl
        · exact Set.disjoint_left.mp h.disjoint hq hq'

theorem foldl_addToFreelist : ∀ {spans : List MemorySegment} {arena : MemoryArena},
    Wf P arena → (∀ seg ∈ spans, PageSegment P seg) → spans.Pairwise Span.Apart →
    (∀ seg ∈ spans, ∀ t ∈ arena.segments, seg.Apart t) →
    Wf P (spans.foldl addToFreelist arena) ∧
      ∀ x, Span.Covered (spans.foldl addToFreelist arena).segments x ↔
        Span.Covered spans x ∨ Span.Covered arena.segments x
  | [], _, h, _, _, _ => ⟨h, by simp⟩
  | seg :: rest, arena, h, hpages, hdisj, hapart => by
      obtain ⟨hhead, htail⟩ := List.pairwise_cons.mp hdisj
      have hwf := h.addToFreelist (hpages seg List.mem_cons_self)
        (hapart seg List.mem_cons_self)
      have hapart' : ∀ u ∈ rest, ∀ t ∈ (arena.addToFreelist seg).segments, u.Apart t := by
        intro u hu t ht
        rcases mem_treeInsert.mp ht with rfl | ht
        · exact (hhead u hu).symm
        · exact hapart u (List.mem_cons_of_mem _ hu) t ht
      obtain ⟨hwf', hcov⟩ := foldl_addToFreelist hwf
        (fun u hu => hpages u (List.mem_cons_of_mem _ hu)) htail hapart'
      refine ⟨hwf', ?_⟩
      intro x
      rw [List.foldl_cons, hcov, addToFreelist, Span.covered_treeInsert, Span.covered_cons]
      tauto

theorem inv_init {spans : List MemorySegment} (hpages : ∀ seg ∈ spans, PageSegment P seg)
    (hdisj : spans.Pairwise Span.Apart) :
    Inv P {p | P ∣ p ∧ Span.Covered spans p} (init spans) := by
  obtain ⟨hwf, hcov⟩ := foldl_addToFreelist wf_new hpages hdisj (by simp [new])
  refine ⟨hwf, ?_, ?_, by simp [init]⟩
  · rintro p ⟨hdvd, seg, hseg, hin⟩
    have hs := hpages seg hseg
    have hle := hs.page_le hdvd hin
    have hlt := hs.lt
    have hbase := hs.base_pos
    have hin1 := hin.1
    exact ⟨by simp only; omega, hs.pos, hdvd, dvd_rfl, by simp only; omega⟩
  · ext p
    simp only [init, freePages, hcov, Finset.coe_empty, Set.union_empty]
    simp [new]

theorem inv_run {spans : List MemorySegment} (hpages : ∀ seg ∈ spans, PageSegment P seg)
    (hdisj : spans.Pairwise Span.Apart) {ops : List PageOp}
    (hops : Guarded (step P) Ok (init spans) ops) :
    Inv P {p | P ∣ p ∧ Span.Covered spans p} (run (step P) (init spans) ops) :=
  run_invariant_of_guarded (fun _ op hok h => h.step op hok) hops (inv_init hpages hdisj)

end History

/-- **An arena is a finite set of free pages.** After every history of page
allocations, and of frees of outstanding pages, over an arena made of disjoint spans
of whole pages. -/
theorem arena_refines_page_set (P : ℕ) (spans : List MemorySegment)
    (hpages : ∀ seg ∈ spans, PageSegment P seg) (hdisj : spans.Pairwise Span.Apart)
    (ops : List PageOp) (hops : Guarded (History.step P) History.Ok (History.init spans) ops) :
    let s := run (History.step P) (History.init spans) ops
    (s.arena.segments.Pairwise fun a b => a.base < b.base ∧ a.base + a.size ≤ b.base) ∧
      (∀ seg ∈ s.arena.segments, 0 < seg.size ∧ P ∣ seg.size ∧
        ∀ p ∈ s.outstanding, Span.Apart ⟨p, P⟩ seg) ∧
      ((s.arena.alloc P).1 = 0 ↔ freePages P s.arena = ∅) ∧
      ((s.arena.alloc P).1 ≠ 0 → IsLeast (freePages P s.arena) (s.arena.alloc P).1 ∧
        freePages P (s.arena.alloc P).2 = freePages P s.arena \ {(s.arena.alloc P).1}) ∧
      (∀ p ∈ s.outstanding,
        freePages P (s.arena.free p P) = insert p (freePages P s.arena)) ∧
      freePages P s.arena ∪ s.outstanding = {p | P ∣ p ∧ Span.Covered spans p} ∧
      Disjoint (freePages P s.arena) s.outstanding := by
  intro s
  have h := History.inv_run hpages hdisj hops
  refine ⟨?_, ?_, ?_, ?_, fun p hp => (h.free_outstanding hp).2, h.union, h.disjoint⟩
  · exact List.Pairwise.and (h.wf.separated.keySorted h.wf.size_pos) h.wf.separated
  · intro seg hseg
    have hp := h.wf.pages seg hseg
    exact ⟨hp.size_pos, hp.dvd_size, fun p hp => h.outstanding_apart hp hseg⟩
  · rcases alloc_spec h.wf with ⟨hzero, hempty, -⟩ | ⟨hne, hleast, -⟩
    · exact ⟨fun _ => hempty, fun _ => hzero⟩
    · refine ⟨fun hzero => absurd hzero hne, fun hempty => ?_⟩
      have := hleast.1
      rw [hempty] at this
      exact this.elim
  · intro hne
    rcases alloc_spec h.wf with ⟨hzero, -, -⟩ | ⟨-, hleast, hminus⟩
    · exact absurd hzero hne
    · exact ⟨hleast, hminus⟩

/-- Three pages in two touching spans; the middle one is freed last. -/
theorem arena_refines_page_set_three_pages :
    let s := run (History.step 4096) (History.init [⟨8192, 8192⟩, ⟨4096, 4096⟩])
      [.alloc, .alloc, .alloc, .free 4096, .free 12288, .free 8192]
    s.arena.segments = [⟨4096, 12288⟩] ∧
      ((s.arena.alloc 4096).1 = 0 ↔ freePages 4096 s.arena = ∅) := by
  have hpages : ∀ seg ∈ ([⟨8192, 8192⟩, ⟨4096, 4096⟩] : List MemorySegment),
      PageSegment 4096 seg := by
    intro seg hseg
    rcases List.mem_cons.mp hseg with rfl | hseg
    · exact ⟨by decide, by decide, by decide, by decide, by decide⟩
    · rw [List.mem_singleton.mp hseg]
      exact ⟨by decide, by decide, by decide, by decide, by decide⟩
  refine ⟨by decide, (arena_refines_page_set 4096 _ hpages ?_ _ ?_).2.2.1⟩
  · simp [Span.Apart]
  · simp only [Guarded, History.Ok]
    decide

end MemoryArena

/-! ## Registering memory -/

/-- The kernel small and large page arenas. -/
structure PageArenas where
  small : MemoryArena
  large : MemoryArena
deriving DecidableEq, Repr

namespace PageArenas

def new : PageArenas := ⟨MemoryArena.new, MemoryArena.new⟩

def memoryAddSpanSmall (k : PageArenas) (start stop : ℕ) : PageArenas :=
  { k with small := k.small.addToFreelist ⟨start, sub64 stop start⟩ }

def memoryAddSpanLarge (k : PageArenas) (start stop : ℕ) : PageArenas :=
  { k with large := k.large.addToFreelist ⟨start, sub64 stop start⟩ }

/-- Register a memory span to the kernel arenas. -/
def memoryAddSpan (k : PageArenas) (start size : ℕ) : PageArenas :=
  let stop := add64 start size
  let largeStart := alignUp start pageSizeLarge
  let largeStop := alignDown stop pageSizeLarge
  let k := if start ≠ largeStart then k.memoryAddSpanSmall start largeStart else k
  let k := if largeStart ≠ largeStop then k.memoryAddSpanLarge largeStart largeStop else k
  if stop ≠ largeStop then k.memoryAddSpanSmall largeStop stop else k

def pageAllocSmall (k : PageArenas) : ℕ × PageArenas :=
  let (p, small) := k.small.alloc pageSizeSmall
  (p, { k with small := small })

def pageFreeSmall (k : PageArenas) (addr : ℕ) : PageArenas :=
  { k with small := k.small.free addr pageSizeSmall }

def pageAllocLarge (k : PageArenas) : ℕ × PageArenas :=
  let (p, large) := k.large.alloc pageSizeLarge
  (p, { k with large := large })

def pageFreeLarge (k : PageArenas) (addr : ℕ) : PageArenas :=
  { k with large := k.large.free addr pageSizeLarge }

/-- The segments `memory_add_span` hands to the small arena, the last one first. -/
def addedSmall (start size : ℕ) : List MemorySegment :=
  let stop := add64 start size
  let largeStart := alignUp start pageSizeLarge
  let largeStop := alignDown stop pageSizeLarge
  (if stop ≠ largeStop then [⟨largeStop, sub64 stop largeStop⟩] else []) ++
    if start ≠ largeStart then [⟨start, sub64 largeStart start⟩] else []

/-- The segment `memory_add_span` hands to the large arena, if any. -/
def addedLarge (start size : ℕ) : List MemorySegment :=
  let largeStart := alignUp start pageSizeLarge
  let largeStop := alignDown (add64 start size) pageSizeLarge
  if largeStart ≠ largeStop then [⟨largeStart, sub64 largeStop largeStart⟩] else []

/-- **Exact registration.** Going from `k` to `k'` adds nonempty, pairwise
disjoint segments that together are exactly `[start, start + size)`, those of
the large arena being made of large pages. -/
def RegistersExactly (start size : ℕ) (k k' : PageArenas) : Prop :=
  ∃ small large : List MemorySegment,
    k'.small.segments.Perm (small ++ k.small.segments) ∧
    k'.large.segments.Perm (large ++ k.large.segments) ∧
    (∀ seg ∈ small ++ large, 0 < seg.size) ∧
    (small ++ large).Pairwise Span.Apart ∧
    (∀ x, Span.Covered (small ++ large) x ↔ start ≤ x ∧ x < start + size) ∧
    ∀ seg ∈ large, pageSizeLarge ∣ seg.base ∧ pageSizeLarge ∣ seg.size

theorem memoryAddSpan_small_perm (k : PageArenas) (start size : ℕ) :
    (k.memoryAddSpan start size).small.segments.Perm
      (addedSmall start size ++ k.small.segments) := by
  simp only [memoryAddSpan, addedSmall]
  -- Two segments, one, or none; the large arena plays no part.
  split_ifs <;> first
    | exact (treeInsert_perm _ _ _).trans ((treeInsert_perm _ _ _).cons _)
    | exact treeInsert_perm _ _ _
    | exact List.Perm.refl _

theorem memoryAddSpan_large_perm (k : PageArenas) (start size : ℕ) :
    (k.memoryAddSpan start size).large.segments.Perm
      (addedLarge start size ++ k.large.segments) := by
  simp only [memoryAddSpan, addedLarge]
  split_ifs <;> first | exact treeInsert_perm _ _ _ | exact List.Perm.refl _

theorem alignUp_large {start : ℕ} (h : start + pageSizeLarge - 1 < 2 ^ 64) :
    pageSizeLarge ∣ alignUp start pageSizeLarge ∧ start ≤ alignUp start pageSizeLarge ∧
      alignUp start pageSizeLarge < start + pageSizeLarge := by
  have heq : alignUp start pageSizeLarge =
      (start + pageSizeLarge - 1) / pageSizeLarge * pageSizeLarge :=
    alignUp_two_pow (k := 21) (by norm_num) h
  rw [heq]
  refine ⟨Dvd.intro_left _ rfl, ?_⟩
  simp only [pageSizeLarge] at *
  omega

theorem alignDown_large {stop : ℕ} (h : stop < 2 ^ 64) :
    pageSizeLarge ∣ alignDown stop pageSizeLarge ∧ alignDown stop pageSizeLarge ≤ stop ∧
      stop < alignDown stop pageSizeLarge + pageSizeLarge := by
  have heq : alignDown stop pageSizeLarge = stop / pageSizeLarge * pageSizeLarge :=
    alignDown_two_pow (k := 21) (by norm_num) h
  rw [heq]
  refine ⟨Dvd.intro_left _ rfl, ?_⟩
  simp only [pageSizeLarge] at *
  omega

theorem alignUp_large_wrap {start : ℕ} (hlt : start < 2 ^ 64)
    (h : 2 ^ 64 ≤ start + pageSizeLarge - 1) : alignUp start pageSizeLarge = 0 := by
  have hinner : sub64 (add64 start pageSizeLarge) 1 = start + pageSizeLarge - 1 - 2 ^ 64 := by
    simp only [sub64, add64, pageSizeLarge] at *
    omega
  have hsmall : start + pageSizeLarge - 1 - 2 ^ 64 < 2 ^ 64 := by
    simp only [pageSizeLarge] at *
    omega
  have heq : alignDown (start + pageSizeLarge - 1 - 2 ^ 64) pageSizeLarge =
      (start + pageSizeLarge - 1 - 2 ^ 64) / pageSizeLarge * pageSizeLarge :=
    alignDown_two_pow (k := 21) (by norm_num) hsmall
  rw [alignUp, hinner, heq, Nat.div_eq_of_lt (by simp only [pageSizeLarge] at *; omega),
    Nat.zero_mul]

theorem rounded_within {start size m : ℕ} (hlt : start + size < 2 ^ 64)
    (hm : pageSizeLarge ∣ m) (hlo : start ≤ m) (hhi : m ≤ start + size) :
    start + pageSizeLarge - 1 < 2 ^ 64 ∧
      alignUp start pageSizeLarge ≤ alignDown (add64 start size) pageSizeLarge := by
  have hwrap : start + pageSizeLarge - 1 < 2 ^ 64 := by
    obtain ⟨c, rfl⟩ := hm
    simp only [pageSizeLarge] at *
    omega
  obtain ⟨⟨a, ha⟩, -, hup⟩ := alignUp_large hwrap
  obtain ⟨⟨b, hb⟩, -, hdown⟩ := alignDown_large hlt
  obtain ⟨c, rfl⟩ := hm
  rw [add64_of_lt hlt]
  refine ⟨hwrap, ?_⟩
  simp only [pageSizeLarge] at *
  omega

theorem addedSmall_overrun {start size : ℕ} (hlt : start + size < 2 ^ 64)
    (hno : ∀ m, pageSizeLarge ∣ m → start ≤ m → ¬ m ≤ start + size) :
    Span.Covered (addedSmall start size) (start + size) := by
  have hne : start ≠ alignUp start pageSizeLarge ∧
      start + size < start + sub64 (alignUp start pageSizeLarge) start := by
    by_cases hwrap : start + pageSizeLarge - 1 < 2 ^ 64
    · obtain ⟨hdvd, hle, hup⟩ := alignUp_large hwrap
      have hpast := hno _ hdvd hle
      refine ⟨by omega, ?_⟩
      rw [sub64_of_le hle (by omega)]
      omega
    · have hzero := alignUp_large_wrap (by omega) (Nat.le_of_not_lt hwrap)
      have hstart : start ≠ 0 := by
        simp only [pageSizeLarge] at hwrap
        omega
      refine ⟨hzero ▸ hstart, ?_⟩
      rw [hzero]
      simp only [sub64]
      omega
  refine ⟨⟨start, sub64 (alignUp start pageSizeLarge) start⟩, ?_, by simp, hne.2⟩
  simp [addedSmall, hne.1]

/-- **Registration is exact around a large-page boundary, and only there.** The
segments added are exactly the span if and only if some multiple of
`PAGE_SIZE_LARGE` lies in `[start, start + size]`. -/
theorem memoryAddSpan_exact_iff (k : PageArenas) (start size : ℕ)
    (hlt : start + size < 2 ^ 64) :
    RegistersExactly start size k (k.memoryAddSpan start size) ↔
      ∃ m, pageSizeLarge ∣ m ∧ start ≤ m ∧ m ≤ start + size := by
  constructor
  · rintro ⟨small, large, hsmall, -, -, -, hcov, -⟩
    by_contra hno
    push Not at hno
    have hperm : (addedSmall start size).Perm small :=
      (List.perm_append_right_iff _).mp ((memoryAddSpan_small_perm k start size).symm.trans hsmall)
    obtain ⟨seg, hseg, hx⟩ := addedSmall_overrun hlt fun m hm hlo =>
      Nat.not_le_of_lt (hno m hm hlo)
    have hout := (hcov (start + size)).mp
      ⟨seg, List.mem_append_left _ (hperm.mem_iff.mp hseg), hx⟩
    omega
  · rintro ⟨m, hm, hlo, hhi⟩
    obtain ⟨hwrap, hcross⟩ := rounded_within hlt hm hlo hhi
    obtain ⟨hup, hstart, -⟩ := alignUp_large hwrap
    obtain ⟨hdown, hstop, -⟩ := alignDown_large (add64_lt start size)
    refine ⟨addedSmall start size, addedLarge start size, memoryAddSpan_small_perm k start size,
      memoryAddSpan_large_perm k start size, ?_⟩
    simp only [addedSmall, addedLarge]
    rw [sub64_of_le hstop (add64_lt _ _), sub64_of_le hstart (by have := add64_lt start size; omega),
      sub64_of_le hcross (by have := add64_lt start size; omega)]
    rw [add64_of_lt hlt] at *
    generalize alignUp start pageSizeLarge = ls at *
    generalize alignDown (start + size) pageSizeLarge = le at *
    refine ⟨?_, ?_, ?_, ?_⟩
    · split_ifs <;> simp <;> omega
    · split_ifs <;> simp [Span.Apart] <;> omega
    · intro x
      split_ifs <;> simp [Span.Contains] <;> omega
    · split_ifs
      · simp [hup, Nat.dvd_sub hdown hup]
      · simp

/-- A span of one small page on each side of a boundary. -/
theorem memoryAddSpan_exact_around_boundary :
    RegistersExactly 0x1ff000 0x2000 PageArenas.new
      (PageArenas.new.memoryAddSpan 0x1ff000 0x2000) :=
  (memoryAddSpan_exact_iff PageArenas.new 0x1ff000 0x2000 (by norm_num)).mpr
    ⟨pageSizeLarge, dvd_refl _, by norm_num [pageSizeLarge], by norm_num [pageSizeLarge]⟩

/-- The single page at `0x1000` is registered as everything up to 2 MiB. -/
theorem memoryAddSpan_one_page_overrun :
    ¬ (∀ start size, pageSizeSmall ∣ start → pageSizeSmall ∣ size → start + size < 2 ^ 64 →
        RegistersExactly start size PageArenas.new (PageArenas.new.memoryAddSpan start size)) ∧
      (PageArenas.new.memoryAddSpan 0x1000 0x1000).small.segments =
        [⟨0, 0x2000⟩, ⟨0x1000, 0x1ff000⟩] := by
  have hsegs : (PageArenas.new.memoryAddSpan 0x1000 0x1000).small.segments =
      [⟨0, 0x2000⟩, ⟨0x1000, 0x1ff000⟩] := by decide
  refine ⟨?_, hsegs⟩
  intro h
  obtain ⟨small, large, hsmall, -, -, -, hcov, -⟩ :=
    h 0x1000 0x1000 (dvd_refl _) (dvd_refl _) (by norm_num)
  rw [hsegs] at hsmall
  have hmem : (⟨0x1000, 0x1ff000⟩ : MemorySegment) ∈ small := by
    have := hsmall.mem_iff (a := ⟨0x1000, 0x1ff000⟩)
    simpa [PageArenas.new, MemoryArena.new] using this
  have hout := (hcov 0x2000).mp ⟨_, List.mem_append_left _ hmem, by simp [Span.Contains]⟩
  omega

end PageArenas

end Manticore
