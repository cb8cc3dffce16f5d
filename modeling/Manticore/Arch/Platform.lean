import Manticore.Base.Run
import Manticore.Base.Bytes
import Manticore.Base.Memory
import Manticore.Kernel.Memory
import Manticore.Arch.PageTable

/-!
# The boot memory map

`parse_platform_config` walks the tags of the Multiboot2 block.  A module tag sets the bounds of
the initrd; a memory map tag hands every available entry, less the kernel and the initrd, to
`memory_add_span`.

The block lies in the memory that is handed out, and `memory_add_span` stores the headers of its
segments there while the block is read.  `parsePlatformConfig` reads the memory as it is at that
moment; `platformTrace` is what the block says before the first store, and the parser follows it as
long as no header is stored where it still has to look.  Addresses of memory are physical: the boot
page tables map `x` and `KERNEL_VMA + x` to `x`.
-/

namespace Manticore

def modulesTag : ℕ := 3
def memoryMapTag : ℕ := 6
def memoryTypeAvailable : ℕ := 1
def maxMemRegions : ℕ := 8

def sizeofTag : ℕ := 8
def sizeofMemoryMap : ℕ := 8
def sizeofMemoryMapEntry : ℕ := 24

structure MemoryMapEntry where
  baseAddr : ℕ
  length : ℕ
  type : ℕ
deriving DecidableEq, Repr

/-- The globals that the parser sets.  `memRegions` holds the entries of `mem_regions` written so
far, `spans` the calls of `memory_add_span`. -/
structure Platform where
  initrdStart : ℕ
  initrdEnd : ℕ
  kernelVmEnd : ℕ
  memRegions : List Span
  spans : List Span
deriving DecidableEq, Repr

namespace Platform

def boot : Platform := ⟨0, 0, 0, [], []⟩

def parseModule (st : Platform) (modStart modEnd : ℕ) : Platform :=
  { st with initrdStart := paddrToPtr modStart, initrdEnd := paddrToPtr modEnd }

/-- `if (base_addr < bound) { length -= bound - base_addr; base_addr = bound; }` -/
def trimTo (bound : ℕ) (s : Span) : Span :=
  if s.base < bound then ⟨bound, sub64 s.size (sub64 bound s.base)⟩ else s

def alignSpan (s : Span) : Span := ⟨alignUp s.base pageSizeSmall, alignDown s.size pageSizeSmall⟩

/-- What is left of an available entry, `none` if it ends before the kernel or the initrd. -/
def usable (kernelEnd initrdEnd : ℕ) (e : MemoryMapEntry) : Option Span :=
  let baseAddr := add64 e.baseAddr kernelVma
  if add64 baseAddr e.length < kernelEnd then none
  else if add64 baseAddr e.length < initrdEnd then none
  else some (alignSpan (trimTo initrdEnd (trimTo kernelEnd ⟨baseAddr, e.length⟩)))

/-- The body of the loop of `parse_memory_map`. -/
def parseEntry (kernelEnd : ℕ) (st : Platform) (e : MemoryMapEntry) : Platform :=
  let vaddr := alignUp (add64 e.baseAddr kernelVma) pageSizeSmall
  let st := if st.kernelVmEnd < vaddr then { st with kernelVmEnd := vaddr } else st
  if e.type ≠ memoryTypeAvailable then st
  else { st with
    memRegions := st.memRegions ++ [⟨e.baseAddr, alignDown e.length pageSizeSmall⟩]
    spans := st.spans ++ (usable kernelEnd st.initrdEnd e).toList }

inductive BootOp where
  | module (modStart modEnd : ℕ)
  | entry (e : MemoryMapEntry)
deriving DecidableEq, Repr

def step (kernelEnd : ℕ) (st : Platform) : BootOp → Platform
  | .module modStart modEnd => st.parseModule modStart modEnd
  | .entry e => parseEntry kernelEnd st e

/-- The spans that a step hands to `memory_add_span`. -/
def newSpans (kernelEnd initrdEnd : ℕ) : BootOp → List Span
  | .module _ _ => []
  | .entry e => if e.type = memoryTypeAvailable then (usable kernelEnd initrdEnd e).toList else []

/-! ## The headers of segments -/

/-- `base`, `size` and the three words of the tree link. -/
def sizeofMemorySegment : ℕ := 40

/-- The segments that `memory_add_span` makes of a span. -/
def spanSegments (s : Span) : List MemorySegment :=
  PageArenas.addedSmall s.base s.size ++ PageArenas.addedLarge s.base s.size

/-- Where the headers of these segments are. -/
def segmentHeaders (s : Span) : List Span :=
  (spanSegments s).map fun seg => ⟨seg.base - kernelVma, sizeofMemorySegment⟩

/-- What `memory_add_span` does to the memory when `spans` have been handed out: it stores headers,
and insertion into the tree changes the links of those that are there. -/
structure SpanWriter where
  write : List Span → Span → Mem → Mem
  frame : ∀ spans s m a, (∀ t ∈ s :: spans, ∀ h ∈ segmentHeaders t, ¬ h.Contains a) →
    write spans s m a = m a

/-- A header with the fields in the order of their declaration. -/
def storeHeader (m : Mem) (seg : MemorySegment) : Mem :=
  memcpy m (seg.base - kernelVma)
    (fun i => (leBytes 8 seg.base ++ leBytes 8 seg.size).getD i 0) sizeofMemorySegment

theorem foldl_storeHeader {a : ℕ} : ∀ {segs : List MemorySegment} {m : Mem},
    (∀ seg ∈ segs, ¬ Span.Contains ⟨seg.base - kernelVma, sizeofMemorySegment⟩ a) →
      segs.foldl storeHeader m a = m a
  | [], _, _ => rfl
  | seg :: segs, m, h => by
      obtain ⟨hseg, hsegs⟩ := List.forall_mem_cons.mp h
      rw [List.foldl_cons, foldl_storeHeader hsegs]
      unfold storeHeader memcpy
      rw [Span.Contains] at hseg
      rw [if_neg hseg]

/-- The headers of the new span, with empty links. -/
def headerWriter : SpanWriter where
  write _ s m := (spanSegments s).foldl storeHeader m
  frame _ _ _ _ h := foldl_storeHeader fun _ hseg =>
    h _ List.mem_cons_self _ (List.mem_map_of_mem hseg)

/-! ## The block -/

def readEntry (m : Mem) (addr : ℕ) : MemoryMapEntry :=
  ⟨load m addr 8, load m (addr + 8) 8, load m (addr + 16) 4⟩

/-- The state of the parser: the offsets of the tags it has dispatched and the addresses of the
entries it has looked at are kept, too. -/
structure BootState where
  platform : Platform
  mem : Mem
  tags : List ℕ
  entries : List ℕ

def BootState.step (W : SpanWriter) (kernelEnd : ℕ) (st : BootState) (op : BootOp) : BootState :=
  { st with
    platform := Platform.step kernelEnd st.platform op
    mem := (newSpans kernelEnd st.platform.initrdEnd op).foldl
      (fun m s => W.write st.platform.spans s m) st.mem }

section parser

variable (W : SpanWriter) (kernelEnd : ℕ)

/-- The loop of `parse_memory_map`, which reads `tag->size` in each round. -/
def parseMemoryMap (tag : ℕ) : ℕ → ℕ → BootState → Option BootState
  | 0, _, _ => none
  | fuel + 1, offset, st =>
      if offset < load st.mem (tag + 4) 4 then
        parseMemoryMap tag fuel (offset + sizeofMemoryMapEntry)
          (BootState.step W kernelEnd { st with entries := st.entries ++ [tag + offset] }
            (.entry (readEntry st.mem (tag + offset))))
      else some st

/-- The `switch` over `tag->tag`. -/
def parseTag (fuel tag : ℕ) (st : BootState) : Option BootState :=
  if load st.mem tag 4 = modulesTag then
    some (st.step W kernelEnd
      (.module (load st.mem (tag + sizeofTag) 4) (load st.mem (tag + sizeofTag + 4) 4)))
  else if load st.mem tag 4 = memoryMapTag then
    parseMemoryMap W kernelEnd tag fuel (sizeofTag + sizeofMemoryMap) st
  else some st

/-- The loop of `parse_platform_config`, which reads `header->total_size` in each round, and
`tag->size` before and after the tag is dispatched. -/
def parseTags (data entryFuel : ℕ) : ℕ → ℕ → BootState → Option BootState
  | 0, _, _ => none
  | fuel + 1, offset, st =>
      if offset < load st.mem data 4 then
        if load st.mem (data + offset + 4) 4 = 0 then some st
        else
          (parseTag W kernelEnd entryFuel (data + offset)
            { st with tags := st.tags ++ [offset] }).bind fun st =>
              parseTags data entryFuel fuel
                (alignUp (offset + load st.mem (data + offset + 4) 4) 8) st
      else some st

/-- `parse_platform_config` of the block at `data`; `none` if a loop takes more than `fuel`
rounds. -/
def parsePlatformConfig (fuel : ℕ) (m : Mem) (data : ℕ) : Option BootState :=
  parseTags W kernelEnd data fuel fuel sizeofTag ⟨boot, m, [], []⟩

end parser

/-! ## What the block says -/

/-- A place that is looked at, or a module or an entry that is found there. -/
inductive BootItem where
  | look (s : Span)
  | found (op : BootOp)

def BootItem.look? : BootItem → Option Span
  | .look s => some s
  | .found _ => none

def BootItem.found? : BootItem → Option BootOp
  | .look _ => none
  | .found op => some op

def looks (items : List BootItem) : List Span := items.filterMap BootItem.look?

def traceOps (items : List BootItem) : List BootOp := items.filterMap BootItem.found?

@[simp] theorem traceOps_nil : traceOps [] = [] := rfl

@[simp] theorem traceOps_look (s : Span) (items : List BootItem) :
    traceOps (.look s :: items) = traceOps items := rfl

@[simp] theorem traceOps_found (op : BootOp) (items : List BootItem) :
    traceOps (.found op :: items) = op :: traceOps items := rfl

/-- The number of entries at `offset`, `offset + 24`, … below `size`. -/
def entryCount (size offset : ℕ) : ℕ :=
  (size - offset + (sizeofMemoryMapEntry - 1)) / sizeofMemoryMapEntry

def entriesTrace (m : Mem) (tag : ℕ) : ℕ → ℕ → List BootItem
  | 0, _ => [.look ⟨tag + 4, 4⟩]
  | n + 1, offset => .look ⟨tag + 4, 4⟩ :: .look ⟨tag + offset, 20⟩ ::
      .found (.entry (readEntry m (tag + offset))) ::
      entriesTrace m tag n (offset + sizeofMemoryMapEntry)

def tagTrace (m : Mem) (tag : ℕ) : List BootItem :=
  if load m tag 4 = modulesTag then
    [.look ⟨tag + sizeofTag, 8⟩,
      .found (.module (load m (tag + sizeofTag) 4) (load m (tag + sizeofTag + 4) 4))]
  else if load m tag 4 = memoryMapTag then
    entriesTrace m tag (entryCount (load m (tag + 4) 4) (sizeofTag + sizeofMemoryMap))
      (sizeofTag + sizeofMemoryMap)
  else []

def tagsTrace (m : Mem) (data : ℕ) : ℕ → ℕ → List BootItem
  | 0, _ => [.look ⟨data, 4⟩]
  | fuel + 1, offset => .look ⟨data, 4⟩ ::
      if offset < load m data 4 then .look ⟨data + offset, 8⟩ ::
        if load m (data + offset + 4) 4 = 0 then []
        else tagTrace m (data + offset) ++ .look ⟨data + offset + 4, 4⟩ ::
          tagsTrace m data fuel (alignUp (offset + load m (data + offset + 4) 4) 8)
      else []

/-- What is looked at and found in the block at `data`, in order. -/
def platformTrace (m : Mem) (data : ℕ) : List BootItem :=
  tagsTrace m data (load m data 4) sizeofTag

/-- The modules and entries of the block, in order. -/
def platformOps (m : Mem) (data : ℕ) : List BootOp := traceOps (platformTrace m data)

/-- The offsets of the tags. -/
def tagOffsets (m : Mem) (data : ℕ) : ℕ → ℕ → List ℕ
  | 0, _ => []
  | fuel + 1, offset =>
      if offset < load m data 4 then
        if load m (data + offset + 4) 4 = 0 then []
        else offset :: tagOffsets m data fuel
          (alignUp (offset + load m (data + offset + 4) 4) 8)
      else []

/-- The addresses of the entries of a tag. -/
def tagEntries (m : Mem) (tag : ℕ) : List ℕ :=
  if load m tag 4 = memoryMapTag then
    (List.range (entryCount (load m (tag + 4) 4) (sizeofTag + sizeofMemoryMap))).map fun i =>
      tag + (sizeofTag + sizeofMemoryMap + sizeofMemoryMapEntry * i)
  else []

/-- No header is stored where something is looked at afterwards. -/
def HeadersClear (kernelEnd : ℕ) : Platform → List BootItem → Prop
  | _, [] => True
  | st, .look _ :: items => HeadersClear kernelEnd st items
  | st, .found op :: items =>
      (∀ s ∈ newSpans kernelEnd st.initrdEnd op, ∀ h ∈ segmentHeaders s, ∀ r ∈ looks items,
        h.Apart r) ∧ HeadersClear kernelEnd (step kernelEnd st op) items

instance decidableHeadersClear (kernelEnd : ℕ) : ∀ st items,
    Decidable (HeadersClear kernelEnd st items)
  | _, [] => isTrue trivial
  | st, .look _ :: items => decidableHeadersClear kernelEnd st items
  | st, .found op :: items =>
      have := decidableHeadersClear kernelEnd (step kernelEnd st op) items
      inferInstanceAs (Decidable (_ ∧ _))

/-! ## The parser follows the block -/

theorem parseEntry_eq (kernelEnd : ℕ) (st : Platform) (e : MemoryMapEntry) :
    (parseEntry kernelEnd st e).initrdStart = st.initrdStart ∧
    (parseEntry kernelEnd st e).initrdEnd = st.initrdEnd ∧
    (parseEntry kernelEnd st e).memRegions = st.memRegions ++
      (if e.type = memoryTypeAvailable then
        [⟨e.baseAddr, alignDown e.length pageSizeSmall⟩] else []) ∧
    (parseEntry kernelEnd st e).spans = st.spans ++
      (if e.type = memoryTypeAvailable then
        (usable kernelEnd st.initrdEnd e).toList else []) := by
  unfold parseEntry
  by_cases htype : e.type = memoryTypeAvailable <;>
    by_cases hend : st.kernelVmEnd < alignUp (add64 e.baseAddr kernelVma) pageSizeSmall <;>
    simp [htype, hend]

theorem spans_step (kernelEnd : ℕ) (st : Platform) (op : BootOp) :
    (step kernelEnd st op).spans = st.spans ++ newSpans kernelEnd st.initrdEnd op := by
  cases op with
  | module modStart modEnd => rw [newSpans, List.append_nil, step, parseModule]
  | entry e =>
      rw [step, (parseEntry_eq kernelEnd st e).2.2.2]
      rfl

/-- The memory is as before wherever something will be looked at, and stays so. -/
structure Follows (kernelEnd : ℕ) (m : Mem) (st : BootState) (items : List BootItem) : Prop where
  mem : ∀ r ∈ looks items, ∀ a, r.Contains a → st.mem a = m a
  headers : ∀ s ∈ st.platform.spans, ∀ h ∈ segmentHeaders s, ∀ r ∈ looks items, h.Apart r
  clear : HeadersClear kernelEnd st.platform items

section follows

variable {W : SpanWriter} {kernelEnd data tag entryFuel : ℕ} {m : Mem} {st : BootState}
  {items : List BootItem}

theorem Follows.look {r : Span} (h : Follows kernelEnd m st (.look r :: items)) :
    Follows kernelEnd m st items :=
  ⟨fun r' hr => h.mem r' (List.mem_cons_of_mem _ hr),
    fun s hs d hd r' hr => h.headers s hs d hd r' (List.mem_cons_of_mem _ hr), h.clear⟩

theorem Follows.load_eq {r : Span} (h : Follows kernelEnd m st (.look r :: items)) {a n : ℕ}
    (hlow : r.base ≤ a) (hhigh : a + n ≤ r.base + r.size) : load st.mem a n = load m a n :=
  load_congr fun x hx hlt => h.mem r List.mem_cons_self x ⟨by omega, by omega⟩

theorem Follows.readEntry_eq {a : ℕ} (h : Follows kernelEnd m st (.look ⟨a, 20⟩ :: items)) :
    readEntry st.mem a = readEntry m a := by
  have hle : a ≤ a := le_rfl
  rw [readEntry, h.load_eq (a := a) (n := 8) hle (by dsimp only; omega),
    h.load_eq (a := a + 8) (n := 8) (by dsimp only; omega) (by dsimp only; omega),
    h.load_eq (a := a + 16) (n := 4) (by dsimp only; omega) (by dsimp only; omega), readEntry]

theorem Follows.step (W : SpanWriter) {op : BootOp}
    (h : Follows kernelEnd m st (.found op :: items)) :
    Follows kernelEnd m (st.step W kernelEnd op) items := by
  obtain ⟨hnew, hclear⟩ := h.clear
  have hheaders : ∀ s ∈ (Platform.step kernelEnd st.platform op).spans, ∀ d ∈ segmentHeaders s,
      ∀ r ∈ looks items, d.Apart r := by
    intro s hs
    rw [spans_step] at hs
    rcases List.mem_append.mp hs with hs | hs
    · exact h.headers s hs
    · exact hnew s hs
  refine ⟨fun r hr a ha => ?_, hheaders, hclear⟩
  refine Eq.trans ?_ (h.mem r hr a ha)
  show (newSpans kernelEnd st.platform.initrdEnd op).foldl
    (fun m s => W.write st.platform.spans s m) st.mem a = st.mem a
  have hkeep : ∀ spans ⊆ newSpans kernelEnd st.platform.initrdEnd op, ∀ m₀ : Mem,
      spans.foldl (fun m s => W.write st.platform.spans s m) m₀ a = m₀ a := by
    intro spans
    induction spans with
    | nil => exact fun _ _ => rfl
    | cons s spans ih =>
        intro hsub m₀
        obtain ⟨hs, hspans⟩ := List.cons_subset.mp hsub
        rw [List.foldl_cons, ih hspans]
        refine W.frame _ _ _ _ fun t ht d hd hin => ?_
        have hapart : d.Apart r := by
          rcases List.mem_cons.mp ht with rfl | ht
          · exact hnew _ hs d hd r hr
          · exact h.headers t ht d hd r hr
        simp only [Span.Apart, Span.Contains] at hapart hin ha
        omega
  exact hkeep _ (List.Subset.refl _) _

theorem traceOps_append (l l' : List BootItem) :
    traceOps (l ++ l') = traceOps l ++ traceOps l' := List.filterMap_append

/-- What a part of the parser does when it follows the `items` of its part of the block: the tags
and entries there are those of the block, and the modules and entries make the steps. -/
structure Parses (kernelEnd : ℕ) (st st' : BootState) (items : List BootItem)
    (tags entries : List ℕ) : Prop where
  platform : st'.platform = run (Platform.step kernelEnd) st.platform (traceOps items)
  tags : st'.tags = st.tags ++ tags
  entries : st'.entries = st.entries ++ entries

theorem parseMemoryMap_follows {n offset fuel : ℕ} {rest : List BootItem}
    (h : Follows kernelEnd m st (entriesTrace m tag n offset ++ rest))
    (hn : n = entryCount (load m (tag + 4) 4) offset) (hfuel : n < fuel) :
    ∃ st', parseMemoryMap W kernelEnd tag fuel offset st = some st' ∧
      Follows kernelEnd m st' rest ∧ Parses kernelEnd st st' (entriesTrace m tag n offset) []
        ((List.range n).map fun i => tag + (offset + sizeofMemoryMapEntry * i)) := by
  have h24 : sizeofMemoryMapEntry = 24 := rfl
  rw [entryCount, h24] at hn
  induction n generalizing offset fuel st with
  | zero =>
      obtain ⟨fuel, rfl⟩ := Nat.exists_eq_succ_of_ne_zero (Nat.ne_of_gt hfuel)
      have hsize := h.load_eq (a := tag + 4) (n := 4) le_rfl le_rfl
      have hstop : ¬ offset < load st.mem (tag + 4) 4 := by
        rw [hsize]
        omega
      refine ⟨st, by rw [parseMemoryMap, if_neg hstop], h.look, ?_, ?_, ?_⟩ <;>
        simp [entriesTrace]
  | succ n ih =>
      obtain ⟨fuel, rfl⟩ := Nat.exists_eq_succ_of_ne_zero (Nat.ne_zero_of_lt hfuel)
      have hsize := h.load_eq (a := tag + 4) (n := 4) le_rfl le_rfl
      have hlt : offset < load st.mem (tag + 4) 4 := by
        rw [hsize]
        omega
      have hentry := h.look.readEntry_eq
      have hnext : Follows kernelEnd m { st with entries := st.entries ++ [tag + offset] } _ :=
        ⟨h.look.look.mem, h.look.look.headers, h.look.look.clear⟩
      obtain ⟨st', hparse, hfollows, hparses⟩ :=
        @ih _ (offset + sizeofMemoryMapEntry) fuel (hnext.step W) (by omega) (by omega)
      refine ⟨st', ?_, hfollows, hparses.platform, hparses.tags, ?_⟩
      · rw [parseMemoryMap, if_pos hlt, hentry]
        exact hparse
      · rw [hparses.entries]
        show st.entries ++ [tag + offset] ++ _ = _
        rw [List.append_assoc, List.range_succ_eq_map, List.map_cons, List.map_map,
          List.singleton_append, Nat.mul_zero, Nat.add_zero]
        refine congrArg (fun l => st.entries ++ (tag + offset) :: l) (List.map_congr_left fun i _ => ?_)
        simp only [Function.comp_apply, h24]
        omega

theorem parseTag_follows {rest : List BootItem}
    (h : Follows kernelEnd m st (.look ⟨tag, 8⟩ :: (tagTrace m tag ++ rest)))
    (hfuel : 2 ^ 32 < entryFuel) :
    ∃ st', parseTag W kernelEnd entryFuel tag st = some st' ∧ Follows kernelEnd m st' rest ∧
      Parses kernelEnd st st' (tagTrace m tag) [] (tagEntries m tag) := by
  have htag := h.load_eq (a := tag) (n := 4) le_rfl (by dsimp only; omega)
  have h := h.look
  unfold parseTag tagEntries
  rw [tagTrace] at h ⊢
  rw [htag]
  by_cases hmod : load m tag 4 = modulesTag
  · have hmap : load m tag 4 ≠ memoryMapTag := by
      rw [hmod]
      decide
    rw [if_pos hmod] at h ⊢
    rw [if_pos hmod, if_neg hmap,
      h.load_eq (a := tag + sizeofTag) (n := 4) le_rfl (by dsimp only; omega),
      h.load_eq (a := tag + sizeofTag + 4) (n := 4) (by dsimp only; omega) (by dsimp only; omega)]
    refine ⟨_, rfl, h.look.step W, ?_, ?_, ?_⟩
    · rw [traceOps_look, traceOps_found, traceOps_nil, run_cons, run_nil, BootState.step]
    · rw [List.append_nil, BootState.step]
    · rw [List.append_nil, BootState.step]
  · rw [if_neg hmod] at h ⊢
    rw [if_neg hmod]
    by_cases hmap : load m tag 4 = memoryMapTag
    · rw [if_pos hmap] at h ⊢
      rw [if_pos hmap, if_pos hmap]
      refine parseMemoryMap_follows h rfl ?_
      have hsize : load m (tag + 4) 4 < 2 ^ 32 := load_lt m _ 4
      simp only [entryCount, sizeofMemoryMapEntry]
      omega
    · rw [if_neg hmap] at h ⊢
      rw [if_neg hmap, if_neg hmap]
      exact ⟨st, rfl, h, rfl, (List.append_nil _).symm, (List.append_nil _).symm⟩

theorem lt_alignUp_add {offset size : ℕ} (hoffset : offset < 2 ^ 32) (hpos : size ≠ 0)
    (hsize : size < 2 ^ 32) : offset < alignUp (offset + size) 8 := by
  have h := alignUp_two_pow (x := offset + size) (k := 3) (by decide) (by omega)
  norm_num at h
  omega

theorem parseTags_follows (hentries : 2 ^ 32 < entryFuel) (more : ℕ) {fuel offset : ℕ}
    (h : Follows kernelEnd m st (tagsTrace m data fuel offset))
    (hfuel : load m data 4 ≤ offset + fuel) :
    ∃ st', parseTags W kernelEnd data entryFuel (fuel + 1 + more) offset st = some st' ∧
      Parses kernelEnd st st' (tagsTrace m data fuel offset) (tagOffsets m data fuel offset)
        ((tagOffsets m data fuel offset).flatMap fun o => tagEntries m (data + o)) := by
  have hdata : data ≤ data := le_rfl
  induction fuel generalizing offset st with
  | zero =>
      have htotal := h.load_eq (a := data) (n := 4) le_rfl le_rfl
      have hstop : ¬ offset < load st.mem data 4 := by
        rw [htotal]
        omega
      refine ⟨st, ?_, rfl, (List.append_nil _).symm, (List.append_nil _).symm⟩
      rw [Nat.zero_add, Nat.add_comm, parseTags, if_neg hstop]
  | succ fuel ih =>
      have htotal := h.load_eq (a := data) (n := 4) le_rfl le_rfl
      have h := h.look
      rw [Nat.add_right_comm _ 1 more, Nat.add_right_comm fuel 1 more, parseTags, htotal,
        tagOffsets]
      rw [tagsTrace]
      by_cases hlt : offset < load m data 4
      · rw [if_pos hlt] at h ⊢
        rw [if_pos hlt, if_pos hlt]
        have hsize := h.load_eq (a := data + offset + 4) (n := 4) (by dsimp only; omega)
          (by dsimp only; omega)
        rw [hsize]
        by_cases hzero : load m (data + offset + 4) 4 = 0
        · rw [if_pos hzero] at h ⊢
          rw [if_pos hzero, if_pos hzero]
          exact ⟨st, rfl, rfl, (List.append_nil _).symm, (List.append_nil _).symm⟩
        · rw [if_neg hzero] at h ⊢
          rw [if_neg hzero, if_neg hzero]
          have hlog : Follows kernelEnd m { st with tags := st.tags ++ [offset] } _ :=
            ⟨h.mem, h.headers, h.clear⟩
          obtain ⟨st₁, hparse₁, h₁, hparses₁⟩ := parseTag_follows (W := W) hlog hentries
          have hagain := h₁.load_eq (a := data + offset + 4) (n := 4) le_rfl le_rfl
          have hbig : load m (data + offset + 4) 4 < 2 ^ 32 := load_lt m _ 4
          have htot : load m data 4 < 2 ^ 32 := load_lt m _ 4
          have hgrows := lt_alignUp_add (hlt.trans htot) hzero hbig
          obtain ⟨st', hparse, hparses⟩ := ih h₁.look (by omega)
          refine ⟨st', ?_, ?_, ?_, ?_⟩
          · rw [hparse₁, Option.bind_some, hagain, Nat.add_right_comm]
            exact hparse
          · rw [hparses.platform, hparses₁.platform, ← run_append]
            refine congrArg (run (Platform.step kernelEnd) st.platform) ?_
            show _ = traceOps (_ ++ _)
            rw [traceOps_append]
            rfl
          · rw [hparses.tags, hparses₁.tags, List.append_nil]
            exact List.append_assoc _ _ _
          · rw [hparses.entries, hparses₁.entries, List.flatMap_cons]
            exact List.append_assoc _ _ _
      · rw [if_neg hlt] at h ⊢
        rw [if_neg hlt, if_neg hlt]
        exact ⟨st, rfl, rfl, (List.append_nil _).symm, (List.append_nil _).symm⟩

/-- **The parser follows the block** as long as no header is stored where it still has to look. -/
theorem parsePlatformConfig_follows (W : SpanWriter) (m : Mem) (data : ℕ) {fuel : ℕ}
    (hclear : HeadersClear kernelEnd boot (platformTrace m data)) (hfuel : 2 ^ 32 < fuel) :
    ∃ st, parsePlatformConfig W kernelEnd fuel m data = some st ∧
      st.platform = run (Platform.step kernelEnd) boot (platformOps m data) ∧
      st.tags = tagOffsets m data (load m data 4) sizeofTag ∧
      st.entries = st.tags.flatMap fun o => tagEntries m (data + o) := by
  have hstart : Follows kernelEnd m ⟨boot, m, [], []⟩ (platformTrace m data) :=
    ⟨fun _ _ _ _ => rfl, fun s hs => absurd hs List.not_mem_nil, hclear⟩
  have htotal : load m data 4 < 2 ^ 32 := load_lt m _ 4
  obtain ⟨more, rfl⟩ : ∃ more, fuel = load m data 4 + 1 + more := ⟨fuel - (load m data 4 + 1), by omega⟩
  obtain ⟨st, hparse, hparses⟩ := parseTags_follows (W := W) hfuel more hstart
    (show load m data 4 ≤ sizeofTag + load m data 4 by omega)
  refine ⟨st, hparse, hparses.platform, hparses.tags, ?_⟩
  rw [hparses.entries, hparses.tags]
  rfl

end follows

/-! ## The law -/

/-- The span is made of whole pages of one available entry, above the kernel and outside the
initrd. -/
structure SpanOk (kernelEnd : ℕ) (ops : List BootOp) (initrd : ℕ × ℕ) (s : Span) : Prop where
  aligned : pageSizeSmall ∣ s.base ∧ pageSizeSmall ∣ s.size
  inside : ∃ e, .entry e ∈ ops ∧ e.type = memoryTypeAvailable ∧ ∀ x, s.Contains x →
    Span.Contains ⟨e.baseAddr + kernelVma, e.length⟩ x
  kernel : ∀ x, s.Contains x → kernelEnd ≤ x
  initrd : ∀ x, s.Contains x → ¬ (initrd.1 ≤ x ∧ x < initrd.2)

/-- **The law of the boot memory map** for a block of modules and entries `ops`. -/
structure MapLaw (kernelEnd : ℕ) (ops : List BootOp) (st : Platform) : Prop where
  spans : ∀ s ∈ st.spans, SpanOk kernelEnd ops (st.initrdStart, st.initrdEnd) s
  regions : st.memRegions.length ≤ maxMemRegions

/-- `initrd_start` and `initrd_end` after a module or an entry. -/
def initrdStep (initrd : ℕ × ℕ) : BootOp → ℕ × ℕ
  | .module modStart modEnd => (paddrToPtr modStart, paddrToPtr modEnd)
  | .entry _ => initrd

/-- The span lies in an available entry of the block. -/
def InAvailable (ops : List BootOp) (s : Span) : Prop :=
  ∃ op ∈ ops, match op with
    | .module _ _ => False
    | .entry e => e.type = memoryTypeAvailable ∧ e.baseAddr + kernelVma ≤ s.base ∧
        s.base + s.size ≤ e.baseAddr + kernelVma + e.length

instance (ops : List BootOp) (s : Span) : Decidable (InAvailable ops s) :=
  have : DecidablePred fun op : BootOp => match op with
      | .module _ _ => False
      | .entry e => e.type = memoryTypeAvailable ∧ e.baseAddr + kernelVma ≤ s.base ∧
          s.base + s.size ≤ e.baseAddr + kernelVma + e.length := fun op => by
    cases op <;> infer_instance
  List.decidableBEx _ ops

/-- What is left of an available entry, with its base rounded up and its length rounded down, is
less than a page, or it lies in an available entry still and the last module of the block is not
in it. `initrd` is the module before the entry. -/
def EntryOk (kernelEnd : ℕ) (ops : List BootOp) (initrd : ℕ × ℕ) : BootOp → Prop
  | .module _ _ => True
  | .entry e =>
      let base := max (e.baseAddr + kernelVma) (max kernelEnd initrd.2)
      let stop := e.baseAddr + kernelVma + e.length
      let rounded := alignSpan ⟨base, stop - base⟩
      let last := run initrdStep (0, 0) ops
      e.type = memoryTypeAvailable → stop < base + pageSizeSmall ∨ InAvailable ops rounded ∧
        (last.2 ≤ last.1 ∨ rounded.base + rounded.size ≤ last.1 ∨ last.2 ≤ rounded.base)

instance (kernelEnd : ℕ) (ops : List BootOp) (initrd : ℕ × ℕ) (op : BootOp) :
    Decidable (EntryOk kernelEnd ops initrd op) := by
  cases op <;> unfold EntryOk <;> infer_instance

def BootOp.isAvailable : BootOp → Bool
  | .module _ _ => false
  | .entry e => e.type = memoryTypeAvailable

/-! ## Rounding -/

theorem alignDown_page {x : ℕ} (hx : x < 2 ^ 64) :
    alignDown x pageSizeSmall = x / pageSizeSmall * pageSizeSmall :=
  alignDown_two_pow (k := 12) (by decide) hx

theorem dvd_alignUp_page (x : ℕ) : pageSizeSmall ∣ alignUp x pageSizeSmall := by
  rw [alignUp, alignDown_page (sub64_lt _ _)]
  exact Dvd.intro_left _ rfl

theorem trimTo_trimTo {base length stop kernelEnd initrdEnd : ℕ} (hlen : base + length = stop)
    (hstop : stop < 2 ^ 64) (hk : kernelEnd ≤ stop) (hi : initrdEnd ≤ stop) :
    trimTo initrdEnd (trimTo kernelEnd ⟨base, length⟩) =
      ⟨max base (max kernelEnd initrdEnd), stop - max base (max kernelEnd initrdEnd)⟩ := by
  have htrim : ∀ {b bound : ℕ}, b ≤ stop → bound ≤ stop →
      trimTo bound ⟨b, stop - b⟩ = ⟨max b bound, stop - max b bound⟩ := by
    intro b bound hb hbound
    unfold trimTo
    split
    · next hlt =>
        simp only at hlt ⊢
        rw [sub64_of_le hlt.le (by omega), sub64_of_le (by omega) (by omega),
          max_eq_right hlt.le, Span.mk.injEq]
        exact ⟨rfl, by omega⟩
    · next hge =>
        simp only at hge
        rw [max_eq_left (Nat.not_lt.mp hge)]
  obtain rfl : length = stop - base := by omega
  rw [htrim (by omega) hk, htrim (max_le (by omega) hk) hi, max_assoc]

theorem spanOk_iff {kernelEnd : ℕ} {ops : List BootOp} {initrd : ℕ × ℕ} {e : MemoryMapEntry}
    {base stop : ℕ} (he : .entry e ∈ ops) (havail : e.type = memoryTypeAvailable)
    (hbase : base ≤ stop) (hstop : stop < 2 ^ 64) (hkernel : kernelEnd ≤ base) :
    SpanOk kernelEnd ops initrd (alignSpan ⟨base, stop - base⟩) ↔
      stop < base + pageSizeSmall ∨ InAvailable ops (alignSpan ⟨base, stop - base⟩) ∧
        (initrd.2 ≤ initrd.1 ∨
          (alignSpan ⟨base, stop - base⟩).base + (alignSpan ⟨base, stop - base⟩).size ≤ initrd.1 ∨
          initrd.2 ≤ (alignSpan ⟨base, stop - base⟩).base) := by
  have hsize : (alignSpan ⟨base, stop - base⟩).size =
      (stop - base) / pageSizeSmall * pageSizeSmall := alignDown_page (by dsimp only; omega)
  have hdvd : pageSizeSmall ∣ (alignSpan ⟨base, stop - base⟩).base ∧
      pageSizeSmall ∣ (alignSpan ⟨base, stop - base⟩).size :=
    ⟨dvd_alignUp_page _, hsize ▸ Dvd.intro_left _ rfl⟩
  by_cases hpage : stop < base + pageSizeSmall
  · -- nothing is handed out
    have hempty : ∀ x, ¬ (alignSpan ⟨base, stop - base⟩).Contains x := by
      intro x hx
      rw [Span.Contains, hsize, Nat.div_eq_of_lt (by omega)] at hx
      omega
    exact iff_of_true ⟨hdvd, ⟨e, he, havail, fun x hx => absurd hx (hempty x)⟩,
      fun x hx => absurd hx (hempty x), fun x hx => absurd hx (hempty x)⟩ (.inl hpage)
  · have hup : base ≤ (alignSpan ⟨base, stop - base⟩).base := by
      have h := alignUp_two_pow (x := base) (k := 12) (by decide)
        (by simp only [pageSizeSmall] at hpage; omega)
      rw [show (2 : ℕ) ^ 12 = pageSizeSmall from rfl] at h
      simp only [alignSpan, pageSizeSmall] at h ⊢
      omega
    have hpos : 0 < (alignSpan ⟨base, stop - base⟩).size := by
      rw [hsize]
      simp only [pageSizeSmall] at *
      omega
    generalize alignSpan ⟨base, stop - base⟩ = s at hdvd hup hpos ⊢
    rw [or_iff_right hpage]
    constructor
    · intro h
      obtain ⟨e', he', havail', hin⟩ := h.inside
      have hfirst := hin s.base ⟨le_rfl, by omega⟩
      have hlast := hin (s.base + s.size - 1) ⟨by omega, by omega⟩
      simp only [Span.Contains] at hfirst hlast
      refine ⟨⟨_, he', havail', hfirst.1, by omega⟩, ?_⟩
      by_contra hnot
      exact h.initrd (max s.base initrd.1) ⟨by omega, by omega⟩ ⟨by omega, by omega⟩
    · rintro ⟨⟨op, hop, hcover⟩, hclear⟩
      cases op with
      | module modStart modEnd => exact hcover.elim
      | entry e' =>
          refine ⟨hdvd, ⟨e', hop, hcover.1, fun x hx => ?_⟩, fun x hx => ?_, fun x hx hin => ?_⟩
          · simp only [Span.Contains] at hx ⊢
            omega
          · simp only [Span.Contains] at hx
            omega
          · simp only [Span.Contains] at hx
            omega

/-! ## The run -/

variable {kernelEnd : ℕ} {ops : List BootOp} {st : Platform}

theorem newSpans_ok_iff {op : BootOp} (initrd : ℕ × ℕ) (hop : op ∈ ops)
    (hwrap : ∀ e, .entry e ∈ ops → e.baseAddr + kernelVma + e.length < 2 ^ 64) :
    (∀ s ∈ newSpans kernelEnd initrd.2 op,
      SpanOk kernelEnd ops (run initrdStep (0, 0) ops) s) ↔ EntryOk kernelEnd ops initrd op := by
  cases op with
  | module modStart modEnd => exact iff_of_true (List.forall_mem_nil _) trivial
  | entry e =>
      have hw := hwrap e hop
      by_cases havail : e.type = memoryTypeAvailable
      · have hspans : newSpans kernelEnd initrd.2 (.entry e) =
            (usable kernelEnd initrd.2 e).toList := if_pos havail
        unfold EntryOk
        dsimp only
        rw [hspans, usable, add64_of_lt (show e.baseAddr + kernelVma < 2 ^ 64 by omega),
          add64_of_lt hw]
        simp only [havail, forall_const]
        by_cases hk : e.baseAddr + kernelVma + e.length < kernelEnd
        · rw [if_pos hk]
          exact iff_of_true (List.forall_mem_nil _) (.inl (by omega))
        · by_cases hi : e.baseAddr + kernelVma + e.length < initrd.2
          · rw [if_neg hk, if_pos hi]
            exact iff_of_true (List.forall_mem_nil _) (.inl (by omega))
          · rw [if_neg hk, if_neg hi, trimTo_trimTo rfl hw (Nat.not_lt.mp hk) (Nat.not_lt.mp hi),
              Option.toList_some, List.forall_mem_singleton]
            exact spanOk_iff hop havail (by omega) hw (by omega)
      · have hspans : newSpans kernelEnd initrd.2 (.entry e) = [] := if_neg havail
        rw [hspans]
        exact iff_of_true (List.forall_mem_nil _) fun h => absurd h havail

theorem initrd_step (kernelEnd : ℕ) (st : Platform) (op : BootOp) :
    ((step kernelEnd st op).initrdStart, (step kernelEnd st op).initrdEnd) =
      initrdStep (st.initrdStart, st.initrdEnd) op := by
  cases op with
  | module modStart modEnd => rfl
  | entry e =>
      obtain ⟨hstart, hend, -⟩ := parseEntry_eq kernelEnd st e
      exact Prod.ext hstart hend

theorem initrd_run (kernelEnd : ℕ) : ∀ (part : List BootOp) (st : Platform),
    ((run (step kernelEnd) st part).initrdStart, (run (step kernelEnd) st part).initrdEnd) =
      run initrdStep (st.initrdStart, st.initrdEnd) part
  | [], _ => rfl
  | op :: part, st => by rw [run_cons, run_cons, initrd_run, initrd_step]

theorem spans_run_ok_iff (kernelEnd : ℕ)
    (hwrap : ∀ e, .entry e ∈ ops → e.baseAddr + kernelVma + e.length < 2 ^ 64) :
    ∀ {part : List BootOp} (st : Platform), part ⊆ ops →
      ((∀ s ∈ (run (step kernelEnd) st part).spans,
          SpanOk kernelEnd ops (run initrdStep (0, 0) ops) s) ↔
        (∀ s ∈ st.spans, SpanOk kernelEnd ops (run initrdStep (0, 0) ops) s) ∧
          Guarded initrdStep (EntryOk kernelEnd ops) (st.initrdStart, st.initrdEnd) part)
  | [], _, _ => (and_iff_left trivial).symm
  | op :: part, st, hsub => by
      obtain ⟨hop, hpart⟩ := List.cons_subset.mp hsub
      rw [run_cons, spans_run_ok_iff kernelEnd hwrap _ hpart, spans_step, List.forall_mem_append,
        newSpans_ok_iff (st.initrdStart, st.initrdEnd) hop hwrap, initrd_step, and_assoc]
      rfl

theorem length_memRegions_run (kernelEnd : ℕ) : ∀ (part : List BootOp) (st : Platform),
    (run (step kernelEnd) st part).memRegions.length =
      st.memRegions.length + part.countP BootOp.isAvailable
  | [], _ => rfl
  | .module _ _ :: part, st => by
      rw [run_cons, length_memRegions_run, List.countP_cons, step, parseModule]
      simp [BootOp.isAvailable]
  | .entry e :: part, st => by
      have hregions : (step kernelEnd st (.entry e)).memRegions = _ :=
        (parseEntry_eq kernelEnd st e).2.2.1
      rw [run_cons, length_memRegions_run, hregions, List.length_append, List.countP_cons,
        BootOp.isAvailable]
      by_cases htype : e.type = memoryTypeAvailable
      · simp [htype]
        omega
      · simp [htype]

/-- A block at `data` with the given tags. -/
def blockAt (data : ℕ) (tags : List UInt8) : Mem := fun a =>
  if data ≤ a then (leBytes 8 (tags.length + 8) ++ tags).getD (a - data) 0 else 0

def moduleTagBytes (modStart modEnd : ℕ) : List UInt8 :=
  leBytes 4 modulesTag ++ leBytes 4 16 ++ leBytes 4 modStart ++ leBytes 4 modEnd

/-- A memory map of one available entry. -/
def memoryMapTagBytes (baseAddr length : ℕ) : List UInt8 :=
  leBytes 4 memoryMapTag ++ leBytes 4 40 ++ leBytes 4 24 ++ leBytes 4 0 ++
    leBytes 8 baseAddr ++ leBytes 8 length ++ leBytes 8 memoryTypeAvailable

end Platform

end Manticore
