import Manticore.Arch.Platform

/-!
# The walk over the boot tags

The loop of `parse_platform_config` on its own.  Whatever is stored in the block while it is read,
the offset grows with every tag, or the next round finds the size 0 and ends the loop.  On a sequence
of tags each of which starts at the next boundary, the loop is at a header each time, unless the
header of a segment is stored over what it still has to read.
-/

namespace Manticore

namespace Platform

/-! ## Well-formed blocks -/

/-- `next` is the first 8-byte boundary from `x` on. -/
structure NextBoundary (x next : ℕ) : Prop where
  dvd : 8 ∣ next
  le : x ≤ next
  lt : next < x + 8

/-- **Tags from `offset` on**: each has a size of at least 8 and starts at the next boundary behind
the one before it, and the last is an end tag that ends with the block. -/
inductive TagSequence (m : Mem) (data : ℕ) : ℕ → List ℕ → Prop
  | last {offset : ℕ} (htag : load m (data + offset) 4 = 0)
      (hsize : load m (data + offset + 4) 4 = 8) (hend : offset + 8 = load m data 4) :
      TagSequence m data offset [offset]
  | tag {offset next : ℕ} {offsets : List ℕ} (hsize : 8 ≤ load m (data + offset + 4) 4)
      (hnext : NextBoundary (offset + load m (data + offset + 4) 4) next)
      (hrest : TagSequence m data next offsets) : TagSequence m data offset (offset :: offsets)

/-- The byte at `b` is part of the header of the tag at `offset`. -/
def InHeader (offset b : ℕ) : Prop := offset ≤ b ∧ b < offset + sizeofTag

/-- The byte at `b` is part of the payload of the tag at `offset`. -/
def InPayload (m : Mem) (data offset b : ℕ) : Prop :=
  offset + sizeofTag ≤ b ∧ b < offset + load m (data + offset + 4) 4

variable {m : Mem} {data offset : ℕ} {offsets : List ℕ}

/-! ## Every walk ends -/

section ends

variable {W : SpanWriter} {kernelEnd tag entryFuel : ℕ}

theorem exists_parseMemoryMap {fuel offset : ℕ} (st : BootState) (h : 2 ^ 32 ≤ offset + fuel) :
    ∃ st', ∀ more, parseMemoryMap W kernelEnd tag (fuel + 1 + more) offset st = some st' := by
  induction fuel generalizing offset st with
  | zero =>
      refine ⟨st, fun more => ?_⟩
      have hsize : load st.mem (tag + 4) 4 < 2 ^ 32 := load_lt _ _ 4
      rw [Nat.add_right_comm, parseMemoryMap, if_neg (by omega)]
  | succ fuel ih =>
      by_cases hlt : offset < load st.mem (tag + 4) 4
      · obtain ⟨st', hst'⟩ := @ih (offset + sizeofMemoryMapEntry) (BootState.step W kernelEnd
          { st with entries := st.entries ++ [tag + offset] }
          (.entry (readEntry st.mem (tag + offset)))) (by rw [sizeofMemoryMapEntry]; omega)
        refine ⟨st', fun more => ?_⟩
        rw [Nat.add_right_comm, parseMemoryMap, if_pos hlt, hst']
      · refine ⟨st, fun more => ?_⟩
        rw [Nat.add_right_comm, parseMemoryMap, if_neg hlt]

theorem exists_parseTag (W : SpanWriter) (kernelEnd tag : ℕ) (st : BootState) :
    ∃ st', ∀ more, parseTag W kernelEnd (2 ^ 32 + 1 + more) tag st = some st' := by
  unfold parseTag
  by_cases hmod : load st.mem tag 4 = modulesTag
  · exact ⟨_, fun more => if_pos hmod⟩
  · by_cases hmap : load st.mem tag 4 = memoryMapTag
    · obtain ⟨st', hst'⟩ := exists_parseMemoryMap (W := W) st
        (show 2 ^ 32 ≤ sizeofTag + sizeofMemoryMap + 2 ^ 32 by omega)
      exact ⟨st', fun more => by rw [if_neg hmod, if_pos hmap, hst']⟩
    · exact ⟨st, fun more => by rw [if_neg hmod, if_neg hmap]⟩

/-- **The loop ends**, whatever the handlers store. -/
theorem exists_parseTags (W : SpanWriter) (kernelEnd data : ℕ) {fuel offset : ℕ} (st : BootState)
    (h : 2 ^ 32 ≤ offset + fuel) : ∃ st', ∀ more more',
      parseTags W kernelEnd data (2 ^ 32 + 1 + more') (fuel + 2 + more) offset st = some st' := by
  induction fuel generalizing offset st with
  | zero =>
      refine ⟨st, fun more more' => ?_⟩
      have htotal : load st.mem data 4 < 2 ^ 32 := load_lt _ _ 4
      rw [show 0 + 2 + more = 1 + more + 1 by omega, parseTags, if_neg (by omega)]
  | succ fuel ih =>
      have htotal : load st.mem data 4 < 2 ^ 32 := load_lt _ _ 4
      have hfuel {more : ℕ} : fuel + 1 + 2 + more = fuel + 2 + more + 1 := by omega
      by_cases hlt : offset < load st.mem data 4
      · by_cases hzero : load st.mem (data + offset + 4) 4 = 0
        · refine ⟨st, fun more more' => ?_⟩
          rw [hfuel, parseTags, if_pos hlt, if_pos hzero]
        · obtain ⟨st₁, hst₁⟩ := exists_parseTag W kernelEnd (data + offset)
            { st with tags := st.tags ++ [offset] }
          have hstep : ∀ more more', parseTags W kernelEnd data (2 ^ 32 + 1 + more')
              (fuel + 2 + more + 1) offset st = parseTags W kernelEnd data (2 ^ 32 + 1 + more')
                (fuel + 2 + more) (alignUp (offset + load st₁.mem (data + offset + 4) 4) 8) st₁ := by
            intro more more'
            rw [parseTags, if_pos hlt, if_neg hzero, hst₁, Option.bind_some]
          have hbig : load st₁.mem (data + offset + 4) 4 < 2 ^ 32 := load_lt _ _ 4
          have halign := alignUp_two_pow (x := offset + load st₁.mem (data + offset + 4) 4) (k := 3)
            (by decide) (by omega)
          norm_num at halign
          by_cases hsame : alignUp (offset + load st₁.mem (data + offset + 4) 4) 8 = offset
          · -- the size is 0 now, and the next round finds it
            refine ⟨st₁, fun more more' => ?_⟩
            rw [hfuel, hstep, hsame,
              show fuel + 2 + more = fuel + 1 + more + 1 by omega, parseTags]
            have hnow : load st₁.mem (data + offset + 4) 4 = 0 := by omega
            rw [if_pos hnow, ite_self]
          · obtain ⟨st', hst'⟩ := @ih (alignUp (offset + load st₁.mem (data + offset + 4) 4) 8) st₁
              (by omega)
            refine ⟨st', fun more more' => ?_⟩
            rw [hfuel, hstep, hst']
      · refine ⟨st, fun more more' => ?_⟩
        rw [hfuel, parseTags, if_neg hlt]

end ends

/-! ## Tags in sequence -/

namespace TagSequence

theorem end_le (h : TagSequence m data offset offsets) : offset + 8 ≤ load m data 4 := by
  induction h with
  | last _ _ hend => exact hend.le
  | tag hsize hnext _ ih =>
      have := hnext.le
      omega

theorem le_of_mem (h : TagSequence m data offset offsets) : ∀ o ∈ offsets, offset ≤ o := by
  induction h with
  | last _ _ _ => exact fun o ho => (List.mem_singleton.mp ho).ge
  | tag hsize hnext _ ih =>
      have hle := hnext.le
      exact List.forall_mem_cons.mpr ⟨le_rfl, fun o ho => by
        have := ih o ho
        omega⟩

theorem pairwise (h : TagSequence m data offset offsets) : offsets.Pairwise (· < ·) := by
  induction h with
  | last _ _ _ => exact List.pairwise_singleton _ _
  | tag hsize hnext hrest ih =>
      refine List.pairwise_cons.mpr ⟨fun o ho => ?_, ih⟩
      have hle := hnext.le
      have := hrest.le_of_mem o ho
      omega

theorem not_inPayload (h : TagSequence m data offset offsets) {b : ℕ} :
    ∀ o ∈ offsets, ∀ o' ∈ offsets, InHeader o b → ¬ InPayload m data o' b := by
  unfold InHeader InPayload
  have h8 : sizeofTag = 8 := rfl
  induction h with
  | last _ _ _ =>
      intro o ho o' ho' hb hpay
      rw [List.mem_singleton.mp ho] at hb
      rw [List.mem_singleton.mp ho'] at hpay
      omega
  | tag hsize hnext hrest ih =>
      intro o ho o' ho' hb hpay
      have hle := hnext.le
      -- the tags of the rest start behind the payload of the first
      rcases List.mem_cons.mp ho with rfl | hmem <;> rcases List.mem_cons.mp ho' with rfl | hmem'
      · omega
      · have := hrest.le_of_mem o' hmem'
        omega
      · have := hrest.le_of_mem o hmem
        omega
      · exact ih o hmem o' hmem' hb hpay

theorem alignUp_eq_of_nextBoundary {x next : ℕ} (h : NextBoundary x next) (hx : x < 2 ^ 33) :
    alignUp x 8 = next := by
  have halign := alignUp_two_pow (x := x) (k := 3) (by decide) (by omega)
  norm_num at halign
  obtain ⟨hdvd, hle, hlt⟩ := h
  omega

/-- **The offsets are those of the tags**, each once and in order. -/
theorem tagOffsets_eq (h : TagSequence m data offset offsets) {fuel : ℕ}
    (hfuel : load m data 4 ≤ offset + fuel) : tagOffsets m data fuel offset = offsets := by
  have htotal : load m data 4 < 2 ^ 32 := load_lt m data 4
  induction h generalizing fuel with
  | @last offset htag hsize hend =>
      obtain ⟨fuel, rfl⟩ := Nat.exists_eq_succ_of_ne_zero (show fuel ≠ 0 by omega)
      have hgrows := alignUp_two_pow (x := offset + 8) (k := 3) (by decide) (by omega)
      norm_num at hgrows
      have hge : ¬ alignUp (offset + 8) 8 < load m data 4 := by omega
      rw [tagOffsets, if_pos (by omega), if_neg (by omega), hsize]
      cases fuel with
      | zero => rfl
      | succ fuel => rw [tagOffsets, if_neg hge]
  | @tag offset next offsets hsize hnext hrest ih =>
      have hlt : next + 8 ≤ load m data 4 := hrest.end_le
      have hle := hnext.le
      obtain ⟨fuel, rfl⟩ := Nat.exists_eq_succ_of_ne_zero (show fuel ≠ 0 by omega)
      rw [tagOffsets, if_pos (by omega), if_neg (by omega),
        alignUp_eq_of_nextBoundary hnext (by omega), ih (by omega)]

end TagSequence

/-! ## The law -/

theorem tagEntries_eq {tag n : ℕ} (htag : load m tag 4 = memoryMapTag)
    (hsize : load m (tag + 4) 4 = sizeofTag + sizeofMemoryMap + sizeofMemoryMapEntry * n) :
    tagEntries m tag = (List.range n).map fun i =>
      tag + (sizeofTag + sizeofMemoryMap + sizeofMemoryMapEntry * i) := by
  have hcount : entryCount (load m (tag + 4) 4) (sizeofTag + sizeofMemoryMap) = n := by
    rw [hsize]
    simp only [entryCount, sizeofTag, sizeofMemoryMap, sizeofMemoryMapEntry]
    omega
  rw [tagEntries, if_pos htag, hcount]

def endTagBytes : List UInt8 := leBytes 4 0 ++ leBytes 4 8

/-- A memory map of one entry, a module and the end tag. -/
def threeTags (baseAddr length : ℕ) : List UInt8 :=
  memoryMapTagBytes baseAddr length ++ moduleTagBytes 0x300000 0x300800 ++ endTagBytes

end Platform

end Manticore
