import Manticore.Kernel.Errno

/-!
# Device descriptors

`DeviceSpace` of `kernel/device.rs`.  A descriptor is the index that `attach` gave, as an `i32`.  The bound test of
`lookup` lets the first free index through, and indexing the vector there panics.

A panic is `none`.
-/

namespace Manticore

/-- `desc_table`, over any devices. -/
structure DeviceSpace (D : Type) where
  descTable : List D

/-- `DeviceDesc::to_idx`. -/
def toIdx (desc : ℤ) : Option ℕ := if desc ≥ 0 then some desc.toNat else none

namespace DeviceSpace

variable {D : Type}

def new : DeviceSpace D := ⟨[]⟩

def attach (ds : DeviceSpace D) (device : D) : ℤ × DeviceSpace D :=
  (toI32 ds.descTable.length, ⟨ds.descTable ++ [device]⟩)

def lookup (ds : DeviceSpace D) (desc : ℤ) : Option (Option D) :=
  match toIdx desc with
  | some idx =>
      if idx > ds.descTable.length then some none
      else ds.descTable[idx]?.map some
  | none => some none

/-- The descriptors that a sequence of `attach` calls returns, each with its device, and the table
after them. -/
def attaches (ds : DeviceSpace D) : List D → List (ℤ × D) × DeviceSpace D
  | [] => ([], ds)
  | device :: rest =>
      let (desc, ds) := ds.attach device
      let (descs, ds) := ds.attaches rest
      ((desc, device) :: descs, ds)

/-- **Descriptors resolve safely**: after the `attach` calls for `devices`, looking up `desc` does
not panic and gives the device of the call that returned it. -/
def Resolves (devices : List D) (desc : ℤ) : Prop :=
  let (descs, ds) := new.attaches devices
  ∃ found, ds.lookup desc = some found ∧ (∀ device, (desc, device) ∈ descs → found = some device) ∧
    ((∀ device, (desc, device) ∉ descs) → found = none)

/-! ## What the calls return -/

theorem attaches_eq (ds : DeviceSpace D) (devices : List D) : ds.attaches devices =
    ((devices.zipIdx ds.descTable.length).map fun p => (toI32 p.2, p.1),
      ⟨ds.descTable ++ devices⟩) := by
  induction devices generalizing ds with
  | nil => rw [List.append_nil]; rfl
  | cons device rest ih =>
      rw [attaches]
      simp only [ih, attach, List.zipIdx_cons, List.map_cons, List.append_assoc,
        List.singleton_append, List.length_append, List.length_singleton]

theorem attaches_new (devices : List D) : (new : DeviceSpace D).attaches devices =
    (devices.zipIdx.map fun p => (toI32 p.2, p.1), ⟨devices⟩) := attaches_eq new devices

theorem mem_attaches_new {devices : List D} {desc : ℤ} {device : D} :
    (desc, device) ∈ ((new : DeviceSpace D).attaches devices).1 ↔
      ∃ i : ℕ, devices[i]? = some device ∧ toI32 i = desc := by
  rw [attaches_new, List.mem_map]
  constructor
  · rintro ⟨⟨d, i⟩, hmem, heq⟩
    obtain ⟨rfl, rfl⟩ := Prod.mk.inj heq
    exact ⟨i, List.mk_mem_zipIdx_iff_getElem?.mp hmem, rfl⟩
  · rintro ⟨i, hget, rfl⟩
    exact ⟨(device, i), List.mk_mem_zipIdx_iff_getElem?.mpr hget, rfl⟩

theorem lookup_of_neg (ds : DeviceSpace D) {desc : ℤ} (h : desc < 0) :
    ds.lookup desc = some none := by
  rw [lookup, toIdx, if_neg (not_le.mpr h)]

theorem lookup_natCast (ds : DeviceSpace D) (n : ℕ) : ds.lookup n =
    if n > ds.descTable.length then some none else ds.descTable[n]?.map some := by
  rw [lookup, toIdx, if_pos (Int.natCast_nonneg n)]
  rfl

theorem toI32_of_lt {n : ℕ} (h : n < 2 ^ 31) : toI32 n = n := by
  have hmod : n % 2 ^ 32 = n := Nat.mod_eq_of_lt (by omega)
  rw [toI32, hmod, if_pos h]

/-! ## Resolving -/

theorem resolves_def (devices : List D) (desc : ℤ) : Resolves devices desc ↔
    ∃ found, lookup ⟨devices⟩ desc = some found ∧
      (∀ i : ℕ, ∀ device, devices[i]? = some device → toI32 i = desc → found = some device) ∧
      ((∀ i < devices.length, toI32 i ≠ desc) → found = none) := by
  have hmem := @mem_attaches_new D devices desc
  unfold Resolves
  rw [attaches_new] at hmem ⊢
  simp only [hmem]
  refine exists_congr fun found => and_congr_right fun _ => and_congr ?_ (imp_congr_left ?_)
  · exact ⟨fun h i device hget hi => h device ⟨i, hget, hi⟩,
      fun h device ⟨i, hget, hi⟩ => h i device hget hi⟩
  · refine ⟨fun h i hlt hi => ?_, fun h device ⟨i, hget, hi⟩ => ?_⟩
    · exact h devices[i] ⟨i, List.getElem?_eq_getElem hlt, hi⟩
    · exact h i (List.getElem?_eq_some_iff.mp hget).1 hi

theorem resolves_iff_of_neg (devices : List D) {desc : ℤ} (h : desc < 0) :
    Resolves devices desc ↔ ∀ (i : ℕ) (device : D), devices[i]? = some device → toI32 i ≠ desc := by
  have hlookup := lookup_of_neg (⟨devices⟩ : DeviceSpace D) h
  rw [resolves_def]
  constructor
  · rintro ⟨found, hfound, hsome, -⟩ i device hget hi
    obtain rfl := Option.some.inj (hlookup.symm.trans hfound)
    exact absurd (hsome i device hget hi) (by simp)
  · intro hnot
    exact ⟨none, hlookup, fun i device hget hi => absurd hi (hnot i device hget), fun _ => rfl⟩

theorem resolves_natCast_iff (devices : List D) {n : ℕ} (h : n < 2 ^ 31) :
    Resolves devices n ↔ n ≠ devices.length ∧
      ∀ (i : ℕ) (device : D), devices[i]? = some device → toI32 i = n →
        devices[n]? = some device := by
  have hn : toI32 n = n := toI32_of_lt h
  rw [resolves_def]
  constructor
  · rintro ⟨found, hfound, hsome, -⟩
    rw [lookup_natCast] at hfound
    refine ⟨?_, fun i device hget hi => ?_⟩
    · rintro rfl
      simp at hfound
    · obtain rfl := hsome i device hget hi
      split at hfound
      · cases hfound
      · obtain ⟨d, hd, heq⟩ := Option.map_eq_some_iff.mp hfound
        rw [← Option.some.inj heq]
        exact hd
  · rintro ⟨hne, hsame⟩
    rcases Nat.lt_or_ge n devices.length with hlt | hge
    · refine ⟨some devices[n], ?_, fun i device hget hi => ?_, fun hnot => absurd hn (hnot n hlt)⟩
      · rw [lookup_natCast, if_neg (Nat.not_lt.mpr hlt.le)]
        show devices[n]?.map some = _
        rw [List.getElem?_eq_getElem hlt]
        rfl
      · rw [← hsame i device hget hi, List.getElem?_eq_getElem hlt]
    · refine ⟨none, ?_, fun i device hget hi => ?_, fun _ => rfl⟩
      · rw [lookup_natCast, if_pos (lt_of_le_of_ne hge hne.symm)]
      · rw [← hsame i device hget hi, List.getElem?_eq_none hge]

theorem resolves_iff (devices : List D) {desc : ℤ} (h : desc < 2 ^ 31) : Resolves devices desc ↔
    desc ≠ devices.length ∧ ∀ (i : ℕ) (device : D), devices[i]? = some device → toI32 i = desc →
      0 ≤ desc ∧ devices[desc.toNat]? = some device := by
  rcases lt_or_ge desc 0 with hneg | hpos
  · rw [resolves_iff_of_neg devices hneg]
    refine ⟨fun hnot => ⟨by omega, fun i device hget hi => absurd hi (hnot i device hget)⟩, ?_⟩
    exact fun hall i device hget hi => absurd (hall.2 i device hget hi).1 (by omega)
  · obtain ⟨n, rfl⟩ := Int.eq_ofNat_of_zero_le hpos
    rw [resolves_natCast_iff devices (by omega)]
    simp only [Int.toNat_natCast, ne_eq, Nat.cast_inj, hpos, true_and]

/-- **When descriptors resolve safely**: the descriptor is not the first free index, and no other
device has it. With fewer devices than descriptors only the first free index is left. -/
theorem descriptors_resolve_iff (devices : List D) (desc : ℤ)
    (hdesc : -2 ^ 31 ≤ desc ∧ desc < 2 ^ 31) :
    (Resolves devices desc ↔ desc ≠ devices.length ∧
      ∀ (i : ℕ) (device : D), devices[i]? = some device → toI32 i = desc →
        0 ≤ desc ∧ devices[desc.toNat]? = some device) ∧
    (devices.length ≤ 2 ^ 31 → (Resolves devices desc ↔ desc ≠ devices.length)) := by
  have hiff := resolves_iff devices hdesc.2
  refine ⟨hiff, fun hlen => hiff.trans (and_iff_left fun i device hget hi => ?_)⟩
  have hlt := (List.getElem?_eq_some_iff.mp hget).1
  rw [toI32_of_lt (by omega)] at hi
  subst hi
  exact ⟨Int.natCast_nonneg i, hget⟩

theorem descriptors_resolve_second :
    Resolves ["/dev/eth", "/dev/blk"] 1 ∧ (1 : ℤ) < 2 ^ 31 :=
  ⟨((descriptors_resolve_iff ["/dev/eth", "/dev/blk"] 1 (by decide)).2 (by decide)).mpr (by decide),
    by decide⟩

/-- **A descriptor that panics.** With one device attached, looking up descriptor 1 panics. -/
theorem lookup_first_free_panics :
    ((new.attaches ["/dev/eth"]).1 = [(0, "/dev/eth")]) ∧
      (new.attaches ["/dev/eth"]).2.lookup 1 = none ∧ ¬ Resolves ["/dev/eth"] 1 := by
  refine ⟨by decide, by decide, ?_⟩
  rintro ⟨found, hfound, -⟩
  cases hfound

end DeviceSpace

end Manticore
