import Manticore.Base.Bytes
import Manticore.Kernel.PrintfNumber

/-!
# Reading an address

`inet_addr` of `usr/liblinux/src/arpa/inet.c`.  The loop shifts an octet into the result at each dot
and at the end, and fails on a character that is neither a digit nor a dot and on a number above
255.  It counts neither the fields nor their digits: any number of fields, empty ones too, makes an
address, of which the last four fields are left.
-/

namespace Manticore

open Printf (byte digitValue)

/-- `INADDR_NONE`. -/
def inaddrNone : ℕ := 2 ^ 32 - 1

/-- `htonl`. -/
def htonl (v : ℕ) : ℕ := leNat (beBytes 4 v)

/-- `(ret << 8) | acc` of two `uint32_t`. -/
def shiftOctet (ret acc : ℕ) : ℕ := ret <<< 8 % 2 ^ 32 ||| acc

/-- The loop of `inet_addr`; the NUL is the end of the list. -/
def inetAddrLoop : List UInt8 → ℕ → ℕ → ℕ
  | [], ret, acc => htonl (shiftOctet ret acc)
  | c :: cp, ret, acc =>
      if byte '0' ≤ c ∧ c ≤ byte '9' then
        let acc := (acc * 10 + (c - byte '0').toNat) % 2 ^ 32
        if 255 < acc then inaddrNone else inetAddrLoop cp ret acc
      else if c = byte '.' then inetAddrLoop cp (shiftOctet ret acc) 0
      else inaddrNone

def inetAddr (cp : List UInt8) : ℕ := inetAddrLoop cp 0 0

/-! ## Dotted quads -/

/-- A decimal number of one or more digits that is at most 255. -/
structure Octet (field : List UInt8) (v : ℕ) : Prop where
  ne_nil : field ≠ []
  value : readDigits digitValue 10 field 0 = some v
  le : v ≤ 255

/-- The string `a.b.c.d`. -/
def DottedQuad (s : List UInt8) (a b c d : ℕ) : Prop :=
  ∃ fa fb fc fd : List UInt8, s = [byte '.'].intercalate [fa, fb, fc, fd] ∧
    Octet fa a ∧ Octet fb b ∧ Octet fc c ∧ Octet fd d

/-- The `in_addr_t` whose bytes in memory are `a`, `b`, `c` and `d`. -/
def inAddr (a b c d : ℕ) : ℕ := a + 256 * (b + 256 * (c + 256 * d))

/-- **What `inet_addr` is to return**: the address of a dotted quad, `INADDR_NONE` for anything
else. -/
structure ReadsAddress (s : List UInt8) (addr : ℕ) : Prop where
  quad : ∀ a b c d, DottedQuad s a b c d → addr = inAddr a b c d
  other : (∀ a b c d, ¬ DottedQuad s a b c d) → addr = inaddrNone

/-! ## The fields -/

/-- The value of a field whose digits go on from `acc`; an empty field adds nothing. -/
def octetFrom (acc : ℕ) (field : List UInt8) : Option ℕ :=
  (readDigits digitValue 10 field acc).filter (· ≤ 255)

/-- The values of the fields between the dots, if every one is a number up to 255 or empty. -/
def octets (s : List UInt8) : Option (List ℕ) := (s.splitOn (byte '.')).mapM (octetFrom 0)

variable {s : List UInt8} {acc : ℕ}

theorem digitValue_lt_ten {c : UInt8} {d : ℕ} (h : digitValue c = some d) (hd : d < 10) :
    (byte '0' ≤ c ∧ c ≤ byte '9') ∧ (c - byte '0').toNat = d := by
  unfold digitValue at h
  split at h
  · next hc => exact ⟨hc, Option.some.inj h⟩
  · split at h
    · have := Option.some.inj h
      omega
    · split at h
      · have := Option.some.inj h
        omega
      · cases h

theorem digitValue_digit {c : UInt8} (h : byte '0' ≤ c ∧ c ≤ byte '9') :
    digitValue c = some (c - byte '0').toNat ∧ (c - byte '0').toNat < 10 := by
  refine ⟨if_pos h, ?_⟩
  have h0 : (48 : ℕ) ≤ c.toNat := h.1
  have h9 : c.toNat ≤ 57 := h.2
  have hsub : (c - byte '0').toNat = c.toNat - 48 := UInt8.toNat_sub_of_le c (byte '0') h.1
  omega

theorem readDigits_digit {c : UInt8} (h : byte '0' ≤ c ∧ c ≤ byte '9') (field : List UInt8)
    (acc : ℕ) : readDigits digitValue 10 (c :: field) acc =
      readDigits digitValue 10 field (acc * 10 + (c - byte '0').toNat) := by
  obtain ⟨hval, hlt⟩ := digitValue_digit h
  rw [readDigits, hval]
  exact if_pos hlt

theorem readDigits_no_digit {c : UInt8} (h : ¬ (byte '0' ≤ c ∧ c ≤ byte '9'))
    (field : List UInt8) (acc : ℕ) : readDigits digitValue 10 (c :: field) acc = none := by
  unfold readDigits
  split
  · next d hd => exact if_neg fun hlt => h (digitValue_lt_ten hd hlt).1
  · rfl

theorem le_of_readDigits {v : ℕ} {field : List UInt8}
    (h : readDigits digitValue 10 field acc = some v) : acc ≤ v := by
  induction field generalizing acc with
  | nil => exact (Option.some.inj h).le
  | cons c field ih =>
      by_cases hc : byte '0' ≤ c ∧ c ≤ byte '9'
      · rw [readDigits_digit hc] at h
        have := ih h
        omega
      · rw [readDigits_no_digit hc] at h
        cases h

theorem octetFrom_nil (h : acc ≤ 255) : octetFrom acc [] = some acc :=
  Option.filter_some_pos (decide_eq_true h)

theorem octetFrom_of_gt (h : 255 < acc) (field : List UInt8) : octetFrom acc field = none := by
  unfold octetFrom
  rw [Option.filter_eq_none_iff]
  intro v hv
  have := le_of_readDigits hv
  simp only [decide_eq_true_eq]
  omega

theorem octetFrom_digit {c : UInt8} (h : byte '0' ≤ c ∧ c ≤ byte '9') (field : List UInt8) :
    octetFrom acc (c :: field) = octetFrom (acc * 10 + (c - byte '0').toNat) field := by
  unfold octetFrom
  rw [readDigits_digit h]

theorem octetFrom_no_digit {c : UInt8} (h : ¬ (byte '0' ≤ c ∧ c ≤ byte '9'))
    (field : List UInt8) : octetFrom acc (c :: field) = none := by
  unfold octetFrom
  rw [readDigits_no_digit h]
  rfl

/-- The octets shifted in one after the other. -/
def shiftOctets (ret : ℕ) (vs : List ℕ) : ℕ := vs.foldl shiftOctet ret

theorem inetAddrLoop_eq (s : List UInt8) (ret : ℕ) (hacc : acc ≤ 255) :
    ∃ field fields, s.splitOn (byte '.') = field :: fields ∧
      inetAddrLoop s ret acc =
        match octetFrom acc field, fields.mapM (octetFrom 0) with
        | some v, some vs => htonl (shiftOctets ret (v :: vs))
        | _, _ => inaddrNone := by
  induction s generalizing ret acc with
  | nil => exact ⟨[], [], rfl, by rw [octetFrom_nil hacc]; rfl⟩
  | cons c s ih =>
      have hsplit := List.splitOnP_cons_eq_if_modifyHead (p := (· == byte '.')) c s
      by_cases hdot : c = byte '.'
      · obtain ⟨field, fields, hfields, hloop⟩ := ih (shiftOctet ret acc) (Nat.zero_le 255)
        refine ⟨[], field :: fields, ?_, ?_⟩
        · rw [List.splitOn, hsplit, if_pos (beq_iff_eq.mpr hdot)]
          exact congrArg _ hfields
        · have hnd : ¬ (byte '0' ≤ c ∧ c ≤ byte '9') := by
            rw [hdot]
            decide
          rw [inetAddrLoop, if_neg hnd, if_pos hdot, hloop, octetFrom_nil hacc, List.mapM_cons]
          cases octetFrom 0 field with
          | none => rfl
          | some v => cases fields.mapM (octetFrom 0) <;> rfl
      · obtain ⟨field, fields, hfields⟩ :=
          List.exists_cons_of_ne_nil (List.splitOn_ne_nil (byte '.') s)
        refine ⟨c :: field, fields, ?_, ?_⟩
        · rw [List.splitOn, hsplit, if_neg (mt beq_iff_eq.mp hdot)]
          exact congrArg _ hfields
        · by_cases hdigit : byte '0' ≤ c ∧ c ≤ byte '9'
          · have hlt := (digitValue_digit hdigit).2
            have hmod : (acc * 10 + (c - byte '0').toNat) % 2 ^ 32 =
                acc * 10 + (c - byte '0').toNat := Nat.mod_eq_of_lt (by omega)
            rw [inetAddrLoop, if_pos hdigit, octetFrom_digit hdigit]
            dsimp only
            rw [hmod]
            split
            · next hgt => rw [octetFrom_of_gt hgt]
            · next hle =>
                obtain ⟨field', fields', hfields', hloop⟩ := ih ret (not_lt.mp hle)
                obtain ⟨rfl, rfl⟩ := List.cons.inj (hfields.symm.trans hfields')
                exact hloop
          · rw [inetAddrLoop, if_neg hdigit, if_neg hdot, octetFrom_no_digit hdigit]

/-- **What `inet_addr` returns**, in terms of the fields. -/
theorem inetAddr_eq (s : List UInt8) : inetAddr s =
    match octets s with
    | some vs => htonl (shiftOctets 0 vs)
    | none => inaddrNone := by
  obtain ⟨field, fields, hfields, hloop⟩ := inetAddrLoop_eq s 0 (Nat.zero_le 255)
  rw [inetAddr, hloop, octets, hfields, List.mapM_cons]
  cases octetFrom 0 field with
  | none => rfl
  | some v => cases fields.mapM (octetFrom 0) <;> rfl

/-! ## Quads are the addresses of four fields -/

section mapM

variable {α β : Type} {g : α → Option β} {l : List α} {v : β} {vs : List β}

theorem exists_of_mapM_eq_cons (h : l.mapM g = some (v :: vs)) :
    ∃ a l', l = a :: l' ∧ g a = some v ∧ l'.mapM g = some vs := by
  cases l with
  | nil => cases h
  | cons a l =>
      rw [List.mapM_cons] at h
      obtain ⟨v', hv, h⟩ := Option.bind_eq_some_iff.mp h
      obtain ⟨vs', hvs, h⟩ := Option.bind_eq_some_iff.mp h
      obtain ⟨rfl, rfl⟩ := List.cons.inj (Option.some.inj h)
      exact ⟨a, l, rfl, hv, hvs⟩

theorem eq_nil_of_mapM_eq_nil (h : l.mapM g = some []) : l = [] := by
  cases l with
  | nil => rfl
  | cons a l =>
      rw [List.mapM_cons] at h
      obtain ⟨v, -, h⟩ := Option.bind_eq_some_iff.mp h
      obtain ⟨vs, -, h⟩ := Option.bind_eq_some_iff.mp h
      cases h

end mapM

theorem octet_iff {field : List UInt8} {v : ℕ} :
    Octet field v ↔ field ≠ [] ∧ octetFrom 0 field = some v := by
  have hfilter : octetFrom 0 field = some v ↔
      readDigits digitValue 10 field 0 = some v ∧ v ≤ 255 := by
    rw [octetFrom, Option.filter_eq_some_iff, decide_eq_true_eq]
  exact ⟨fun h => ⟨h.ne_nil, hfilter.mpr ⟨h.value, h.le⟩⟩,
    fun h => ⟨h.1, (hfilter.mp h.2).1, (hfilter.mp h.2).2⟩⟩

theorem dot_notMem_of_readDigits {v : ℕ} {field : List UInt8}
    (h : readDigits digitValue 10 field acc = some v) : byte '.' ∉ field := by
  induction field generalizing acc with
  | nil => exact List.not_mem_nil
  | cons c field ih =>
      by_cases hc : byte '0' ≤ c ∧ c ≤ byte '9'
      · rw [readDigits_digit hc] at h
        refine List.not_mem_cons_of_ne_of_not_mem ?_ (ih h)
        rintro rfl
        exact absurd hc (by decide)
      · rw [readDigits_no_digit hc] at h
        cases h

theorem dottedQuad_iff {a b c d : ℕ} : DottedQuad s a b c d ↔
    octets s = some [a, b, c, d] ∧ [] ∉ s.splitOn (byte '.') := by
  constructor
  · rintro ⟨fa, fb, fc, fd, rfl, ha, hb, hc, hd⟩
    have hsplit : ([byte '.'].intercalate [fa, fb, fc, fd]).splitOn (byte '.') =
        [fa, fb, fc, fd] := by
      refine List.splitOn_intercalate _ ?_ (List.cons_ne_nil _ _)
      simp only [List.forall_mem_cons, List.not_mem_nil, false_imp_iff, implies_true, and_true]
      exact ⟨dot_notMem_of_readDigits ha.value, dot_notMem_of_readDigits hb.value,
        dot_notMem_of_readDigits hc.value, dot_notMem_of_readDigits hd.value⟩
    rw [octets, hsplit]
    constructor
    · simp only [List.mapM_cons, List.mapM_nil, (octet_iff.mp ha).2, (octet_iff.mp hb).2,
        (octet_iff.mp hc).2, (octet_iff.mp hd).2]
      rfl
    · simp [ha.ne_nil.symm, hb.ne_nil.symm, hc.ne_nil.symm, hd.ne_nil.symm]
  · rintro ⟨hoctets, hne⟩
    unfold octets at hoctets
    obtain ⟨fa, fs, hfields, ha, hfs⟩ := exists_of_mapM_eq_cons hoctets
    obtain ⟨fb, fs, rfl, hb, hfs⟩ := exists_of_mapM_eq_cons hfs
    obtain ⟨fc, fs, rfl, hc, hfs⟩ := exists_of_mapM_eq_cons hfs
    obtain ⟨fd, fs, rfl, hd, hfs⟩ := exists_of_mapM_eq_cons hfs
    obtain rfl := eq_nil_of_mapM_eq_nil hfs
    rw [hfields] at hne
    simp only [List.mem_cons, List.not_mem_nil, or_false, not_or] at hne
    refine ⟨fa, fb, fc, fd, ?_, octet_iff.mpr ⟨Ne.symm hne.1, ha⟩,
      octet_iff.mpr ⟨Ne.symm hne.2.1, hb⟩, octet_iff.mpr ⟨Ne.symm hne.2.2.1, hc⟩,
      octet_iff.mpr ⟨Ne.symm hne.2.2.2, hd⟩⟩
    rw [← hfields, List.intercalate_splitOn]

theorem le_of_octetFrom {field : List UInt8} {v : ℕ} (h : octetFrom acc field = some v) :
    v ≤ 255 :=
  of_decide_eq_true (Option.filter_eq_some_iff.mp h).2

theorem le_of_mem_mapM {fields : List (List UInt8)} {vs : List ℕ}
    (h : fields.mapM (octetFrom 0) = some vs) : ∀ v ∈ vs, v ≤ 255 := by
  induction vs generalizing fields with
  | nil => exact fun _ hv => nomatch hv
  | cons v vs ih =>
      obtain ⟨field, fields, rfl, hv, hvs⟩ := exists_of_mapM_eq_cons h
      exact List.forall_mem_cons.mpr ⟨le_of_octetFrom hv, ih hvs⟩

/-! ## The last four octets -/

theorem htonl_eq (v : ℕ) : htonl v =
    v / 2 ^ 24 % 256 + 256 * (v / 2 ^ 16 % 256 + 256 * (v / 2 ^ 8 % 256 + 256 * (v % 256))) := by
  simp [htonl, beBytes, leBytes, leNat, Nat.div_div_eq_div_mul]

theorem htonl_eq_inaddrNone_iff (v : ℕ) : htonl v = inaddrNone ↔ v % 256 ^ 4 = 256 ^ 4 - 1 := by
  have hv : v % 256 ^ 4 = ((v / 2 ^ 24 % 256 * 256 + v / 2 ^ 16 % 256) * 256 + v / 2 ^ 8 % 256) *
      256 + v % 256 := by omega
  have hlt (x : ℕ) : x % 256 < 256 := Nat.mod_lt x (by norm_num)
  have ha := hlt (v / 2 ^ 24)
  have hb := hlt (v / 2 ^ 16)
  have hc := hlt (v / 2 ^ 8)
  have hd := hlt v
  rw [htonl_eq, hv, inaddrNone]
  generalize v / 2 ^ 24 % 256 = a, v / 2 ^ 16 % 256 = b, v / 2 ^ 8 % 256 = c, v % 256 = d at *
  omega

theorem shiftOctet_eq (ret : ℕ) {v : ℕ} (hv : v ≤ 255) :
    shiftOctet ret v = ret % 2 ^ 24 * 256 + v := by
  have hshift : ret <<< 8 % 2 ^ 32 = (ret % 2 ^ 24) <<< 8 := by
    rw [Nat.shiftLeft_eq, Nat.shiftLeft_eq]
    omega
  rw [shiftOctet, hshift, ← Nat.shiftLeft_add_eq_or_of_lt (by omega), Nat.shiftLeft_eq]

theorem octet_mod_mul (x : ℕ) {v m : ℕ} (hv : v ≤ 255) :
    (x * 256 + v) % (256 * m) = x % m * 256 + v := by
  have hlow : (x * 256 + v) % 256 = v := by omega
  have hhigh : (x * 256 + v) / 256 = x := by omega
  rw [Nat.mod_mul, hlow, hhigh]
  ring

theorem concat_suffix_concat_iff {α : Type} {l l' : List α} {x y : α} :
    l ++ [x] <:+ l' ++ [y] ↔ y = x ∧ l <:+ l' := by
  rw [← List.reverse_prefix, List.reverse_concat, List.reverse_concat, List.cons_prefix_cons,
    List.reverse_prefix, eq_comm]

theorem shiftOctets_mod_eq_iff {vs : List ℕ} (hvs : ∀ v ∈ vs, v ≤ 255) {k : ℕ} (hk : k ≤ 4) :
    shiftOctets 0 vs % 256 ^ k = 256 ^ k - 1 ↔ List.replicate k 255 <:+ vs := by
  induction k generalizing vs with
  | zero => simp [Nat.mod_one]
  | succ k ih =>
      have hpos : 0 < 256 ^ k := by positivity
      cases vs using List.reverseRecOn with
      | nil =>
          have hzero : shiftOctets 0 [] = 0 := rfl
          simp only [hzero, Nat.zero_mod, List.suffix_nil, List.replicate_eq_nil_iff]
          omega
      | append_singleton vs v =>
          have hv : v ≤ 255 := hvs v (by simp)
          have hinit : ∀ w ∈ vs, w ≤ 255 := fun w hw => hvs w (List.mem_append_left _ hw)
          have hfold : shiftOctets 0 (vs ++ [v]) = shiftOctets 0 vs % 2 ^ 24 * 256 + v := by
            rw [shiftOctets, List.foldl_append]
            exact shiftOctet_eq _ hv
          have hdvd : 256 ^ k ∣ 2 ^ 24 := by
            rw [show (2 : ℕ) ^ 24 = 256 ^ 3 by norm_num]
            exact pow_dvd_pow 256 (by omega)
          have hpow : 256 ^ (k + 1) = 256 * 256 ^ k := Nat.pow_succ'
          have hmod : shiftOctets 0 (vs ++ [v]) % 256 ^ (k + 1) =
              shiftOctets 0 vs % 256 ^ k * 256 + v := by
            rw [hfold, hpow, octet_mod_mul _ hv, Nat.mod_mod_of_dvd _ hdvd]
          rw [List.replicate_succ', concat_suffix_concat_iff, ← ih hinit (by omega), hmod, hpow]
          have hlt := Nat.mod_lt (shiftOctets 0 vs) hpos
          omega

theorem htonl_shiftOctets_eq_inaddrNone_iff {vs : List ℕ} (hvs : ∀ v ∈ vs, v ≤ 255) :
    htonl (shiftOctets 0 vs) = inaddrNone ↔ [255, 255, 255, 255] <:+ vs := by
  rw [htonl_eq_inaddrNone_iff]
  exact shiftOctets_mod_eq_iff hvs le_rfl

theorem htonl_shiftOctets_quad {a b c d : ℕ} (h : ∀ v ∈ [a, b, c, d], v ≤ 255) :
    htonl (shiftOctets 0 [a, b, c, d]) = inAddr a b c d := by
  simp only [List.forall_mem_cons, List.not_mem_nil, false_imp_iff, implies_true, and_true] at h
  have hshift : shiftOctets 0 [a, b, c, d] = ((a * 256 + b) * 256 + c) * 256 + d := by
    simp only [shiftOctets, List.foldl_cons, List.foldl_nil, shiftOctet_eq _ h.1,
      shiftOctet_eq _ h.2.1, shiftOctet_eq _ h.2.2.1, shiftOctet_eq _ h.2.2.2]
    omega
  obtain ⟨v, hv⟩ : ∃ v, v = ((a * 256 + b) * 256 + c) * 256 + d := ⟨_, rfl⟩
  have ha : v / 2 ^ 24 % 256 = a := by omega
  have hb : v / 2 ^ 16 % 256 = b := by omega
  have hc : v / 2 ^ 8 % 256 = c := by omega
  have hd : v % 256 = d := by omega
  rw [hshift, ← hv, htonl_eq, ha, hb, hc, hd, inAddr]

/-! ## Addresses -/

/-- **Which strings are read as they should be**: those with a field that is not a number up to 255,
the dotted quads, and those whose last four fields are the bytes of `INADDR_NONE`. -/
theorem inetAddr_readsAddress_iff (s : List UInt8) : ReadsAddress s (inetAddr s) ↔
    octets s = none ∨ (∃ a b c d, DottedQuad s a b c d) ∨
      ∃ vs, octets s = some vs ∧ [255, 255, 255, 255] <:+ vs := by
  rw [inetAddr_eq]
  cases hoctets : octets s with
  | none =>
      have hno (a b c d : ℕ) : ¬ DottedQuad s a b c d := fun h => by
        rw [(dottedQuad_iff.mp h).1] at hoctets
        cases hoctets
      exact iff_of_true ⟨fun a b c d h => (hno a b c d h).elim, fun _ => rfl⟩ (.inl rfl)
  | some vs =>
      have hle : ∀ v ∈ vs, v ≤ 255 := le_of_mem_mapM hoctets
      have hnone := htonl_shiftOctets_eq_inaddrNone_iff hle
      by_cases hquad : ∃ a b c d, DottedQuad s a b c d
      · refine iff_of_true ⟨?_, fun hno => ?_⟩ (.inr (.inl hquad))
        · intro a b c d h
          obtain rfl := Option.some.inj (hoctets.symm.trans (dottedQuad_iff.mp h).1)
          exact htonl_shiftOctets_quad hle
        · obtain ⟨a, b, c, d, h⟩ := hquad
          exact (hno a b c d h).elim
      · have hno (a b c d : ℕ) : ¬ DottedQuad s a b c d := fun h => hquad ⟨a, b, c, d, h⟩
        constructor
        · exact fun h => .inr (.inr ⟨vs, rfl, hnone.mp (h.other hno)⟩)
        · rintro (h | h | ⟨vs', h, hsuffix⟩)
          · cases h
          · exact (hquad h).elim
          · obtain rfl := Option.some.inj h
            exact ⟨fun a b c d h => (hno a b c d h).elim, fun _ => hnone.mpr hsuffix⟩

/-- `1.2.3` is read as `0.1.2.3`, and `1.2.3.4.5` as `2.3.4.5`. -/
theorem inetAddr_accepts_other :
    (inetAddr ("1.2.3".toList.map byte) = inAddr 0 1 2 3 ∧
      ¬ ReadsAddress ("1.2.3".toList.map byte) (inetAddr ("1.2.3".toList.map byte))) ∧
    inetAddr ("1.2.3.4.5".toList.map byte) = inAddr 2 3 4 5 ∧
      ¬ ReadsAddress ("1.2.3.4.5".toList.map byte) (inetAddr ("1.2.3.4.5".toList.map byte)) := by
  have hother {s : List UInt8} (vs : List ℕ) (hs : octets s = some vs) (hlen : vs.length ≠ 4)
      (haddr : inetAddr s ≠ inaddrNone) : ¬ ReadsAddress s (inetAddr s) := fun h =>
    haddr (h.other fun a b c d hquad => by
      obtain rfl := Option.some.inj (hs.symm.trans (dottedQuad_iff.mp hquad).1)
      exact hlen rfl)
  exact ⟨⟨by decide, hother [1, 2, 3] (by decide) (by decide) (by decide)⟩,
    by decide, hother [1, 2, 3, 4, 5] (by decide) (by decide) (by decide)⟩

end Manticore
