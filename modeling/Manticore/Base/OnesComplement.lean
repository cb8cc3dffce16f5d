import Manticore.Base.Bytes
import Mathlib.Data.Nat.ModEq

/-!
# One's-complement sums

Numbers up to `M` added with end-around carry.  The sum is the number modulo `M`, with one
exception: zero has the two representatives `0` and `M`, and the sum is `0` only if every
summand is.  So two ways to add the same numbers agree as soon as they agree modulo `M` and on
being zero.
-/

namespace Manticore

/-- Addition with end-around carry. -/
def onesAdd (M a b : ℕ) : ℕ := if a + b ≤ M then a + b else a + b - M

/-- The numbers of the list, added one at a time. -/
def onesSum (M : ℕ) (ws : List ℕ) : ℕ := ws.foldl (onesAdd M) 0

/-- The same number modulo `M`, and the same kind of zero. -/
structure OnesEq (M n k : ℕ) : Prop where
  modEq : n ≡ k [MOD M]
  zero_iff : n = 0 ↔ k = 0

namespace OnesEq

variable {M n k l a b : ℕ}

theorem refl (M n : ℕ) : OnesEq M n n := ⟨rfl, Iff.rfl⟩

theorem symm (h : OnesEq M n k) : OnesEq M k n := ⟨h.modEq.symm, h.zero_iff.symm⟩

theorem trans (h : OnesEq M n k) (h' : OnesEq M k l) : OnesEq M n l :=
  ⟨h.modEq.trans h'.modEq, h.zero_iff.trans h'.zero_iff⟩

theorem add (h : OnesEq M n k) (h' : OnesEq M a b) : OnesEq M (n + a) (k + b) := by
  constructor
  · exact h.modEq.add h'.modEq
  · rw [Nat.add_eq_zero_iff, Nat.add_eq_zero_iff, h.zero_iff, h'.zero_iff]

theorem eq_of_le (h : OnesEq M n k) (hn : n ≤ M) (hk : k ≤ M) : n = k := by
  have hzero := h.zero_iff
  rcases Nat.le_total n k with hle | hle
  · have hdvd := (Nat.modEq_iff_dvd' hle).mp h.modEq
    by_contra hne
    have := Nat.le_of_dvd (by omega) hdvd
    omega
  · have hdvd := (Nat.modEq_iff_dvd' hle).mp h.modEq.symm
    by_contra hne
    have := Nat.le_of_dvd (by omega) hdvd
    omega

end OnesEq

section sums

variable {M : ℕ}

theorem onesAdd_le {a b : ℕ} (ha : a ≤ M) (hb : b ≤ M) : onesAdd M a b ≤ M := by
  unfold onesAdd
  split <;> omega

theorem onesEq_onesAdd (M a b : ℕ) : OnesEq M (onesAdd M a b) (a + b) := by
  unfold onesAdd
  split
  · exact OnesEq.refl M _
  · constructor
    · apply (Nat.modEq_iff_dvd' (Nat.sub_le _ _)).mpr
      exact ⟨1, by omega⟩
    · omega

theorem onesSum_append_singleton (M : ℕ) (ws : List ℕ) (w : ℕ) :
    onesSum M (ws ++ [w]) = onesAdd M (onesSum M ws) w := by
  rw [onesSum, List.foldl_append]
  rfl

theorem onesSum_le {ws : List ℕ} (h : ∀ w ∈ ws, w ≤ M) : onesSum M ws ≤ M := by
  induction ws using List.reverseRecOn with
  | nil => exact Nat.zero_le M
  | append_singleton ws w ih =>
      rw [onesSum_append_singleton]
      apply onesAdd_le
      · exact ih fun v hv => h v (List.mem_append_left _ hv)
      · exact h w (List.mem_append_right _ List.mem_cons_self)

/-- **The sum with end-around carry** is the plain sum modulo `M`. -/
theorem onesEq_onesSum (M : ℕ) (ws : List ℕ) : OnesEq M (onesSum M ws) ws.sum := by
  induction ws using List.reverseRecOn with
  | nil => exact OnesEq.refl M 0
  | append_singleton ws w ih =>
      rw [onesSum_append_singleton, List.sum_append, List.sum_singleton]
      exact (onesEq_onesAdd M _ w).trans (ih.add (OnesEq.refl M w))

theorem onesEq_carry (M n : ℕ) : OnesEq M (n % (M + 1) + n / (M + 1)) n := by
  have hsplit : (M + 1) * (n / (M + 1)) + n % (M + 1) = n := Nat.div_add_mod n (M + 1)
  have hmul : (M + 1) * (n / (M + 1)) = M * (n / (M + 1)) + n / (M + 1) := Nat.succ_mul _ _
  constructor
  · apply (Nat.modEq_iff_dvd' (by omega)).mpr
    exact ⟨n / (M + 1), by omega⟩
  · constructor
    · intro h
      obtain ⟨hmod, hdiv⟩ := Nat.add_eq_zero_iff.mp h
      rw [← hsplit, hmod, hdiv, Nat.mul_zero]
    · rintro rfl
      rw [Nat.zero_mod, Nat.zero_div]

theorem onesEq_complement {n x : ℕ} (hM : 0 < M) (h : OnesEq M x n) (hx : x ≤ M) :
    OnesEq M (n + (M - x)) M := by
  constructor
  · have hadd := h.modEq.symm.add_right (M - x)
    rwa [Nat.add_sub_cancel' hx] at hadd
  · have hzero := h.zero_iff
    omega

end sums

/-! ## The 16-bit words of a byte string -/

/-- The words as `read` reads them, a last odd byte padded with zero. -/
def words16 (read : List UInt8 → ℕ) : List UInt8 → List ℕ
  | a :: b :: rest => read [a, b] :: words16 read rest
  | [a] => [read [a, 0]]
  | [] => []

theorem words16_append (read : List UInt8 → ℕ) {post : List UInt8} :
    ∀ {pre : List UInt8}, 2 ∣ pre.length →
      words16 read (pre ++ post) = words16 read pre ++ words16 read post
  | [], _ => rfl
  | [_], h => by
      rw [List.length_singleton] at h
      omega
  | a :: b :: pre, h => by
      rw [List.length_cons, List.length_cons] at h
      rw [List.cons_append, List.cons_append, words16, words16, words16_append read (by omega),
        List.cons_append]

theorem leNat_pair (a b : UInt8) : leNat [a, b] = a.toNat + 256 * b.toNat := by
  simp [leNat]

theorem beNat_pair (a b : UInt8) : beNat [a, b] = b.toNat + 256 * a.toNat := by
  simp [beNat, leNat]

theorem leNat_pair_le (a b : UInt8) : leNat [a, b] ≤ 0xffff := by
  have ha := a.toNat_lt
  have hb := b.toNat_lt
  rw [leNat_pair]
  omega

theorem beNat_pair_le (a b : UInt8) : beNat [a, b] ≤ 0xffff := by
  have ha := a.toNat_lt
  have hb := b.toNat_lt
  rw [beNat_pair]
  omega

theorem le_of_mem_words16 {read : List UInt8 → ℕ} (hread : ∀ a b, read [a, b] ≤ 0xffff) :
    ∀ {bs : List UInt8}, ∀ w ∈ words16 read bs, w ≤ 0xffff
  | [], w, hw => absurd hw List.not_mem_nil
  | [a], w, hw => List.mem_singleton.mp hw ▸ hread a 0
  | a :: b :: rest, w, hw => by
      rcases List.mem_cons.mp hw with rfl | hw
      · exact hread a b
      · exact le_of_mem_words16 hread w hw

/-- **Byte order.** Reading the words the other way round multiplies the sum by `256`. -/
theorem sum_words16_beNat : ∀ bs : List UInt8,
    (words16 beNat bs).sum ≡ 256 * (words16 leNat bs).sum [MOD 0xffff] ∧
      ((words16 beNat bs).sum = 0 ↔ (words16 leNat bs).sum = 0)
  | [] => ⟨rfl, Iff.rfl⟩
  | [a] => by
      simp only [words16, List.sum_singleton, beNat_pair, leNat_pair]
      constructor
      · exact congrArg (· % 0xffff) (by simp)
      · simp
  | a :: b :: rest => by
      obtain ⟨hmod, hzero⟩ := sum_words16_beNat rest
      simp only [words16, List.sum_cons, beNat_pair, leNat_pair]
      constructor
      · rw [Nat.mul_add]
        apply Nat.ModEq.add _ hmod
        -- the high byte comes back with the carry
        apply (Nat.modEq_iff_dvd' (by omega)).mpr
        exact ⟨b.toNat, by omega⟩
      · omega

end Manticore
