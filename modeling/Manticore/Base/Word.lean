import Mathlib.Data.Nat.Bitwise
import Mathlib.Tactic

/-!
# 64-bit words and power-of-two rounding

Unsigned machine arithmetic is done on `ℕ`, with the wrap modulo `2 ^ 64` written
out.  Rounding to an alignment is the usual mask trick; for a power of two it is
integer division, and that is the only form the later developments reason about.
-/

namespace Manticore

/-- Unsigned 64-bit addition. -/
def add64 (a b : ℕ) : ℕ := (a + b) % 2 ^ 64

/-- Unsigned 64-bit subtraction. -/
def sub64 (a b : ℕ) : ℕ := (a + (2 ^ 64 - b % 2 ^ 64)) % 2 ^ 64

/-- Bitwise complement of a 64-bit word. -/
def not64 (a : ℕ) : ℕ := 2 ^ 64 - 1 - a

/-- Unsigned 64-bit multiplication. -/
def mul64 (a b : ℕ) : ℕ := a * b % 2 ^ 64

/-! Shorter words. -/

def add32 (a b : ℕ) : ℕ := (a + b) % 2 ^ 32

def not32 (a : ℕ) : ℕ := 2 ^ 32 - 1 - a

def not16 (a : ℕ) : ℕ := 2 ^ 16 - 1 - a

theorem add64_of_lt {a b : ℕ} (h : a + b < 2 ^ 64) : add64 a b = a + b :=
  Nat.mod_eq_of_lt h

theorem sub64_of_le {a b : ℕ} (hb : b ≤ a) (ha : a < 2 ^ 64) :
    sub64 a b = a - b := by
  unfold sub64
  omega

theorem add64_lt (a b : ℕ) : add64 a b < 2 ^ 64 := by
  unfold add64
  omega

theorem sub64_lt (a b : ℕ) : sub64 a b < 2 ^ 64 := by
  unfold sub64
  omega

/-! ## Rounding by mask -/

def isAligned (value align : ℕ) : Bool := value % align == 0

def alignDown (value align : ℕ) : ℕ := value &&& not64 (sub64 align 1)

def alignUp (value align : ℕ) : ℕ := alignDown (sub64 (add64 value align) 1) align

/-- Clearing the low `k` bits of a 64-bit word is rounding down to `2 ^ k`. -/
theorem and_not64_two_pow {x k : ℕ} (hk : k ≤ 64) (hx : x < 2 ^ 64) :
    x &&& not64 (2 ^ k - 1) = x / 2 ^ k * 2 ^ k := by
  have hkey : 2 ^ k ≤ 2 ^ 64 := Nat.pow_le_pow_right (by norm_num) hk
  have hmask : not64 (2 ^ k - 1) = 2 ^ 64 - (2 ^ k - 1 + 1) := by
    unfold not64
    omega
  apply Nat.eq_of_testBit_eq
  intro i
  rw [Nat.testBit_and, hmask, Nat.testBit_two_pow_sub_succ (by
    have := Nat.two_pow_pos k
    omega), Nat.testBit_mul_two_pow, Nat.testBit_div_two_pow,
    Nat.testBit_two_pow_sub_one]
  by_cases hi : k ≤ i
  · have hsub : i - k + k = i := by omega
    rw [hsub]
    by_cases h64 : i < 64
    · simp [hi, h64]
    · have hzero : x.testBit i = false :=
        Nat.testBit_lt_two_pow (lt_of_lt_of_le hx
          (Nat.pow_le_pow_right (by norm_num) (by omega)))
      simp [hzero]
  · simp [hi, Nat.lt_of_not_le hi]

theorem and_two_pow_sub_two_pow (x : ℕ) {lo hi : ℕ} (h : lo ≤ hi) :
    x &&& (2 ^ hi - 2 ^ lo) = x % 2 ^ hi / 2 ^ lo * 2 ^ lo := by
  apply Nat.eq_of_testBit_eq
  intro i
  have hmask : (2 ^ hi - 2 ^ lo).testBit i = (decide (lo ≤ i) && decide (i < hi)) := by
    have hpow : 2 ^ hi - 2 ^ lo = (2 ^ (hi - lo) - 1) * 2 ^ lo := by
      rw [Nat.sub_mul, ← pow_add, Nat.sub_add_cancel h, Nat.one_mul]
    rw [hpow, Nat.testBit_mul_two_pow, Nat.testBit_two_pow_sub_one]
    by_cases hi' : lo ≤ i
    · have hiff : i - lo < hi - lo ↔ i < hi := by omega
      simp [hi', hiff]
    · simp [hi']
  rw [Nat.testBit_and, hmask, Nat.testBit_mul_two_pow, Nat.testBit_div_two_pow,
    Nat.testBit_mod_two_pow]
  by_cases hi' : lo ≤ i
  · rw [Nat.sub_add_cancel hi']
    simp [hi', Bool.and_comm]
  · simp [hi']

/-- A multiple of `2 ^ k` and a number below it have no bit in common. -/
theorem and_eq_zero_of_dvd_of_lt {x c k : ℕ} (hx : 2 ^ k ∣ x) (hc : c < 2 ^ k) :
    x &&& c = 0 := by
  obtain ⟨q, rfl⟩ := hx
  apply Nat.eq_of_testBit_eq
  intro i
  rw [Nat.testBit_and, Nat.zero_testBit, Nat.testBit_two_pow_mul]
  by_cases hi : k ≤ i
  · have hzero : c.testBit i = false :=
      Nat.testBit_lt_two_pow (lt_of_lt_of_le hc (Nat.pow_le_pow_right (by norm_num) hi))
    simp [hzero]
  · simp [hi]

theorem alignDown_two_pow {x k : ℕ} (hk : k < 64) (hx : x < 2 ^ 64) :
    alignDown x (2 ^ k) = x / 2 ^ k * 2 ^ k := by
  have hlt : 2 ^ k < 2 ^ 64 := Nat.pow_lt_pow_right (by norm_num) hk
  have hone : 1 ≤ 2 ^ k := Nat.one_le_two_pow
  rw [alignDown, sub64_of_le hone hlt]
  exact and_not64_two_pow hk.le hx

theorem alignUp_two_pow {x k : ℕ} (hk : k < 64) (hx : x + 2 ^ k - 1 < 2 ^ 64) :
    alignUp x (2 ^ k) = (x + 2 ^ k - 1) / 2 ^ k * 2 ^ k := by
  have hone : 1 ≤ 2 ^ k := Nat.one_le_two_pow
  have hinner : sub64 (add64 x (2 ^ k)) 1 = x + 2 ^ k - 1 := by
    unfold sub64 add64
    omega
  rw [alignUp, hinner, alignDown_two_pow hk hx]

theorem le_add_and_not64 {x a : ℕ} (hx : x < 2 ^ 64) (ha : a < 2 ^ 64) :
    x ≤ a + (x &&& not64 a) := by
  obtain ⟨X, hX⟩ : ∃ X : BitVec 64, X.toNat = x := ⟨BitVec.ofNat 64 x, Nat.mod_eq_of_lt hx⟩
  obtain ⟨B, hB⟩ : ∃ B : BitVec 64, B.toNat = a := ⟨BitVec.ofNat 64 a, Nat.mod_eq_of_lt ha⟩
  have hdisjoint : (X &&& B) &&& (X &&& ~~~B) = 0#64 := by
    ext i hi
    grind
  have hunion : (X &&& B) ||| (X &&& ~~~B) = X := by
    ext i hi
    grind
  -- the cleared bits and the others add up to `x`
  have hsum := congrArg BitVec.toNat
    ((BitVec.add_eq_or_of_and_eq_zero _ _ hdisjoint).trans hunion)
  rw [BitVec.toNat_add, BitVec.toNat_and, BitVec.toNat_and, BitVec.toNat_not, hX, hB] at hsum
  have hcleared : x &&& a ≤ a := Nat.and_le_right
  unfold not64
  omega

/-- Rounding up does not go below the value, unless the sum wraps around. -/
theorem le_alignUp {value align : ℕ} (hpos : 0 < align) (h : value + align ≤ 2 ^ 64) :
    value ≤ alignUp value align := by
  have hsum : sub64 (add64 value align) 1 = value + align - 1 := by
    unfold sub64 add64
    omega
  by_cases hlt : align < 2 ^ 64
  · have hmask : sub64 align 1 = align - 1 := sub64_of_le hpos hlt
    have hle := le_add_and_not64 (x := value + align - 1) (a := align - 1) (by omega) (by omega)
    rw [alignUp, alignDown, hsum, hmask]
    omega
  · have hzero : value = 0 := by omega
    rw [hzero]
    exact Nat.zero_le _

end Manticore
