import Mathlib.Data.Nat.ModEq
import Mathlib.Tactic

/-!
# Circular offsets

A ring of `n` slots of `w` bytes stores its `i`-th element at `slot n w i`.  Indices
count every element ever stored, so they never wrap; only the offsets do.  Within a
window of `n` consecutive indices distinct elements have disjoint slots.
-/

namespace Manticore

/-- Byte offset of the `i`-th element ever stored in a ring of `n` slots of `w` bytes. -/
def slot (n w i : ℕ) : ℕ := i % n * w

variable {n w i j q : ℕ}

@[simp] theorem slot_zero : slot n w 0 = 0 := by simp [slot]

theorem slot_add_le (hn : 0 < n) : slot n w i + w ≤ n * w := by
  have hlt : i % n + 1 ≤ n := Nat.mod_lt i hn
  calc slot n w i + w = (i % n + 1) * w := by rw [slot, Nat.succ_mul]
    _ ≤ n * w := Nat.mul_le_mul_right w hlt

theorem slot_lt (hn : 0 < n) (hw : 0 < w) : slot n w i < n * w := by
  have := slot_add_le (w := w) (i := i) hn
  omega

theorem dvd_slot : w ∣ slot n w i := Dvd.intro_left _ rfl

/-- Advancing an offset by one element, back to `0` at the end of the ring. -/
theorem slot_succ (hn : 0 < n) (hw : 0 < w) :
    (if slot n w i + w = n * w then 0 else slot n w i + w) = slot n w (i + 1) := by
  have hlt : i % n < n := Nat.mod_lt i hn
  have hadd : slot n w i + w = (i % n + 1) * w := by rw [slot, Nat.succ_mul]
  rw [hadd]
  by_cases hlast : i % n + 1 = n
  · have hzero : (i + 1) % n = 0 := by
      rw [← Nat.mod_add_mod, hlast, Nat.mod_self]
    rw [if_pos (by rw [hlast]), slot, hzero, Nat.zero_mul]
  · have hne : (i % n + 1) * w ≠ n * w := fun h =>
      hlast (Nat.eq_of_mul_eq_mul_right hw h)
    have hmod : (i + 1) % n = i % n + 1 := by
      rw [← Nat.mod_add_mod, Nat.mod_eq_of_lt (by omega)]
    rw [if_neg hne, slot, hmod]

theorem slot_inj_window (hw : 0 < w) (hqi : q ≤ i) (hiq : i < q + n) (hqj : q ≤ j)
    (hjq : j < q + n) (h : slot n w i = slot n w j) : i = j := by
  have hmod : i % n = j % n := Nat.eq_of_mul_eq_mul_right hw h
  rcases Nat.le_total i j with hij | hij
  · have hdvd : n ∣ j - i := (Nat.modEq_iff_dvd' hij).mp hmod
    have := Nat.eq_zero_of_dvd_of_lt hdvd (by omega)
    omega
  · have hdvd : n ∣ i - j := (Nat.modEq_iff_dvd' hij).mp hmod.symm
    have := Nat.eq_zero_of_dvd_of_lt hdvd (by omega)
    omega

theorem slot_disjoint (hw : 0 < w) (hqi : q ≤ i) (hiq : i < q + n) (hqj : q ≤ j)
    (hjq : j < q + n) (hne : i ≠ j) :
    slot n w i + w ≤ slot n w j ∨ slot n w j + w ≤ slot n w i := by
  have hmod : i % n ≠ j % n := fun h =>
    hne (slot_inj_window hw hqi hiq hqj hjq (by rw [slot, slot, h]))
  rcases Nat.lt_or_gt_of_ne hmod with hlt | hlt
  · left
    calc slot n w i + w = (i % n + 1) * w := by rw [slot, Nat.succ_mul]
      _ ≤ slot n w j := Nat.mul_le_mul_right w hlt
  · right
    calc slot n w j + w = (j % n + 1) * w := by rw [slot, Nat.succ_mul]
      _ ≤ slot n w i := Nat.mul_le_mul_right w hlt

end Manticore
