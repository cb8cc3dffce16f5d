import Mathlib.Data.Nat.Digits.Lemmas
import Mathlib.Tactic

/-!
# Numerals

A number in a base, the most significant digit first and with no zero in front of it but in the
numeral of zero.  Reading a numeral back is Horner's rule on the values of its characters; a
character without a value, or with one that is no digit of the base, is refused.
-/

namespace Manticore

variable {base n : ℕ}

def numeral (base n : ℕ) : List ℕ := if n = 0 then [0] else (Nat.digits base n).reverse

theorem numeral_of_lt (h : n < base) : numeral base n = [n] := by
  unfold numeral
  split
  · next h0 => rw [h0]
  · next h0 => rw [Nat.digits_of_lt base n h0 h, List.reverse_singleton]

theorem numeral_of_le (hbase : 1 < base) (h : base ≤ n) :
    numeral base n = numeral base (n / base) ++ [n % base] := by
  have hpos : 0 < n := by omega
  have hdiv : n / base ≠ 0 := (Nat.div_pos h (by omega)).ne'
  rw [numeral, if_neg hpos.ne', Nat.digits_def' hbase hpos, List.reverse_cons, numeral,
    if_neg hdiv]

theorem lt_of_mem_numeral (hbase : 1 < base) {d : ℕ} (hd : d ∈ numeral base n) : d < base := by
  unfold numeral at hd
  split at hd
  · rw [List.mem_singleton.mp hd]
    omega
  · exact Nat.digits_lt_base hbase (List.mem_reverse.mp hd)

theorem length_numeral_le (hbase : 1 < base) {k : ℕ} (hk : 0 < k) (h : n < base ^ k) :
    (numeral base n).length ≤ k := by
  unfold numeral
  split
  · exact hk
  · rw [List.length_reverse]
    exact (Nat.digits_length_le_iff hbase n).mpr h

theorem ofDigits_reverse_numeral (base n : ℕ) :
    Nat.ofDigits base (numeral base n).reverse = n := by
  unfold numeral
  split
  · next h => rw [h]; rfl
  · rw [List.reverse_reverse, Nat.ofDigits_digits]

theorem numeral_eq_of_head?_eq_zero (h : (numeral base n).head? = some 0) :
    numeral base n = [0] := by
  by_cases h0 : n = 0
  · rw [numeral, if_pos h0]
  · have hne : Nat.digits base n ≠ [] := Nat.digits_ne_nil_iff_ne_zero.mpr h0
    rw [numeral, if_neg h0, List.head?_reverse, List.getLast?_eq_some_getLast hne] at h
    exact absurd (Option.some.inj h) (Nat.getLast_digit_ne_zero base h0)

theorem numeral_ne_nil (base n : ℕ) : numeral base n ≠ [] := by
  unfold numeral
  split
  · exact List.cons_ne_nil _ _
  · next h =>
      rw [ne_eq, List.reverse_eq_nil_iff]
      exact Nat.digits_ne_nil_iff_ne_zero.mpr h

/-! ## Reading -/

section reading

variable {α : Type*} (value : α → Option ℕ)

/-- The number that `v` and the digits behind it denote. -/
def readDigits (base : ℕ) : List α → ℕ → Option ℕ
  | [], v => some v
  | c :: cs, v =>
      match value c with
      | some d => if d < base then readDigits base cs (v * base + d) else none
      | none => none

variable {value} {char : ℕ → α}

theorem readDigits_map {ds : List ℕ} (hvalue : ∀ d < base, value (char d) = some d)
    (hds : ∀ d ∈ ds, d < base) (v : ℕ) : readDigits value base (ds.map char) v =
      some (v * base ^ ds.length + Nat.ofDigits base ds.reverse) := by
  induction ds generalizing v with
  | nil => simp [readDigits]
  | cons d ds ih =>
      have hd : d < base := hds d List.mem_cons_self
      have htail : ∀ e ∈ ds, e < base := fun e he => hds e (List.mem_cons_of_mem d he)
      rw [List.map_cons, readDigits, hvalue d hd]
      dsimp only
      rw [if_pos hd, ih htail, List.reverse_cons, Nat.ofDigits_append, List.length_reverse,
        List.length_cons, Nat.ofDigits_singleton]
      congr 1
      ring

/-- **A numeral is read back as its number.** -/
theorem readDigits_numeral (hbase : 1 < base) (hvalue : ∀ d < base, value (char d) = some d)
    (n : ℕ) : readDigits value base ((numeral base n).map char) 0 = some n := by
  rw [readDigits_map hvalue fun d hd => lt_of_mem_numeral hbase hd, ofDigits_reverse_numeral,
    Nat.zero_mul, Nat.zero_add]

end reading

end Manticore
