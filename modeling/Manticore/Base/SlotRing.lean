import Mathlib.Tactic

/-!
# Rings with free-running counters

A writer puts its `n`-th entry in slot `n % q`, and names entries by a counter that wraps at a
multiple of `q`.  The last `q` entries can be read back.
-/

namespace Manticore

variable {α : Type*}

/-- The last `q` entries of `hist` are in their slots. -/
def SlotsHold (ring : ℕ → α) (q : ℕ) (hist : List α) : Prop :=
  ∀ i, i < hist.length → hist.length ≤ i + q → hist[i]? = some (ring (i % q))

theorem SlotsHold.nil (ring : ℕ → α) (q : ℕ) : SlotsHold ring q [] :=
  fun _ h => absurd h (Nat.not_lt_zero _)

theorem mod_ne_of_lt {i n q : ℕ} (hi : i < n) (hn : n < i + q) : i % q ≠ n % q := by
  intro heq
  have hdvd : q ∣ n - i := (Nat.modEq_iff_dvd' hi.le).mp heq
  have := Nat.le_of_dvd (by omega) hdvd
  omega

theorem SlotsHold.push {ring : ℕ → α} {q : ℕ} {hist : List α} (h : SlotsHold ring q hist) (e : α) :
    SlotsHold (Function.update ring (hist.length % q) e) q (hist ++ [e]) := by
  intro i hi hq
  rw [List.length_append, List.length_singleton] at hi hq
  by_cases hlast : i = hist.length
  · rw [hlast, Function.update_self, List.getElem?_concat_length]
  · rw [List.getElem?_append_left (by omega), h i (by omega) (by omega),
      Function.update_of_ne (mod_ne_of_lt (by omega) (by omega))]

theorem slot_of_counter {q m : ℕ} (h : q ∣ m) (n : ℕ) : n % m % q = n % q :=
  Nat.mod_mod_of_dvd n h

theorem counter_succ (n m : ℕ) : (n % m + 1) % m = (n + 1) % m := by
  rw [Nat.mod_add_mod]

/-- Counters that are less than a period apart are equal only if they are the same. -/
theorem counter_inj {a b m : ℕ} (hle : a ≤ b) (hlt : b < a + m) : a % m = b % m ↔ a = b := by
  constructor
  · intro heq
    by_contra hne
    exact mod_ne_of_lt (lt_of_le_of_ne hle hne) hlt heq
  · rintro rfl
    rfl

end Manticore
