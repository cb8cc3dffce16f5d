import Mathlib.Data.List.Basic
import Mathlib.Tactic

/-!
# Linked lists by address

A singly linked list is given by the address of its first node and a function that
reads the link out of a node; address `0` ends it.  `Linked next a l` says that the
list starting at `a` has exactly the nodes `l`, in order.
-/

namespace Manticore

/-- The nodes met from `a` on, up to the null address, are `l`. -/
def Linked (next : ℕ → ℕ) : ℕ → List ℕ → Prop
  | a, [] => a = 0
  | a, x :: xs => a = x ∧ x ≠ 0 ∧ Linked next (next x) xs

namespace Linked

variable {next next' : ℕ → ℕ} {a x : ℕ} {l : List ℕ}

theorem congr : ∀ {l : List ℕ} {a : ℕ}, (∀ x ∈ l, next' x = next x) → Linked next a l →
    Linked next' a l
  | [], _, _, h => h
  | x :: xs, a, hsame, h => by
      obtain ⟨rfl, hne, htail⟩ := h
      refine ⟨rfl, hne, ?_⟩
      rw [hsame a List.mem_cons_self]
      exact congr (fun y hy => hsame y (List.mem_cons_of_mem _ hy)) htail

theorem eq_zero_iff (h : Linked next a l) : a = 0 ↔ l = [] := by
  cases l with
  | nil => simp [show a = 0 from h]
  | cons x xs =>
      obtain ⟨rfl, hne, -⟩ := h
      simp [hne]

theorem ne_zero_of_mem : ∀ {l : List ℕ} {a : ℕ}, Linked next a l → x ∈ l → x ≠ 0
  | y :: ys, a, h, hx => by
      obtain ⟨rfl, hne, htail⟩ := h
      rcases List.mem_cons.mp hx with rfl | hx
      · exact hne
      · exact ne_zero_of_mem htail hx

end Linked

end Manticore
