import Mathlib.Data.List.Basic
import Mathlib.Data.List.Sort
import Mathlib.Tactic

/-!
# Ordered trees as sorted lists

A search tree keyed by a natural number, seen as the list of its elements in order.
Keys may repeat; an element goes after those with the same key.  The lemmas are about
trees whose keys are distinct, `KeySorted`.
-/

namespace Manticore

variable {α : Type*} (key : α → ℕ)

/-- Insert `a` at its place, after elements with the same key. -/
def treeInsert (a : α) : List α → List α
  | [] => [a]
  | x :: xs => if key a < key x then a :: x :: xs else x :: treeInsert a xs

/-- The element with key `k`. -/
def treeFind (k : ℕ) (l : List α) : Option α := l.find? fun x => key x == k

/-- The last element whose key is below `k`. -/
def treeUpperBound (k : ℕ) (l : List α) : Option α :=
  (l.filter fun x => decide (key x < k)).getLast?

/-- Distinct keys, in order. -/
def KeySorted (l : List α) : Prop := l.Pairwise fun x y => key x < key y

variable {key} {a x : α} {k : ℕ}

theorem treeInsert_perm (key : α → ℕ) (a : α) : ∀ l : List α, (treeInsert key a l).Perm (a :: l)
  | [] => List.Perm.refl _
  | y :: ys => by
      unfold treeInsert
      split
      · exact List.Perm.refl _
      · exact ((treeInsert_perm key a ys).cons y).trans (List.Perm.swap a y ys)

theorem mem_treeInsert : ∀ {l : List α}, x ∈ treeInsert key a l ↔ x = a ∨ x ∈ l
  | [] => by simp [treeInsert]
  | y :: ys => by
      unfold treeInsert
      split
      · simp
      · rw [List.mem_cons, mem_treeInsert, List.mem_cons]
        tauto

theorem pairwise_treeInsert {R : α → α → Prop} : ∀ {l : List α}, l.Pairwise R →
    (∀ y ∈ l, key a < key y → R a y) → (∀ y ∈ l, key y ≤ key a → R y a) →
    (l.Pairwise fun x y => key x ≤ key y) → (treeInsert key a l).Pairwise R
  | [], _, _, _, _ => List.pairwise_singleton _ _
  | y :: ys, hl, hlt, hle, hsort => by
      rcases List.pairwise_cons.mp hl with ⟨hy, hys⟩
      rcases List.pairwise_cons.mp hsort with ⟨hsy, hsys⟩
      unfold treeInsert
      split
      · rename_i hay
        refine List.pairwise_cons.mpr ⟨?_, hl⟩
        intro z hz
        rcases List.mem_cons.mp hz with rfl | hz'
        · exact hlt _ List.mem_cons_self hay
        · exact hlt z hz (lt_of_lt_of_le hay (hsy z hz'))
      · rename_i hay
        refine List.pairwise_cons.mpr ⟨?_, ?_⟩
        · intro z hz
          rcases mem_treeInsert.mp hz with rfl | hz'
          · exact hle y List.mem_cons_self (Nat.le_of_not_lt hay)
          · exact hy z hz'
        · exact pairwise_treeInsert hys (fun z hz => hlt z (List.mem_cons_of_mem _ hz))
            (fun z hz => hle z (List.mem_cons_of_mem _ hz)) hsys

theorem treeFind_some {l : List α} (h : treeFind key k l = some x) : x ∈ l ∧ key x = k :=
  ⟨List.mem_of_find?_eq_some h, by simpa using List.find?_some h⟩

theorem treeFind_none {l : List α} (h : treeFind key k l = none) :
    ∀ y ∈ l, key y ≠ k := by
  intro y hy
  simpa using List.find?_eq_none.mp h y hy

theorem treeFind_treeInsert_self : ∀ {l : List α}, (∀ y ∈ l, key y ≠ key a) →
    treeFind key (key a) (treeInsert key a l) = some a
  | [], _ => by simp [treeFind, treeInsert]
  | y :: ys, h => by
      have hy : key y ≠ key a := h y List.mem_cons_self
      have ih := treeFind_treeInsert_self fun z hz => h z (List.mem_cons_of_mem y hz)
      unfold treeInsert
      split
      · simp [treeFind]
      · rw [treeFind, List.find?_cons_of_neg (by simpa using hy)]
        exact ih

theorem treeUpperBound_some {l : List α} (hl : KeySorted key l)
    (h : treeUpperBound key k l = some x) :
    x ∈ l ∧ key x < k ∧ ∀ y ∈ l, key y < k → key y ≤ key x := by
  unfold treeUpperBound at h
  obtain ⟨pre, hpre⟩ := List.getLast?_eq_some_iff.mp h
  have hx : x ∈ l.filter fun x => decide (key x < k) := by simp [hpre]
  rw [List.mem_filter, decide_eq_true_eq] at hx
  refine ⟨hx.1, hx.2, ?_⟩
  intro y hy hyk
  have hmem : y ∈ l.filter fun x => decide (key x < k) :=
    List.mem_filter.mpr ⟨hy, by simpa using hyk⟩
  have hsorted := List.Pairwise.filter (fun x => decide (key x < k)) hl
  rw [hpre] at hmem hsorted
  rcases List.mem_append.mp hmem with hm | hm
  · exact le_of_lt ((List.pairwise_append.mp hsorted).2.2 y hm x (by simp))
  · rw [List.mem_singleton.mp hm]

theorem treeUpperBound_none {l : List α} (h : treeUpperBound key k l = none) :
    ∀ y ∈ l, k ≤ key y := by
  intro y hy
  unfold treeUpperBound at h
  rw [List.getLast?_eq_none_iff] at h
  by_contra hlt
  have hmem : y ∈ l.filter fun x => decide (key x < k) :=
    List.mem_filter.mpr ⟨hy, by simpa using hlt⟩
  rw [h] at hmem
  simp at hmem

end Manticore
