import Manticore.Base.Linked

/-!
# List segments and doubly linked lists by address

`LinkedTo next a xs b` is the part of a linked list from `a` up to, and without, `b`.  A doubly linked
list is a list that is linked forwards from its head and backwards from its tail.  `splice` is the
rule for both directions: redirecting the link of the last node of a segment changes what follows it.
-/

namespace Manticore

/-- From `a` on the nodes are `xs`, and the link of the last one leads to `b`. -/
def LinkedTo (next : ℕ → ℕ) : ℕ → List ℕ → ℕ → Prop
  | a, [], b => a = b
  | a, x :: xs, b => a = x ∧ x ≠ 0 ∧ LinkedTo next (next x) xs b

variable {next next' prev : ℕ → ℕ} {a b c : ℕ} {xs ys zs : List ℕ}

theorem linked_append_iff : ∀ {xs : List ℕ} {a : ℕ},
    Linked next a (xs ++ ys) ↔ ∃ b, LinkedTo next a xs b ∧ Linked next b ys
  | [], a => by
      constructor
      · exact fun h => ⟨a, rfl, h⟩
      · rintro ⟨b, rfl, h⟩
        exact h
  | x :: xs, a => by
      rw [List.cons_append, Linked, linked_append_iff]
      constructor
      · rintro ⟨hx, hne, b, hseg, h⟩
        exact ⟨b, ⟨hx, hne, hseg⟩, h⟩
      · rintro ⟨b, ⟨hx, hne, hseg⟩, h⟩
        exact ⟨hx, hne, b, hseg, h⟩

/-- **Splicing.** The last link of a segment is redirected to another list. -/
theorem LinkedTo.splice : ∀ {xs : List ℕ} {a : ℕ}, LinkedTo next a xs c → xs.Nodup →
    (∀ x, xs.getLast? = some x → next' x = b) →
    (∀ x ∈ xs, xs.getLast? ≠ some x → next' x = next x) → Linked next' b zs →
    Linked next' (if xs = [] then b else a) (xs ++ zs)
  | [], _, _, _, _, _, hb => hb
  | [x], a, h, _, hlast, _, hb => by
      obtain ⟨rfl, hne, -⟩ := h
      refine ⟨rfl, hne, ?_⟩
      rw [hlast a rfl]
      exact hb
  | x :: y :: xs, a, h, hnd, hlast, hsame, hb => by
      obtain ⟨rfl, hne, hseg⟩ := h
      obtain ⟨hnotin, hnd⟩ := List.nodup_cons.mp hnd
      have hgl : (a :: y :: xs).getLast? = (y :: xs).getLast? := List.getLast?_cons_cons
      -- the first node is not the last one, so its link is kept
      have hkeep : next' a = next a := by
        refine hsame a List.mem_cons_self fun hc => hnotin ?_
        exact List.mem_of_getLast? (hgl.symm.trans hc)
      have ih := hseg.splice hnd (fun z hz => hlast z (hgl.trans hz))
        (fun z hz hz' => hsame z (List.mem_cons_of_mem _ hz) fun hc => hz' (hgl.symm.trans hc)) hb
      refine ⟨rfl, hne, ?_⟩
      rw [hkeep]
      exact ih

section Ends

variable {l : List ℕ}

theorem getLast?_getD_mem (h : l.getLast?.getD 0 ≠ 0) : l.getLast?.getD 0 ∈ l := by
  cases hl : l.getLast? with
  | none => exact absurd (by rw [hl]; rfl) h
  | some y => exact List.mem_of_getLast? hl

theorem head?_getD_mem (h : l.head?.getD 0 ≠ 0) : l.head?.getD 0 ∈ l := by
  cases hl : l.head? with
  | none => exact absurd (by rw [hl]; rfl) h
  | some y => exact List.mem_of_head? hl

theorem getLast?_eq_some_getD (hx : a ∈ l) : l.getLast? = some (l.getLast?.getD 0) := by
  cases hl : l.getLast? with
  | none =>
      rw [List.getLast?_eq_none_iff.mp hl] at hx
      cases hx
  | some z => rfl

theorem head?_eq_some_getD (hx : a ∈ l) : l.head? = some (l.head?.getD 0) := by
  cases hl : l.head? with
  | none =>
      rw [List.head?_eq_none_iff.mp hl] at hx
      cases hx
  | some z => rfl

end Ends

theorem Linked.head_eq {l : List ℕ} (h : Linked next a l) : a = l.head?.getD 0 := by
  cases l with
  | nil => exact h
  | cons x xs => exact h.1

/-- A node in the middle ends one segment, and its link starts the rest. -/
theorem Linked.at_node (h : Linked next a (xs ++ c :: ys)) :
    LinkedTo next a xs c ∧ Linked next (next c) ys := by
  obtain ⟨b, hseg, rfl, -, hrest⟩ := linked_append_iff.mp h
  exact ⟨hseg, hrest⟩

/-- The nodes `l`, linked in both directions. -/
structure DLinked (next prev : ℕ → ℕ) (head tail : ℕ) (l : List ℕ) : Prop where
  forward : Linked next head l
  backward : Linked prev tail l.reverse

namespace DLinked

variable {head tail : ℕ}

theorem backward_at (h : DLinked next prev head tail (xs ++ c :: ys)) :
    LinkedTo prev tail ys.reverse c ∧ Linked prev (prev c) xs.reverse := by
  refine Linked.at_node ?_
  have hrev : (xs ++ c :: ys).reverse = ys.reverse ++ c :: xs.reverse := by simp
  exact hrev ▸ h.backward

theorem next_eq (h : DLinked next prev head tail (xs ++ c :: ys)) : next c = ys.head?.getD 0 :=
  h.forward.at_node.2.head_eq

theorem prev_eq (h : DLinked next prev head tail (xs ++ c :: ys)) : prev c = xs.getLast?.getD 0 := by
  rw [← List.head?_reverse]
  exact h.backward_at.2.head_eq

theorem tail_eq {l : List ℕ} (h : DLinked next prev head tail l) : tail = l.getLast?.getD 0 := by
  rw [← List.head?_reverse]
  exact h.backward.head_eq

/-- **The links are inverse to each other.** -/
theorem inverse (h : DLinked next prev head tail (xs ++ a :: b :: ys)) :
    next a = b ∧ prev b = a := by
  have h' : DLinked next prev head tail ((xs ++ [a]) ++ b :: ys) := by
    rw [List.append_assoc]
    exact h
  refine ⟨h.next_eq, ?_⟩
  rw [h'.prev_eq, List.getLast?_concat]
  rfl

end DLinked

end Manticore
