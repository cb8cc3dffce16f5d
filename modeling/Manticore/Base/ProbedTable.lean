import Mathlib

/-!
# Tables searched slot by slot

A table is a list of slots, each with a key; one key means that the slot is empty.  A search
goes through the slots in some order and takes the first that has the key.  Whatever the
order is, if it visits every slot then the table is a finite map from keys to slots, for as
long as new keys go to empty slots.
-/

namespace Manticore

variable {α K : Type*} [DecidableEq K]

/-- The first slot of `order` that has the key `k`. -/
def findSlot (key : α → K) (table : List α) (k : K) (order : List ℕ) : Option ℕ :=
  order.find? fun idx => ((table[idx]?).map key) == some k

theorem find?_congr_of_mem {p q : α → Bool} {l : List α} (h : ∀ x ∈ l, p x = q x) :
    l.find? p = l.find? q := by
  induction l with
  | nil => rfl
  | cons x xs ih =>
      rw [List.find?_cons, List.find?_cons, h x List.mem_cons_self,
        ih fun y hy => h y (List.mem_cons_of_mem x hy)]

variable {key : α → K} {empty : K} {table : List α} {f : K → Option α} {k : K}
  {order : List ℕ} {i : ℕ} {old e : α}

theorem findSlot_some (h : findSlot key table k order = some i) :
    ∃ e, table[i]? = some e ∧ key e = k := by
  have hkey := List.find?_some h
  rw [beq_iff_eq, Option.map_eq_some_iff] at hkey
  exact hkey

theorem findSlot_none (hall : ∀ i < table.length, i ∈ order)
    (h : findSlot key table k order = none) : ∀ e ∈ table, key e ≠ k := by
  intro e he hk
  obtain ⟨i, hi⟩ := List.mem_iff_getElem?.mp he
  obtain ⟨hlt, -⟩ := List.getElem?_eq_some_iff.mp hi
  have hnot := List.find?_eq_none.mp h i (hall i hlt)
  apply hnot
  rw [hi, Option.map_some, hk, beq_self_eq_true]

/-! ## The map a table stands for -/

/-- The slots with a key are the values of `f`, and no key has two slots. -/
structure IsMap (key : α → K) (empty : K) (table : List α) (f : K → Option α) : Prop where
  unique : ∀ (i j : ℕ) (e e' : α), table[i]? = some e → table[j]? = some e' → key e = key e' →
    key e ≠ empty → i = j
  mem_iff : ∀ k, k ≠ empty → ∀ e, (e ∈ table ∧ key e = k) ↔ f k = some e

omit [DecidableEq K] in
theorem isMap_replicate (n : ℕ) (h : key e = empty) :
    IsMap key empty (List.replicate n e) fun _ => none := by
  have hkey : ∀ i x, (List.replicate n e)[i]? = some x → x = e := fun i x hx =>
    List.eq_of_mem_replicate (List.mem_of_getElem? hx)
  constructor
  · intro i j x y hx _ _ hne
    exact absurd (hkey i x hx ▸ h) hne
  · intro k hk x
    refine ⟨?_, fun hx => nomatch hx⟩
    rintro ⟨hx, rfl⟩
    exact absurd (List.eq_of_mem_replicate hx ▸ h) hk

namespace IsMap

/-- A slot may be given a key that it has already, or, if it is empty, a key no slot has. -/
theorem set (h : IsMap key empty table f) (hi : table[i]? = some old)
    (hold : key old = key e ∨ key old = empty ∧ ∀ x ∈ table, key x ≠ key e)
    (hne : key e ≠ empty) :
    IsMap key empty (table.set i e) (Function.update f (key e) (some e)) := by
  obtain ⟨hlt, -⟩ := List.getElem?_eq_some_iff.mp hi
  have hhere : (table.set i e)[i]? = some e := List.getElem?_set_self hlt
  have helse : ∀ j, j ≠ i → (table.set i e)[j]? = table[j]? := fun j hj =>
    List.getElem?_set_ne (Ne.symm hj)
  -- no other slot has the new key
  have hother : ∀ j x, j ≠ i → table[j]? = some x → key x ≠ key e := by
    intro j x hj hx hkey
    rcases hold with hsame | ⟨-, hnone⟩
    · exact hj (h.unique j i x old hx hi (hkey.trans hsame.symm) (hkey ▸ hne))
    · exact hnone x (List.mem_of_getElem? hx) hkey
  constructor
  · intro a b x y hx hy hkey hx0
    by_cases ha : a = i <;> by_cases hb : b = i
    · rw [ha, hb]
    · rw [ha, hhere] at hx
      rw [helse b hb] at hy
      obtain rfl := Option.some.inj hx
      exact absurd hkey.symm (hother b y hb hy)
    · rw [helse a ha] at hx
      rw [hb, hhere] at hy
      obtain rfl := Option.some.inj hy
      exact absurd hkey (hother a x ha hx)
    · rw [helse a ha] at hx
      rw [helse b hb] at hy
      exact h.unique a b x y hx hy hkey hx0
  · intro k hk x
    by_cases hke : k = key e
    · subst hke
      rw [Function.update_self]
      constructor
      · rintro ⟨hx, hkey⟩
        obtain ⟨j, hj⟩ := List.mem_iff_getElem?.mp hx
        by_cases hji : j = i
        · rw [hji, hhere] at hj
          exact hj
        · rw [helse j hji] at hj
          exact absurd hkey (hother j x hji hj)
      · intro hx
        obtain rfl := Option.some.inj hx
        exact ⟨List.mem_of_getElem? hhere, rfl⟩
    · rw [Function.update_of_ne hke, ← h.mem_iff k hk x]
      constructor
      · rintro ⟨hx, hkey⟩
        obtain ⟨j, hj⟩ := List.mem_iff_getElem?.mp hx
        by_cases hji : j = i
        · rw [hji, hhere] at hj
          obtain rfl := Option.some.inj hj
          exact absurd hkey.symm hke
        · rw [helse j hji] at hj
          exact ⟨List.mem_of_getElem? hj, hkey⟩
      · rintro ⟨hx, hkey⟩
        obtain ⟨j, hj⟩ := List.mem_iff_getElem?.mp hx
        refine ⟨?_, hkey⟩
        by_cases hji : j = i
        · -- the slot that changes had another key
          rw [hji, hi] at hj
          obtain rfl := Option.some.inj hj
          rcases hold with hsame | ⟨hempty, -⟩
          · exact absurd (hkey.symm.trans hsame) hke
          · exact absurd (hkey.symm.trans hempty) hk
        · exact List.mem_of_getElem? ((helse j hji).trans hj)

omit [DecidableEq K] in
theorem set_empty (h : IsMap key empty table f) (hi : table[i]? = some old)
    (hold : key old = empty) (he : key e = empty) : IsMap key empty (table.set i e) f := by
  obtain ⟨hlt, -⟩ := List.getElem?_eq_some_iff.mp hi
  have hget : ∀ (j : ℕ) (x : α), key x ≠ empty → ((table.set i e)[j]? = some x ↔ table[j]? = some x) := by
    intro j x hx
    by_cases hj : j = i
    · subst hj
      rw [List.getElem?_set_self hlt, hi]
      refine iff_of_false (fun heq => ?_) fun heq => ?_
      · exact hx (Option.some.inj heq ▸ he)
      · exact hx (Option.some.inj heq ▸ hold)
    · rw [List.getElem?_set_ne (Ne.symm hj)]
  constructor
  · intro a b x y hx hy hkey hx0
    exact h.unique a b x y ((hget a x hx0).mp hx) ((hget b y (hkey ▸ hx0)).mp hy) hkey hx0
  · intro k hk x
    rw [← h.mem_iff k hk x]
    refine and_congr_left fun hkey => ?_
    rw [List.mem_iff_getElem?, List.mem_iff_getElem?]
    exact exists_congr fun j => hget j x (hkey ▸ hk)

omit [DecidableEq K] in
theorem congr {g : K → Option α} (h : IsMap key empty table f) (hg : ∀ k, k ≠ empty → g k = f k) :
    IsMap key empty table g :=
  ⟨h.unique, fun k hk e => by rw [hg k hk, h.mem_iff k hk]⟩

/-- While fewer keys are in use than there are slots, there is an empty slot. -/
theorem exists_empty (h : IsMap key empty table f) {keys : Finset K}
    (hkeys : ∀ x ∈ table, key x ≠ empty → key x ∈ keys) (hcard : keys.card < table.length) :
    ∃ x ∈ table, key x = empty := by
  by_contra hnone
  push Not at hnone
  have hnodup : (table.map key).Nodup := by
    rw [List.nodup_iff_getElem?_ne_getElem?]
    intro a b hab hb heq
    have hb' : b < table.length := by simpa using hb
    obtain ⟨x, hx⟩ : ∃ x, table[a]? = some x := ⟨_, List.getElem?_eq_getElem (by omega)⟩
    obtain ⟨y, hy⟩ : ∃ y, table[b]? = some y := ⟨_, List.getElem?_eq_getElem hb'⟩
    rw [List.getElem?_map, List.getElem?_map, hx, hy] at heq
    have := h.unique a b x y hx hy (Option.some.inj heq)
      (hnone x (List.mem_of_getElem? hx))
    omega
  have hsub : (table.map key).toFinset ⊆ keys := by
    intro k hk
    obtain ⟨x, hx, rfl⟩ := List.mem_map.mp (List.mem_toFinset.mp hk)
    exact hkeys x hx (hnone x hx)
  have hle := Finset.card_le_card hsub
  rw [List.toFinset_card_of_nodup hnodup, List.length_map] at hle
  omega

end IsMap

end Manticore
