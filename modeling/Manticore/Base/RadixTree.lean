import Mathlib.Data.List.Basic
import Mathlib.Tactic

/-!
# Radix trees of tables

A tree of tables hanging off a root table.  The entries are given by a function
`child`: the table that entry `i` of table `t` leads to when `t` sits at depth `d`.
A path lists the indices taken, the last one first, so that its length is the depth
of the table it leads to.
-/

namespace Manticore

variable {τ ι : Type*}

/-- The table a path leads to. -/
def descend (child : ℕ → τ → ι → Option τ) (root : τ) : List ι → Option τ
  | [] => some root
  | i :: path => (descend child root path).bind fun t => child path.length t i

/-- No table is reached by two paths. -/
def NoShare (child : ℕ → τ → ι → Option τ) (root : τ) : Prop :=
  ∀ p q t, descend child root p = some t → descend child root q = some t → p = q

variable {child child' : ℕ → τ → ι → Option τ} {root t f : τ} {i : ι} {p : List ι}

theorem descend_cons_of_some (h : descend child root p = some t) :
    descend child root (i :: p) = child p.length t i := by
  rw [descend, h, Option.bind_some]

theorem descend_cons_of_none (h : descend child root p = none) :
    descend child root (i :: p) = none := by
  rw [descend, h, Option.bind_none]

theorem descend_congr
    (hsame : ∀ q u j, descend child root q = some u → child' q.length u j = child q.length u j) :
    ∀ q, descend child' root q = descend child root q
  | [] => rfl
  | j :: q => by
      have ih := descend_congr hsame q
      cases hq : descend child root q with
      | none => rw [descend_cons_of_none (ih.trans hq), descend_cons_of_none hq]
      | some u =>
          rw [descend_cons_of_some (ih.trans hq), descend_cons_of_some hq]
          exact hsame q u j hq

/-- **Linking an empty table.** Entry `i` of the table at `p`, empty before, now leads
to the new table `f`, which leads nowhere: the paths are the old ones and `i :: p`. -/
theorem descend_link [DecidableEq ι] (hp : descend child root p = some t)
    (hnone : child p.length t i = none) (hnew : child' p.length t i = some f)
    (hempty : ∀ d j, child' d f j = none)
    (hsame : ∀ q u j, descend child root q = some u → ¬ (q = p ∧ j = i) →
      child' q.length u j = child q.length u j) :
    ∀ q, descend child' root q = if q = i :: p then some f else descend child root q
  | [] => by simp [descend]
  | j :: q => by
      have ih := descend_link hp hnone hnew hempty hsame q
      by_cases hq : q = i :: p
      · -- Below the new table there is nothing, as there was nothing below the old entry.
        rw [if_pos hq] at ih
        have hold : descend child root q = none := by
          rw [hq, descend_cons_of_some hp, hnone]
        have hne : j :: q ≠ i :: p := by
          intro h
          have := congrArg List.length h
          rw [hq] at this
          simp at this
        rw [descend_cons_of_some ih, hempty, if_neg hne, descend_cons_of_none hold]
      · rw [if_neg hq] at ih
        cases hu : descend child root q with
        | none =>
            have hne : j :: q ≠ i :: p := by
              rintro h
              cases h
              rw [hp] at hu
              cases hu
            rw [descend_cons_of_none (ih.trans hu), if_neg hne, descend_cons_of_none hu]
        | some u =>
            rw [descend_cons_of_some (ih.trans hu), descend_cons_of_some hu]
            by_cases hji : q = p ∧ j = i
            · obtain ⟨rfl, rfl⟩ := hji
              have hut : t = u := Option.some.inj (hp.symm.trans hu)
              rw [if_pos rfl, ← hut, hnew]
            · have hne : j :: q ≠ i :: p := by
                intro h
                exact hji ⟨(List.cons.inj h).2, (List.cons.inj h).1⟩
              rw [if_neg hne, hsame q u j hu hji]

/-- A table that was not part of the tree can be linked without sharing. -/
theorem NoShare.link [DecidableEq ι] (h : NoShare child root)
    (hfresh : ∀ q, descend child root q ≠ some f)
    (hlink : ∀ q, descend child' root q = if q = i :: p then some f else descend child root q) :
    NoShare child' root := by
  intro q q' u hq hq'
  rw [hlink] at hq hq'
  split at hq <;> split at hq'
  · rename_i h1 h2
    rw [h1, h2]
  · cases hq
    exact absurd hq' (hfresh q')
  · cases hq'
    exact absurd hq (hfresh q)
  · exact h q q' u hq hq'

end Manticore
