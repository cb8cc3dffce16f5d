import Mathlib.Logic.Relation
import Mathlib.Data.Fintype.Card
import Mathlib.Data.List.Nodup
import Mathlib.Tactic

/-!
# Depth-first walks without a visited set

Each node holds a list of items; an item is a leaf, or leads to another node.  `walk` lists the
leaves below a node in depth-first order, and is `none` when the fuel does not suffice.  It
keeps no record of the nodes it has seen: it ends exactly when no loop lies below the node, and
lists each leaf once when each node is entered from one item only.
-/

namespace Manticore

open Relation

section loops

variable {β : Type*} {r : β → β → Prop} {b c root : β}

theorem not_transGen_of_acc (h : Acc r b) : ¬ TransGen r b b := by
  have hacc := h.transGen
  clear h
  induction hacc with
  | intro x _ ih => exact fun hloop => ih x hloop hloop

/-- A node with finitely many nodes below it is accessible iff no loop lies below it. -/
theorem acc_iff_no_loop (hfin : {c | ReflTransGen r c b}.Finite) :
    Acc r b ↔ ∀ c, ReflTransGen r c b → ¬ TransGen r c c := by
  constructor
  · intro hacc c hc
    refine not_transGen_of_acc ?_
    induction hc using ReflTransGen.head_induction_on with
    | refl => exact hacc
    | head hstep _ ih => exact ih.inv hstep
  · intro hno
    -- below `b`, "strictly below" is an order without infinite descent
    have := hfin.to_subtype
    let below (x y : {c | ReflTransGen r c b}) : Prop := TransGen r x.1 y.1
    have htrans : IsTrans _ below := ⟨fun _ _ _ => TransGen.trans⟩
    have hirrefl : Std.Irrefl below := ⟨fun x => hno x.1 x.2⟩
    have hwf : WellFounded below := Finite.wellFounded_of_trans_of_irrefl below
    have hall : ∀ x : {c | ReflTransGen r c b}, Acc r x.1 := fun x => by
      induction x using hwf.induction with
      | _ x ih => exact ⟨_, fun y hy => ih ⟨y, x.2.head hy⟩ (.single hy)⟩
    exact hall ⟨b, .refl⟩

/-- With one parent for each node and none for the root, no loop lies below the root. -/
theorem not_transGen_of_tree (huniq : Relator.RightUnique r) (hroot : ∀ b, ¬ r root b)
    (h : ReflTransGen r c root) : ¬ TransGen r c c := by
  induction h using ReflTransGen.head_induction_on with
  | refl =>
      intro hloop
      obtain ⟨b, hb, -⟩ := TransGen.head'_iff.mp hloop
      exact hroot b hb
  | head hcb _ ih =>
      intro hloop
      obtain ⟨b', hcb', hback⟩ := TransGen.head'_iff.mp hloop
      obtain rfl := huniq hcb hcb'
      exact ih (TransGen.tail' hback hcb)

end loops

variable {α β : Type*} (next : α → Option β) (items : β → List α)

/-- The leaves below one item, `rec` listing those below a node. -/
def visit (rec : β → Option (List α)) (a : α) : Option (List α) :=
  match next a with
  | none => some [a]
  | some c => rec c

def walkItems (rec : β → Option (List α)) : List α → Option (List α)
  | [] => some []
  | a :: as => do
      let l ← visit next rec a
      let ls ← walkItems rec as
      some (l ++ ls)

/-- The leaves below a node, up to `fuel` nodes deep. -/
def walk : ℕ → β → Option (List α)
  | 0, _ => none
  | fuel + 1, b => walkItems next (walk fuel) (items b)

/-- An item of `b` leads to `c`. -/
def ChildOf (c b : β) : Prop := ∃ a ∈ items b, next a = some c

variable {next items} {rec : β → Option (List α)} {fuel : ℕ} {a : α} {b c : β}
  {as bs l : List α}

theorem walkItems_eq_some : walkItems next rec as = some l ↔
    (∀ a ∈ as, (visit next rec a).isSome) ∧ l = as.flatMap fun a => (visit next rec a).getD [] := by
  induction as generalizing l with
  | nil =>
      rw [walkItems, Option.some.injEq, List.flatMap_nil]
      exact ⟨fun h => ⟨by simp, h.symm⟩, fun h => h.2.symm⟩
  | cons a as ih =>
      simp only [walkItems, Option.bind_eq_bind, Option.bind_eq_some_iff, ih, List.forall_mem_cons,
        List.flatMap_cons, Option.some.injEq]
      constructor
      · rintro ⟨l₁, hl₁, l₂, ⟨has, rfl⟩, rfl⟩
        exact ⟨⟨by simp [hl₁], has⟩, by simp [hl₁]⟩
      · rintro ⟨⟨ha, has⟩, rfl⟩
        obtain ⟨l₁, hl₁⟩ := Option.isSome_iff_exists.mp ha
        exact ⟨l₁, hl₁, _, ⟨has, rfl⟩, by simp [hl₁]⟩

theorem walkItems_append : walkItems next rec (as ++ bs) =
    (walkItems next rec as).bind fun l => (walkItems next rec bs).map fun ls => l ++ ls := by
  induction as with
  | nil => simp [walkItems]
  | cons a as ih =>
      simp only [List.cons_append, walkItems, ih, Option.bind_eq_bind]
      cases visit next rec a <;> cases walkItems next rec as <;> cases walkItems next rec bs <;>
        simp

/-! ## Fuel -/

theorem walk_succ (h : walk next items fuel b = some l) :
    walk next items (fuel + 1) b = some l := by
  induction fuel generalizing b l with
  | zero => cases h
  | succ fuel ih =>
      obtain ⟨hsome, rfl⟩ := walkItems_eq_some.mp h
      have hsame : ∀ a ∈ items b, visit next (walk next items (fuel + 1)) a =
          visit next (walk next items fuel) a := by
        intro a ha
        obtain ⟨l, hl⟩ := Option.isSome_iff_exists.mp (hsome a ha)
        rw [hl]
        unfold visit at hl ⊢
        split at hl
        · exact hl
        · exact ih hl
      refine walkItems_eq_some.mpr ⟨fun a ha => hsame a ha ▸ hsome a ha, ?_⟩
      exact List.flatMap_congr fun a ha => by rw [hsame a ha]

theorem walk_of_le {fuel' : ℕ} (hle : fuel ≤ fuel') (h : walk next items fuel b = some l) :
    walk next items fuel' b = some l := by
  induction hle with
  | refl => exact h
  | step _ ih => exact walk_succ ih

theorem exists_fuel_forall {nodes : List β}
    (h : ∀ b ∈ nodes, ∃ fuel, (walk next items fuel b).isSome) :
    ∃ fuel, ∀ b ∈ nodes, (walk next items fuel b).isSome := by
  induction nodes with
  | nil => exact ⟨0, by simp⟩
  | cons b nodes ih =>
      obtain ⟨⟨n, hn⟩, hnodes⟩ := List.forall_mem_cons.mp h
      obtain ⟨m, hm⟩ := ih hnodes
      have hmore : ∀ c k, k ≤ max n m → (walk next items k c).isSome →
          (walk next items (max n m) c).isSome := by
        intro c k hk hc
        obtain ⟨l, hl⟩ := Option.isSome_iff_exists.mp hc
        rw [walk_of_le hk hl]
        rfl
      exact ⟨max n m, List.forall_mem_cons.mpr ⟨hmore b n (le_max_left _ _) hn,
        fun c hc => hmore c m (le_max_right _ _) (hm c hc)⟩⟩

/-- **The walk ends exactly at the accessible nodes.** -/
theorem exists_walk_iff_acc :
    (∃ fuel, (walk next items fuel b).isSome) ↔ Acc (ChildOf next items) b := by
  constructor
  · rintro ⟨fuel, h⟩
    induction fuel generalizing b with
    | zero => cases h
    | succ fuel ih =>
        obtain ⟨l, hl⟩ := Option.isSome_iff_exists.mp h
        obtain ⟨hsome, -⟩ := walkItems_eq_some.mp hl
        refine ⟨_, fun c hc => ?_⟩
        obtain ⟨a, ha, hnext⟩ := hc
        have hvisit := hsome a ha
        rw [visit, hnext] at hvisit
        exact ih hvisit
  · intro hacc
    induction hacc with
    | intro b _ ih =>
        have hchildren : ∀ c ∈ (items b).filterMap next,
            ∃ fuel, (walk next items fuel c).isSome := by
          intro c hc
          obtain ⟨a, ha, hnext⟩ := List.mem_filterMap.mp hc
          exact ih c ⟨a, ha, hnext⟩
        obtain ⟨fuel, hfuel⟩ := exists_fuel_forall hchildren
        refine ⟨fuel + 1, Option.isSome_iff_exists.mpr ⟨_, walkItems_eq_some.mpr ⟨?_, rfl⟩⟩⟩
        intro a ha
        unfold visit
        split
        · rfl
        · next c hnext => exact hfuel c (List.mem_filterMap.mpr ⟨a, ha, hnext⟩)

/-! ## What the walk lists -/

/-- `a` is a leaf at `b` or below it. -/
def LeafBelow (next : α → Option β) (items : β → List α) (a : α) (b : β) : Prop :=
  next a = none ∧ ∃ c, ReflTransGen (ChildOf next items) c b ∧ a ∈ items c

theorem mem_visit {a' : α} (hrec : ∀ c l, rec c = some l → (a ∈ l ↔ LeafBelow next items a c))
    (h : visit next rec a' = some l) :
    a ∈ l ↔ (next a' = none ∧ a = a') ∨ ∃ c, next a' = some c ∧ LeafBelow next items a c := by
  unfold visit at h
  split at h
  · next hnext =>
      obtain rfl := Option.some.inj h
      simp [hnext]
  · next c hnext => simp [hnext, hrec c l h]

/-- **The walk lists the leaves below the node.** -/
theorem mem_walk (h : walk next items fuel b = some l) : a ∈ l ↔ LeafBelow next items a b := by
  induction fuel generalizing b l with
  | zero => cases h
  | succ fuel ih =>
      obtain ⟨hsome, rfl⟩ := walkItems_eq_some.mp h
      have hmem : ∀ a' ∈ items b, (a ∈ (visit next (walk next items fuel) a').getD [] ↔
          (next a' = none ∧ a = a') ∨ ∃ c, next a' = some c ∧ LeafBelow next items a c) := by
        intro a' ha'
        obtain ⟨l, hl⟩ := Option.isSome_iff_exists.mp (hsome a' ha')
        rw [hl, Option.getD_some]
        exact mem_visit (fun _ _ => ih) hl
      rw [List.mem_flatMap]
      constructor
      · rintro ⟨a', ha', hin⟩
        rcases (hmem a' ha').mp hin with ⟨hleaf, rfl⟩ | ⟨c, hnext, hleaf, d, hd, had⟩
        · exact ⟨hleaf, b, .refl, ha'⟩
        · exact ⟨hleaf, d, hd.tail ⟨a', ha', hnext⟩, had⟩
      · rintro ⟨hleaf, d, hd, had⟩
        rcases hd.cases_tail with rfl | ⟨c, hdc, a', ha', hnext⟩
        · exact ⟨a, had, (hmem a had).mpr (Or.inl ⟨hleaf, rfl⟩)⟩
        · exact ⟨a', ha', (hmem a' ha').mpr (Or.inr ⟨c, hnext, hleaf, d, hdc, had⟩)⟩

/-- Each item lies at one node, once, and each node is entered from one item. -/
structure IsForest (next : α → Option β) (items : β → List α) : Prop where
  nodup : ∀ b, (items b).Nodup
  place : ∀ {a b c}, a ∈ items b → a ∈ items c → b = c
  entry : ∀ {a a' b b' c}, a ∈ items b → a' ∈ items b' → next a = some c → next a' = some c →
    a = a'

theorem IsForest.rightUnique (h : IsForest next items) :
    Relator.RightUnique (ChildOf next items) := by
  rintro c b₁ b₂ ⟨a₁, h₁, hn₁⟩ ⟨a₂, h₂, hn₂⟩
  obtain rfl := h.entry h₁ h₂ hn₁ hn₂
  exact h.place h₁ h₂

theorem IsForest.disjoint_items (h : IsForest next items) (hacc : Acc (ChildOf next items) b)
    {a₁ a₂ x : α} (h₁ : a₁ ∈ items b) (h₂ : a₂ ∈ items b) (hne : a₁ ≠ a₂)
    (hx₁ : (next a₁ = none ∧ x = a₁) ∨ ∃ c, next a₁ = some c ∧ LeafBelow next items x c)
    (hx₂ : (next a₂ = none ∧ x = a₂) ∨ ∃ c, next a₂ = some c ∧ LeafBelow next items x c) :
    False := by
  have hnotBack : ∀ {c}, ChildOf next items c b → ¬ ReflTransGen (ChildOf next items) b c :=
    fun hc hback => not_transGen_of_acc hacc (TransGen.tail' hback hc)
  -- the way up from one child to another leads through their parent
  have hnotAcross : ∀ {c₁ c₂ : β}, ChildOf next items c₁ b → ChildOf next items c₂ b →
      c₁ ≠ c₂ → ¬ ReflTransGen (ChildOf next items) c₁ c₂ := by
    intro c₁ c₂ hc₁ hc₂ hne hup
    rcases hup.cases_head with rfl | ⟨e, he, hup⟩
    · exact hne rfl
    · obtain rfl := h.rightUnique hc₁ he
      exact hnotBack hc₂ hup
  rcases hx₁ with ⟨-, rfl⟩ | ⟨c₁, hn₁, -, d₁, hd₁, hxd₁⟩ <;>
    rcases hx₂ with ⟨-, rfl⟩ | ⟨c₂, hn₂, -, d₂, hd₂, hxd₂⟩
  · exact hne rfl
  · obtain rfl := h.place h₁ hxd₂
    exact hnotBack ⟨a₂, h₂, hn₂⟩ hd₂
  · obtain rfl := h.place h₂ hxd₁
    exact hnotBack ⟨a₁, h₁, hn₁⟩ hd₁
  · obtain rfl := h.place hxd₁ hxd₂
    have hcne : c₁ ≠ c₂ := by
      rintro rfl
      exact hne (h.entry h₁ h₂ hn₁ hn₂)
    rcases hd₁.total_of_right_unique h.rightUnique hd₂ with hup | hup
    · exact hnotAcross ⟨a₁, h₁, hn₁⟩ ⟨a₂, h₂, hn₂⟩ hcne hup
    · exact hnotAcross ⟨a₂, h₂, hn₂⟩ ⟨a₁, h₁, hn₁⟩ hcne.symm hup

/-- **No leaf is listed twice in a forest.** -/
theorem IsForest.nodup_walk (hf : IsForest next items) (h : walk next items fuel b = some l) :
    l.Nodup := by
  induction fuel generalizing b l with
  | zero => cases h
  | succ fuel ih =>
      have hacc := exists_walk_iff_acc.mp ⟨_, Option.isSome_iff_exists.mpr ⟨l, h⟩⟩
      obtain ⟨hsome, rfl⟩ := walkItems_eq_some.mp h
      refine List.nodup_flatMap.mpr ⟨fun a ha => ?_, ?_⟩
      · obtain ⟨l, hl⟩ := Option.isSome_iff_exists.mp (hsome a ha)
        rw [hl, Option.getD_some]
        unfold visit at hl
        split at hl
        · obtain rfl := Option.some.inj hl
          exact List.nodup_singleton a
        · exact ih hl
      · refine (hf.nodup b).pairwise_of_forall_ne fun a₁ h₁ a₂ h₂ hne x hx₁ hx₂ => ?_
        obtain ⟨l₁, hl₁⟩ := Option.isSome_iff_exists.mp (hsome a₁ h₁)
        obtain ⟨l₂, hl₂⟩ := Option.isSome_iff_exists.mp (hsome a₂ h₂)
        simp only [hl₁, hl₂, Option.getD_some] at hx₁ hx₂
        exact hf.disjoint_items hacc h₁ h₂ hne ((mem_visit (fun _ _ => mem_walk) hl₁).mp hx₁)
          ((mem_visit (fun _ _ => mem_walk) hl₂).mp hx₂)

end Manticore
