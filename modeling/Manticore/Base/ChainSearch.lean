import Mathlib.Data.Fintype.Card
import Mathlib.Data.List.Nodup
import Mathlib.Tactic

/-!
# Searching a chain

A chain is walked by a function `next` until an element `isEnd`.  `searchFrom` looks for the first
element that meets `p`, `searchAgain` goes on from one match to the next until a second test is met,
and `collectFrom` lists all matches by searching on from each.  Running out of fuel is `none`.

Nothing stops such a search on a loop.  What it does on a chain that ends is in terms of the elements
of the chain (`Chain`), and whether it ends at all is in terms of the iterates of `next`.
-/

namespace Manticore

variable {α β : Type*} (next : α → α) (isEnd p q : α → Bool)

/-- The first element from `a` on that meets `p`. -/
def searchFrom : ℕ → α → Option (Option α)
  | 0, _ => none
  | fuel + 1, a =>
      if isEnd a then some none
      else if p a then some (some a)
      else searchFrom fuel (next a)

/-- The first match from `found` on that meets `q`. -/
def searchAgain (fuel : ℕ) : ℕ → Option α → Option (Option α)
  | _, none => some none
  | 0, some _ => none
  | n + 1, some a =>
      if q a then some (some a)
      else (searchFrom next isEnd p fuel (next a)).bind (searchAgain fuel n)

/-- All matches from `found` on. -/
def collectFrom (fuel : ℕ) : ℕ → Option α → Option (List α)
  | _, none => some []
  | 0, some _ => none
  | n + 1, some a =>
      (searchFrom next isEnd p fuel (next a)).bind fun found =>
        (collectFrom fuel n found).map (a :: ·)

/-- The elements from `a` up to the end are `l`. -/
inductive Chain : α → List α → Prop
  | nil {a : α} : isEnd a → Chain a []
  | cons {a : α} {l : List α} : ¬ isEnd a → Chain (next a) l → Chain a (a :: l)

section Chain

variable {next isEnd p q} {a b : α} {l l' : List α} {fuel n : ℕ}

namespace Chain

theorem unique (h : Chain next isEnd a l) (h' : Chain next isEnd a l') : l = l' := by
  induction h generalizing l' with
  | nil hend =>
      cases h' with
      | nil => rfl
      | cons hne => exact absurd hend hne
  | cons hne _ ih =>
      cases h' with
      | nil hend => exact absurd hend hne
      | cons _ htail => rw [ih htail]

theorem suffix (h : Chain next isEnd a l) (hb : b ∈ l) :
    ∃ l', (b :: l').length ≤ l.length ∧ Chain next isEnd b (b :: l') := by
  induction h with
  | nil => cases hb
  | @cons a l hne htail ih =>
      rcases List.mem_cons.mp hb with rfl | hmem
      · exact ⟨l, le_rfl, .cons hne htail⟩
      · obtain ⟨l', hle, hsuffix⟩ := ih hmem
        exact ⟨l', hle.trans (Nat.le_succ _), hsuffix⟩

theorem nodup (h : Chain next isEnd a l) : l.Nodup := by
  induction h with
  | nil => exact List.nodup_nil
  | @cons a l hne htail ih =>
      refine List.nodup_cons.mpr ⟨fun hmem => ?_, ih⟩
      obtain ⟨l', hle, hsuffix⟩ := htail.suffix hmem
      -- `a` would start a chain and a shorter one.
      have heq := unique (.cons hne htail) hsuffix
      rw [← heq, List.length_cons] at hle
      omega

theorem searchFrom_eq (h : Chain next isEnd a l) (hfuel : l.length < fuel) :
    searchFrom next isEnd p fuel a = some (l.find? p) := by
  induction h generalizing fuel with
  | nil hend =>
      obtain ⟨fuel, rfl⟩ := Nat.exists_eq_succ_of_ne_zero (Nat.ne_zero_of_lt hfuel)
      rw [searchFrom, if_pos hend]
      rfl
  | @cons a l hne htail ih =>
      obtain ⟨fuel, rfl⟩ := Nat.exists_eq_succ_of_ne_zero (Nat.ne_zero_of_lt hfuel)
      rw [searchFrom, if_neg hne, List.find?_cons]
      cases p a with
      | true => rfl
      | false => exact ih (Nat.lt_of_succ_lt_succ hfuel)

theorem searchAgain_eq (h : Chain next isEnd a l) (hfuel : l.length < fuel) (hn : l.length ≤ n) :
    searchAgain next isEnd p q fuel n (l.find? p) = some (l.find? fun x => p x && q x) := by
  induction h generalizing n with
  | nil => rw [List.find?_nil, searchAgain, List.find?_nil]
  | @cons a l hne htail ih =>
      rw [List.length_cons] at hfuel hn
      rw [List.find?_cons, List.find?_cons]
      cases hp : p a with
      | false => exact ih (by omega) (by omega)
      | true =>
          obtain ⟨n, rfl⟩ := Nat.exists_eq_succ_of_ne_zero (Nat.ne_zero_of_lt hn)
          rw [searchAgain, Bool.true_and]
          cases hq : q a with
          | true => rfl
          | false =>
              rw [if_neg Bool.false_ne_true, htail.searchFrom_eq (by omega), Option.bind_some]
              exact ih (by omega) (by omega)

theorem collectFrom_eq (h : Chain next isEnd a l) (hfuel : l.length < fuel) (hn : l.length ≤ n) :
    collectFrom next isEnd p fuel n (l.find? p) = some (l.filter p) := by
  induction h generalizing n with
  | nil => rw [List.find?_nil, collectFrom, List.filter_nil]
  | @cons a l hne htail ih =>
      rw [List.length_cons] at hfuel hn
      rw [List.find?_cons, List.filter_cons]
      cases hp : p a with
      | false => exact ih (by omega) (by omega)
      | true =>
          obtain ⟨n, rfl⟩ := Nat.exists_eq_succ_of_ne_zero (Nat.ne_zero_of_lt hn)
          rw [collectFrom, htail.searchFrom_eq (by omega), Option.bind_some,
            ih (by omega) (by omega)]
          rfl

end Chain

/-! ## When a search ends -/

theorem exists_of_isSome_bind {x : Option α} {f : α → Option β} (h : (x.bind f).isSome) :
    ∃ r, x = some r ∧ (f r).isSome := by
  cases x with
  | none => cases h
  | some r => exact ⟨r, rfl, h⟩

/-- An iterate of `next` from `a` on is an end or meets `p`. -/
def Stops (next : α → α) (isEnd p : α → Bool) (a : α) : Prop :=
  ∃ k, isEnd (next^[k] a) ∨ p (next^[k] a)

theorem Stops.of_next (h : Stops next isEnd p (next a)) : Stops next isEnd p a := by
  obtain ⟨k, hk⟩ := h
  exact ⟨k + 1, hk⟩

theorem Stops.of_iterate {k : ℕ} (h : Stops next isEnd p (next^[k] a)) :
    Stops next isEnd p a := by
  induction k generalizing a with
  | zero => exact h
  | succ k ih => exact (ih h).of_next

theorem searchFrom_mono {r : Option α} (h : searchFrom next isEnd p fuel a = some r) :
    searchFrom next isEnd p (fuel + 1) a = some r := by
  induction fuel generalizing a with
  | zero => cases h
  | succ fuel ih =>
      rw [searchFrom] at h ⊢
      split
      · next hend => rwa [if_pos hend] at h
      · next hend =>
          rw [if_neg hend] at h
          split
          · next hp => rwa [if_pos hp] at h
          · next hp =>
              rw [if_neg hp] at h
              exact ih h

/-- On an element that is its own successor a search stays for ever. -/
theorem searchFrom_eq_none_of_fixed (hnext : next a = a) (hend : ¬ isEnd a) (hp : ¬ p a)
    (fuel : ℕ) : searchFrom next isEnd p fuel a = none := by
  induction fuel with
  | zero => rfl
  | succ fuel ih => rw [searchFrom, if_neg hend, if_neg hp, hnext, ih]

theorem searchFrom_eq_some {r : Option α} (h : searchFrom next isEnd p fuel a = some r) :
    ∃ k, match r with
      | none => isEnd (next^[k] a) = true
      | some x => next^[k] a = x ∧ p x := by
  induction fuel generalizing a with
  | zero => cases h
  | succ fuel ih =>
      rw [searchFrom] at h
      split at h
      · next hend =>
          obtain rfl := Option.some.inj h
          exact ⟨0, hend⟩
      · split at h
        · next hp =>
            obtain rfl := Option.some.inj h
            exact ⟨0, rfl, hp⟩
        · obtain ⟨k, hk⟩ := ih h
          exact ⟨k + 1, hk⟩

theorem searchFrom_isSome_of_stops (h : Stops next isEnd p a) :
    ∃ least, ∀ fuel, least ≤ fuel → (searchFrom next isEnd p fuel a).isSome := by
  obtain ⟨k, hk⟩ := h
  induction k generalizing a with
  | zero =>
      refine ⟨1, fun fuel hfuel => ?_⟩
      obtain ⟨fuel, rfl⟩ := Nat.exists_eq_succ_of_ne_zero (Nat.ne_zero_of_lt hfuel)
      rw [searchFrom]
      split
      · rfl
      · next hend =>
          have hp : p a := hk.resolve_left hend
          rw [if_pos hp]
          rfl
  | succ k ih =>
      obtain ⟨least, hleast⟩ := ih hk
      refine ⟨least + 1, fun fuel hfuel => ?_⟩
      obtain ⟨fuel, rfl⟩ := Nat.exists_eq_succ_of_ne_zero (Nat.ne_zero_of_lt hfuel)
      rw [searchFrom]
      split
      · rfl
      · split
        · rfl
        · exact hleast fuel (by omega)

/-- **When a search ends.** -/
theorem searchFrom_ends_iff :
    (∃ fuel, (searchFrom next isEnd p fuel a).isSome) ↔ Stops next isEnd p a := by
  constructor
  · rintro ⟨fuel, hsome⟩
    obtain ⟨r, hr⟩ := Option.isSome_iff_exists.mp hsome
    obtain ⟨k, hk⟩ := searchFrom_eq_some hr
    cases r with
    | none => exact ⟨k, Or.inl hk⟩
    | some x => exact ⟨k, Or.inr (hk.1 ▸ hk.2)⟩
  · intro h
    obtain ⟨least, hleast⟩ := searchFrom_isSome_of_stops h
    exact ⟨least, hleast least le_rfl⟩

theorem stops_of_searchAgain {found : Option α} (hfound : ∀ x, found = some x → p x)
    (h : (searchAgain next isEnd p q fuel n found).isSome) :
    ∀ x, found = some x → Stops next isEnd (fun y => p y && q y) x := by
  induction n generalizing found with
  | zero =>
      rintro x rfl
      cases h
  | succ n ih =>
      rintro x rfl
      rw [searchAgain] at h
      split at h
      · next hq => exact ⟨0, Or.inr (Bool.and_eq_true_iff.mpr ⟨hfound x rfl, hq⟩)⟩
      · obtain ⟨r, hr, hrest⟩ := exists_of_isSome_bind h
        obtain ⟨k, hk⟩ := searchFrom_eq_some hr
        apply Stops.of_next
        apply Stops.of_iterate
        cases r with
        | none => exact ⟨0, Or.inl hk⟩
        | some y =>
            rw [hk.1]
            exact ih (fun z hz => Option.some.inj hz ▸ hk.2) hrest y rfl

theorem searchAgain_isSome_of_stops (h : Stops next isEnd (fun x => p x && q x) a) :
    ∃ least, ∀ fuel, least ≤ fuel → ∀ n, least ≤ n →
      ((searchFrom next isEnd p fuel a).bind (searchAgain next isEnd p q fuel n)).isSome := by
  obtain ⟨k, hk⟩ := h
  induction k generalizing a with
  | zero =>
      refine ⟨1, fun fuel hfuel n hn => ?_⟩
      obtain ⟨fuel, rfl⟩ := Nat.exists_eq_succ_of_ne_zero (Nat.ne_zero_of_lt hfuel)
      obtain ⟨n, rfl⟩ := Nat.exists_eq_succ_of_ne_zero (Nat.ne_zero_of_lt hn)
      rw [searchFrom]
      split
      · rfl
      · next hend =>
          have hpq : p a ∧ q a := Bool.and_eq_true_iff.mp (hk.resolve_left hend)
          rw [if_pos hpq.1, Option.bind_some, searchAgain, if_pos hpq.2]
          rfl
  | succ k ih =>
      obtain ⟨least, hleast⟩ := ih hk
      refine ⟨least + 1, fun fuel hfuel n hn => ?_⟩
      obtain ⟨fuel, rfl⟩ := Nat.exists_eq_succ_of_ne_zero (Nat.ne_zero_of_lt hfuel)
      obtain ⟨n, rfl⟩ := Nat.exists_eq_succ_of_ne_zero (Nat.ne_zero_of_lt hn)
      rw [searchFrom]
      split
      · rfl
      · split
        · rw [Option.bind_some, searchAgain]
          split
          · rfl
          · exact hleast (fuel + 1) (by omega) n (by omega)
        · -- The search from `next a` gives the same with one unit of fuel less.
          have hsome := hleast (fuel + 1) (by omega) (n + 1) (by omega)
          have hfirst := hleast fuel (by omega) (n + 1) (by omega)
          obtain ⟨r, hr, -⟩ := exists_of_isSome_bind hfirst
          rw [searchFrom_mono hr] at hsome
          rwa [hr]

/-- **When a search from match to match ends.** -/
theorem searchAgain_ends_iff :
    (∃ fuel, ((searchFrom next isEnd p fuel a).bind
      (searchAgain next isEnd p q fuel fuel)).isSome) ↔
      Stops next isEnd (fun x => p x && q x) a := by
  constructor
  · rintro ⟨fuel, hsome⟩
    obtain ⟨r, hr, hrest⟩ := exists_of_isSome_bind hsome
    obtain ⟨k, hk⟩ := searchFrom_eq_some hr
    apply Stops.of_iterate
    cases r with
    | none => exact ⟨0, Or.inl hk⟩
    | some x =>
        rw [hk.1]
        exact stops_of_searchAgain (fun z hz => Option.some.inj hz ▸ hk.2) hrest x rfl
  · intro h
    obtain ⟨least, hleast⟩ := searchAgain_isSome_of_stops h
    exact ⟨least, hleast least le_rfl least le_rfl⟩

/-- **A search for any key.** Where there are no fewer keys than elements, the searches for all keys
end only if the chain does: the elements before the end cannot have all keys. -/
theorem forall_stops_iff [Fintype α] [Fintype β] (hcard : Fintype.card α ≤ Fintype.card β) {e : α}
    (he : isEnd e) (key : α → β) {test : β → α → Bool} (htest : ∀ b x, test b x → key x = b) :
    (∀ b, Stops next isEnd (test b) a) ↔ ∃ k, isEnd (next^[k] a) := by
  constructor
  · intro h
    by_contra hno
    have hno' : ∀ k, ¬ isEnd (next^[k] a) := fun k hk => hno ⟨k, hk⟩
    have hsurj : Function.Surjective fun x : {x // ¬ isEnd x} => key x := fun b => by
      obtain ⟨k, hk⟩ := h b
      exact ⟨⟨_, hno' k⟩, htest b _ (hk.resolve_left (hno' k))⟩
    have hle := Fintype.card_le_of_surjective _ hsurj
    have hlt : Fintype.card {x // ¬ isEnd x} < Fintype.card α :=
      Fintype.card_subtype_lt (not_not.mpr he)
    omega
  · rintro ⟨k, hk⟩ b
    exact ⟨k, Or.inl hk⟩

end Chain

end Manticore
