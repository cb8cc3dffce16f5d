import Manticore.Base.OrderedTree

/-!
# Sets of addresses as ordered, separated spans

A span is a base and a size.  A list of spans is `Separated` when each ends at or
before the next begins; it then stands for the set of addresses `covered` by it.
Spans may touch.
-/

namespace Manticore

/-- The addresses from `base` up to, not including, `base + size`. -/
structure Span where
  base : ℕ
  size : ℕ
deriving DecidableEq, Repr

namespace Span

/-- `x` is an address of the span. -/
def Contains (s : Span) (x : ℕ) : Prop := s.base ≤ x ∧ x < s.base + s.size

/-- The spans share no address, by position. -/
def Apart (s t : Span) : Prop := s.base + s.size ≤ t.base ∨ t.base + t.size ≤ s.base

instance (s t : Span) : Decidable (s.Apart t) := inferInstanceAs (Decidable (_ ∨ _))

theorem Apart.symm {d e : Span} (h : d.Apart e) : e.Apart d := Or.symm h

/-- Each span ends before the next begins. -/
def Separated (l : List Span) : Prop := l.Pairwise fun s t => s.base + s.size ≤ t.base

/-- `x` is an address of some span of `l`. -/
def Covered (l : List Span) (x : ℕ) : Prop := ∃ s ∈ l, s.Contains x

variable {l : List Span} {s t : Span} {x : ℕ}

@[simp] theorem covered_nil : ¬ Covered [] x := by
  rintro ⟨s, hs, -⟩
  simp at hs

@[simp] theorem covered_cons : Covered (s :: l) x ↔ s.Contains x ∨ Covered l x := by
  simp [Covered]

theorem covered_treeInsert :
    Covered (treeInsert Span.base s l) x ↔ s.Contains x ∨ Covered l x := by
  simp only [Covered, mem_treeInsert]
  constructor
  · rintro ⟨t, rfl | ht, hx⟩
    · exact Or.inl hx
    · exact Or.inr ⟨t, ht, hx⟩
  · rintro (hx | ⟨t, ht, hx⟩)
    · exact ⟨s, Or.inl rfl, hx⟩
    · exact ⟨t, Or.inr ht, hx⟩

theorem Separated.le (h : Separated l) : l.Pairwise fun s t => s.base ≤ t.base :=
  List.Pairwise.imp (fun hst => le_trans (Nat.le_add_right _ _) hst) h

theorem Separated.keySorted (h : Separated l) (hpos : ∀ s ∈ l, 0 < s.size) :
    KeySorted Span.base l := by
  refine List.Pairwise.imp_of_mem ?_ h
  intro s t hs _ hst
  have := hpos s hs
  omega

theorem Separated.nodup (h : Separated l) (hpos : ∀ s ∈ l, 0 < s.size) : l.Nodup := by
  refine List.Pairwise.imp ?_ (h.keySorted hpos)
  rintro s t hst rfl
  exact lt_irrefl _ hst

theorem Separated.apart (h : Separated l) (hs : s ∈ l) (ht : t ∈ l) (hne : s ≠ t) :
    s.Apart t := by
  have hsymm : Std.Symm (fun s t : Span => s.Apart t) := ⟨fun s t hst => hst.symm⟩
  have hp : l.Pairwise fun s t : Span => s.Apart t :=
    List.Pairwise.imp (fun hst => Or.inl hst) h
  exact hp.forall hs ht hne

theorem Separated.erase (h : Separated l) (s : Span) : Separated (l.erase s) :=
  List.Pairwise.sublist List.erase_sublist h

theorem Separated.insert (h : Separated l) (hpos : 0 < s.size)
    (hapart : ∀ t ∈ l, s.Apart t) : Separated (treeInsert Span.base s l) := by
  refine pairwise_treeInsert h ?_ ?_ h.le
  · intro t ht hlt
    rcases hapart t ht with hst | hts
    · exact hst
    · omega
  · intro t ht hle
    rcases hapart t ht with hst | hts
    · omega
    · exact hts

theorem mem_erase (h : Separated l) (hpos : ∀ s ∈ l, 0 < s.size) :
    t ∈ l.erase s ↔ t ≠ s ∧ t ∈ l :=
  (h.nodup hpos).mem_erase_iff

theorem covered_erase (h : Separated l) (hpos : ∀ s ∈ l, 0 < s.size) (hs : s ∈ l) :
    Covered l x ↔ s.Contains x ∨ Covered (l.erase s) x := by
  constructor
  · rintro ⟨t, ht, hx⟩
    by_cases hts : t = s
    · exact Or.inl (hts ▸ hx)
    · exact Or.inr ⟨t, (mem_erase h hpos).mpr ⟨hts, ht⟩, hx⟩
  · rintro (hx | ⟨t, ht, hx⟩)
    · exact ⟨s, hs, hx⟩
    · exact ⟨t, List.mem_of_mem_erase ht, hx⟩

/-! ## Joining two spans that touch -/

/-- `s` and, right after it, `t`. -/
def join (s t : Span) : Span := ⟨s.base, s.size + t.size⟩

theorem contains_join (h : s.base + s.size = t.base) :
    (s.join t).Contains x ↔ s.Contains x ∨ t.Contains x := by
  simp only [Contains, join]
  omega

theorem join_apart {u : Span} (h : s.base + s.size = t.base) (hu : 0 < u.size)
    (hs : s.Apart u) (ht : t.Apart u) : (s.join t).Apart u := by
  simp only [Apart, join] at *
  omega

end Span

end Manticore
