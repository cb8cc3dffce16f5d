import Mathlib.Data.List.Basic
import Mathlib.Tactic
import Manticore.Base.Span

/-!
# Byte-addressed memory

Memory is a function from addresses to bytes.  Multi-byte cells are little-endian;
`load m a n` reads `n` bytes at `a` and `store m a n v` writes them.  The two rules
everything else rests on are `load_store_same` and `load_store_of_disjoint`.
-/

namespace Manticore

/-- Memory contents, one byte per address. -/
abbrev Mem : Type := ℕ → UInt8

/-- The `n`-byte little-endian cell at `a`. -/
def load (m : Mem) (a : ℕ) : ℕ → ℕ
  | 0 => 0
  | n + 1 => (m a).toNat + 256 * load m (a + 1) n

/-- Overwrite the `n`-byte cell at `a` with `v`, truncated to `n` bytes. -/
def store (m : Mem) (a n v : ℕ) : Mem := fun x =>
  if a ≤ x ∧ x < a + n then UInt8.ofNat (v / 256 ^ (x - a)) else m x

/-- `memset`. -/
def memset (m : Mem) (a : ℕ) (b : UInt8) (n : ℕ) : Mem := fun x =>
  if a ≤ x ∧ x < a + n then b else m x

/-- `memcpy` from the bytes `src 0, src 1, …`. -/
def memcpy (m : Mem) (a : ℕ) (src : ℕ → UInt8) (n : ℕ) : Mem := fun x =>
  if a ≤ x ∧ x < a + n then src (x - a) else m x

/-- The `n` bytes at `a`. -/
def bytesAt (m : Mem) (a n : ℕ) : List UInt8 := (List.range n).map fun k => m (a + k)

/-! ## Cells depend only on their own bytes -/

theorem load_congr {m m' : Mem} : ∀ {n a : ℕ},
    (∀ x, a ≤ x → x < a + n → m x = m' x) → load m a n = load m' a n
  | 0, _, _ => rfl
  | n + 1, a, h => by
      rw [load, load, h a le_rfl (by omega)]
      rw [load_congr (n := n) (fun x hx hlt => h x (by omega) (by omega))]

theorem load_zero : ∀ n a : ℕ, load (fun _ => 0) a n = 0
  | 0, _ => rfl
  | n + 1, a => by
      rw [load, load_zero n (a + 1)]
      rfl

theorem load_lt (m : Mem) : ∀ (a n : ℕ), load m a n < 256 ^ n
  | _, 0 => by simp [load]
  | a, n + 1 => by
      have ih := load_lt m (a + 1) n
      have hb : (m a).toNat < 256 := (m a).toNat_lt
      rw [load, pow_succ]
      omega

theorem bytesAt_congr {m m' : Mem} {a n : ℕ}
    (h : ∀ x, a ≤ x → x < a + n → m x = m' x) : bytesAt m a n = bytesAt m' a n := by
  unfold bytesAt
  apply List.map_congr_left
  intro k hk
  rw [List.mem_range] at hk
  exact h (a + k) (by omega) (by omega)

@[simp] theorem length_bytesAt (m : Mem) (a n : ℕ) : (bytesAt m a n).length = n := by
  simp [bytesAt]

theorem bytesAt_succ (m : Mem) (a n : ℕ) :
    bytesAt m a (n + 1) = bytesAt m a n ++ [m (a + n)] := by
  simp [bytesAt, List.range_succ]

theorem bytesAt_add (m : Mem) (a n k : ℕ) :
    bytesAt m a (n + k) = bytesAt m a n ++ bytesAt m (a + n) k := by
  simp [bytesAt, List.range_add, Nat.add_assoc]

theorem drop_bytesAt (m : Mem) (a n k : ℕ) : (bytesAt m a n).drop k = bytesAt m (a + k) (n - k) := by
  apply List.ext_getElem
  · simp
  · intro i _ _
    simp [bytesAt, Nat.add_assoc]

theorem bytesAt_zero (a n : ℕ) : bytesAt (fun _ => 0) a n = List.replicate n 0 := by
  simp [bytesAt]

/-! ## Writes outside a range -/

theorem store_of_disjoint {m : Mem} {a n v x : ℕ} (h : x < a ∨ a + n ≤ x) :
    store m a n v x = m x := by
  unfold store
  rw [if_neg (by omega)]

theorem memset_of_disjoint {m : Mem} {a n x : ℕ} {b : UInt8} (h : x < a ∨ a + n ≤ x) :
    memset m a b n x = m x := by
  unfold memset
  rw [if_neg (by omega)]

theorem memcpy_of_disjoint {m : Mem} {a n x : ℕ} {src : ℕ → UInt8}
    (h : x < a ∨ a + n ≤ x) : memcpy m a src n x = m x := by
  unfold memcpy
  rw [if_neg (by omega)]

theorem load_store_of_disjoint {m : Mem} {a n v b k : ℕ}
    (h : b + k ≤ a ∨ a + n ≤ b) : load (store m a n v) b k = load m b k :=
  load_congr fun x hx hlt => store_of_disjoint (by omega)

theorem load_memset_of_disjoint {m : Mem} {a n b k : ℕ} {c : UInt8}
    (h : b + k ≤ a ∨ a + n ≤ b) : load (memset m a c n) b k = load m b k :=
  load_congr fun x hx hlt => memset_of_disjoint (by omega)

theorem load_memcpy_of_disjoint {m : Mem} {a n b k : ℕ} {src : ℕ → UInt8}
    (h : b + k ≤ a ∨ a + n ≤ b) : load (memcpy m a src n) b k = load m b k :=
  load_congr fun x hx hlt => memcpy_of_disjoint (by omega)

theorem bytesAt_memcpy_of_disjoint {m : Mem} {a n b k : ℕ} {src : ℕ → UInt8}
    (h : b + k ≤ a ∨ a + n ≤ b) : bytesAt (memcpy m a src n) b k = bytesAt m b k :=
  bytesAt_congr fun x hx hlt => memcpy_of_disjoint (by omega)

/-! ## Reading back what was written -/

theorem bytesAt_memcpy_same (m : Mem) (a n : ℕ) (src : ℕ → UInt8) :
    bytesAt (memcpy m a src n) a n = bytesAt src 0 n := by
  unfold bytesAt
  apply List.map_congr_left
  intro k hk
  rw [List.mem_range] at hk
  simp [memcpy, hk]

/-- One byte of a stored cell, and the rest of it as a smaller store. -/
theorem load_store_same {m : Mem} : ∀ {n a v : ℕ}, v < 256 ^ n →
    load (store m a n v) a n = v
  | 0, _, v, h => by
      have hv : v = 0 := by simpa using h
      simp [load, hv]
  | n + 1, a, v, h => by
      have hhead : (store m a (n + 1) v a).toNat = v % 256 := by
        simp [store]
      have htail : load (store m a (n + 1) v) (a + 1) n =
          load (store m (a + 1) n (v / 256)) (a + 1) n := by
        apply load_congr
        intro x hx hlt
        have hexp : 256 ^ (x - a) = 256 * 256 ^ (x - (a + 1)) := by
          rw [← pow_succ']
          congr 1
          omega
        simp only [store]
        rw [if_pos (by omega), if_pos (by omega), hexp, Nat.div_div_eq_div_mul]
      have hlt : v / 256 < 256 ^ n := by
        rw [pow_succ] at h
        omega
      rw [load, hhead, htail, load_store_same hlt]
      omega

theorem load_memset_zero {m : Mem} {a n : ℕ} : ∀ {k b : ℕ},
    a ≤ b → b + k ≤ a + n → load (memset m a 0 n) b k = 0
  | 0, _, _, _ => rfl
  | k + 1, b, hb, hk => by
      have hbyte : memset m a 0 n b = 0 := by
        unfold memset
        rw [if_pos (by omega)]
      rw [load, hbyte, load_memset_zero (k := k) (by omega) (by omega)]
      rfl

/-! ## Where a computation writes -/

/-- `m'` differs from `m` inside the spans `w` only. -/
def WritesOnly (w : List Span) (m m' : Mem) : Prop := ∀ x, ¬ Span.Covered w x → m' x = m x

namespace WritesOnly

variable {w w' : List Span} {m m' m'' : Mem} {s : Span} {a n v : ℕ}

theorem refl (w : List Span) (m : Mem) : WritesOnly w m m := fun _ _ => rfl

theorem trans (h : WritesOnly w m m') (h' : WritesOnly w m' m'') : WritesOnly w m m'' :=
  fun x hx => (h' x hx).trans (h x hx)

theorem mono (h : WritesOnly w m m') (hsub : ∀ s ∈ w, s ∈ w') : WritesOnly w' m m' := by
  intro x hx
  refine h x fun hc => hx ?_
  obtain ⟨s, hs, hin⟩ := hc
  exact ⟨s, hsub s hs, hin⟩

theorem widen (h : WritesOnly w m m')
    (hsub : ∀ s ∈ w, ∃ t ∈ w', t.base ≤ s.base ∧ s.base + s.size ≤ t.base + t.size) :
    WritesOnly w' m m' := by
  intro x hx
  refine h x fun hc => hx ?_
  obtain ⟨s, hs, hlo, hhi⟩ := hc
  obtain ⟨t, ht, hle, hge⟩ := hsub s hs
  exact ⟨t, ht, by omega, by omega⟩

theorem store (h : WritesOnly w m m') (hs : s ∈ w) (hlo : s.base ≤ a)
    (hhi : a + n ≤ s.base + s.size) : WritesOnly w m (store m' a n v) := by
  intro x hx
  rw [store_of_disjoint, h x hx]
  by_contra hc
  exact hx ⟨s, hs, by omega, by omega⟩

theorem memcpy (h : WritesOnly w m m') (hs : s ∈ w) {src : ℕ → UInt8} (hlo : s.base ≤ a)
    (hhi : a + n ≤ s.base + s.size) : WritesOnly w m (memcpy m' a src n) := by
  intro x hx
  rw [memcpy_of_disjoint, h x hx]
  by_contra hc
  exact hx ⟨s, hs, by omega, by omega⟩

theorem eq_of_apart (h : WritesOnly w m m') {d : Span} (hd : ∀ s ∈ w, s.Apart d) {x : ℕ}
    (hx : d.Contains x) : m' x = m x := by
  refine h x ?_
  rintro ⟨s, hs, hin⟩
  obtain ⟨h1, h2⟩ := hx
  obtain ⟨h3, h4⟩ := hin
  rcases hd s hs with hlt | hlt <;> omega

theorem load_eq (h : WritesOnly w m m') {d : Span} (hd : ∀ s ∈ w, s.Apart d) {k : ℕ}
    (hlo : d.base ≤ a) (hhi : a + k ≤ d.base + d.size) : load m' a k = load m a k :=
  load_congr fun x hx hlt => h.eq_of_apart hd ⟨by omega, by omega⟩

theorem bytesAt_eq (h : WritesOnly w m m') {d : Span} (hd : ∀ s ∈ w, s.Apart d) {k : ℕ}
    (hlo : d.base ≤ a) (hhi : a + k ≤ d.base + d.size) : bytesAt m' a k = bytesAt m a k :=
  bytesAt_congr fun x hx hlt => h.eq_of_apart hd ⟨by omega, by omega⟩

end WritesOnly

end Manticore
