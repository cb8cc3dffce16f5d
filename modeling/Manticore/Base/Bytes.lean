import Mathlib.Data.List.Basic
import Mathlib.Tactic
import Manticore.Base.Memory

/-!
# Numbers and fields in byte strings

Little and big endian numbers, and reading or replacing the bytes at an offset.  The bytes of a cell
of memory are such a number.
-/

namespace Manticore

def leBytes : ℕ → ℕ → List UInt8
  | 0, _ => []
  | k + 1, v => UInt8.ofNat v :: leBytes k (v / 256)

def leNat : List UInt8 → ℕ
  | [] => 0
  | b :: bs => b.toNat + 256 * leNat bs

def beBytes (k v : ℕ) : List UInt8 := (leBytes k v).reverse

def beNat (bs : List UInt8) : ℕ := leNat bs.reverse

@[simp] theorem length_leBytes : ∀ k v, (leBytes k v).length = k
  | 0, _ => rfl
  | k + 1, v => by rw [leBytes, List.length_cons, length_leBytes]

@[simp] theorem length_beBytes (k v : ℕ) : (beBytes k v).length = k := by simp [beBytes]

theorem leNat_leBytes : ∀ k v, leNat (leBytes k v) = v % 256 ^ k
  | 0, v => by rw [pow_zero, Nat.mod_one]; rfl
  | k + 1, v => by
      have hb : (UInt8.ofNat v).toNat = v % 256 := UInt8.toNat_ofNat'
      rw [leBytes, leNat, leNat_leBytes k, hb, pow_succ', Nat.mod_mul]

theorem leBytes_leNat : ∀ bs : List UInt8, leBytes bs.length (leNat bs) = bs
  | [] => rfl
  | b :: bs => by
      have hb := b.toNat_lt
      have hhead : UInt8.ofNat (b.toNat + 256 * leNat bs) = b := by
        apply UInt8.toNat_inj.mp
        rw [UInt8.toNat_ofNat']
        omega
      have htail : (b.toNat + 256 * leNat bs) / 256 = leNat bs := by omega
      rw [List.length_cons, leBytes, leNat, hhead, htail, leBytes_leNat bs]

theorem leNat_lt : ∀ bs : List UInt8, leNat bs < 256 ^ bs.length
  | [] => Nat.one_pos
  | b :: bs => by
      have hb : b.toNat < 256 := b.toNat_lt
      have hbs := leNat_lt bs
      rw [leNat, List.length_cons, pow_succ]
      omega

theorem beNat_beBytes (k v : ℕ) : beNat (beBytes k v) = v % 256 ^ k := by
  rw [beNat, beBytes, List.reverse_reverse, leNat_leBytes]

/-! ## Fields -/

/-- The `n` bytes at `o`. -/
def fieldAt (bs : List UInt8) (o n : ℕ) : List UInt8 := (bs.drop o).take n

theorem length_fieldAt {bs : List UInt8} {o n : ℕ} (h : o + n ≤ bs.length) :
    (fieldAt bs o n).length = n := by
  rw [fieldAt, List.length_take, List.length_drop]
  omega

/-- Replace the bytes at `o`. -/
def setAt (bs : List UInt8) (o : ℕ) (new : List UInt8) : List UInt8 :=
  bs.take o ++ new ++ bs.drop (o + new.length)

variable {pre mid post new : List UInt8} {o n : ℕ}

theorem fieldAt_append (ho : pre.length = o) (hn : mid.length = n) :
    fieldAt (pre ++ (mid ++ post)) o n = mid := by
  rw [fieldAt, List.drop_left' ho, List.take_left' hn]

theorem setAt_append (ho : pre.length = o) (hn : mid.length = new.length) :
    setAt (pre ++ (mid ++ post)) o new = pre ++ (new ++ post) := by
  rw [setAt, List.take_left' ho, ← List.append_assoc pre mid post,
    List.drop_left' (by rw [List.length_append, ho, hn]), List.append_assoc]

/-! ## Bytes of memory -/

theorem bytesAt_succ_left (m : Mem) (a n : ℕ) :
    bytesAt m a (n + 1) = m a :: bytesAt m (a + 1) n := by
  simp only [bytesAt, List.range_succ_eq_map, List.map_cons, List.map_map, Nat.add_zero]
  congr 1
  apply List.map_congr_left
  intro k _
  simp only [Function.comp_apply, Nat.succ_eq_add_one]
  congr 1
  omega

theorem load_eq_leNat (m : Mem) : ∀ a n : ℕ, load m a n = leNat (bytesAt m a n)
  | _, 0 => rfl
  | a, n + 1 => by rw [load, bytesAt_succ_left, leNat, load_eq_leNat m (a + 1) n]

theorem fieldAt_bytesAt {k : ℕ} (m : Mem) (a : ℕ) (h : o + k ≤ n) :
    fieldAt (bytesAt m a n) o k = bytesAt m (a + o) k := by
  apply List.ext_getElem
  · simp only [fieldAt, List.length_take, List.length_drop, length_bytesAt]
    omega
  · intro i _ _
    simp [fieldAt, bytesAt, Nat.add_assoc]

theorem bytesAt_getD (xs : List UInt8) : bytesAt (fun i => xs.getD i 0) 0 xs.length = xs := by
  apply List.ext_getElem
  · simp
  · intro i _ hi
    simp [bytesAt, hi]

theorem leBytes_load (m : Mem) (a n : ℕ) : leBytes n (load m a n) = bytesAt m a n := by
  have h := leBytes_leNat (bytesAt m a n)
  rwa [length_bytesAt, ← load_eq_leNat] at h

theorem bytesAt_store_same {m : Mem} {a v : ℕ} (hv : v < 256 ^ n) :
    bytesAt (store m a n v) a n = leBytes n v := by
  rw [← leBytes_load, load_store_same hv]

/-! ## Filling a buffer -/

/-- From `m₀` to `m`, `xs` was written to the start of the buffer, and nothing outside of it. -/
structure FilledWith (buf : Span) (m₀ m : Mem) (xs : List UInt8) : Prop where
  writes : WritesOnly [buf] m₀ m
  bytes : bytesAt m buf.base xs.length = xs

namespace FilledWith

variable {buf : Span} {m₀ m : Mem} {xs : List UInt8} {a k : ℕ}

theorem nothing (buf : Span) (m : Mem) : FilledWith buf m m [] := ⟨.refl _ m, rfl⟩

theorem bytesAt_eq (h : FilledWith buf m₀ m xs) (hsrc : buf.Apart ⟨a, k⟩) :
    bytesAt m a k = bytesAt m₀ a k :=
  h.writes.bytesAt_eq (List.forall_mem_singleton.mpr hsrc) le_rfl le_rfl

theorem store (h : FilledWith buf m₀ m xs) {v : ℕ} (ha : a = buf.base + xs.length)
    (hfit : xs.length + n ≤ buf.size) (hv : v < 256 ^ n) :
    FilledWith buf m₀ (store m a n v) (xs ++ leBytes n v) := by
  refine ⟨h.writes.store List.mem_cons_self (by omega) (by omega), ?_⟩
  have hold : bytesAt (Manticore.store m a n v) buf.base xs.length = xs :=
    (bytesAt_congr fun x _ hx => store_of_disjoint (by omega)).trans h.bytes
  rw [List.length_append, length_leBytes, bytesAt_add, hold, ← ha, bytesAt_store_same hv]

theorem memcpy (h : FilledWith buf m₀ m xs) {src : ℕ} (ha : a = buf.base + xs.length)
    (hfit : xs.length + n ≤ buf.size) (hsrc : buf.Apart ⟨src, n⟩) :
    FilledWith buf m₀ (memcpy m a (fun i => m (src + i)) n) (xs ++ bytesAt m₀ src n) := by
  refine ⟨h.writes.memcpy List.mem_cons_self (by omega) (by omega), ?_⟩
  have hnew : bytesAt (fun i => m (src + i)) 0 n = bytesAt m₀ src n := by
    rw [← h.bytesAt_eq hsrc]
    simp [bytesAt]
  rw [List.length_append, length_bytesAt, bytesAt_add, bytesAt_memcpy_of_disjoint (by omega), h.bytes,
    ← ha, bytesAt_memcpy_same, hnew]

theorem store_load (h : FilledWith buf m₀ m xs) {src : ℕ} (ha : a = buf.base + xs.length)
    (hfit : xs.length + n ≤ buf.size) (hsrc : buf.Apart ⟨src, n⟩) :
    FilledWith buf m₀ (Manticore.store m a n (load m src n)) (xs ++ bytesAt m₀ src n) := by
  have hstore := h.store ha hfit (load_lt m src n)
  rwa [leBytes_load, h.bytesAt_eq hsrc] at hstore

end FilledWith

end Manticore
