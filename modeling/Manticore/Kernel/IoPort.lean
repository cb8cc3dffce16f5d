import Mathlib.Data.Set.Basic
import Mathlib.Tactic
import Manticore.Base.Bytes
import Manticore.Base.Word

/-!
# I/O ports

`kernel/ioport.rs`.  A port is a window of memory or of I/O space, and `remap` cuts a smaller window
out of it.  The test of `remap` compares the offset with an absolute address, and the accesses do
not look at the size at all.

Addresses wrap: `usize` in memory, `u16` in I/O space.
-/

namespace Manticore

inductive PortSpace where
  | memory
  | io
deriving DecidableEq, Repr

/-- The number of addresses. -/
def PortSpace.card : PortSpace → ℕ
  | .memory => 2 ^ 64
  | .io => 2 ^ 16

inductive IOPort where
  | memory (baseAddr size : ℕ)
  | io (iobase size : ℕ)
deriving DecidableEq, Repr

namespace IOPort

def space : IOPort → PortSpace
  | memory .. => .memory
  | io .. => .io

def base : IOPort → ℕ
  | memory baseAddr _ => baseAddr
  | io iobase _ => iobase

def size : IOPort → ℕ
  | memory _ size => size
  | io _ size => size

def remap : IOPort → ℕ → ℕ → Option IOPort
  | memory baseAddr size, offset, newSize =>
      if offset > add64 baseAddr size then none
      else some (memory (add64 baseAddr offset) newSize)
  | io iobase size, offset, newSize =>
      if offset > (iobase + size) % 2 ^ 32 then none
      else some (io ((iobase + offset % 2 ^ 16) % 2 ^ 16) newSize)

/-- The address that the accessors compute. -/
def addr : IOPort → ℕ → ℕ
  | memory baseAddr _, offset => add64 baseAddr offset
  | io iobase _, offset => (iobase + offset % 2 ^ 16) % 2 ^ 16

/-- The bytes that an access of `width` bytes at `offset` goes to. `none` is `unimplemented!`: there
are no accesses of 8 bytes in I/O space. -/
def accessed (port : IOPort) (width offset : ℕ) : Option (List (PortSpace × ℕ)) :=
  match port.space, width with
  | .io, 8 => none
  | k, _ => some ((List.range width).map fun j => (k, (port.addr offset + j) % k.card))

/-- What an access reads or writes is in `byte`, and `log` has the bytes accessed so far. -/
structure World where
  byte : PortSpace × ℕ → UInt8
  log : List (PortSpace × ℕ)

def storeBytes (byte : PortSpace × ℕ → UInt8) (as : List (PortSpace × ℕ)) (bs : List UInt8) :
    PortSpace × ℕ → UInt8 :=
  (as.zip bs).foldr (fun p byte => Function.update byte p.1 p.2) byte

/-- `read8` to `read64`. -/
def read (port : IOPort) (width offset : ℕ) (w : World) : Option (ℕ × World) :=
  (port.accessed width offset).map fun as =>
    (leNat (as.map w.byte), { w with log := w.log ++ as })

/-- `write8` to `write64`. -/
def write (port : IOPort) (width value offset : ℕ) (w : World) : Option World :=
  (port.accessed width offset).map fun as =>
    ⟨storeBytes w.byte as (leBytes width value), w.log ++ as⟩

/-- The addresses of the port. -/
def window (port : IOPort) : Set (PortSpace × ℕ) :=
  {a | ∃ k < port.size, a = (port.space, (port.base + k) % port.space.card)}

/-- A chain of `remap` calls. -/
def remaps : IOPort → List (ℕ × ℕ) → Option IOPort
  | port, [] => some port
  | port, (offset, newSize) :: rest => (port.remap offset newSize).bind fun p => p.remaps rest

/-- **Sub-windows stay inside.** Each `remap` of the chain succeeds exactly if what it is asked for
fits the port it is applied to, and whatever is accessed within the final port lies in the first. -/
structure StaysInside (port : IOPort) (chain : List (ℕ × ℕ)) : Prop where
  exact : ∀ front offset newSize rest p, chain = front ++ (offset, newSize) :: rest →
    port.remaps front = some p → ((p.remap offset newSize).isSome ↔ offset + newSize ≤ p.size)
  inside : ∀ p, port.remaps chain = some p → ∀ width ∈ [1, 2, 4, 8], ∀ offset,
    offset + width ≤ p.size → ∀ as, p.accessed width offset = some as → ∀ a ∈ as, a ∈ port.window

/-- What `remap` compares an offset with. -/
def limit : IOPort → ℕ
  | memory baseAddr size => add64 baseAddr size
  | io iobase size => (iobase + size) % 2 ^ 32

/-- The port that `remap` makes, whatever it is asked for. -/
def sub : IOPort → ℕ → ℕ → IOPort
  | memory baseAddr _, offset, newSize => memory (add64 baseAddr offset) newSize
  | io iobase _, offset, newSize => io ((iobase + offset % 2 ^ 16) % 2 ^ 16) newSize

/-- Each call of the chain is granted and fits, or is refused and does not fit. -/
def Fits : IOPort → List (ℕ × ℕ) → Prop
  | _, [] => True
  | port, (offset, newSize) :: rest =>
      offset ≤ port.limit ∧ offset + newSize ≤ port.size ∧ (port.sub offset newSize).Fits rest ∨
        port.limit < offset ∧ port.size < offset + newSize

/-! ## One call -/

variable {port p : IOPort} {offset newSize : ℕ} {chain rest : List (ℕ × ℕ)}

theorem remap_eq (port : IOPort) (offset newSize : ℕ) : port.remap offset newSize =
    if port.limit < offset then none else some (port.sub offset newSize) := by
  cases port <;> rfl

theorem remap_of_le (h : offset ≤ port.limit) :
    port.remap offset newSize = some (port.sub offset newSize) := by
  rw [remap_eq, if_neg (Nat.not_lt.mpr h)]

theorem remap_of_lt (h : port.limit < offset) : port.remap offset newSize = none := by
  rw [remap_eq, if_pos h]

theorem isSome_remap : (port.remap offset newSize).isSome ↔ offset ≤ port.limit := by
  rcases Nat.lt_or_ge port.limit offset with h | h
  · rw [remap_of_lt h]
    exact iff_of_false Bool.false_ne_true (Nat.not_le.mpr h)
  · rw [remap_of_le h]
    exact iff_of_true rfl h

@[simp] theorem space_sub : (port.sub offset newSize).space = port.space := by cases port <;> rfl

@[simp] theorem size_sub : (port.sub offset newSize).size = newSize := by cases port <;> rfl

theorem addr_eq (port : IOPort) (offset : ℕ) :
    port.addr offset = (port.base + offset) % port.space.card := by
  cases port with
  | memory baseAddr size => rfl
  | io iobase size => exact Nat.add_mod_mod _ _ _

theorem base_sub (port : IOPort) (offset newSize : ℕ) :
    (port.sub offset newSize).base = (port.base + offset) % port.space.card := by
  cases port with
  | memory baseAddr size => rfl
  | io iobase size => exact Nat.add_mod_mod _ _ _

theorem window_sub (h : offset + newSize ≤ port.size) :
    (port.sub offset newSize).window ⊆ port.window := by
  rintro a ⟨k, hk, rfl⟩
  rw [size_sub] at hk
  refine ⟨offset + k, by omega, ?_⟩
  rw [space_sub, base_sub, Nat.mod_add_mod, Nat.add_assoc]

theorem mem_window_of_accessed {width : ℕ} {as : List (PortSpace × ℕ)} {a : PortSpace × ℕ}
    (hfit : offset + width ≤ port.size) (has : port.accessed width offset = some as)
    (ha : a ∈ as) : a ∈ port.window := by
  have heq : as = (List.range width).map fun j =>
      (port.space, (port.addr offset + j) % port.space.card) := by
    unfold accessed at has
    split at has
    · cases has
    · exact (Option.some.inj has).symm
  rw [heq] at ha
  obtain ⟨j, hj, rfl⟩ := List.mem_map.mp ha
  have hj' := List.mem_range.mp hj
  refine ⟨offset + j, by omega, ?_⟩
  rw [addr_eq, Nat.mod_add_mod, Nat.add_assoc]

/-! ## Chains -/

theorem remaps_cons (h : offset ≤ port.limit) :
    port.remaps ((offset, newSize) :: rest) = (port.sub offset newSize).remaps rest := by
  rw [remaps, remap_of_le h, Option.bind_some]

theorem Fits.window (h : port.Fits chain) (hp : port.remaps chain = some p) :
    p.window ⊆ port.window := by
  induction chain generalizing port with
  | nil =>
      obtain rfl := Option.some.inj hp
      exact subset_rfl
  | cons call rest ih =>
      obtain ⟨offset, newSize⟩ := call
      rcases h with ⟨hle, hfit, hrest⟩ | ⟨hlt, -⟩
      · rw [remaps_cons hle] at hp
        exact (ih hrest hp).trans (window_sub hfit)
      · rw [remaps, remap_of_lt hlt] at hp
        cases hp

theorem Fits.exact (h : port.Fits chain) {front : List (ℕ × ℕ)}
    (hchain : chain = front ++ (offset, newSize) :: rest) (hp : port.remaps front = some p) :
    (p.remap offset newSize).isSome ↔ offset + newSize ≤ p.size := by
  rw [isSome_remap]
  subst hchain
  induction front generalizing port with
  | nil =>
      obtain rfl := Option.some.inj hp
      rcases h with ⟨hle, hfit, -⟩ | ⟨hlt, hno⟩
      · exact iff_of_true hle hfit
      · exact iff_of_false (Nat.not_le.mpr hlt) (Nat.not_le.mpr hno)
  | cons call front ih =>
      obtain ⟨o, n⟩ := call
      rcases h with ⟨hle, -, hrest⟩ | ⟨hlt, -⟩
      · rw [remaps_cons hle] at hp
        exact ih hp hrest
      · rw [remaps, remap_of_lt hlt] at hp
        cases hp

theorem fits_of_exact (h : ∀ front offset newSize rest p,
      chain = front ++ (offset, newSize) :: rest → port.remaps front = some p →
      ((p.remap offset newSize).isSome ↔ offset + newSize ≤ p.size)) : port.Fits chain := by
  induction chain generalizing port with
  | nil => trivial
  | cons call rest ih =>
      obtain ⟨o, n⟩ := call
      have hfirst := h [] o n rest port rfl rfl
      rw [isSome_remap] at hfirst
      rcases Nat.lt_or_ge port.limit o with hlt | hle
      · exact Or.inr ⟨hlt, Nat.not_le.mp (mt hfirst.mpr (Nat.not_le.mpr hlt))⟩
      · refine Or.inl ⟨hle, hfirst.mp hle, ih fun front offset newSize rest' p hchain hp => ?_⟩
        refine h ((o, n) :: front) offset newSize rest' p (by rw [hchain]; rfl) ?_
        rw [remaps_cons hle]
        exact hp

/-- **When sub-windows stay inside**: every call of the chain is granted and fits, or is refused and
does not fit. -/
theorem remaps_stay_inside_iff (port : IOPort) (chain : List (ℕ × ℕ)) :
    StaysInside port chain ↔ port.Fits chain := by
  constructor
  · exact fun h => fits_of_exact h.exact
  · intro h
    refine ⟨fun front offset newSize rest p hchain hp => h.exact hchain hp, ?_⟩
    intro p hp width _ offset hfit as has a ha
    exact h.window hp (mem_window_of_accessed hfit has ha)

/-- **A sub-window outside of its port.** The offset is behind the port and below its address, and
`remap` grants it. -/
theorem remap_outside :
    let port := memory 0x10000 0x1000
    let p := memory 0x12000 0x1000
    port.remap 0x2000 0x1000 = some p ∧ ¬ 0x2000 + 0x1000 ≤ port.size ∧
      p.accessed 1 0 = some [(.memory, 0x12000)] ∧ (PortSpace.memory, 0x12000) ∉ port.window ∧
      ¬ StaysInside port [(0x2000, 0x1000)] := by
  refine ⟨by decide, by decide, by decide, ?_, fun h => ?_⟩
  · rintro ⟨k, hk, heq⟩
    simp only [size, base, space, PortSpace.card, Prod.mk.injEq, true_and] at hk heq
    omega
  · have := h.exact [] 0x2000 0x1000 [] _ rfl rfl
    exact absurd this (by decide)

end IOPort

end Manticore
