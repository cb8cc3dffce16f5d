import Manticore.Usr.NetUdp

/-!
# Building a packet

`packet_buf` of `usr/liblinux/src/internal/ip.c`, at the level of lengths.  `packet_buf_reserve`
asserts `pk->len + size < pk->capacity` on values of type `size_t`, so a size near 2^64 passes: the
sum wraps around.  `udp_sendto` hands the caller's length on as it is.
-/

namespace Manticore

structure PacketBuf where
  len : ℕ
  capacity : ℕ
deriving DecidableEq, Repr

/-- The bytes from `off` on of the buffer. -/
structure Region where
  off : ℕ
  size : ℕ
deriving DecidableEq, Repr

def packetBufInit (capacity : ℕ) : PacketBuf := ⟨0, capacity⟩

/-- `packet_buf_reserve`, and the region that is handed out; `none` if the assertion stops it. -/
def PacketBuf.reserve (pk : PacketBuf) (size : ℕ) : Option (PacketBuf × Region) :=
  if add64 pk.len size < pk.capacity then
    some ({ pk with len := add64 pk.len size }, ⟨pk.len, size⟩)
  else none

/-- `packet_buf_append`; the region is the one that `memcpy` fills. -/
def PacketBuf.append (pk : PacketBuf) (len : ℕ) : Option (PacketBuf × Region) := pk.reserve len

inductive PacketBufCall
  | reserve (size : ℕ)
  | append (len : ℕ)
deriving DecidableEq, Repr

def PacketBufCall.size : PacketBufCall → ℕ
  | .reserve size => size
  | .append len => len

def PacketBuf.call (pk : PacketBuf) : PacketBufCall → Option (PacketBuf × Region)
  | .reserve size => pk.reserve size
  | .append len => pk.append len

/-- The calls up to the first that is stopped: the buffer they leave and the regions handed out. -/
def PacketBuf.calls : PacketBuf → List PacketBufCall → PacketBuf × List Region
  | pk, [] => (pk, [])
  | pk, c :: cs =>
      match pk.call c with
      | none => (pk, [])
      | some (pk', r) => ((pk'.calls cs).1, r :: (pk'.calls cs).2)

/-- Regions one behind the other, from `off` on. -/
def Consecutive : ℕ → List Region → Prop
  | _, [] => True
  | off, r :: rs => r.off = off ∧ Consecutive (off + r.size) rs

/-- **The packet stays inside the buffer**: the regions follow each other from the start on, do not
overlap and lie within the capacity, as does the length. -/
structure StaysInside (off : ℕ) (pk : PacketBuf) (regions : List Region) : Prop where
  consecutive : Consecutive off regions
  disjoint : regions.Pairwise fun r r' => r.off + r.size ≤ r'.off
  inside : ∀ r ∈ regions, r.off + r.size ≤ pk.capacity
  len : pk.len ≤ pk.capacity

/-- Some call that is reached makes the sum wrap around to a value below the capacity. -/
def Wraps (off capacity : ℕ) (sizes : List ℕ) : Prop :=
  ∃ pre size post, sizes = pre ++ size :: post ∧ off + pre.sum < capacity ∧
    2 ^ 64 ≤ off + pre.sum + size ∧ off + pre.sum + size - 2 ^ 64 < capacity

variable {pk : PacketBuf} {c : PacketBufCall} {cs : List PacketBufCall} {off capacity : ℕ}

theorem PacketBuf.call_eq (pk : PacketBuf) (c : PacketBufCall) : pk.call c = pk.reserve c.size := by
  cases c <;> rfl

theorem not_wraps_nil : ¬ Wraps off capacity [] := by
  rintro ⟨pre, x, post, heq, -⟩
  exact List.append_ne_nil_of_right_ne_nil pre (List.cons_ne_nil x post) heq.symm

theorem wraps_cons {size : ℕ} {sizes : List ℕ} : Wraps off capacity (size :: sizes) ↔
    (off < capacity ∧ 2 ^ 64 ≤ off + size ∧ off + size - 2 ^ 64 < capacity) ∨
      Wraps (off + size) capacity sizes := by
  constructor
  · rintro ⟨pre, x, post, heq, hlt, hle, hsum⟩
    cases pre with
    | nil =>
        obtain ⟨rfl, -⟩ := List.cons.inj heq
        exact .inl ⟨hlt, hle, hsum⟩
    | cons y pre =>
        obtain ⟨rfl, rfl⟩ := List.cons.inj heq
        rw [List.sum_cons, ← Nat.add_assoc] at hlt hle hsum
        exact .inr ⟨pre, x, post, rfl, hlt, hle, hsum⟩
  · rintro (⟨hlt, hle, hsum⟩ | ⟨pre, x, post, rfl, hlt, hle, hsum⟩)
    · exact ⟨[], size, sizes, rfl, hlt, hle, hsum⟩
    · refine ⟨size :: pre, x, post, rfl, ?_⟩
      rw [List.sum_cons, ← Nat.add_assoc]
      exact ⟨hlt, hle, hsum⟩

theorem le_off_of_consecutive {rs : List Region} (h : Consecutive off rs) :
    ∀ r ∈ rs, off ≤ r.off := by
  induction rs generalizing off with
  | nil => exact fun _ hr => nomatch hr
  | cons r rs ih =>
      refine List.forall_mem_cons.mpr ⟨h.1.ge, fun r' hr' => ?_⟩
      exact (Nat.le_add_right off r.size).trans (ih h.2 r' hr')

theorem StaysInside.nil (h : pk.len ≤ pk.capacity) : StaysInside off pk [] where
  consecutive := trivial
  disjoint := List.Pairwise.nil
  inside := List.forall_mem_nil _
  len := h

theorem StaysInside.cons {r : Region} {rs : List Region} (hoff : r.off = off)
    (hinside : r.off + r.size ≤ pk.capacity) (h : StaysInside (off + r.size) pk rs) :
    StaysInside off pk (r :: rs) where
  consecutive := ⟨hoff, h.consecutive⟩
  disjoint := List.pairwise_cons.mpr ⟨fun r' hr' => by
    rw [hoff]
    exact le_off_of_consecutive h.consecutive r' hr', h.disjoint⟩
  inside := List.forall_mem_cons.mpr ⟨hinside, h.inside⟩
  len := h.len

theorem StaysInside.tail {r : Region} {rs : List Region} (h : StaysInside off pk (r :: rs)) :
    StaysInside (off + r.size) pk rs where
  consecutive := h.consecutive.2
  disjoint := (List.pairwise_cons.mp h.disjoint).2
  inside := fun r' hr' => h.inside r' (List.mem_cons_of_mem _ hr')
  len := h.len

theorem PacketBuf.calls_cons_of_lt (cs : List PacketBufCall)
    (h : add64 pk.len c.size < pk.capacity) :
    pk.calls (c :: cs) = (((PacketBuf.mk (add64 pk.len c.size) pk.capacity).calls cs).1,
      ⟨pk.len, c.size⟩ :: ((PacketBuf.mk (add64 pk.len c.size) pk.capacity).calls cs).2) := by
  rw [calls, call_eq, reserve, if_pos h]

theorem PacketBuf.calls_cons_of_not_lt (cs : List PacketBufCall)
    (h : ¬ add64 pk.len c.size < pk.capacity) : pk.calls (c :: cs) = (pk, []) := by
  rw [calls, call_eq, reserve, if_neg h]

theorem PacketBuf.capacity_calls (pk : PacketBuf) (cs : List PacketBufCall) :
    (pk.calls cs).1.capacity = pk.capacity := by
  induction cs generalizing pk with
  | nil => rfl
  | cons c cs ih =>
      by_cases h : add64 pk.len c.size < pk.capacity
      · rw [calls_cons_of_lt cs h]
        exact ih _
      · rw [calls_cons_of_not_lt cs h]

theorem staysInside_calls_iff (hcap : pk.capacity < 2 ^ 64) (hsizes : ∀ c ∈ cs, c.size < 2 ^ 64)
    (hlen : pk.len < pk.capacity ∨ pk.len = 0) :
    StaysInside pk.len (pk.calls cs).1 (pk.calls cs).2 ↔
      ¬ Wraps pk.len pk.capacity (cs.map PacketBufCall.size) := by
  induction cs generalizing pk with
  | nil =>
      refine iff_of_true (.nil ?_) ?_
      · exact hlen.elim le_of_lt fun h => h ▸ Nat.zero_le _
      · exact not_wraps_nil
  | cons c cs ih =>
      obtain ⟨hsize, hsizes⟩ := List.forall_mem_cons.mp hsizes
      have hpkcap := pk.capacity_calls (c :: cs)
      have hadd : add64 pk.len c.size = (pk.len + c.size) % 2 ^ 64 := rfl
      rw [List.map_cons, wraps_cons]
      by_cases hstop : add64 pk.len c.size < pk.capacity
      · rw [PacketBuf.calls_cons_of_lt cs hstop] at hpkcap ⊢
        by_cases hwrap : 2 ^ 64 ≤ pk.len + c.size
        · -- the region goes beyond the buffer
          refine iff_of_false (fun h => ?_) fun h => h (.inl ⟨by omega, hwrap, by omega⟩)
          have hinside := h.inside _ List.mem_cons_self
          dsimp only at hinside hpkcap
          omega
        · have hsum : add64 pk.len c.size = pk.len + c.size := by omega
          have ih := @ih ⟨add64 pk.len c.size, pk.capacity⟩ hcap hsizes (.inl hstop)
          dsimp only at ih hpkcap
          rw [hsum] at ih hpkcap hstop ⊢
          rw [not_or, and_iff_right (fun h => hwrap h.2.1), ← ih]
          exact ⟨StaysInside.tail, fun h => h.cons rfl (by rw [hpkcap]; exact hstop.le)⟩
      · rw [PacketBuf.calls_cons_of_not_lt cs hstop]
        refine iff_of_true (.nil ?_) ?_
        · exact hlen.elim le_of_lt fun h => h ▸ Nat.zero_le _
        · rintro (⟨-, hle, hsum⟩ | ⟨pre, x, post, -, hlt, -, -⟩) <;> omega

/-! ## The packet of `udp_sendto` -/

/-- The two 16-bit lengths that `udp_sendto` puts into the headers, and the buffer it builds; `none`
if an assertion stops it. -/
def udpSendtoBuild (len : ℕ) : Option (ℕ × ℕ × PacketBuf) := do
  let udpLen := add64 sizeofUdphdr len % 2 ^ 16
  let ipLen := add64 sizeofIphdr udpLen % 2 ^ 16
  let (pk, _) ← (packetBufInit txBufSize).reserve sizeofEthhdr
  let (pk, _) ← pk.reserve sizeofIphdr
  let (pk, _) ← pk.reserve sizeofUdphdr
  let (pk, _) ← pk.append len
  some (udpLen, ipLen, pk)

/-- The length fields of a packet that is built are the lengths of the datagram and of the packet. -/
def LengthsRight (len : ℕ) : Prop :=
  ∀ udpLen ipLen pk, udpSendtoBuild len = some (udpLen, ipLen, pk) →
    udpLen = sizeofUdphdr + len ∧ ipLen = sizeofIphdr + (sizeofUdphdr + len)

theorem udpSendtoBuild_eq (len : ℕ) : udpSendtoBuild len =
    if add64 42 len < txBufSize then some (add64 sizeofUdphdr len % 2 ^ 16,
      add64 sizeofIphdr (add64 sizeofUdphdr len % 2 ^ 16) % 2 ^ 16, ⟨add64 42 len, txBufSize⟩)
    else none := by
  have heth : (packetBufInit txBufSize).reserve sizeofEthhdr =
      some (⟨14, txBufSize⟩, ⟨0, 14⟩) := by decide
  have hip : (PacketBuf.mk 14 txBufSize).reserve sizeofIphdr =
      some (⟨34, txBufSize⟩, ⟨14, 20⟩) := by decide
  have hudp : (PacketBuf.mk 34 txBufSize).reserve sizeofUdphdr =
      some (⟨42, txBufSize⟩, ⟨34, 8⟩) := by decide
  simp only [udpSendtoBuild, heth, hip, hudp, bind, Option.bind]
  unfold PacketBuf.append PacketBuf.reserve
  by_cases h : add64 42 len < txBufSize
  · rw [if_pos h, if_pos h]
  · rw [if_neg h, if_neg h]

theorem packetBufAppend_eq_reserve {pk bytes : List UInt8} (h : pk.length + bytes.length < 2 ^ 64) :
    packetBufAppend pk bytes =
      if ((PacketBuf.mk pk.length txBufSize).append bytes.length).isSome then .ok (pk ++ bytes)
      else .error .assertion := by
  have hadd : add64 pk.length bytes.length = pk.length + bytes.length := Nat.mod_eq_of_lt h
  unfold packetBufAppend PacketBuf.append PacketBuf.reserve
  rw [hadd]
  split <;> rfl

theorem lengthsRight_iff {len : ℕ} (hlen : len < 2 ^ 64) :
    LengthsRight len ↔ len < 2 ^ 64 - 42 := by
  have hadd (k : ℕ) : add64 k len = (k + len) % 2 ^ 64 := rfl
  have hip (udpLen : ℕ) : add64 sizeofIphdr udpLen = (20 + udpLen) % 2 ^ 64 := rfl
  have htx : txBufSize = 4096 := rfl
  have hudp : sizeofUdphdr = 8 := rfl
  have hiphdr : sizeofIphdr = 20 := rfl
  unfold LengthsRight
  rw [udpSendtoBuild_eq, hip, hadd, hadd, hudp, hiphdr]
  constructor
  · intro h
    by_contra hge
    have hfields := h _ _ _ (if_pos (by omega))
    omega
  · intro hlt udpLen ipLen pk h
    by_cases hfits : (42 + len) % 2 ^ 64 < txBufSize
    · rw [if_pos hfits] at h
      obtain ⟨hudpLen, hrest⟩ := Prod.mk.inj (Option.some.inj h)
      obtain ⟨hipLen, -⟩ := Prod.mk.inj hrest
      omega
    · rw [if_neg hfits] at h
      cases h

/-- **When a packet stays inside its buffer**: just if no call that is reached makes the length wrap
around; and the lengths in the headers of `udp_sendto` are right just if its last call does not. -/
theorem packet_buf_stays_inside_iff (capacity len : ℕ) (cs : List PacketBufCall)
    (hcap : capacity < 2 ^ 64) (hsizes : ∀ c ∈ cs, c.size < 2 ^ 64) (hlen : len < 2 ^ 64) :
    (StaysInside 0 ((packetBufInit capacity).calls cs).1 ((packetBufInit capacity).calls cs).2 ↔
      ¬ Wraps 0 capacity (cs.map PacketBufCall.size)) ∧
    (LengthsRight len ↔ len < 2 ^ 64 - 42) := by
  have hinit : (packetBufInit capacity).capacity < 2 ^ 64 := hcap
  exact ⟨staysInside_calls_iff hinit hsizes (.inr rfl), lengthsRight_iff hlen⟩

/-- The calls of `udp_sendto`. -/
def udpSendtoCalls (len : ℕ) : List PacketBufCall :=
  [.reserve sizeofEthhdr, .reserve sizeofIphdr, .reserve sizeofUdphdr, .append len]

/-- A packet with 100 bytes of data. -/
theorem packet_buf_stays_inside_hundred :
    StaysInside 0 ((packetBufInit txBufSize).calls (udpSendtoCalls 100)).1
      ((packetBufInit txBufSize).calls (udpSendtoCalls 100)).2 ∧ LengthsRight 100 := by
  obtain ⟨hinside, hlengths⟩ := packet_buf_stays_inside_iff txBufSize 100 (udpSendtoCalls 100)
    (by decide) (by decide) (by norm_num)
  refine ⟨hinside.mpr ?_, hlengths.mpr (by norm_num)⟩
  show ¬ Wraps 0 txBufSize [sizeofEthhdr, sizeofIphdr, sizeofUdphdr, 100]
  simp only [wraps_cons, not_wraps_nil, sizeofEthhdr, sizeofIphdr, sizeofUdphdr, txBufSize]
  norm_num

/-- A length of 2^64 - 1 passes the assertion; the region leaves the buffer, and the packet is
announced with 7 bytes. -/
theorem packet_buf_wraps :
    (packetBufInit txBufSize).calls (udpSendtoCalls (2 ^ 64 - 1)) =
        (⟨41, txBufSize⟩, [⟨0, 14⟩, ⟨14, 20⟩, ⟨34, 8⟩, ⟨42, 2 ^ 64 - 1⟩]) ∧
      ¬ StaysInside 0 ((packetBufInit txBufSize).calls (udpSendtoCalls (2 ^ 64 - 1))).1
        ((packetBufInit txBufSize).calls (udpSendtoCalls (2 ^ 64 - 1))).2 ∧
      udpSendtoBuild (2 ^ 64 - 1) = some (7, 27, ⟨41, txBufSize⟩) := by
  have hcalls : (packetBufInit txBufSize).calls (udpSendtoCalls (2 ^ 64 - 1)) =
      (⟨41, txBufSize⟩, [⟨0, 14⟩, ⟨14, 20⟩, ⟨34, 8⟩, ⟨42, 2 ^ 64 - 1⟩]) := by decide +kernel
  refine ⟨hcalls, fun h => ?_, by decide +kernel⟩
  rw [hcalls] at h
  exact absurd (h.inside ⟨42, 2 ^ 64 - 1⟩ (by simp)) (by decide)

end Manticore
