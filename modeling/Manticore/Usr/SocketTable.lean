import Manticore.Kernel.PageAllocator
import Manticore.Usr.Net

/-!
# Socket descriptors

`socket`, `recvfrom` and `sendto` of the C library and the socket table behind them.  A descriptor is
an index of the table plus `SOCKET_FD_OFFSET`.  `socket_alloc` counts the sockets, and
`socket_lookup_by_fd` does not look at the count; its bound lets one index more through than the
table has.

`NULL` is `none`.  The receive buffers are in `Manticore.Usr.Net`.
-/

namespace Manticore

def socketFdOffset : ℕ := 100

def afInet : ℤ := 2

def sockDgram : ℤ := 2

def ebadf : ℤ := 9

def emfile : ℤ := 24

/-- The functions that a socket calls through its operations. -/
inductive SocketFn where
  | udpRecvfrom
  | udpSendto
deriving DecidableEq, Repr

structure SocketOperations where
  recvfrom : SocketFn
  sendto : SocketFn
deriving DecidableEq, Repr

def udpSocketOps : SocketOperations := ⟨.udpRecvfrom, .udpSendto⟩

structure SocketEntry where
  ops : Option SocketOperations
  localPort : ℕ
deriving DecidableEq, Repr

structure SocketTable where
  sockets : Fin maxSockets → SocketEntry
  nrSockets : ℕ
  errno : ℤ

/-- The arguments of `socket`. -/
structure SocketArgs where
  domain : ℤ
  type : ℤ
  protocol : ℤ
deriving DecidableEq, Repr

def findSocketOps (a : SocketArgs) : Option SocketOperations :=
  if a.domain ≠ afInet ∨ a.type ≠ sockDgram ∨ a.protocol ≠ 0 then none else some udpSocketOps

namespace SocketTable

/-- The table of a program that starts. -/
def init : SocketTable := ⟨fun _ => ⟨none, 0⟩, 0, 0⟩

def socketAlloc (t : SocketTable) (a : SocketArgs) : ℤ × SocketTable :=
  if h : t.nrSockets ≥ maxSockets then (-1, { t with errno := emfile })
  else
    match findSocketOps a with
    | none => (-1, { t with errno := einval })
    | some ops =>
        let sockidx : Fin maxSockets := ⟨t.nrSockets, Nat.lt_of_not_le h⟩
        (socketFdOffset + t.nrSockets,
          { t with
            nrSockets := t.nrSockets + 1
            sockets := Function.update t.sockets sockidx ⟨some ops, 0⟩ })

/-- The index of the entry that the result points to. It may be behind the table. -/
def socketLookupByFd (sockfd : ℤ) : Option ℕ :=
  if sockfd < socketFdOffset then none
  else
    let idx := sockfd - socketFdOffset
    if idx > maxSockets then none else some idx.toNat

/-- What a call on a descriptor comes to. -/
inductive Outcome where
  | failed (errno : ℤ)
  | called (fn : SocketFn) (idx : ℕ)
  | calledNull
  | readOutside
deriving DecidableEq, Repr

/-- A call through `sk->ops`. -/
def callOps (t : SocketTable) (fn : SocketOperations → SocketFn) (idx : ℕ) : Outcome :=
  if h : idx < maxSockets then
    match (t.sockets ⟨idx, h⟩).ops with
    | none => .calledNull
    | some ops => .called (fn ops) idx
  else .readOutside

def socketRecvfrom (t : SocketTable) (idx : ℕ) : Outcome := t.callOps (·.recvfrom) idx

def socketSendto (t : SocketTable) (idx : ℕ) : Outcome := t.callOps (·.sendto) idx

def recvfrom (t : SocketTable) (sockfd : ℤ) : Outcome :=
  match socketLookupByFd sockfd with
  | none => .failed ebadf
  | some idx => t.socketRecvfrom idx

def sendto (t : SocketTable) (sockfd : ℤ) : Outcome :=
  match socketLookupByFd sockfd with
  | none => .failed ebadf
  | some idx => t.socketSendto idx

/-- A sequence of calls of `socket`: the descriptors they return, and the table after them. -/
def socket (t : SocketTable) : List SocketArgs → List ℤ × SocketTable
  | [] => ([], t)
  | a :: as =>
      let (fd, t) := t.socketAlloc a
      let (fds, t) := t.socket as
      (if fd = -1 then fds else fd :: fds, t)

/-- A call on a descriptor goes to a function. -/
def Outcome.Safe : Outcome → Prop
  | .failed _ => True
  | .called .. => True
  | .calledNull => False
  | .readOutside => False

/-- **Descriptors resolve safely**: with `fds` returned so far, `sockfd` resolves exactly if it is one
of them, then to an entry with operations, and calls on it are safe. -/
structure Resolves (fds : List ℤ) (t : SocketTable) (sockfd : ℤ) : Prop where
  returned : (socketLookupByFd sockfd).isSome ↔ sockfd ∈ fds
  ops : ∀ idx, socketLookupByFd sockfd = some idx →
    ∃ h : idx < maxSockets, (t.sockets ⟨idx, h⟩).ops.isSome
  recvfrom : (t.recvfrom sockfd).Safe
  sendto : (t.sendto sockfd).Safe

/-! ## The table over a run -/

/-- The sockets in use are the first ones, and `fds` are their descriptors. -/
structure InUse (fds : List ℤ) (t : SocketTable) : Prop where
  le : t.nrSockets ≤ maxSockets
  fds : fds = (List.range t.nrSockets).map fun i : ℕ => (socketFdOffset + i : ℤ)
  ops : ∀ i : Fin maxSockets, (t.sockets i).ops.isSome ↔ i < t.nrSockets

variable {fds : List ℤ} {t : SocketTable} {sockfd : ℤ}

theorem inUse_init : InUse [] init where
  le := Nat.zero_le _
  fds := rfl
  ops _ := iff_of_false Bool.false_ne_true (Nat.not_lt_zero _)

/-- **One call of `socket`**: it fails and the table stays as it is, or it takes the next entry. -/
theorem InUse.socketAlloc (h : InUse fds t) (a : SocketArgs) :
    ∃ fd t', t.socketAlloc a = (fd, t') ∧ InUse (if fd = -1 then fds else fds ++ [fd]) t' := by
  unfold SocketTable.socketAlloc
  split
  · exact ⟨_, _, rfl, h.le, h.fds, h.ops⟩
  · next hlt =>
      split
      · exact ⟨_, _, rfl, h.le, h.fds, h.ops⟩
      · refine ⟨_, _, rfl, ?_⟩
        rw [if_neg (by omega)]
        refine ⟨by simp only; omega, ?_, fun i => ?_⟩
        · rw [List.range_succ, List.map_append, ← h.fds]
          rfl
        · rcases eq_or_ne i ⟨t.nrSockets, Nat.lt_of_not_le hlt⟩ with rfl | hne
          · simp
          · have hne' : (i : ℕ) ≠ t.nrSockets := fun heq => hne (Fin.ext heq)
            simp only [Function.update_of_ne hne]
            rw [h.ops i]
            omega

theorem InUse.socket (h : InUse fds t) (as : List SocketArgs) :
    InUse (fds ++ (t.socket as).1) (t.socket as).2 := by
  induction as generalizing fds t with
  | nil => rwa [SocketTable.socket, List.append_nil]
  | cons a as ih =>
      obtain ⟨fd, t', hcall, hnext⟩ := h.socketAlloc a
      have hrest := ih hnext
      rw [SocketTable.socket, hcall]
      dsimp only
      split
      · next heq => rwa [if_pos heq] at hrest
      · next hne => rwa [if_neg hne, List.append_assoc, List.singleton_append] at hrest

theorem inUse_socket (as : List SocketArgs) : InUse (init.socket as).1 (init.socket as).2 :=
  inUse_init.socket as

/-! ## Looking up -/

theorem socketLookupByFd_eq_some_iff {idx : ℕ} :
    socketLookupByFd sockfd = some idx ↔ sockfd = socketFdOffset + idx ∧ idx ≤ maxSockets := by
  unfold socketLookupByFd
  dsimp only
  split
  · exact iff_of_false (by simp) (by omega)
  · split
    · exact iff_of_false (by simp) (by omega)
    · rw [Option.some.injEq]
      omega

theorem eq_of_socketLookupByFd_eq {fd fd' : ℤ} (hfd : (socketLookupByFd fd).isSome)
    (h : socketLookupByFd fd = socketLookupByFd fd') : fd = fd' := by
  obtain ⟨idx, hidx⟩ := Option.isSome_iff_exists.mp hfd
  rw [(socketLookupByFd_eq_some_iff.mp hidx).1,
    (socketLookupByFd_eq_some_iff.mp (h.symm.trans hidx)).1]

namespace InUse

variable (h : InUse fds t)
include h

theorem length_fds : fds.length = t.nrSockets := by rw [h.fds, List.length_map, List.length_range]

theorem mem_fds : sockfd ∈ fds ↔ ∃ idx < t.nrSockets, sockfd = socketFdOffset + idx := by
  rw [h.fds, List.mem_map]
  refine exists_congr fun idx => ?_
  rw [List.mem_range, eq_comm]

theorem isSome_of_mem (hmem : sockfd ∈ fds) : (socketLookupByFd sockfd).isSome := by
  obtain ⟨idx, hlt, heq⟩ := h.mem_fds.mp hmem
  rw [socketLookupByFd_eq_some_iff.mpr ⟨heq, hlt.le.trans h.le⟩]
  rfl

theorem callOps_safe (fn : SocketOperations → SocketFn) {idx : ℕ} (hidx : idx < t.nrSockets) :
    (t.callOps fn idx).Safe := by
  have hlt := hidx.trans_le h.le
  obtain ⟨ops, hops⟩ := Option.isSome_iff_exists.mp ((h.ops ⟨idx, hlt⟩).mpr hidx)
  rw [callOps, dif_pos hlt, hops]
  trivial

theorem resolves_iff : Resolves fds t sockfd ↔
    ¬ ((socketFdOffset + fds.length : ℤ) ≤ sockfd ∧ sockfd ≤ socketFdOffset + maxSockets) := by
  rw [h.length_fds]
  constructor
  · rintro hres ⟨hlo, hhi⟩
    obtain ⟨idx, rfl⟩ : ∃ idx : ℕ, sockfd = socketFdOffset + idx :=
      ⟨(sockfd - socketFdOffset).toNat, by omega⟩
    have hlookup := socketLookupByFd_eq_some_iff.mpr ⟨rfl, (by omega : idx ≤ maxSockets)⟩
    obtain ⟨idx', hlt, heq⟩ := h.mem_fds.mp (hres.returned.mp (by rw [hlookup]; rfl))
    omega
  · intro hout
    have hlookup : ∀ idx, socketLookupByFd sockfd = some idx →
        idx < t.nrSockets ∧ sockfd = socketFdOffset + idx := fun idx hidx => by
      obtain ⟨heq, hle⟩ := socketLookupByFd_eq_some_iff.mp hidx
      omega
    refine ⟨⟨fun hsome => ?_, h.isSome_of_mem⟩, fun idx hidx => ?_, ?_, ?_⟩
    · obtain ⟨idx, hidx⟩ := Option.isSome_iff_exists.mp hsome
      exact h.mem_fds.mpr ⟨idx, hlookup idx hidx⟩
    · have hlt := (hlookup idx hidx).1
      exact ⟨hlt.trans_le h.le, (h.ops ⟨idx, _⟩).mpr hlt⟩
    · unfold SocketTable.recvfrom
      split
      · trivial
      · next idx hidx => exact h.callOps_safe _ (hlookup idx hidx).1
    · unfold SocketTable.sendto
      split
      · trivial
      · next idx hidx => exact h.callOps_safe _ (hlookup idx hidx).1

end InUse

/-- **When descriptors resolve safely**: unless the descriptor is that of a free entry or of the one
behind the table. Different descriptors resolve to different entries. -/
theorem socket_descriptors_resolve_iff (as : List SocketArgs) (sockfd : ℤ) :
    (Resolves (init.socket as).1 (init.socket as).2 sockfd ↔
      ¬ ((socketFdOffset + (init.socket as).1.length : ℤ) ≤ sockfd ∧
        sockfd ≤ socketFdOffset + maxSockets)) ∧
    ∀ fd ∈ (init.socket as).1, ∀ fd' ∈ (init.socket as).1, fd ≠ fd' →
      socketLookupByFd fd ≠ socketLookupByFd fd' := by
  have hinv := inUse_socket as
  refine ⟨hinv.resolves_iff, fun fd hfd fd' _ hne heq => hne ?_⟩
  exact eq_of_socketLookupByFd_eq (hinv.isSome_of_mem hfd) heq

/-- **A descriptor that no call returned.** With one socket open, descriptor 101 calls through `NULL`
and descriptor 108 reads behind the table. -/
theorem free_socket_calls_null :
    let (fds, t) := init.socket [⟨afInet, sockDgram, 0⟩]
    fds = [100] ∧ t.sendto 101 = .calledNull ∧ t.recvfrom 108 = .readOutside ∧
      ¬ Resolves fds t 101 := by
  refine ⟨by decide, by decide, by decide, fun h => ?_⟩
  exact absurd h.returned (by decide)

end SocketTable

end Manticore
