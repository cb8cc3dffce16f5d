import Manticore.Base.Run
import Manticore.Base.Word
import Manticore.Kernel.IoQueue

/-!
# The receive buffer of virtio-net

`drivers/virtio/net.rs` has one page for reception.  Its descriptor goes from the available
to the used ring with a packet; `recv` turns the used entry into an event for the process
that acquired the device; `epoll_wait` hands the event to `net_input`, which gives the
buffer back with `io_complete`; and `process_io` makes the descriptor available again.

The device, the interrupt, the process and `process_io` take their steps in any order.
Both rings are bounded queues here, which is what an atomic ring buffer is when its calls
do not overlap (`AtomicRingBuffer.holds_emplace`).
-/

namespace Manticore

/-! ## Bounded queues -/

/-- Append to a queue of `slots` slots, one of which stays empty. -/
def pushBounded {α : Type*} (slots : ℕ) (l : List α) (e : α) : List α :=
  if l.length + 1 = slots then l else l ++ [e]

theorem pushBounded_of_room {α : Type*} {slots : ℕ} {l : List α} {e : α}
    (h : l.length + 1 ≠ slots) : pushBounded slots l e = l ++ [e] := if_neg h

theorem AtomicRingBuffer.holds_emplace {r : AtomicRingBuffer} {n q : ℕ}
    {l : List (List UInt8)} (h : r.Holds n q l) (element : Mem) :
    (r.emplace element).2.Holds n q (pushBounded n l (bytesAt element 0 r.elementSize)) := by
  have hlt := h.length_lt
  by_cases hfull : l.length + 1 = n
  · rw [emplace_of_full h hfull, pushBounded, if_pos hfull]
    exact h
  · rw [pushBounded_of_room hfull]
    exact (emplace_of_room h (by omega) element).2

/-! ## The parties -/

/-- `mem::size_of::<VirtioNetHdr>()`. -/
def sizeofVirtioNetHdr : ℕ := 10

/-- How many elements the event ring of a process has. -/
def eventQueueSlots : ℕ := (4096 - sizeofAtomicRingBuffer) / 24

/-- Where the loop of `epoll_wait` is with the event at the front of the ring: before it,
in `net_input`, or after the `io_complete` of `net_input` and before `pop`. -/
inductive EpollPhase where
  | idle
  | handling
  | completed
deriving DecidableEq, Repr

/-- `available` counts the receive descriptors of the device, `used` has the lengths of the
used entries that `recv` has not seen, and `events` those of the packets in the event ring.
`ioQueue` has the opcodes in the I/O ring. -/
structure VirtioNet where
  available : ℕ
  used : List ℕ
  rxBufferAddr : Bool
  listeners : ℕ
  events : List ℕ
  phase : EpollPhase
  ioQueue : Option (List Opcode)
deriving DecidableEq, Repr

namespace VirtioNet

/-- After `probe`, which adds the one receive buffer. -/
def probe : VirtioNet where
  available := 1
  used := []
  rxBufferAddr := false
  listeners := 0
  events := []
  phase := .idle
  ioQueue := none

/-- A packet arrives. Without a descriptor the device drops it. -/
def arrive (st : VirtioNet) (len : ℕ) : VirtioNet :=
  if st.available = 0 then st
  else { st with available := st.available - 1, used := st.used ++ [len] }

/-- `EventQueue::emplace` for each listener; a full ring drops the event. -/
def onEvent (st : VirtioNet) (len : ℕ) : VirtioNet :=
  { st with
    events := (List.replicate st.listeners len).foldl (pushBounded eventQueueSlots) st.events }

/-- One round of the loop of `recv`. -/
def recvOne (st : VirtioNet) (bufLen : ℕ) : VirtioNet :=
  if st.rxBufferAddr then st.onEvent (sub64 bufLen sizeofVirtioNetHdr) else st

/-- `recv`: all used entries are seen afterwards. -/
def recv (st : VirtioNet) : VirtioNet :=
  { st.used.foldl recvOne st with used := [] }

/-- `acquire`. The listener is added first; then the receive page is mapped, and then the
I/O queue is set up, and either may fail. -/
def acquire (st : VirtioNet) (rxOk ioOk : Bool) : VirtioNet :=
  let st := { st with listeners := st.listeners + 1 }
  if rxOk then
    let st := { st with rxBufferAddr := true }
    if ioOk then { st with ioQueue := some [] } else st
  else st

/-- `__io_queue_append`; a process without a queue does not get past it. -/
def append (st : VirtioNet) (opcode : Opcode) : VirtioNet :=
  { st with ioQueue := st.ioQueue.map fun cmds => pushBounded ioQueueSlots cmds opcode }

/-- The loop of `epoll_wait` looks at the first event and calls `net_input`. -/
def front (st : VirtioNet) : VirtioNet :=
  if st.phase = .idle ∧ st.events ≠ [] then { st with phase := .handling } else st

/-- `io_complete` at the end of `net_input`. -/
def ioComplete (st : VirtioNet) : VirtioNet :=
  if st.phase = .handling ∧ st.ioQueue.isSome then
    { st.append .complete with phase := .completed }
  else st

/-- `atomic_ring_buffer_pop` at the end of the round. -/
def pop (st : VirtioNet) : VirtioNet :=
  if st.phase = .completed then { st with phase := .idle, events := st.events.tail } else st

/-- `process_io_one`: a `Complete` makes the receive descriptor available again. -/
def processIoOne (available : ℕ) : Opcode → ℕ
  | .submit => available
  | .complete => available + 1

/-- `process_io`, up to the command on which the kernel stops, if there is one. -/
def processIo (st : VirtioNet) (upTo : ℕ) : VirtioNet :=
  match st.ioQueue with
  | none => st
  | some cmds =>
      { st with
        available := (cmds.take upTo).foldl processIoOne st.available
        ioQueue := some (cmds.drop upTo) }

inductive Op where
  | arrive (len : ℕ)
  | interrupt
  | acquire (rxOk ioOk : Bool)
  | front
  | ioComplete
  | pop
  | ioSubmit
  | processIo (upTo : ℕ)
deriving DecidableEq, Repr

def step (st : VirtioNet) : Op → VirtioNet
  | .arrive len => st.arrive len
  | .interrupt => st.recv
  | .acquire rxOk ioOk => st.acquire rxOk ioOk
  | .front => st.front
  | .ioComplete => st.ioComplete
  | .pop => st.pop
  | .ioSubmit => st.append .submit
  | .processIo upTo => st.processIo upTo

/-! ## Where the buffer is -/

/-- Events in the ring that no round of `epoll_wait` has taken up. -/
def waitingEvents (st : VirtioNet) : ℕ :=
  st.events.length - if st.phase = .idle then 0 else 1

def handled (st : VirtioNet) : ℕ := if st.phase = .handling then 1 else 0

def completes (st : VirtioNet) : ℕ := (st.ioQueue.getD []).count .complete

/-- In how many places the receive buffer is. -/
def buffers (st : VirtioNet) : ℕ :=
  st.available + st.used.length + st.waitingEvents + st.handled + st.completes

/-- The interrupt finds a process if it finds a packet, the device is acquired once, and
the I/O ring is not full when the buffer is given back. -/
def HandsOver (st : VirtioNet) : Op → Prop
  | .interrupt => st.used = [] ∨ st.rxBufferAddr = true
  | .acquire _ _ => st.listeners = 0
  | .ioComplete => (st.ioQueue.getD []).length + 1 ≠ ioQueueSlots
  | _ => True

instance (st : VirtioNet) : ∀ op, Decidable (st.HandsOver op)
  | .interrupt => inferInstanceAs (Decidable (_ ∨ _))
  | .acquire _ _ => inferInstanceAs (Decidable (_ = _))
  | .ioComplete => inferInstanceAs (Decidable (¬ _))
  | .arrive _ | .front | .pop | .ioSubmit | .processIo _ => isTrue trivial

/-- The buffer is in one place, and whoever hears of a packet hears of it once. -/
structure Inv (st : VirtioNet) : Prop where
  buffers_eq : st.buffers = 1
  listeners_eq : st.rxBufferAddr = true → st.listeners = 1
  ioQueue_eq : st.listeners = 0 → st.ioQueue = none
  events_pos : st.phase ≠ .idle → st.events ≠ []

theorem inv_probe : Inv probe :=
  ⟨rfl, fun h => absurd h (by decide), fun _ => rfl, fun h => absurd rfl h⟩

/-! ## Every hand-over keeps the buffer -/

namespace Inv

variable {st : VirtioNet}

theorem arrive (h : Inv st) (len : ℕ) : Inv (st.arrive len) := by
  unfold VirtioNet.arrive
  split
  · exact h
  · next hpos =>
      refine ⟨?_, h.listeners_eq, h.ioQueue_eq, h.events_pos⟩
      have hone := h.buffers_eq
      simp only [buffers, waitingEvents, handled, completes, List.length_append,
        List.length_singleton] at hone ⊢
      omega

theorem recv (h : Inv st) (hok : st.used = [] ∨ st.rxBufferAddr = true) : Inv st.recv := by
  have hone := h.buffers_eq
  rcases hused : st.used with _ | ⟨len, rest⟩
  · have hsame : st.recv = st := by
      obtain ⟨available, used, rxBufferAddr, listeners, events, phase, ioQueue⟩ := st
      subst hused
      rfl
    rwa [hsame]
  · have haddr : st.rxBufferAddr = true := hok.resolve_left (by simp [hused])
    have hrest : rest = [] := by
      refine List.eq_nil_of_length_eq_zero ?_
      simp only [buffers, hused, List.length_cons] at hone
      omega
    have hroom : st.events.length + 1 ≠ eventQueueSlots := by
      have hslots : eventQueueSlots = 162 := rfl
      simp only [buffers, waitingEvents, hused, List.length_cons] at hone
      split at hone <;> omega
    have hrecv : st.recv = { st with
        events := st.events ++ [sub64 len sizeofVirtioNetHdr], used := [] } := by
      simp only [VirtioNet.recv, hused, hrest, List.foldl_cons, List.foldl_nil, recvOne, haddr,
        if_true, onEvent, h.listeners_eq haddr, List.replicate_one, pushBounded_of_room hroom]
    rw [hrecv]
    refine ⟨?_, h.listeners_eq, h.ioQueue_eq, fun _ => by simp⟩
    have hevents := h.events_pos
    simp only [buffers, waitingEvents, handled, completes, hused, hrest, List.length_append,
      List.length_singleton, List.length_nil] at hone ⊢
    by_cases hidle : st.phase = .idle
    · simp only [hidle, if_true] at hone ⊢
      omega
    · have := List.length_pos_iff.mpr (hevents hidle)
      simp only [hidle, if_false] at hone ⊢
      omega

theorem acquire (h : Inv st) (hok : st.listeners = 0) (rxOk ioOk : Bool) :
    Inv (st.acquire rxOk ioOk) := by
  have hnone := h.ioQueue_eq hok
  have haddr : st.rxBufferAddr = false := by
    by_contra haddr
    have := h.listeners_eq (by simpa using haddr)
    omega
  have hone := h.buffers_eq
  refine ⟨?_, ?_, ?_, ?_⟩
  · cases rxOk <;> cases ioOk <;>
      simpa [VirtioNet.acquire, buffers, waitingEvents, handled, completes, hnone] using hone
  · cases rxOk <;> cases ioOk <;> simp [VirtioNet.acquire, hok, haddr]
  · cases rxOk <;> cases ioOk <;> simp [VirtioNet.acquire]
  · cases rxOk <;> cases ioOk <;> exact h.events_pos

theorem front (h : Inv st) : Inv st.front := by
  unfold VirtioNet.front
  split
  · next hfront =>
      refine ⟨?_, h.listeners_eq, h.ioQueue_eq, fun _ => hfront.2⟩
      have hone := h.buffers_eq
      have hpos := List.length_pos_iff.mpr hfront.2
      simp only [buffers, waitingEvents, handled, completes, hfront.1, if_true, reduceCtorEq,
        if_false] at hone ⊢
      omega
  · exact h

theorem ioComplete (h : Inv st) (hok : (st.ioQueue.getD []).length + 1 ≠ ioQueueSlots) :
    Inv st.ioComplete := by
  unfold VirtioNet.ioComplete
  split
  · next hphase =>
      obtain ⟨hhandling, hsome⟩ := hphase
      obtain ⟨cmds, hcmds⟩ := Option.isSome_iff_exists.mp hsome
      rw [hcmds, Option.getD_some] at hok
      have hone := h.buffers_eq
      refine ⟨?_, h.listeners_eq, ?_, fun _ => h.events_pos (by simp [hhandling])⟩
      · simp only [buffers, waitingEvents, handled, completes, append, hcmds, hhandling,
          Option.map_some, Option.getD_some, pushBounded_of_room hok, reduceCtorEq, if_false,
          if_true, List.count_append, List.count_singleton_self] at hone ⊢
        omega
      · intro hnone
        simp [h.ioQueue_eq hnone] at hcmds
  · exact h

theorem pop (h : Inv st) : Inv st.pop := by
  unfold VirtioNet.pop
  split
  · next hphase =>
      refine ⟨?_, h.listeners_eq, h.ioQueue_eq, fun hidle => absurd rfl hidle⟩
      have hone := h.buffers_eq
      simp only [buffers, waitingEvents, handled, completes, hphase, reduceCtorEq, if_false,
        if_true, List.length_tail] at hone ⊢
      omega
  · exact h

theorem ioSubmit (h : Inv st) : Inv (st.append .submit) := by
  refine ⟨?_, h.listeners_eq, fun hnone => ?_, h.events_pos⟩
  · have hone := h.buffers_eq
    have hcount : (st.append .submit).completes = st.completes := by
      rcases hcmds : st.ioQueue with _ | cmds
      · simp [completes, append, hcmds]
      · by_cases hfull : cmds.length + 1 = ioQueueSlots
        · simp [completes, append, hcmds, pushBounded, hfull]
        · simp [completes, append, hcmds, pushBounded_of_room hfull]
    rw [buffers, hcount]
    exact hone
  · simp [append, h.ioQueue_eq hnone]

theorem foldl_processIoOne : ∀ (cmds : List Opcode) (available : ℕ),
    cmds.foldl processIoOne available = available + cmds.count .complete
  | [], _ => rfl
  | .submit :: cmds, available => by
      rw [List.foldl_cons, foldl_processIoOne cmds, List.count_cons_of_ne (by decide)]
      rfl
  | .complete :: cmds, available => by
      rw [List.foldl_cons, foldl_processIoOne cmds, List.count_cons_self, processIoOne]
      omega

theorem processIo (h : Inv st) (upTo : ℕ) : Inv (st.processIo upTo) := by
  unfold VirtioNet.processIo
  split
  · exact h
  · next cmds hcmds =>
      refine ⟨?_, h.listeners_eq, fun hnone => ?_, h.events_pos⟩
      · have hone := h.buffers_eq
        have hsplit : cmds.count .complete =
            (cmds.take upTo).count .complete + (cmds.drop upTo).count .complete := by
          rw [← List.count_append, List.take_append_drop]
        simp only [buffers, waitingEvents, handled, completes, hcmds, Option.getD_some,
          foldl_processIoOne] at hone ⊢
        omega
      · simp [h.ioQueue_eq hnone] at hcmds

theorem step (h : Inv st) {op : Op} (hok : st.HandsOver op) : Inv (st.step op) := by
  cases op with
  | arrive len => exact h.arrive len
  | interrupt => exact h.recv hok
  | acquire rxOk ioOk => exact h.acquire hok rxOk ioOk
  | front => exact h.front
  | ioComplete => exact h.ioComplete hok
  | pop => exact h.pop
  | ioSubmit => exact h.ioSubmit
  | processIo upTo => exact h.processIo upTo

end Inv

/-! ## Runs -/

/-- **The receive buffer is never lost or duplicated**, as long as each hand-over finds
somebody who takes it. -/
theorem run_one_buffer {ops : List Op} (hok : Guarded step HandsOver probe ops) :
    (run step probe ops).buffers = 1 :=
  (run_invariant_of_guarded (fun _ _ hop h => Inv.step h hop) hok inv_probe).buffers_eq

/-- A packet goes once around. -/
theorem run_one_buffer_one_packet : (run step probe
    [.acquire true true, .arrive 70, .interrupt, .front, .ioSubmit, .ioComplete, .pop,
      .processIo 2]).buffers = 1 :=
  run_one_buffer (by decide)

/-- **A packet before the first process.** `recv` sees the used entry and tells nobody, and
the device is left without a buffer. -/
theorem run_early_packet_loses_buffer :
    (run step probe [.arrive 70, .interrupt]).buffers = 0 ∧
      (run step probe [.arrive 70, .interrupt, .acquire true true, .arrive 70]).used = [] := by
  decide

end VirtioNet

end Manticore
