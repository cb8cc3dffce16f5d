import Manticore.Base.Bytes
import Manticore.Kernel.AtomicRingBuffer
import Manticore.Usr.SocketTable

/-!
# Events of the kernel in `epoll_wait`

`epoll_wait` of `liblinux/src/epoll.c` takes events from the ring that the kernel shares with the
process and gives each packet to `net_input`.  The count that ends its loop is the count of packets
that `net_input` accepted, so a call may take many more events than it reports.

A run is a sequence of events added by the kernel, of calls, and of whatever else changes the
network stack.  Each call leaves a `Report`, which keeps the events it took and the calls it made.
-/

namespace Manticore

namespace Epoll

def epollFd : ℤ := 200
def eventPacketRx : ℕ := 1
def epollin : ℕ := 1

/-- `struct event`, three words. -/
structure Event where
  type : ℕ
  addr : ℕ
  len : ℕ
deriving DecidableEq, Repr

def sizeofEvent : ℕ := 24

/-- `struct packet_view`. -/
structure PacketView where
  start : ℕ
  stop : ℕ
deriving DecidableEq, Repr

/-- `struct epoll_event`. -/
structure EpollEvent where
  events : ℕ
  data : ℕ
deriving DecidableEq, Repr

namespace Event

/-- The event at `a`. -/
def read (m : Mem) (a : ℕ) : Event := ⟨load m a 8, load m (a + 8) 8, load m (a + 16) 8⟩

/-- The event in the bytes of an element of the ring. -/
def ofBytes (bs : List UInt8) : Event :=
  ⟨leNat (fieldAt bs 0 8), leNat (fieldAt bs 8 8), leNat (fieldAt bs 16 8)⟩

def isPacketRx (e : Event) : Bool := e.type == eventPacketRx

/-- The view of the packet that `epoll_wait` makes. -/
def view (e : Event) : PacketView := ⟨e.addr, add64 e.addr e.len⟩

/-- The buffer of the packet: its own address and length. -/
def buffer (e : Event) : ℕ × ℕ := (e.addr, e.len)

end Event

/-- `packet_view_len`. -/
def PacketView.len (pk : PacketView) : ℕ := sub64 pk.stop pk.start

inductive EpollFault where
  /-- `net_input` does not return -/
  | netInput
  /-- the event is read through `NULL` -/
  | null
  /-- the loop takes more rounds than the ring has bytes -/
  | rounds
deriving DecidableEq, Repr

/-- What a call has done so far: the ring and the stack as they are now, the filled entries of
`events`, the events popped, the packets given to `net_input` with its answers, and the address and
length of each `io_complete`. -/
structure Progress (σ : Type) where
  queue : AtomicRingBuffer
  stack : σ
  events : List EpollEvent
  taken : List Event
  given : List (PacketView × Bool)
  completed : List (ℕ × ℕ)

/-- The arguments of `epoll_wait`, and what the two system calls of it return. -/
structure EpollCall where
  epfd : ℤ
  maxevents : ℤ
  waitErr : ℤ
  getEventsErr : ℤ
deriving DecidableEq, Repr

/-- What a call returned, and its `Progress` when it did. -/
structure Report where
  call : EpollCall
  ret : ℤ
  errno : Option ℤ
  events : List EpollEvent
  taken : List Event
  given : List (PacketView × Bool)
  completed : List (ℕ × ℕ)
  ringEmpty : Bool
deriving DecidableEq, Repr

/-- The process between its calls; `added` are the events that the kernel got into the ring. -/
structure EpollState (σ : Type) where
  queue : AtomicRingBuffer
  interestSet : EpollEvent
  stack : σ
  added : List Event
  reports : List Report

inductive EpollAction (σ : Type) where
  /-- the kernel adds an event -/
  | emplace (element : Mem)
  | wait (call : EpollCall)
  | ctl (epfd : ℤ) (event : EpollEvent)
  /-- the stack and its memory change between the calls -/
  | other (stack : σ)

section Model

/-! ## The source -/

variable {σ : Type} (frames : σ → PacketView → Option (Bool × PacketView × σ))

/-- `net_input`: `frames` is its loop, which moves the view; the buffer goes back with the address
and the length that were saved before it. -/
def netInputView (p : Progress σ) (pk : PacketView) :
    Except EpollFault (Bool × PacketView × Progress σ) :=
  let addr := pk.start
  let len := pk.len
  match frames p.stack pk with
  | none => .error .netInput
  | some (ret, pk', stack) => .ok (ret, pk', { p with
      stack := stack
      given := p.given ++ [(pk, ret)]
      completed := p.completed ++ [(addr, len)] })

/-- `atomic_ring_buffer_pop`, after the event `e` at the front was handled. -/
def Progress.pop (p : Progress σ) (e : Event) : Progress σ :=
  { p with queue := p.queue.pop, taken := p.taken ++ [e] }

/-- The body of the loop. -/
def epollRound (interestSet : EpollEvent) (p : Progress σ) : Except EpollFault (Progress σ) :=
  match p.queue.front with
  | none => .error .null
  | some offset =>
      let kernEvent := Event.read p.queue.data offset
      if kernEvent.type = eventPacketRx then
        match netInputView frames p kernEvent.view with
        | .error f => .error f
        | .ok (true, _, p) =>
            .ok (Progress.pop
              { p with events := p.events ++ [{ interestSet with events := epollin }] } kernEvent)
        | .ok (false, _, p) => .ok (p.pop kernEvent)
      else .ok (p.pop kernEvent)

def epollLoop (interestSet : EpollEvent) (maxevents : ℤ) :
    ℕ → Progress σ → Except EpollFault (Progress σ)
  | 0, _ => .error .rounds
  | fuel + 1, p =>
      if !p.queue.isEmpty && decide ((p.events.length : ℤ) < maxevents) then
        match epollRound frames interestSet p with
        | .error f => .error f
        | .ok p => epollLoop interestSet maxevents fuel p
      else .ok p

/-- A call that sets `errno` and takes nothing. -/
def EpollState.refuse (st : EpollState σ) (call : EpollCall) (errno : ℤ) : EpollState σ :=
  { st with reports := st.reports ++ [{
      call := call, ret := -1, errno := some errno, events := [], taken := [], given := []
      completed := [], ringEmpty := st.queue.isEmpty }] }

/-- `epoll_wait`. A round takes an element of the ring, so there are fewer than `capacity`. -/
def epollWait (st : EpollState σ) (call : EpollCall) : Except EpollFault (EpollState σ) :=
  if call.epfd ≠ epollFd then .ok (st.refuse call ebadf)
  else if call.maxevents ≤ 0 then .ok (st.refuse call einval)
  else if call.waitErr ≠ 0 then .ok (st.refuse call (-call.waitErr))
  else if call.getEventsErr ≠ 0 then .ok (st.refuse call (-call.getEventsErr))
  else
    match epollLoop frames st.interestSet call.maxevents st.queue.capacity
        ⟨st.queue, st.stack, [], [], [], []⟩ with
    | .error f => .error f
    | .ok p => .ok { st with
        queue := p.queue
        stack := p.stack
        reports := st.reports ++ [{
          call := call, ret := p.events.length, errno := none, events := p.events
          taken := p.taken, given := p.given, completed := p.completed
          ringEmpty := p.queue.isEmpty }] }

/-- `epoll_ctl`; `op` and `fd` are not looked at. -/
def epollCtl (st : EpollState σ) (epfd : ℤ) (event : EpollEvent) : EpollState σ :=
  if epfd ≠ epollFd then st else { st with interestSet := event }

def epollStep (st : EpollState σ) : EpollAction σ → Except EpollFault (EpollState σ)
  | .emplace element =>
      let (ok, queue) := st.queue.emplace element
      .ok { st with
        queue := queue
        added := if ok then st.added ++ [Event.read element 0] else st.added }
  | .wait call => epollWait frames st call
  | .ctl epfd event => .ok (epollCtl st epfd event)
  | .other stack => .ok { st with stack := stack }

def epollRun (st : EpollState σ) (acts : List (EpollAction σ)) :
    Except EpollFault (EpollState σ) := acts.foldlM (epollStep frames) st

/-- Before the first call. -/
def EpollState.start (queue : AtomicRingBuffer) (stack : σ) : EpollState σ :=
  ⟨queue, ⟨0, 0⟩, stack, [], []⟩

end Model

/-- The loop of `net_input` over the frames of a packet in memory. -/
def liblinuxFrames (cfg : NetConfig) (s : NetState × Mem) (pk : PacketView) :
    Option (Bool × PacketView × NetState × Mem) :=
  match netInput cfg s.1 (bytesAt s.2 pk.start pk.len) with
  | .error _ => none
  | .ok (ret, st) => some (ret, ⟨pk.stop, pk.stop⟩, st, s.2)

/-! ## What a run has to leave -/

/-- The call gets to the loop. -/
def EpollCall.Valid (call : EpollCall) : Prop :=
  call.epfd = epollFd ∧ 0 < call.maxevents ∧ call.waitErr = 0 ∧ call.getEventsErr = 0

/-- The packets among some events, in their order. -/
def packets (evs : List Event) : List Event := evs.filter Event.isPacketRx

/-- A call gave each packet it took to `net_input` and completed it once, returned the count of
those that were accepted, and took no event after the one that made that count `maxevents`; if it
returned less, it left nothing. -/
structure Report.Exact (r : Report) : Prop where
  given : r.given.map Prod.fst = (packets r.taken).map Event.view
  completed : r.completed = (packets r.taken).map Event.buffer
  ret : r.call.Valid → r.ret = r.given.countP Prod.snd
  events : r.events = [] ∧ r.ret = -1 ∨ (r.events.length : ℤ) = r.ret
  epollin : ∀ e ∈ r.events, e.events = epollin
  le_maxevents : r.call.Valid → r.ret ≤ r.call.maxevents
  drained : r.call.Valid → r.ret < r.call.maxevents → r.ringEmpty = true
  filled : r.call.Valid → r.ret = r.call.maxevents →
    (∃ e, r.taken.getLast? = some e ∧ e.isPacketRx = true) ∧
      r.given.getLast?.map Prod.snd = some true
  refused : ¬ r.call.Valid → r.ret = -1 ∧ r.taken = []

/-- Every event that got into the ring of `n` slots was taken by one call, in order, or is in the
ring still. -/
structure ExactlyOnce {σ : Type} (n : ℕ) (st : EpollState σ) : Prop where
  ring : ∃ q pending, st.queue.Holds n q pending ∧
    st.added = st.reports.flatMap Report.taken ++ pending.map Event.ofBytes
  exact : ∀ r ∈ st.reports, r.Exact

/-! ## One event -/

theorem Event.read_eq_ofBytes (m : Mem) (a : ℕ) :
    Event.read m a = Event.ofBytes (bytesAt m a sizeofEvent) := by
  unfold Event.read Event.ofBytes sizeofEvent
  rw [fieldAt_bytesAt m a (by decide), fieldAt_bytesAt m a (by decide),
    fieldAt_bytesAt m a (by decide), load_eq_leNat, load_eq_leNat, load_eq_leNat]
  rfl

theorem Event.len_view_read (m : Mem) (a : ℕ) :
    (Event.read m a).view.len = (Event.read m a).len := by
  have haddr : load m (a + 8) 8 < 2 ^ 64 := load_lt m (a + 8) 8
  have hlen : load m (a + 16) 8 < 2 ^ 64 := load_lt m (a + 16) 8
  simp only [Event.read, Event.view, PacketView.len, sub64, add64]
  omega

theorem packets_concat_of_rx (evs : List Event) {e : Event} (h : e.isPacketRx = true) :
    packets (evs ++ [e]) = packets evs ++ [e] := by
  rw [packets, List.filter_append, List.filter_singleton, h]
  rfl

theorem packets_concat_of_other (evs : List Event) {e : Event} (h : e.isPacketRx = false) :
    packets (evs ++ [e]) = packets evs := by
  rw [packets, List.filter_append, List.filter_singleton, h]
  exact List.append_nil _

section Loop

variable {σ : Type} (frames : σ → PacketView → Option (Bool × PacketView × σ))
  (interestSet : EpollEvent) {maxevents : ℤ} {n : ℕ} {first rest : List (List UInt8)}
  {p : Progress σ}

/-- The invariant of the loop: of the elements `first` that the call found in the ring, `rest` are
there still. -/
structure Progress.Right (maxevents : ℤ) (n : ℕ) (first rest : List (List UInt8))
    (p : Progress σ) : Prop where
  ring : ∃ q, p.queue.Holds n q rest
  elementSize : p.queue.elementSize = sizeofEvent
  order : first.map Event.ofBytes = p.taken ++ rest.map Event.ofBytes
  given : p.given.map Prod.fst = (packets p.taken).map Event.view
  completed : p.completed = (packets p.taken).map Event.buffer
  events : p.events.length = p.given.countP Prod.snd
  epollin : ∀ e ∈ p.events, e.events = epollin
  le_maxevents : (p.events.length : ℤ) ≤ maxevents
  filled : (p.events.length : ℤ) = maxevents →
    (∃ e, p.taken.getLast? = some e ∧ e.isPacketRx = true) ∧
      p.given.getLast?.map Prod.snd = some true

theorem Progress.Right.read_front {bs : List UInt8}
    (h : p.Right maxevents n first (bs :: rest)) :
    Event.read p.queue.data p.queue.tail = Event.ofBytes bs := by
  obtain ⟨q, hring⟩ := h.ring
  rw [Event.read_eq_ofBytes, ← h.elementSize, hring.front_data]

theorem Progress.Right.pop {bs : List UInt8} {p' : Progress σ} {e : Event}
    (h : p.Right maxevents n first (bs :: rest)) (he : Event.ofBytes bs = e)
    (hqueue : p'.queue = p.queue) (htaken : p'.taken = p.taken)
    (hgiven : p'.given.map Prod.fst = (packets (p.taken ++ [e])).map Event.view)
    (hcompleted : p'.completed = (packets (p.taken ++ [e])).map Event.buffer)
    (hevents : p'.events.length = p'.given.countP Prod.snd)
    (hin : ∀ e ∈ p'.events, e.events = Epoll.epollin)
    (hle : (p'.events.length : ℤ) ≤ maxevents)
    (hfilled : (p'.events.length : ℤ) = maxevents →
      e.isPacketRx = true ∧ p'.given.getLast?.map Prod.snd = some true) :
    (p'.pop e).Right maxevents n first rest := by
  obtain ⟨q, hring⟩ := h.ring
  refine ⟨⟨q + 1, ?_⟩, ?_, ?_, ?_, ?_, hevents, hin, hle, ?_⟩
  · rw [Progress.pop, hqueue]
    exact hring.pop
  · rw [Progress.pop, hqueue]
    exact h.elementSize
  · rw [h.order, List.map_cons, he, Progress.pop, htaken, List.append_assoc]
    rfl
  · rw [Progress.pop, htaken]
    exact hgiven
  · rw [Progress.pop, htaken]
    exact hcompleted
  · intro hfull
    obtain ⟨hrx, hlast⟩ := hfilled hfull
    exact ⟨⟨e, List.getLast?_concat, hrx⟩, hlast⟩

theorem Progress.Right.packet {bs : List UInt8} {e : Event}
    (h : p.Right maxevents n first (bs :: rest)) (he : Event.ofBytes bs = e)
    (hlen : e.view.len = e.len) (hrx : e.isPacketRx = true)
    (hlt : (p.events.length : ℤ) < maxevents) (stack : σ) :
    (Progress.pop { p with
      stack := stack
      events := p.events ++ [{ interestSet with events := Epoll.epollin }]
      given := p.given ++ [(e.view, true)]
      completed := p.completed ++ [(e.view.start, e.view.len)] } e).Right maxevents n first rest ∧
    (Progress.pop { p with
      stack := stack
      given := p.given ++ [(e.view, false)]
      completed := p.completed ++ [(e.view.start, e.view.len)] } e).Right maxevents n first
        rest := by
  have hpk := packets_concat_of_rx p.taken hrx
  have hgiven (ret : Bool) : (p.given ++ [(e.view, ret)]).map Prod.fst =
      (packets (p.taken ++ [e])).map Event.view := by
    rw [hpk, List.map_append, List.map_append, h.given]
    rfl
  have hcompleted : p.completed ++ [(e.view.start, e.view.len)] =
      (packets (p.taken ++ [e])).map Event.buffer := by
    rw [hpk, List.map_append, h.completed, hlen]
    rfl
  constructor
  · refine h.pop he rfl rfl (hgiven true) hcompleted ?_ ?_ ?_ fun _ => ⟨hrx, ?_⟩
    · rw [List.length_append, h.events, List.countP_append]
      rfl
    · intro ev hev
      rcases List.mem_append.mp hev with hold | hnew
      · exact h.epollin ev hold
      · rw [List.mem_singleton.mp hnew]
    · rw [List.length_append, List.length_singleton]
      push_cast
      omega
    · rw [List.getLast?_concat]
      rfl
  · refine h.pop he rfl rfl (hgiven false) hcompleted ?_ h.epollin hlt.le
      fun hfull => absurd hfull hlt.ne
    rw [h.events, List.countP_append]
    rfl

theorem Progress.Right.skip {bs : List UInt8} {e : Event}
    (h : p.Right maxevents n first (bs :: rest)) (he : Event.ofBytes bs = e)
    (hrx : e.isPacketRx = false) (hlt : (p.events.length : ℤ) < maxevents) :
    (p.pop e).Right maxevents n first rest := by
  have hpk := packets_concat_of_other p.taken hrx
  refine h.pop he rfl rfl ?_ ?_ h.events h.epollin hlt.le fun hfull => absurd hfull hlt.ne
  · rw [hpk, h.given]
  · rw [hpk, h.completed]

/-- **One round** takes the first event from the ring, unless `net_input` does not return. -/
theorem Progress.Right.round {bs : List UInt8} (h : p.Right maxevents n first (bs :: rest))
    (hlt : (p.events.length : ℤ) < maxevents) :
    epollRound frames interestSet p = .error .netInput ∨
      ∃ p', epollRound frames interestSet p = .ok p' ∧ p'.Right maxevents n first rest := by
  obtain ⟨q, hring⟩ := h.ring
  have hread := h.read_front
  have hlen := Event.len_view_read p.queue.data p.queue.tail
  unfold epollRound
  rw [AtomicRingBuffer.front_of_cons hring]
  simp only
  generalize Event.read p.queue.data p.queue.tail = e at hread hlen
  by_cases hrx : e.type = eventPacketRx
  · rw [if_pos hrx]
    unfold netInputView
    cases hframes : frames p.stack e.view with
    | none => exact .inl rfl
    | some out =>
        obtain ⟨ret, pk', stack⟩ := out
        obtain ⟨haccepted, hdropped⟩ :=
          h.packet interestSet hread.symm hlen (beq_iff_eq.mpr hrx) hlt stack
        cases ret with
        | true => exact .inr ⟨_, rfl, haccepted⟩
        | false => exact .inr ⟨_, rfl, hdropped⟩
  · rw [if_neg hrx]
    exact .inr ⟨_, rfl, h.skip hread.symm (beq_eq_false_iff_ne.mpr hrx) hlt⟩

/-- **The loop** ends with the ring empty or `events` full. -/
theorem Progress.Right.loop : ∀ {fuel : ℕ} {rest : List (List UInt8)} {p : Progress σ},
    p.Right maxevents n first rest → rest.length < fuel →
    epollLoop frames interestSet maxevents fuel p = .error .netInput ∨
      ∃ p' rest', epollLoop frames interestSet maxevents fuel p = .ok p' ∧
        p'.Right maxevents n first rest' ∧
        ((p'.events.length : ℤ) < maxevents → p'.queue.isEmpty = true)
  | 0, _, _, _, hfuel => absurd hfuel (Nat.not_lt_zero _)
  | fuel + 1, rest, p, h, hfuel => by
      obtain ⟨q, hring⟩ := h.ring
      have hempty := AtomicRingBuffer.isEmpty_iff hring
      rw [epollLoop]
      by_cases hmore : p.queue.isEmpty = false ∧ (p.events.length : ℤ) < maxevents
      · obtain ⟨hne, hlt⟩ := hmore
        rw [if_pos (by simp [hne, hlt])]
        cases rest with
        | nil => rw [hempty.mpr rfl] at hne; cases hne
        | cons bs rest =>
            rcases h.round frames interestSet hlt with herr | ⟨p', hok, hright⟩
            · rw [herr]
              exact .inl rfl
            · rw [hok]
              exact hright.loop (Nat.lt_of_succ_lt_succ hfuel)
      · rw [if_neg (by simpa using hmore)]
        refine .inr ⟨p, rest, rfl, h, fun hlt => ?_⟩
        by_contra hne
        exact hmore ⟨Bool.eq_false_iff.mpr hne, hlt⟩

end Loop

section Run

variable {σ : Type} (frames : σ → PacketView → Option (Bool × PacketView × σ)) {n : ℕ}
  {st : EpollState σ}

/-- The invariant of a run. -/
structure EpollState.Right (n : ℕ) (st : EpollState σ) : Prop where
  once : ExactlyOnce n st
  elementSize : st.queue.elementSize = sizeofEvent

theorem right_start {r : AtomicRingBuffer} {q : ℕ} (h : r.Holds n q [])
    (hsize : r.elementSize = sizeofEvent) (stack : σ) : (EpollState.start r stack).Right n :=
  ⟨⟨⟨q, [], h, rfl⟩, fun _ hr => nomatch hr⟩, hsize⟩

theorem EpollState.Right.report {r : Report} {queue : AtomicRingBuffer} {stack : σ} {q : ℕ}
    {pending rest : List (List UInt8)} (h : st.Right n) (hexact : r.Exact)
    (hadded : st.added = st.reports.flatMap Report.taken ++ pending.map Event.ofBytes)
    (hsplit : pending.map Event.ofBytes = r.taken ++ rest.map Event.ofBytes)
    (hring : queue.Holds n q rest) (hsize : queue.elementSize = sizeofEvent) :
    EpollState.Right n
      { st with queue := queue, stack := stack, reports := st.reports ++ [r] } := by
  refine ⟨⟨⟨q, rest, hring, ?_⟩, ?_⟩, hsize⟩
  · rw [hadded, hsplit, List.flatMap_append, List.flatMap_singleton, List.append_assoc]
  · intro r' hr'
    rcases List.mem_append.mp hr' with hold | hnew
    · exact h.once.exact r' hold
    · rw [List.mem_singleton.mp hnew]
      exact hexact

theorem EpollState.Right.refuse {call : EpollCall} (h : st.Right n) (hcall : ¬ call.Valid)
    (errno : ℤ) : (st.refuse call errno).Right n := by
  obtain ⟨q, pending, hring, hadded⟩ := h.once.ring
  refine h.report ?_ hadded rfl hring h.elementSize
  exact {
    given := rfl
    completed := rfl
    ret := fun hv => absurd hv hcall
    events := .inl ⟨rfl, rfl⟩
    epollin := fun _ he => nomatch he
    le_maxevents := fun hv => absurd hv hcall
    drained := fun hv => absurd hv hcall
    filled := fun hv => absurd hv hcall
    refused := fun _ => ⟨rfl, rfl⟩ }

theorem length_lt_capacity {r : AtomicRingBuffer} {q : ℕ} {l : List (List UInt8)}
    (h : r.Holds n q l) : l.length < r.capacity := by
  rw [h.capacity_eq]
  exact h.length_lt.trans_le (Nat.le_mul_of_pos_right n h.elementSize_pos)

/-- **A call** serves what is in the ring, unless `net_input` does not return. -/
theorem EpollState.Right.wait (h : st.Right n) (call : EpollCall) :
    epollWait frames st call = .error .netInput ∨
      ∃ st', epollWait frames st call = .ok st' ∧ st'.Right n := by
  unfold epollWait
  split_ifs with hfd hmax hwait hget
  · exact .inr ⟨_, rfl, h.refuse (fun hv => hfd hv.1) _⟩
  · exact .inr ⟨_, rfl, h.refuse (fun hv => absurd hv.2.1 (not_lt.mpr hmax)) _⟩
  · exact .inr ⟨_, rfl, h.refuse (fun hv => hwait hv.2.2.1) _⟩
  · exact .inr ⟨_, rfl, h.refuse (fun hv => hget hv.2.2.2) _⟩
  · obtain ⟨q, pending, hring, hadded⟩ := h.once.ring
    have hvalid : call.Valid :=
      ⟨not_not.mp hfd, not_le.mp hmax, not_not.mp hwait, not_not.mp hget⟩
    have hinit : Progress.Right call.maxevents n pending pending
        ⟨st.queue, st.stack, [], [], [], []⟩ :=
      ⟨⟨q, hring⟩, h.elementSize, rfl, rfl, rfl, rfl, (fun _ he => nomatch he), hvalid.2.1.le,
        fun hfull => absurd hfull hvalid.2.1.ne⟩
    rcases hinit.loop frames st.interestSet (length_lt_capacity hring) with
      herr | ⟨p, rest, hok, hright, hdrained⟩
    · rw [herr]
      exact .inl rfl
    · rw [hok]
      obtain ⟨q', hring'⟩ := hright.ring
      refine .inr ⟨_, rfl, h.report ?_ hadded hright.order hring' hright.elementSize⟩
      exact {
        given := hright.given
        completed := hright.completed
        ret := fun _ => congrArg Nat.cast hright.events
        events := .inr rfl
        epollin := hright.epollin
        le_maxevents := fun _ => hright.le_maxevents
        drained := fun _ => hdrained
        filled := fun _ => hright.filled
        refused := fun hv => absurd hvalid hv }

theorem elementSize_emplace (r : AtomicRingBuffer) (element : Mem) :
    (r.emplace element).2.elementSize = r.elementSize := by
  unfold AtomicRingBuffer.emplace
  dsimp only
  split <;> rfl

theorem EpollState.Right.emplace (h : st.Right n) (element : Mem) :
    ∃ st', epollStep frames st (.emplace element) = .ok st' ∧ st'.Right n := by
  obtain ⟨q, pending, hring, hadded⟩ := h.once.ring
  by_cases hroom : pending.length + 1 < n
  · have hsize := elementSize_emplace st.queue element
    obtain ⟨htrue, hring'⟩ := AtomicRingBuffer.emplace_of_room hring hroom element
    rw [epollStep]
    generalize st.queue.emplace element = out at hsize htrue hring' ⊢
    obtain ⟨ok, queue⟩ := out
    refine ⟨_, rfl, ⟨⟨q, _, hring', ?_⟩, h.once.exact⟩, hsize.trans h.elementSize⟩
    refine (if_pos htrue).trans ?_
    rw [hadded, List.map_append, List.map_singleton, List.append_assoc, h.elementSize,
      Event.read_eq_ofBytes]
  · have hfull : pending.length + 1 = n := by
      have := hring.length_lt
      omega
    rw [epollStep, AtomicRingBuffer.emplace_of_full hring hfull element]
    exact ⟨st, rfl, h⟩

/-- **A step.** -/
theorem EpollState.Right.step (h : st.Right n) (act : EpollAction σ) :
    epollStep frames st act = .error .netInput ∨
      ∃ st', epollStep frames st act = .ok st' ∧ st'.Right n := by
  cases act with
  | emplace element => exact .inr (h.emplace frames element)
  | wait call => exact h.wait frames call
  | ctl epfd event =>
      refine .inr ⟨_, rfl, ?_⟩
      unfold epollCtl
      split_ifs
      · exact h
      · exact ⟨⟨h.once.ring, h.once.exact⟩, h.elementSize⟩
  | other stack => exact .inr ⟨_, rfl, ⟨h.once.ring, h.once.exact⟩, h.elementSize⟩

/-- **A run.** -/
theorem EpollState.Right.run : ∀ (acts : List (EpollAction σ)) {st : EpollState σ}, st.Right n →
    epollRun frames st acts = .error .netInput ∨
      ∃ st', epollRun frames st acts = .ok st' ∧ st'.Right n
  | [], st, h => .inr ⟨st, rfl, h⟩
  | act :: acts, st, h => by
      rw [epollRun, List.foldlM_cons]
      rcases h.step frames act with herr | ⟨st', hok, hright⟩
      · rw [herr]
        exact .inl rfl
      · rw [hok]
        exact hright.run acts

/-- **`epoll_wait` neither loses nor repeats events.** From an empty ring for events, whatever the
kernel adds and whatever the calls are: if `net_input` returns on each packet it is given, the run
returns, and every event that got into the ring was taken by exactly one call, in order, or is in
the ring still. -/
theorem epollRun_exactlyOnce {r : AtomicRingBuffer} {q : ℕ} (hring : r.Holds n q [])
    (hsize : r.elementSize = sizeofEvent) (stack : σ) (acts : List (EpollAction σ))
    (hreturns : epollRun frames (EpollState.start r stack) acts ≠ .error .netInput) :
    ∃ st, epollRun frames (EpollState.start r stack) acts = .ok st ∧ ExactlyOnce n st := by
  rcases (right_start hring hsize stack).run frames acts with herr | ⟨st, hok, hright⟩
  · exact absurd herr hreturns
  · exact ⟨st, hok, hright.once⟩

/-- The element of the ring for an event. -/
def element (e : Event) : Mem := fun i =>
  (leBytes 8 e.type ++ leBytes 8 e.addr ++ leBytes 8 e.len).getD i 0

/-- A datagram for port 7 in its frame, as the device leaves it at `0x1000`. -/
def datagramMemory : Mem := fun a =>
  if a < 0x1000 then 0 else
    ([2, 0, 0, 0, 0, 1, 2, 0, 0, 0, 0, 2, 8, 0, 0x45, 0, 0, 30, 0, 0, 0, 0, 64, 17, 0, 0, 10, 0,
      0, 2, 10, 0, 0, 1, 0, 9, 0, 7, 0, 10, 0, 0, 104, 105] : List UInt8).getD (a - 0x1000) 0

/-- The datagram twice, with an event of another kind and a packet that is dropped before them, and
two calls for one event each. -/
def twoDatagrams : List (EpollAction (NetState × Mem)) :=
  [.emplace (element ⟨2, 0, 0⟩), .emplace (element ⟨1, 0x1000, 5⟩),
    .emplace (element ⟨1, 0x1000, 44⟩), .wait ⟨200, 1, 0, 0⟩,
    .emplace (element ⟨1, 0x1000, 44⟩), .wait ⟨200, 1, 0, 0⟩]

/-- A ring of five slots. -/
def smallRing : AtomicRingBuffer :=
  AtomicRingBuffer.new (fun _ => 0) (sizeofAtomicRingBuffer + 5 * sizeofEvent) sizeofEvent

theorem holds_smallRing : smallRing.Holds 5 0 [] := by
  have h := @AtomicRingBuffer.holds_new (fun _ => 0) (sizeofAtomicRingBuffer + 5 * sizeofEvent)
    sizeofEvent (by decide) (by decide) (by decide)
  exact h

/-- The process with socket 0 bound to port 7. -/
def portSeven : EpollState (NetState × Mem) :=
  EpollState.start smallRing (socketBind NetState.start 0 0x0700, datagramMemory)

/-- The first call takes three events for the one it reports. -/
theorem epollRun_exactlyOnce_two : ∃ st,
    epollRun (liblinuxFrames ⟨[2, 0, 0, 0, 0, 1], 0x0100000a⟩) portSeven twoDatagrams = .ok st ∧
      ExactlyOnce 5 st ∧ st.reports.map Report.ret = [1, 1] ∧
      st.reports.map Report.completed = [[(0x1000, 5), (0x1000, 44)], [(0x1000, 44)]] := by
  have hrun : (epollRun (liblinuxFrames ⟨[2, 0, 0, 0, 0, 1], 0x0100000a⟩) portSeven
      twoDatagrams).toOption.map (fun st => (st.reports.map Report.ret,
        st.reports.map Report.completed)) =
      some ([1, 1], [[(0x1000, 5), (0x1000, 44)], [(0x1000, 44)]]) := by
    decide +kernel
  obtain ⟨st, hst, honce⟩ := epollRun_exactlyOnce (liblinuxFrames ⟨[2, 0, 0, 0, 0, 1], 0x0100000a⟩)
    holds_smallRing rfl portSeven.stack twoDatagrams (fun herr => by
      change epollRun _ portSeven _ = _ at herr
      rw [herr] at hrun
      cases hrun)
  change epollRun _ portSeven _ = _ at hst
  rw [hst] at hrun
  obtain ⟨hret, hcompleted⟩ := some_pair_inj hrun
  exact ⟨st, hst, honce, hret, hcompleted⟩

end Run

end Epoll

end Manticore
