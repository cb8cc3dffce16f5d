import Manticore.Base.Run
import Manticore.Base.Bytes
import Manticore.Kernel.AtomicRingBuffer
import Manticore.Kernel.RingBufferShared

/-!
# The I/O queue

User space appends commands with `io_submit` and `io_complete` (`libmanticore`), and
`VirtioNetDevice::process_io` pops and performs them.  The two share one page that holds
an atomic ring buffer.  `process_io` runs only inside `process_wait`, which is a call of a
process, so a run of the system is a sequence of whole calls.

`appended` lists the calls of user space that returned `0`, and `popped` what the kernel
took from the ring, both in order.  `NoneLost` says that one more `process_io` would make
the two lists equal.
-/

namespace Manticore

inductive Opcode where
  | submit
  | complete
deriving DecidableEq, Repr

structure IOCmd where
  opcode : Opcode
  addr : UInt64
  len : UInt64
deriving DecidableEq, Repr

namespace IOCmd

/-- `enum io_opcode`. -/
def rawOpcode : Opcode → ℕ
  | .submit => 0x1
  | .complete => 0x2

/-- The `match` on the raw opcode in `IOQueue::pop`. -/
def opcodeOfRaw : ℕ → Option Opcode
  | 0x1 => some .submit
  | 0x2 => some .complete
  | _ => none

/-- `struct io_cmd`. The four bytes between `opcode` and `addr` are padding, `pad` here. -/
def raw (pad : ℕ) (c : IOCmd) : List UInt8 :=
  leBytes 4 (rawOpcode c.opcode) ++
    (leBytes 4 pad ++ (leBytes 8 c.addr.toNat ++ leBytes 8 c.len.toNat))

/-- What `IOQueue::pop` makes of the bytes of a `RawIOCmd`. -/
def ofRaw (bs : List UInt8) : Option IOCmd :=
  (opcodeOfRaw (leNat (fieldAt bs 0 4))).map fun opcode =>
    { opcode := opcode
      addr := UInt64.ofNat (leNat (fieldAt bs 8 8))
      len := UInt64.ofNat (leNat (fieldAt bs 16 8)) }

@[simp] theorem length_raw (pad : ℕ) (c : IOCmd) : (c.raw pad).length = 24 := by
  simp [raw]

theorem opcodeOfRaw_rawOpcode (o : Opcode) : opcodeOfRaw (rawOpcode o) = some o := by
  cases o <;> rfl

/-- **What user space writes is what the kernel reads**, whatever the padding holds. -/
theorem ofRaw_raw (pad : ℕ) (c : IOCmd) : ofRaw (c.raw pad) = some c := by
  have hop : fieldAt (c.raw pad) 0 4 = leBytes 4 (rawOpcode c.opcode) :=
    List.take_left' (length_leBytes _ _)
  have haddr : fieldAt (c.raw pad) 8 8 = leBytes 8 c.addr.toNat := by
    rw [raw, ← List.append_assoc]
    exact fieldAt_append (by simp) (by simp)
  have hlen : fieldAt (c.raw pad) 16 8 = leBytes 8 c.len.toNat := by
    rw [raw, ← List.append_nil (leBytes 8 c.len.toNat), ← List.append_assoc,
      ← List.append_assoc]
    exact fieldAt_append (by simp) (by simp)
  have hraw : rawOpcode c.opcode % 256 ^ 4 = rawOpcode c.opcode := by
    cases c.opcode <;> rfl
  have hword : ∀ w : UInt64, UInt64.ofNat (w.toNat % 256 ^ 8) = w := by
    intro w
    rw [Nat.mod_eq_of_lt (show w.toNat < 256 ^ 8 from lt_of_lt_of_eq w.toNat_lt (by norm_num)),
      UInt64.ofNat_toNat]
  simp only [ofRaw, hop, haddr, hlen, leNat_leBytes, hraw, hword, opcodeOfRaw_rawOpcode,
    Option.map_some]

end IOCmd

/-! ## The two sides of the queue -/

/-- `memory::PAGE_SIZE_SMALL`, the size of the transmit page. -/
def txPageSize : ℕ := 4096

/-- `io_buf_size` in `acquire`. -/
def ioBufSize : ℕ := 4096

/-- How many elements the ring of an I/O queue has; one of them always stays empty. -/
def ioQueueSlots : ℕ := (ioBufSize - sizeofAtomicRingBuffer) / sizeofRawIOCmd

/-- The bytes `bs` as the memory `emplace` copies from. -/
def elementOf (bs : List UInt8) : Mem := fun i => bs.getD i 0

theorem bytesAt_elementOf (bs : List UInt8) : bytesAt (elementOf bs) 0 bs.length = bs := by
  refine List.ext_getElem (by simp) ?_
  intro i h h'
  simp [bytesAt, elementOf, h']

/-- `IOQueue::pop`. -/
def ioQueuePop (r : AtomicRingBuffer) : Option IOCmd × AtomicRingBuffer :=
  match r.front with
  | none => (none, r)
  | some offset => (IOCmd.ofRaw (bytesAt r.data offset sizeofRawIOCmd), r.pop)

/-- Whether `process_io_one` returns. A submitted buffer is copied to the transmit page, and
its length checked after that; `readable` says which buffers can be read without a fault. -/
def processIoOne (readable : IOCmd → Bool) (c : IOCmd) : Bool :=
  match c.opcode with
  | .submit => readable c && decide (c.len.toNat ≤ txPageSize)
  | .complete => true

/-- A queue, what user space has appended to it and what the kernel has popped.  `halted`
is set by a command on which `process_io_one` does not return. -/
structure IOState where
  ring : AtomicRingBuffer
  appended : List IOCmd
  popped : List IOCmd
  halted : Bool

namespace IOState

/-- The queue that `acquire` sets up in a page that holds `buf`. -/
def acquire (buf : Mem) : IOState where
  ring := .new buf ioBufSize sizeofRawIOCmd
  appended := []
  popped := []
  halted := false

/-- `__io_queue_append`, which returns `0` whatever `emplace` says. -/
def ioQueueAppend (st : IOState) (pad : ℕ) (c : IOCmd) : IOState :=
  { st with
    ring := (st.ring.emplace (elementOf (c.raw pad))).2
    appended := st.appended ++ [c] }

/-- At most `fuel` rounds of the loop of `process_io`. -/
def processIoLoop (readable : IOCmd → Bool) : ℕ → IOState → IOState
  | 0, st => st
  | fuel + 1, st =>
      match ioQueuePop st.ring with
      | (none, ring) => { st with ring := ring }
      | (some c, ring) =>
          let st := { st with ring := ring, popped := st.popped ++ [c] }
          if processIoOne readable c then processIoLoop readable fuel st
          else { st with halted := true }

/-- `VirtioNetDevice::process_io`. A ring of `n` slots is empty after `n` rounds. -/
def processIo (readable : IOCmd → Bool) (st : IOState) : IOState :=
  processIoLoop readable ioQueueSlots st

inductive Op where
  | ioSubmit (pad : ℕ) (addr len : UInt64)
  | ioComplete (pad : ℕ) (addr len : UInt64)
  | processIo (readable : IOCmd → Bool)

def step (st : IOState) (op : Op) : IOState :=
  if st.halted then st
  else
    match op with
    | .ioSubmit pad addr len => st.ioQueueAppend pad ⟨.submit, addr, len⟩
    | .ioComplete pad addr len => st.ioQueueAppend pad ⟨.complete, addr, len⟩
    | .processIo readable => st.processIo readable

/-- The commands that were appended and not popped yet. -/
def waiting (st : IOState) : List IOCmd := st.appended.drop st.popped.length

/-- **No command is lost.** What the kernel has popped are the first calls, in order, and a
`process_io` that can perform the commands still waiting pops all the others. -/
def NoneLost (st : IOState) : Prop :=
  st.halted = false ∧ st.popped <+: st.appended ∧
    ∀ readable, (∀ c ∈ st.waiting, processIoOne readable c = true) →
      (st.processIo readable).popped = st.appended

/-- The ring is not full when user space appends, and the kernel can perform what waits. -/
def HasRoom (st : IOState) : Op → Prop
  | .ioSubmit _ _ _ | .ioComplete _ _ _ => st.ring.next st.ring.head ≠ st.ring.tail
  | .processIo readable => ∀ c ∈ st.waiting, processIoOne readable c = true

instance (st : IOState) : ∀ op, Decidable (st.HasRoom op)
  | .ioSubmit _ _ _ | .ioComplete _ _ _ => inferInstanceAs (Decidable (¬ _))
  | .processIo readable =>
      inferInstanceAs (Decidable (∀ c ∈ st.waiting, processIoOne readable c = true))

/-! ## The ring holds what waits -/

/-- The ring holds the commands `ws`, and these are all that the kernel has to pop. -/
structure Queued (st : IOState) (ws : List IOCmd) : Prop where
  running : st.halted = false
  appended_eq : st.appended = st.popped ++ ws
  elementSize_eq : st.ring.elementSize = sizeofRawIOCmd
  holds : ∃ q l, st.ring.Holds ioQueueSlots q l ∧ l.map IOCmd.ofRaw = ws.map some

theorem queued_acquire (buf : Mem) : Queued (acquire buf) [] := by
  refine ⟨rfl, rfl, rfl, 0, [], ?_, rfl⟩
  exact AtomicRingBuffer.holds_new (by decide) (by decide) (by decide)

namespace Queued

variable {st : IOState} {ws : List IOCmd}

theorem waiting_eq (h : Queued st ws) : st.waiting = ws := by
  rw [waiting, h.appended_eq, List.drop_left]

theorem held (h : Queued st ws) : ∃ q l, st.ring.Holds ioQueueSlots q l ∧
    l.map IOCmd.ofRaw = ws.map some ∧ l.length = ws.length := by
  obtain ⟨q, l, hl, hmap⟩ := h.holds
  exact ⟨q, l, hl, hmap, by simpa using congrArg List.length hmap⟩

theorem length_lt (h : Queued st ws) : ws.length < ioQueueSlots := by
  obtain ⟨q, l, hl, hmap, hlen⟩ := h.held
  exact hlen ▸ hl.length_lt

theorem full_iff (h : Queued st ws) :
    st.ring.next st.ring.head = st.ring.tail ↔ ws.length + 1 = ioQueueSlots := by
  obtain ⟨q, l, hl, hmap, hlen⟩ := h.held
  rw [hl.full_iff, hlen]

theorem append (h : Queued st ws) (hroom : ws.length + 1 ≠ ioQueueSlots) (pad : ℕ)
    (c : IOCmd) : Queued (st.ioQueueAppend pad c) (ws ++ [c]) := by
  have hlt := h.length_lt
  obtain ⟨q, l, hl, hmap, hlen⟩ := h.held
  have hring := AtomicRingBuffer.emplace_of_room hl (by omega) (elementOf (c.raw pad))
  have hbytes : bytesAt (elementOf (c.raw pad)) 0 st.ring.elementSize = c.raw pad := by
    rw [h.elementSize_eq, show sizeofRawIOCmd = (c.raw pad).length by simp [sizeofRawIOCmd]]
    exact bytesAt_elementOf _
  refine ⟨h.running, ?_, ?_, q, _, hring.2, ?_⟩
  · simp only [ioQueueAppend, h.appended_eq, List.append_assoc]
  · simp only [ioQueueAppend, AtomicRingBuffer.emplace]
    split <;> exact h.elementSize_eq
  · rw [hbytes, List.map_append, List.map_append, hmap, List.map_singleton,
      IOCmd.ofRaw_raw, List.map_singleton]

theorem append_of_full (h : Queued st ws) (hfull : ws.length + 1 = ioQueueSlots) (pad : ℕ)
    (c : IOCmd) : st.ioQueueAppend pad c = { st with appended := st.appended ++ [c] } := by
  obtain ⟨q, l, hl, hmap, hlen⟩ := h.held
  simp only [ioQueueAppend, AtomicRingBuffer.emplace_of_full hl (hlen ▸ hfull)]

theorem ioQueuePop_nil (h : Queued st []) : ioQueuePop st.ring = (none, st.ring) := by
  obtain ⟨q, l, hl, hmap⟩ := h.holds
  have hnil : l = [] := by simpa using hmap
  rw [ioQueuePop, (AtomicRingBuffer.front_eq_none_iff hl).mpr hnil]

theorem ioQueuePop_cons {c : IOCmd} (h : Queued st (c :: ws)) :
    ioQueuePop st.ring = (some c, st.ring.pop) ∧
      Queued { st with ring := st.ring.pop, popped := st.popped ++ [c] } ws := by
  obtain ⟨q, l, hl, hmap⟩ := h.holds
  cases l with
  | nil => simp at hmap
  | cons e l =>
      rw [List.map_cons, List.map_cons, List.cons.injEq] at hmap
      refine ⟨?_, h.running, ?_, h.elementSize_eq, q + 1, l, hl.pop, hmap.2⟩
      · rw [ioQueuePop, AtomicRingBuffer.front_of_cons hl]
        simp only [← h.elementSize_eq, hl.front_data, hmap.1]
      · rw [h.appended_eq, List.append_assoc, List.singleton_append]

theorem processIoLoop {readable : IOCmd → Bool} : ∀ {ws : List IOCmd} {fuel : ℕ} {st : IOState},
    Queued st ws → ws.length < fuel → (∀ c ∈ ws, processIoOne readable c = true) →
      Queued (processIoLoop readable fuel st) [] ∧
        (IOState.processIoLoop readable fuel st).appended = st.appended
  | _, 0, _, _, hfuel, _ => absurd hfuel (Nat.not_lt_zero _)
  | [], fuel + 1, st, h, _, _ => by
      rw [IOState.processIoLoop, h.ioQueuePop_nil]
      exact ⟨h, rfl⟩
  | c :: ws, fuel + 1, st, h, hfuel, hdone => by
      obtain ⟨hpop, hrest⟩ := h.ioQueuePop_cons
      have hc := hdone c List.mem_cons_self
      rw [IOState.processIoLoop, hpop]
      simp only [hc, if_true]
      exact hrest.processIoLoop (Nat.lt_of_succ_lt_succ hfuel)
        fun d hd => hdone d (List.mem_cons_of_mem c hd)

theorem processIo (h : Queued st ws) {readable : IOCmd → Bool}
    (hdone : ∀ c ∈ ws, processIoOne readable c = true) :
    Queued (st.processIo readable) [] ∧ (st.processIo readable).appended = st.appended :=
  h.processIoLoop h.length_lt hdone

theorem noneLost (h : Queued st ws) : st.NoneLost := by
  refine ⟨h.running, h.appended_eq ▸ List.prefix_append _ _, ?_⟩
  intro readable hdone
  rw [h.waiting_eq] at hdone
  obtain ⟨hempty, happended⟩ := h.processIo hdone
  rw [← happended, hempty.appended_eq, List.append_nil]

end Queued

theorem processIoLoop_appended (readable : IOCmd → Bool) (cs : List IOCmd) :
    ∀ (fuel : ℕ) (st : IOState), processIoLoop readable fuel { st with appended := cs } =
      { processIoLoop readable fuel st with appended := cs }
  | 0, _ => rfl
  | fuel + 1, st => by
      simp only [processIoLoop]
      rcases ioQueuePop st.ring with ⟨_ | c, ring⟩
      · rfl
      · by_cases hc : processIoOne readable c = true
        · simp only [hc, if_true]
          exact processIoLoop_appended readable cs fuel
            { st with ring := ring, popped := st.popped ++ [c] }
        · simp only [hc, Bool.false_eq_true, if_false]

/-- **A call on a full ring is lost.** It returns `0`, and the kernel never pops it. -/
theorem Queued.lost_of_full {st : IOState} {ws : List IOCmd} (h : Queued st ws)
    (hfull : ws.length + 1 = ioQueueSlots) (readable : IOCmd → Bool) {pad : ℕ} {c : IOCmd}
    (hdone : ∀ d ∈ ws ++ [c], processIoOne readable d = true) :
    ¬ (st.ioQueueAppend pad c).NoneLost := by
  rintro ⟨-, -, hpopped⟩
  rw [h.append_of_full hfull] at hpopped
  have hwaiting : { st with appended := st.appended ++ [c] }.waiting = ws ++ [c] := by
    simp only [waiting, h.appended_eq, List.append_assoc, List.drop_left]
  have hall := hpopped readable (hwaiting ▸ hdone)
  -- The kernel pops what it would have popped without the call.
  have hbefore : (st.processIo readable).popped = st.appended :=
    h.noneLost.2.2 readable fun d hd =>
      hdone d (List.mem_append_left _ (h.waiting_eq ▸ hd))
  have hsame : ({ st with appended := st.appended ++ [c] }.processIo readable).popped =
      (st.processIo readable).popped := by
    rw [IOState.processIo, processIoLoop_appended]
    rfl
  rw [hsame, hbefore] at hall
  simp at hall

/-! ## Runs -/

theorem queued_step {st : IOState} {op : Op} (hok : st.HasRoom op)
    (h : ∃ ws, Queued st ws) : ∃ ws, Queued (st.step op) ws := by
  obtain ⟨ws, h⟩ := h
  have hstep := h.running
  cases op with
  | ioSubmit pad addr len =>
      simp only [step, hstep, Bool.false_eq_true, if_false]
      exact ⟨_, h.append (fun hfull => hok (h.full_iff.mpr hfull)) pad _⟩
  | ioComplete pad addr len =>
      simp only [step, hstep, Bool.false_eq_true, if_false]
      exact ⟨_, h.append (fun hfull => hok (h.full_iff.mpr hfull)) pad _⟩
  | processIo readable =>
      simp only [step, hstep, Bool.false_eq_true, if_false]
      exact ⟨[], (h.processIo (h.waiting_eq ▸ hok)).1⟩

/-- **No I/O command is lost while the ring has room.** -/
theorem run_noneLost {buf : Mem} {ops : List Op}
    (hok : Guarded step HasRoom (acquire buf) ops) : NoneLost (run step (acquire buf) ops) := by
  obtain ⟨ws, h⟩ := run_invariant_of_guarded (P := fun st => ∃ ws, Queued st ws)
    (fun _ _ hop h => queued_step hop h) hok ⟨[], queued_acquire buf⟩
  exact h.noneLost

/-- A frame sent and a buffer given back, performed by one run of the kernel. -/
theorem run_noneLost_two_commands : NoneLost (run step (acquire fun _ => 0)
    [.ioSubmit 0 0x5000 60, .ioComplete 7 0x9000 60, .processIo fun _ => true]) :=
  run_noneLost (by decide +kernel)

theorem queued_replicate (buf : Mem) (addr len : UInt64) : ∀ k, k + 1 ≤ ioQueueSlots →
    Queued (run step (acquire buf) (List.replicate k (.ioComplete 0 addr len)))
      (List.replicate k ⟨.complete, addr, len⟩)
  | 0, _ => queued_acquire buf
  | k + 1, hk => by
      have ih := queued_replicate buf addr len k (by omega)
      have hroom : (List.replicate k (⟨.complete, addr, len⟩ : IOCmd)).length + 1 ≠
          ioQueueSlots := by
        rw [List.length_replicate]
        omega
      rw [List.replicate_succ', run_append, List.replicate_succ', run_cons, run_nil]
      simp only [step, ih.running, Bool.false_eq_true, if_false]
      exact ih.append hroom 0 _

/-- **162 calls in a row.** All of them return `0`, and the kernel pops 161. -/
theorem run_full_ring_loses : ¬ NoneLost (run step (acquire fun _ => 0)
    (List.replicate 162 (.ioComplete 0 0x9000 60))) := by
  have h := queued_replicate (fun _ => 0) 0x9000 60 161 (by decide)
  rw [List.replicate_succ', run_append, run_cons, run_nil]
  simp only [step, h.running, Bool.false_eq_true, if_false]
  refine h.lost_of_full (by rw [List.length_replicate]; rfl) (fun _ => true) ?_
  intro d hd
  rw [← List.replicate_succ'] at hd
  rw [List.eq_of_mem_replicate hd]
  rfl

/-! ## Unknown opcodes

User space writes the page of the ring itself, so an element may have any opcode.  `pop` takes such
an element off the ring and returns `None`, which also ends the loop of `process_io`. -/

/-- The ring holds the elements `l`, of any content. -/
structure Contains (st : IOState) (l : List (List UInt8)) : Prop where
  running : st.halted = false
  elementSize_eq : st.ring.elementSize = sizeofRawIOCmd
  holds : ∃ q, st.ring.Holds ioQueueSlots q l

/-- **One run of `process_io` drains the ring.** It returns, it has performed the known commands in
their order and no others, and the ring is empty. -/
def Drains (st st' : IOState) (l : List (List UInt8)) : Prop :=
  st'.halted = false ∧ st'.popped = st.popped ++ l.filterMap IOCmd.ofRaw ∧ st'.ring.front = none

theorem forall_mem_dropLast_cons {α : Type} {P : α → Prop} {a : α} {l : List α} :
    (∀ x ∈ (a :: l).dropLast, P x) ↔ (l ≠ [] → P a) ∧ ∀ x ∈ l.dropLast, P x := by
  cases l with
  | nil => simp
  | cons b l => simp

namespace Contains

variable {st : IOState} {l : List (List UInt8)} {e : List UInt8}

theorem front_eq_none_iff (h : st.Contains l) : st.ring.front = none ↔ l = [] := by
  obtain ⟨q, hl⟩ := h.holds
  exact AtomicRingBuffer.front_eq_none_iff hl

theorem ioQueuePop_cons (h : st.Contains (e :: l)) :
    ioQueuePop st.ring = (IOCmd.ofRaw e, st.ring.pop) := by
  obtain ⟨q, hl⟩ := h.holds
  rw [ioQueuePop, AtomicRingBuffer.front_of_cons hl]
  simp only [← h.elementSize_eq, hl.front_data]

theorem pop (h : st.Contains (e :: l)) (popped : List IOCmd) :
    Contains { st with ring := st.ring.pop, popped := popped } l := by
  obtain ⟨q, hl⟩ := h.holds
  exact ⟨h.running, h.elementSize_eq, q + 1, hl.pop⟩

theorem processIoLoop_unknown (h : st.Contains (e :: l)) (he : IOCmd.ofRaw e = none)
    (readable : IOCmd → Bool) (fuel : ℕ) :
    IOState.processIoLoop readable (fuel + 1) st = { st with ring := st.ring.pop } := by
  rw [IOState.processIoLoop, h.ioQueuePop_cons, he]

theorem drains_unknown_iff (h : st.Contains (e :: l)) (he : IOCmd.ofRaw e = none) :
    Drains st { st with ring := st.ring.pop } (e :: l) ↔ l = [] := by
  have hempty : st.ring.pop.front = none ↔ l = [] := (h.pop st.popped).front_eq_none_iff
  simp only [Drains, hempty, List.filterMap_cons_none he]
  constructor
  · exact fun hdrains => hdrains.2.2
  · rintro rfl
    exact ⟨h.running, (List.append_nil _).symm, rfl⟩

theorem processIoLoop_drains_iff {readable : IOCmd → Bool} {fuel : ℕ} (h : st.Contains l)
    (hfuel : l.length < fuel) :
    Drains st (IOState.processIoLoop readable fuel st) l ↔
      (∀ e ∈ l.dropLast, (IOCmd.ofRaw e).isSome) ∧
        ∀ c ∈ l.filterMap IOCmd.ofRaw, processIoOne readable c = true := by
  induction l generalizing st fuel with
  | nil =>
      obtain ⟨fuel, rfl⟩ := Nat.exists_eq_succ_of_ne_zero (Nat.ne_of_gt hfuel)
      have hnone := h.front_eq_none_iff.mpr rfl
      have hpop : ioQueuePop st.ring = (none, st.ring) := by
        rw [ioQueuePop, hnone]
      rw [IOState.processIoLoop, hpop]
      simp [Drains, h.running, hnone]
  | cons e l ih =>
      obtain ⟨fuel, rfl⟩ := Nat.exists_eq_succ_of_ne_zero (Nat.ne_zero_of_lt hfuel)
      rw [forall_mem_dropLast_cons]
      cases he : IOCmd.ofRaw e with
      | none =>
          rw [h.processIoLoop_unknown he, h.drains_unknown_iff he, List.filterMap_cons_none he]
          constructor
          · rintro rfl
            exact ⟨⟨fun hne => absurd rfl hne, fun _ hmem => absurd hmem List.not_mem_nil⟩,
              fun _ hmem => absurd hmem List.not_mem_nil⟩
          · rintro ⟨⟨hlast, -⟩, -⟩
            by_contra hne
            exact Bool.noConfusion (hlast hne)
      | some c =>
          rw [IOState.processIoLoop, h.ioQueuePop_cons, he, List.filterMap_cons_some he]
          by_cases hc : processIoOne readable c = true
          · simp only [hc, if_true]
            have hrest := ih (h.pop (st.popped ++ [c])) (Nat.lt_of_succ_lt_succ hfuel)
            have hmore : Drains st (IOState.processIoLoop readable fuel
                { st with ring := st.ring.pop, popped := st.popped ++ [c] }) (e :: l) ↔
                  Drains { st with ring := st.ring.pop, popped := st.popped ++ [c] }
                    (IOState.processIoLoop readable fuel
                      { st with ring := st.ring.pop, popped := st.popped ++ [c] }) l := by
              simp only [Drains, List.filterMap_cons_some he, List.append_assoc,
                List.singleton_append]
            rw [hmore, hrest, List.forall_mem_cons, and_iff_right hc,
              and_iff_right fun _ => Option.isSome_some]
          · simp only [hc, Bool.false_eq_true, if_false]
            constructor
            · exact fun hdrains => absurd hdrains.1 (by simp)
            · exact fun hall => absurd (hall.2 c List.mem_cons_self) hc

end Contains

/-- **When `process_io` drains the ring.** Every element but the last has a known opcode, and each
command can be performed. -/
theorem processIo_drains_iff (readable : IOCmd → Bool) (st : IOState) (l : List (List UInt8))
    (h : st.Contains l) :
    Drains st (st.processIo readable) l ↔
      (∀ e ∈ l.dropLast, (IOCmd.ofRaw e).isSome) ∧
        ∀ c ∈ l.filterMap IOCmd.ofRaw, processIoOne readable c = true := by
  obtain ⟨q, hl⟩ := h.holds
  exact h.processIoLoop_drains_iff hl.length_lt

/-- A program puts the elements `l` in a fresh ring. -/
def emplaceAll (buf : Mem) (l : List (List UInt8)) : IOState :=
  { acquire buf with
    ring := l.foldl (fun r e => (r.emplace (elementOf e)).2) (acquire buf).ring }

theorem holds_foldl_emplace {l done : List (List UInt8)} {r : AtomicRingBuffer}
    (hsize : ∀ e ∈ l, e.length = sizeofRawIOCmd) (hlen : done.length + l.length < ioQueueSlots)
    (hes : r.elementSize = sizeofRawIOCmd) (hr : r.Holds ioQueueSlots 0 done) :
    (l.foldl (fun r e => (r.emplace (elementOf e)).2) r).elementSize = sizeofRawIOCmd ∧
      (l.foldl (fun r e => (r.emplace (elementOf e)).2) r).Holds ioQueueSlots 0 (done ++ l) := by
  induction l generalizing done r with
  | nil =>
      rw [List.append_nil]
      exact ⟨hes, hr⟩
  | cons e l ih =>
      rw [List.length_cons] at hlen
      have hring := (AtomicRingBuffer.emplace_of_room hr (by omega) (elementOf e)).2
      have hbytes : bytesAt (elementOf e) 0 r.elementSize = e := by
        rw [hes, ← hsize e List.mem_cons_self]
        exact bytesAt_elementOf e
      rw [hbytes] at hring
      have hes' : (r.emplace (elementOf e)).2.elementSize = sizeofRawIOCmd := by
        simp only [AtomicRingBuffer.emplace]
        split <;> exact hes
      rw [List.foldl_cons, ← List.singleton_append, ← List.append_assoc]
      refine ih (fun d hd => hsize d (List.mem_cons_of_mem e hd)) ?_ hes' hring
      rw [List.length_append, List.length_singleton]
      omega

theorem contains_emplaceAll (buf : Mem) {l : List (List UInt8)}
    (hsize : ∀ e ∈ l, e.length = sizeofRawIOCmd) (hlen : l.length < ioQueueSlots) :
    (emplaceAll buf l).Contains l := by
  have hnew : (acquire buf).ring.Holds ioQueueSlots 0 [] :=
    AtomicRingBuffer.holds_new (by decide) (by decide) (by decide)
  obtain ⟨hes, hl⟩ := holds_foldl_emplace hsize (by simpa using hlen) rfl hnew
  exact ⟨rfl, hes, 0, hl⟩

/-- An element with an opcode that the kernel does not know. -/
def unknownCmd : List UInt8 := List.replicate 24 3

/-- A command and then one of an unknown opcode. -/
theorem processIo_drains_unknown_last :
    Drains (emplaceAll (fun _ => 0) [IOCmd.raw 0 ⟨.complete, 0, 0⟩, unknownCmd])
      ((emplaceAll (fun _ => 0) [IOCmd.raw 0 ⟨.complete, 0, 0⟩, unknownCmd]).processIo
        fun _ => true) [IOCmd.raw 0 ⟨.complete, 0, 0⟩, unknownCmd] :=
  (processIo_drains_iff _ _ _ (contains_emplaceAll _ (by decide) (by decide))).mpr (by decide)

/-- An unknown opcode in front of a command: the loop ends, and the command stays in the ring. -/
theorem processIo_stops_at_unknown :
    let l := [unknownCmd, IOCmd.raw 0 ⟨.complete, 0, 0⟩]
    let st := (emplaceAll (fun _ => 0) l).processIo fun _ => true
    (emplaceAll (fun _ => 0) l).Contains l ∧ st.halted = false ∧ st.popped = [] ∧
      st.ring.front ≠ none ∧ ¬ Drains (emplaceAll (fun _ => 0) l) st l := by
  intro l st
  have hcontains : (emplaceAll (fun _ => 0) l).Contains l :=
    contains_emplaceAll _ (by decide) (by decide)
  have hst : st = { emplaceAll (fun _ => 0) l with ring := (emplaceAll (fun _ => 0) l).ring.pop } :=
    hcontains.processIoLoop_unknown (by decide) (fun _ => true) (ioQueueSlots - 1)
  have hfront : st.ring.front ≠ none := by
    rw [hst]
    exact mt (hcontains.pop []).front_eq_none_iff.mp (List.cons_ne_nil _ _)
  refine ⟨hcontains, ?_, ?_, hfront, fun hdrains => hfront hdrains.2.2⟩
  · rw [hst]
    rfl
  · rw [hst]
    rfl

end IOState

end Manticore
