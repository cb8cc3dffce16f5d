import Manticore.Base.SlotRing
import Manticore.Drivers.Virtqueue
import Manticore.Drivers.VirtioNet

/-!
# Consuming the used ring

`VirtioNetDevice::recv` handles the elements of the used ring between `last_seen_used` and the
used index that it reads once.  The device goes on completing buffers while the loop runs.  All
three indices are 16-bit and wrap.
-/

namespace Manticore

namespace Virtqueue

/-- `none` is an index out of bounds. -/
def getBuf (vq : Virtqueue) (idx : ℕ) : Option ℕ :=
  if idx < vq.queueSize then some (vq.descriptorTable idx).addr else none

def getUsedBuf (vq : Virtqueue) (idx : ℕ) : Option (ℕ × ℕ) :=
  if idx < vq.queueSize then
    let used := vq.usedRing idx
    (vq.getBuf (used.id % 2 ^ 16)).map fun addr => (addr, used.len)
  else none

end Virtqueue

/-- Where the processor is in `recv`. -/
inductive RecvPhase where
  | idle
  | looping (idx lastUsedIdx : ℕ)
  | panicked
deriving DecidableEq, Repr

/-- One iteration of the loop: the slot it read, the element found there, and the event for the
process that has the device. -/
structure Handled where
  slot : ℕ
  used : VirtqUsedElem
  event : Option (ℕ × ℕ)
deriving DecidableEq, Repr

/-- The receive queue with the histories of both sides. -/
structure RxSystem where
  vq : Virtqueue
  lastSeenUsed : ℕ
  rxBufferAddr : Option ℕ
  phase : RecvPhase
  published : List ℕ
  completed : List VirtqUsedElem
  handled : List Handled

namespace RxSystem

def new (queueSize : ℕ) (hpos : 0 < queueSize) (hlt : queueSize < 2 ^ 16) : RxSystem where
  vq := Virtqueue.new queueSize hpos hlt
  lastSeenUsed := 0
  rxBufferAddr := none
  phase := .idle
  published := []
  completed := []
  handled := []

def addBufIdx (st : RxSystem) (idx : ℕ) : RxSystem :=
  { st with vq := st.vq.addBufIdx idx, published := st.published ++ [idx] }

/-- The device returns a buffer. -/
def complete (st : RxSystem) (e : VirtqUsedElem) : RxSystem :=
  { st with
    vq := { st.vq with
      usedRing := Function.update st.vq.usedRing (st.vq.usedIdx % st.vq.queueSize) e
      usedIdx := (st.vq.usedIdx + 1) % 2 ^ 16 }
    completed := st.completed ++ [e] }

/-- The start of `recv`: both indices are read. -/
def recv (st : RxSystem) : RxSystem :=
  match st.phase with
  | .idle => { st with phase := .looping st.lastSeenUsed st.vq.usedIdx }
  | .looping _ _ => st
  | .panicked => st

/-- The body of the loop. -/
def iterate (st : RxSystem) : RxSystem :=
  match st.phase with
  | .idle => st
  | .panicked => st
  | .looping idx lastUsedIdx =>
      if idx = lastUsedIdx then { st with phase := .idle }
      else
        let slot := idx % st.vq.queueSize
        match st.vq.getUsedBuf slot with
        | none => { st with phase := .panicked }
        | some (_, bufLen) =>
            let event := st.rxBufferAddr.map fun rxBufferAddr =>
              (add64 rxBufferAddr sizeofVirtioNetHdr, sub64 bufLen sizeofVirtioNetHdr)
            { st with
              handled := st.handled ++ [⟨slot, st.vq.usedRing slot, event⟩]
              lastSeenUsed := (st.lastSeenUsed + 1) % 2 ^ 16
              phase := .looping ((idx + 1) % 2 ^ 16) lastUsedIdx }

inductive Op where
  | acquire (rxBufferAddr : ℕ)
  | addBufIdx (idx : ℕ)
  | complete (e : VirtqUsedElem)
  | recv
  | iterate
deriving DecidableEq, Repr

def step (st : RxSystem) : Op → RxSystem
  | .acquire addr => { st with rxBufferAddr := some addr }
  | .addBufIdx idx => st.addBufIdx idx
  | .complete e => st.complete e
  | .recv => st.recv
  | .iterate => st.iterate

/-- The device returns descriptors of the table, and has at most `queueSize` of them outstanding
after it. -/
def Allowed (st : RxSystem) : Op → Prop
  | .complete e => st.completed.length < st.handled.length + st.vq.queueSize ∧
      e.id < st.vq.queueSize
  | _ => True

instance (st : RxSystem) (op : Op) : Decidable (st.Allowed op) := by
  cases op <;> unfold Allowed <;> infer_instance

/-- What is handled, and from which slot, by the order of completion. -/
def inOrder (q : ℕ) (completed : List VirtqUsedElem) : List (ℕ × VirtqUsedElem) :=
  completed.zipIdx.map fun p => (p.2 % q, p.1)

/-! ## The invariant -/

/-- The counters are the lengths of the histories, and the rings hold their ends. -/
structure Inv (q : ℕ) (st : RxSystem) : Prop where
  size : st.vq.queueSize = q
  avail : st.vq.availIdx = st.published.length % 2 ^ 16
  availRing : SlotsHold st.vq.availRing q st.published
  used : st.vq.usedIdx = st.completed.length % 2 ^ 16
  usedRing : SlotsHold st.vq.usedRing q st.completed
  ids : ∀ e ∈ st.completed, e.id < q
  seen : st.lastSeenUsed = st.handled.length % 2 ^ 16
  le : st.handled.length ≤ st.completed.length
  outstanding : st.completed.length ≤ st.handled.length + q
  handled : st.handled.map (fun h => (h.slot, h.used)) =
    inOrder q (st.completed.take st.handled.length)

/-- `recv` is to handle the first `s` completions. -/
structure UpTo (st : RxSystem) (s : ℕ) : Prop where
  phase : st.phase = .looping (st.handled.length % 2 ^ 16) (s % 2 ^ 16)
  le : st.handled.length ≤ s
  completed : s ≤ st.completed.length

variable {q : ℕ} {st : RxSystem}

theorem inOrder_concat (q : ℕ) (l : List VirtqUsedElem) (e : VirtqUsedElem) :
    inOrder q (l ++ [e]) = inOrder q l ++ [(l.length % q, e)] := by
  unfold inOrder
  rw [List.zipIdx_append, List.map_append, Nat.zero_add]
  rfl

theorem inv_new (hpos : 0 < q) (hlt : q < 2 ^ 16) : Inv q (new q hpos hlt) where
  size := rfl
  avail := rfl
  availRing := SlotsHold.nil _ _
  used := rfl
  usedRing := SlotsHold.nil _ _
  ids := fun _ h => absurd h List.not_mem_nil
  seen := rfl
  le := le_rfl
  outstanding := Nat.zero_le _
  handled := rfl

namespace Inv

theorem acquire (h : Inv q st) (addr : ℕ) : Inv q (st.step (.acquire addr)) :=
  ⟨h.size, h.avail, h.availRing, h.used, h.usedRing, h.ids, h.seen, h.le, h.outstanding, h.handled⟩

theorem addBufIdx (h : Inv q st) (hq : q ∣ 2 ^ 16) (idx : ℕ) : Inv q (st.addBufIdx idx) where
  size := h.size
  avail := by
    simp only [RxSystem.addBufIdx, Virtqueue.addBufIdx, List.length_append, List.length_singleton]
    rw [h.avail, counter_succ]
  availRing := by
    simp only [RxSystem.addBufIdx, Virtqueue.addBufIdx]
    rw [h.avail, h.size, slot_of_counter hq]
    exact h.availRing.push idx
  used := h.used
  usedRing := h.usedRing
  ids := h.ids
  seen := h.seen
  le := h.le
  outstanding := h.outstanding
  handled := h.handled

theorem complete (h : Inv q st) (hq : q ∣ 2 ^ 16) {e : VirtqUsedElem}
    (hok : st.Allowed (.complete e)) : Inv q (st.complete e) where
  size := h.size
  avail := h.avail
  availRing := h.availRing
  used := by
    simp only [RxSystem.complete, List.length_append, List.length_singleton]
    rw [h.used, counter_succ]
  usedRing := by
    simp only [RxSystem.complete]
    rw [h.used, h.size, slot_of_counter hq]
    exact h.usedRing.push e
  ids := by
    intro e' he'
    rcases List.mem_append.mp he' with hold | hnew
    · exact h.ids e' hold
    · rw [List.mem_singleton.mp hnew, ← h.size]
      exact hok.2
  seen := h.seen
  le := by
    simp only [RxSystem.complete, List.length_append, List.length_singleton]
    exact h.le.trans (Nat.le_succ _)
  outstanding := by
    simp only [RxSystem.complete, List.length_append, List.length_singleton]
    rw [← h.size]
    exact hok.1
  handled := by
    simp only [RxSystem.complete]
    rw [List.take_append_of_le_length h.le]
    exact h.handled

theorem recv (h : Inv q st) : Inv q st.recv := by
  unfold RxSystem.recv
  cases st.phase with
  | idle =>
      exact ⟨h.size, h.avail, h.availRing, h.used, h.usedRing, h.ids, h.seen, h.le, h.outstanding,
        h.handled⟩
  | looping => exact h
  | panicked => exact h

theorem getElem_slot (h : Inv q st) (hq : q ∣ 2 ^ 16)
    (hlt : st.handled.length < st.completed.length) :
    st.completed[st.handled.length]? =
      some (st.vq.usedRing (st.handled.length % 2 ^ 16 % st.vq.queueSize)) := by
  rw [h.size, slot_of_counter hq]
  exact h.usedRing _ hlt h.outstanding

theorem getUsedBuf_slot (h : Inv q st) (hq : q ∣ 2 ^ 16)
    (hlt : st.handled.length < st.completed.length) : ∃ addr len,
      st.vq.getUsedBuf (st.handled.length % 2 ^ 16 % st.vq.queueSize) = some (addr, len) := by
  have hmem := h.ids _ (List.mem_of_getElem? (h.getElem_slot hq hlt))
  have hid := (Nat.mod_le _ (2 ^ 16)).trans_lt hmem
  rw [← h.size] at hid
  unfold Virtqueue.getUsedBuf Virtqueue.getBuf
  rw [if_pos (Nat.mod_lt _ st.vq.queueSize_pos)]
  dsimp only
  rw [if_pos hid]
  exact ⟨_, _, rfl⟩

end Inv

/-! ## The loop -/

theorem UpTo.iterate_done {s : ℕ} (hup : st.UpTo s) (hs : st.handled.length = s) :
    st.iterate = { st with phase := .idle } := by
  unfold RxSystem.iterate
  rw [hup.phase, hs]
  exact if_pos rfl

theorem UpTo.iterate_next (h : Inv q st) (hq : q ∣ 2 ^ 16) (hq16 : q < 2 ^ 16) {s : ℕ}
    (hup : st.UpTo s) (hs : st.handled.length ≠ s) :
    Inv q st.iterate ∧ st.iterate.UpTo s ∧ st.iterate.handled.length = st.handled.length + 1 := by
  have hlt : st.handled.length < st.completed.length := by
    have := hup.le
    have := hup.completed
    omega
  have hne : st.handled.length % 2 ^ 16 ≠ s % 2 ^ 16 := by
    have hfar : s < st.handled.length + 2 ^ 16 := by
      have := hup.completed
      have := h.outstanding
      omega
    exact fun heq => hs ((counter_inj hup.le hfar).mp heq)
  obtain ⟨addr, len, hbuf⟩ := h.getUsedBuf_slot hq hlt
  have hget := h.getElem_slot hq hlt
  generalize hslot : st.handled.length % 2 ^ 16 % st.vq.queueSize = slot at hbuf hget
  have hstep : st.iterate = { st with
      handled := st.handled ++ [⟨slot, st.vq.usedRing slot, st.rxBufferAddr.map fun a =>
        (add64 a sizeofVirtioNetHdr, sub64 len sizeofVirtioNetHdr)⟩]
      lastSeenUsed := (st.lastSeenUsed + 1) % 2 ^ 16
      phase := .looping ((st.handled.length % 2 ^ 16 + 1) % 2 ^ 16) (s % 2 ^ 16) } := by
    unfold RxSystem.iterate
    simp only [hup.phase, if_neg hne, hslot, hbuf]
  have hslot' : slot = st.handled.length % q := by
    rw [← hslot, h.size, slot_of_counter hq]
  rw [hstep]
  refine ⟨⟨h.size, h.avail, h.availRing, h.used, h.usedRing, h.ids, ?_, ?_, ?_, ?_⟩, ⟨?_, ?_, ?_⟩,
    List.length_append⟩
  · simp only [List.length_append, List.length_singleton]
    rw [h.seen, counter_succ]
  · simp only [List.length_append, List.length_singleton]
    exact hlt
  · simp only [List.length_append, List.length_singleton]
    exact h.outstanding.trans (by omega)
  · simp only [List.length_append, List.length_singleton, List.map_append, List.map_cons,
      List.map_nil]
    rw [List.take_add_one, hget, Option.toList_some, inOrder_concat, h.handled,
      List.length_take_of_le h.le, hslot']
  · simp only [List.length_append, List.length_singleton]
    rw [counter_succ]
  · simp only [List.length_append, List.length_singleton]
    have := hup.le
    omega
  · exact hup.completed

/-- A call of `recv` is under way, or none is. -/
structure Good (q : ℕ) (st : RxSystem) : Prop where
  inv : Inv q st
  phase : st.phase = .idle ∨ ∃ s, st.UpTo s

theorem UpTo.complete {s : ℕ} (hup : st.UpTo s) (e : VirtqUsedElem) : (st.complete e).UpTo s where
  phase := hup.phase
  le := hup.le
  completed := by
    simp only [RxSystem.complete, List.length_append]
    exact hup.completed.trans (Nat.le_add_right _ _)

theorem Good.upTo_recv (h : Good q st) (hidle : st.phase = .idle) :
    st.recv.UpTo st.completed.length := by
  have heq : st.recv = { st with phase := .looping st.lastSeenUsed st.vq.usedIdx } := by
    unfold RxSystem.recv
    rw [hidle]
  rw [heq]
  refine ⟨?_, h.inv.le, le_rfl⟩
  dsimp only
  rw [h.inv.seen, h.inv.used]

theorem iterate_idle (h : st.phase = .idle) : st.iterate = st := by
  unfold RxSystem.iterate
  rw [h]

theorem Good.step (hq : q ∣ 2 ^ 16) (hq16 : q < 2 ^ 16) {op : Op} (hok : st.Allowed op)
    (h : Good q st) : Good q (st.step op) := by
  cases op with
  | acquire addr =>
      exact ⟨h.inv.acquire addr, h.phase.imp_right fun ⟨s, hup⟩ =>
        ⟨s, hup.phase, hup.le, hup.completed⟩⟩
  | addBufIdx idx =>
      exact ⟨h.inv.addBufIdx hq idx, h.phase.imp_right fun ⟨s, hup⟩ =>
        ⟨s, hup.phase, hup.le, hup.completed⟩⟩
  | complete e =>
      exact ⟨h.inv.complete hq hok, h.phase.imp_right fun ⟨s, hup⟩ => ⟨s, hup.complete e⟩⟩
  | recv =>
      refine ⟨h.inv.recv, Or.inr ?_⟩
      rcases h.phase with hidle | ⟨s, hup⟩
      · exact ⟨_, h.upTo_recv hidle⟩
      · refine ⟨s, ?_⟩
        have heq : st.recv = st := by
          unfold RxSystem.recv
          rw [hup.phase]
        rw [RxSystem.step, heq]
        exact hup
  | iterate =>
      rcases h.phase with hidle | ⟨s, hup⟩
      · rw [RxSystem.step, iterate_idle hidle]
        exact h
      · by_cases hs : st.handled.length = s
        · rw [RxSystem.step, hup.iterate_done hs]
          have hi := h.inv
          exact ⟨⟨hi.size, hi.avail, hi.availRing, hi.used, hi.usedRing, hi.ids, hi.seen, hi.le,
            hi.outstanding, hi.handled⟩, Or.inl rfl⟩
        · obtain ⟨hinv, hnext, -⟩ := hup.iterate_next h.inv hq hq16 hs
          exact ⟨hinv, Or.inr ⟨s, hnext⟩⟩

theorem run_good (hq : q ∣ 2 ^ 16) (hq16 : q < 2 ^ 16) {ops : List Op}
    (hok : Guarded step Allowed st ops) (h : Good q st) : Good q (run step st ops) :=
  run_invariant_of_guarded (fun _ _ hop hst => hst.step hq hq16 hop) hok h

/-! ## A call of `recv` -/

theorem run_idle {ops : List Op} (hrecv : .recv ∉ ops) (hidle : st.phase = .idle) :
    (run step st ops).phase = .idle ∧ (run step st ops).lastSeenUsed = st.lastSeenUsed ∧
      (run step st ops).handled = st.handled := by
  induction ops generalizing st with
  | nil => exact ⟨hidle, rfl, rfl⟩
  | cons op ops ih =>
      rw [List.mem_cons, not_or] at hrecv
      rw [run_cons]
      cases op with
      | acquire addr => exact ih hrecv.2 hidle
      | addBufIdx idx => exact ih hrecv.2 hidle
      | complete e => exact ih hrecv.2 hidle
      | recv => exact absurd rfl hrecv.1
      | iterate =>
          rw [RxSystem.step, iterate_idle hidle]
          exact ih hrecv.2 hidle

theorem UpTo.run_returns (hq : q ∣ 2 ^ 16) (hq16 : q < 2 ^ 16) {s : ℕ} {ops : List Op}
    (hok : Guarded step Allowed st ops) (hrecv : .recv ∉ ops) (h : Good q st) (hup : st.UpTo s)
    (hcount : s - st.handled.length < ops.count .iterate) :
    (run step st ops).phase = .idle ∧ (run step st ops).lastSeenUsed = s % 2 ^ 16 ∧
      (run step st ops).handled.length = s := by
  induction ops generalizing st with
  | nil => exact absurd hcount (Nat.not_lt_zero _)
  | cons op ops ih =>
      rw [List.mem_cons, not_or] at hrecv
      have hgood := h.step hq hq16 hok.1
      rw [run_cons]
      cases op with
      | acquire addr =>
          rw [List.count_cons_of_ne (by simp)] at hcount
          exact ih hok.2 hrecv.2 hgood ⟨hup.phase, hup.le, hup.completed⟩ hcount
      | addBufIdx idx =>
          rw [List.count_cons_of_ne (by simp)] at hcount
          exact ih hok.2 hrecv.2 hgood ⟨hup.phase, hup.le, hup.completed⟩ hcount
      | complete e =>
          rw [List.count_cons_of_ne (by simp)] at hcount
          exact ih hok.2 hrecv.2 hgood (hup.complete e) hcount
      | recv => exact absurd rfl hrecv.1
      | iterate =>
          rw [List.count_cons_self] at hcount
          by_cases hs : st.handled.length = s
          · have heq : st.step .iterate = { st with phase := .idle } := hup.iterate_done hs
            have hidle : (st.step .iterate).phase = .idle := by rw [heq]
            obtain ⟨hphase, hseen, hhandled⟩ := run_idle hrecv.2 hidle
            refine ⟨hphase, ?_, ?_⟩
            · rw [hseen, heq, ← hs]
              exact h.inv.seen
            · rw [hhandled, heq, ← hs]
          · obtain ⟨-, hnext, hlen⟩ := hup.iterate_next h.inv hq hq16 hs
            refine ih hok.2 hrecv.2 hgood hnext ?_
            have hle := hup.le
            rw [RxSystem.step, hlen]
            omega

theorem two_pow_dvd {k : ℕ} (hk : k ≤ 15) : 2 ^ k ∣ 2 ^ 16 := pow_dvd_pow 2 (by omega)

theorem two_pow_lt {k : ℕ} (hk : k ≤ 15) : 2 ^ k < 2 ^ 16 :=
  Nat.pow_lt_pow_right (by norm_num) (by omega)

/-- **The used ring is consumed in order.** With at most `queue_size` completions outstanding,
every element is handled once, in the order of completion and from the slot of its number, however
often the indices wrap and wherever the device runs between the iterations. A call of `recv` handles
all that was complete when it began; it has `last_seen_used` at the index that it read. The last
`queue_size` published descriptors are in the slots of their numbers. -/
theorem run_handles_in_order {k : ℕ} (hk : k ≤ 15) {ops : List Op}
    (hok : Guarded step Allowed (new (2 ^ k) (Nat.two_pow_pos k) (two_pow_lt hk)) ops) :
    let st := run step (new (2 ^ k) (Nat.two_pow_pos k) (two_pow_lt hk)) ops
    st.phase ≠ .panicked ∧
      st.handled.map (fun h => (h.slot, h.used)) =
        (st.completed.take st.handled.length).zipIdx.map (fun p => (p.2 % 2 ^ k, p.1)) ∧
      (∀ n, n < st.published.length → st.published.length ≤ n + 2 ^ k →
        st.published[n]? = some (st.vq.availRing (n % 2 ^ k))) ∧
      (st.phase = .idle → ∀ more, Guarded step Allowed (st.step .recv) more → .recv ∉ more →
        2 ^ k < more.count .iterate →
        let st' := run step (st.step .recv) more
        st'.phase = .idle ∧ st'.lastSeenUsed = st.vq.usedIdx ∧
          st'.handled.length = st.completed.length) := by
  intro st
  have hq := two_pow_dvd hk
  have hgood : Good (2 ^ k) st :=
    run_good hq (two_pow_lt hk) hok ⟨inv_new (Nat.two_pow_pos k) (two_pow_lt hk), Or.inl rfl⟩
  refine ⟨?_, hgood.inv.handled, hgood.inv.availRing, ?_⟩
  · rcases hgood.phase with hidle | ⟨s, hup⟩
    · rw [hidle]
      nofun
    · rw [hup.phase]
      nofun
  · intro hidle more hmore hrecv hcount st'
    have hup : (st.step .recv).UpTo st.completed.length := hgood.upTo_recv hidle
    have hleft : st.completed.length - (st.step .recv).handled.length < more.count .iterate := by
      have hsame : (st.step .recv).handled = st.handled := by
        simp only [RxSystem.step, RxSystem.recv, hidle]
      have := hgood.inv.outstanding
      rw [hsame]
      omega
    have hcall : Good (2 ^ k) (st.step .recv) := hgood.step hq (two_pow_lt hk) trivial
    rw [hgood.inv.used]
    exact hup.run_returns hq (two_pow_lt hk) hmore hrecv hcall hleft

/-- Three completions in a ring of two, the last while `recv` runs. -/
def threeCompletions : List Op :=
  [.addBufIdx 0, .addBufIdx 1, .complete ⟨1, 64⟩, .complete ⟨0, 80⟩, .recv, .iterate,
    .complete ⟨1, 96⟩, .iterate, .iterate, .recv, .iterate, .iterate]

theorem run_handles_three :
    (run step (new (2 ^ 1) (Nat.two_pow_pos 1) (two_pow_lt (by decide))) threeCompletions).handled.map
      (fun h => (h.slot, h.used)) = [(0, ⟨1, 64⟩), (1, ⟨0, 80⟩), (0, ⟨1, 96⟩)] := by
  have hok : Guarded step Allowed (new (2 ^ 1) (Nat.two_pow_pos 1) (two_pow_lt (by decide)))
      threeCompletions := by decide
  rw [(run_handles_in_order (by decide) hok).2.1]
  decide

end RxSystem

end Manticore
