import Manticore.Arch.PageTable
import Manticore.Drivers.Virtqueue
import Manticore.Drivers.VirtioNet
import Manticore.Kernel.IoQueue

/-!
# Performing one I/O command

`VirtioNetDevice::process_io_one` clears the header in the transmit page, copies the buffer that
the command names behind it, and only then looks at the length.  Address and length are whatever
the program has put in the ring.

The copies are those of `rlibc`, a byte at a time with addresses that wrap.  What they touch is
recorded, and an access outside of what is mapped is a fault, on which the kernel halts.
-/

namespace Manticore

/-! ## Copies with a record of what they touch -/

structure Touched where
  mem : Mem
  reads : List ℕ
  writes : List ℕ

namespace Touched

variable (readable writable : ℕ → Bool)

def load (A : Touched) (a : ℕ) : Except Touched (UInt8 × Touched) :=
  if readable a then .ok (A.mem a, { A with reads := A.reads ++ [a] }) else .error A

def store (A : Touched) (a : ℕ) (b : UInt8) : Except Touched Touched :=
  if writable a then
    .ok { A with mem := Function.update A.mem a b, writes := A.writes ++ [a] }
  else .error A

/-- `rlibc::memset` from byte `i` on. -/
def memset (s : ℕ) (c : UInt8) : ℕ → ℕ → Touched → Except Touched Touched
  | 0, _, A => .ok A
  | n + 1, i, A => do
      let A ← A.store writable (add64 s i) c
      memset s c n (i + 1) A

/-- `rlibc::memcpy` from byte `i` on. -/
def memcpy (dest src : ℕ) : ℕ → ℕ → Touched → Except Touched Touched
  | 0, _, A => .ok A
  | n + 1, i, A => do
      let (b, A) ← A.load readable (add64 src i)
      let A ← A.store writable (add64 dest i) b
      memcpy dest src n (i + 1) A

end Touched

/-! ## `process_io_one` -/

/-- The device, as far as commands use it. -/
structure NetIo where
  mem : Mem
  txPage : ℕ
  rxPage : ℕ
  txVq : Virtqueue
  rxVq : Virtqueue
  notifyOffMultiplier : ℕ
  txNotifyOff : ℕ
  rxNotifyOff : ℕ
  notified : List (ℕ × ℕ)

inductive IoOutcome where
  | returned
  | faulted
  | panicked
deriving DecidableEq, Repr

structure IoResult where
  outcome : IoOutcome
  touched : Touched
  io : NetIo

namespace NetIo

def virtioRxQueueIdx : ℕ := 0
def virtioTxQueueIdx : ℕ := 1

/-- `rx_page_size`. -/
def rxPageSize : ℕ := 4096

/-- The 16-bit port writes of `notify`. -/
def notify (st : NetIo) (queueIdx notifyOff : ℕ) : NetIo :=
  { st with notified := st.notified ++
      [(queueIdx, st.notifyOffMultiplier * notifyOff % 2 ^ 32)] }

def processIoOne (readable writable : ℕ → Bool) (st : NetIo) (cmd : IOCmd) : IoResult :=
  match cmd.opcode with
  | .submit =>
      let header := Touched.memset writable st.txPage 0 sizeofVirtioNetHdr 0 ⟨st.mem, [], []⟩
      let copied := header.bind (Touched.memcpy readable writable
        (add64 st.txPage sizeofVirtioNetHdr) cmd.addr.toNat cmd.len.toNat 0)
      match copied with
      | .error A => ⟨.faulted, A, { st with mem := A.mem }⟩
      | .ok A =>
          if cmd.len.toNat ≤ txPageSize then
            let txVq := st.txVq.addOutbuf (virtToPhys st.txPage)
              (add64 sizeofVirtioNetHdr cmd.len.toNat)
            ⟨.returned, A,
              { st with mem := A.mem, txVq := txVq }.notify virtioTxQueueIdx st.txNotifyOff⟩
          else ⟨.panicked, A, { st with mem := A.mem }⟩
  | .complete =>
      let rxVq := st.rxVq.addInbuf (virtToPhys st.rxPage) rxPageSize
      ⟨.returned, ⟨st.mem, [], []⟩,
        { st with rxVq := rxVq }.notify virtioRxQueueIdx st.rxNotifyOff⟩

/-- **A submit stays in bounds**: it is rejected before anything is written, or it writes the
transmit page only, publishes a descriptor for header and payload within the page, and reads below
the kernel. -/
def StaysInBounds (st : NetIo) (cmd : IOCmd) (r : IoResult) : Prop :=
  (r.outcome ≠ .returned ∧ r.touched.writes = []) ∨
    ((∀ a ∈ r.touched.writes, st.txPage ≤ a ∧ a < st.txPage + txPageSize) ∧
      r.io.txVq.availIdx = (st.txVq.availIdx + 1) % 2 ^ 16 ∧
      (r.io.txVq.descriptorTable Virtqueue.addBufDesc).len =
        sizeofVirtioNetHdr + cmd.len.toNat ∧
      sizeofVirtioNetHdr + cmd.len.toNat ≤ txPageSize ∧
      ∀ a ∈ r.touched.reads, a < kernelVma)

end NetIo

/-! ## What the copies touch -/

theorem range_succ_map_add (f : ℕ → ℕ) (n i : ℕ) :
    (List.range (n + 1)).map (fun j => f (i + j)) =
      f i :: (List.range n).map fun j => f (i + 1 + j) := by
  rw [List.range_succ_eq_map, List.map_cons, List.map_map]
  simp [Function.comp_def, Nat.add_assoc, Nat.add_comm 1]

namespace Touched

variable {readable writable : ℕ → Bool}

theorem memset_ok {s : ℕ} {c : UInt8} {n i : ℕ} {A : Touched}
    (h : ∀ j < n, writable (add64 s (i + j)) = true) :
    ∃ A', memset writable s c n i A = .ok A' ∧ A'.reads = A.reads ∧
      A'.writes = A.writes ++ (List.range n).map fun j => add64 s (i + j) := by
  induction n generalizing i A with
  | zero => exact ⟨A, rfl, rfl, (List.append_nil _).symm⟩
  | succ n ih =>
      have hstore : A.store writable (add64 s i) c = .ok { A with
          mem := Function.update A.mem (add64 s i) c, writes := A.writes ++ [add64 s i] } :=
        if_pos (h 0 (Nat.succ_pos n))
      obtain ⟨A', hrest, hreads, hwrites⟩ := ih (i := i + 1)
        (A := { A with mem := Function.update A.mem (add64 s i) c
                       writes := A.writes ++ [add64 s i] })
        fun j hj => by
          rw [Nat.add_assoc, Nat.add_comm 1 j]
          exact h (j + 1) (Nat.succ_lt_succ hj)
      refine ⟨A', ?_, hreads, ?_⟩
      · rw [memset, hstore]
        exact hrest
      · rw [hwrites, range_succ_map_add]
        exact List.append_assoc _ _ _

/-- The record after the byte `i` of a copy. -/
def copied (A : Touched) (dest src i : ℕ) : Touched where
  mem := Function.update A.mem (add64 dest i) (A.mem (add64 src i))
  reads := A.reads ++ [add64 src i]
  writes := A.writes ++ [add64 dest i]

theorem memcpy_succ {dest src n i : ℕ} {A : Touched} (hr : readable (add64 src i) = true)
    (hw : writable (add64 dest i) = true) :
    memcpy readable writable dest src (n + 1) i A =
      memcpy readable writable dest src n (i + 1) (A.copied dest src i) := by
  simp only [memcpy, load, store, hr, hw, if_true]
  rfl

theorem memcpy_fault {dest src n i : ℕ} {A : Touched}
    (h : ¬ (readable (add64 src i) = true ∧ writable (add64 dest i) = true)) :
    ∃ B, memcpy readable writable dest src (n + 1) i A = .error B ∧ B.writes = A.writes := by
  by_cases hr : readable (add64 src i) = true
  · have hw : ¬ writable (add64 dest i) = true := fun hw => h ⟨hr, hw⟩
    simp only [memcpy, load, store, hr, hw, if_true]
    exact ⟨_, rfl, rfl⟩
  · simp only [memcpy, load, hr]
    exact ⟨_, rfl, rfl⟩

theorem memcpy_of_ok {dest src n i : ℕ} {A A' : Touched}
    (h : memcpy readable writable dest src n i A = .ok A') :
    (∀ j < n, readable (add64 src (i + j)) = true) ∧
      A'.reads = A.reads ++ (List.range n).map (fun j => add64 src (i + j)) := by
  induction n generalizing i A with
  | zero =>
      rw [memcpy, Except.ok.injEq] at h
      subst h
      exact ⟨fun j hj => absurd hj (Nat.not_lt_zero j), (List.append_nil _).symm⟩
  | succ n ih =>
      by_cases hbyte : readable (add64 src i) = true ∧ writable (add64 dest i) = true
      · rw [memcpy_succ hbyte.1 hbyte.2] at h
        obtain ⟨hall, hreads⟩ := ih h
        refine ⟨fun j hj => ?_, ?_⟩
        · cases j with
          | zero => exact hbyte.1
          | succ j =>
              have := hall j (Nat.lt_of_succ_lt_succ hj)
              rwa [Nat.add_assoc, Nat.add_comm 1 j] at this
        · rw [hreads, range_succ_map_add]
          exact List.append_assoc _ _ _
      · obtain ⟨B, hB, -⟩ := memcpy_fault (n := n) (A := A) hbyte
        rw [hB] at h
        exact nomatch h

theorem memcpy_ok {dest src n i : ℕ} {A : Touched}
    (hr : ∀ j < n, readable (add64 src (i + j)) = true)
    (hw : ∀ j < n, writable (add64 dest (i + j)) = true) :
    ∃ A', memcpy readable writable dest src n i A = .ok A' ∧
      A'.writes = A.writes ++ (List.range n).map fun j => add64 dest (i + j) := by
  induction n generalizing i A with
  | zero => exact ⟨A, rfl, (List.append_nil _).symm⟩
  | succ n ih =>
      have hshift : ∀ {p : ℕ → Bool} {a : ℕ}, (∀ j < n + 1, p (add64 a (i + j)) = true) →
          ∀ j < n, p (add64 a (i + 1 + j)) = true := by
        intro p a hp j hj
        rw [Nat.add_assoc, Nat.add_comm 1 j]
        exact hp (j + 1) (Nat.succ_lt_succ hj)
      obtain ⟨A', hrest, hwrites⟩ :=
        ih (i := i + 1) (A := A.copied dest src i) (hshift hr) (hshift hw)
      refine ⟨A', ?_, ?_⟩
      · exact (memcpy_succ (hr 0 (Nat.succ_pos n)) (hw 0 (Nat.succ_pos n))).trans hrest
      · rw [hwrites, range_succ_map_add]
        exact List.append_assoc _ _ _

/-- The record of a copy, whether or not it ended. -/
def final : Except Touched Touched → Touched
  | .ok A => A
  | .error A => A

theorem memcpy_writes (readable writable : ℕ → Bool) (dest src n i : ℕ) (A : Touched) :
    A.writes <+: (final (memcpy readable writable dest src n i A)).writes := by
  induction n generalizing i A with
  | zero => exact List.prefix_rfl
  | succ n ih =>
      by_cases hbyte : readable (add64 src i) = true ∧ writable (add64 dest i) = true
      · rw [memcpy_succ hbyte.1 hbyte.2]
        have hbyte' : A.writes <+: (A.copied dest src i).writes := List.prefix_append _ _
        exact hbyte'.trans (ih (i + 1) _)
      · obtain ⟨B, hB, hwrites⟩ := memcpy_fault (n := n) (A := A) hbyte
        rw [hB, final, hwrites]

end Touched

/-! ## The command -/

namespace NetIo

variable {readable writable : ℕ → Bool} {st : NetIo} {cmd : IOCmd}

/-- The transmit page is the kernel's, and mapped. -/
structure TxPageMapped (writable : ℕ → Bool) (st : NetIo) : Prop where
  le : st.txPage + txPageSize ≤ 2 ^ 64
  writable : ∀ a, st.txPage ≤ a → a < st.txPage + txPageSize → writable a = true

theorem TxPageMapped.add64_eq (h : TxPageMapped writable st) {j : ℕ} (hj : j < txPageSize) :
    add64 st.txPage j = st.txPage + j := by
  have := h.le
  exact add64_of_lt (by omega)

theorem TxPageMapped.writable_add (h : TxPageMapped writable st) {j : ℕ} (hj : j < txPageSize) :
    writable (add64 st.txPage j) = true := by
  rw [h.add64_eq hj]
  exact h.writable _ (Nat.le_add_right _ _) (Nat.add_lt_add_left hj _)

theorem TxPageMapped.header (h : TxPageMapped writable st) : ∃ A,
    Touched.memset writable st.txPage 0 sizeofVirtioNetHdr 0 ⟨st.mem, [], []⟩ = .ok A ∧
      A.reads = [] ∧ A.writes = (List.range sizeofVirtioNetHdr).map fun j => st.txPage + j := by
  have hlt : ∀ j < sizeofVirtioNetHdr, j < txPageSize := fun j hj => hj.trans (by decide)
  have hpage : ∀ j < sizeofVirtioNetHdr, writable (add64 st.txPage (0 + j)) = true := by
    intro j hj
    rw [Nat.zero_add]
    exact h.writable_add (hlt j hj)
  obtain ⟨A, hA, hreads, hwrites⟩ :=
    Touched.memset_ok (c := 0) (A := ⟨st.mem, [], []⟩) hpage
  refine ⟨A, hA, hreads, hwrites.trans ?_⟩
  rw [List.nil_append]
  refine List.map_congr_left fun j hj => ?_
  rw [Nat.zero_add, h.add64_eq (hlt j (List.mem_range.mp hj))]

/-- The state of the device after a command that was copied and not too long. -/
def transmitted (st : NetIo) (cmd : IOCmd) (A : Touched) : NetIo :=
  { st with
    mem := A.mem
    txVq := st.txVq.addOutbuf (virtToPhys st.txPage)
      (add64 sizeofVirtioNetHdr cmd.len.toNat) }.notify virtioTxQueueIdx st.txNotifyOff

theorem processIoOne_copies (hpage : TxPageMapped writable st) (hsubmit : cmd.opcode = .submit)
    (hlen : cmd.len.toNat ≤ txPageSize)
    (hsrc : ∀ j < cmd.len.toNat, readable (add64 cmd.addr.toNat j) = true)
    (hdest : ∀ j < cmd.len.toNat,
      writable (add64 (st.txPage + sizeofVirtioNetHdr) j) = true) :
    ∃ A, processIoOne readable writable st cmd = ⟨.returned, A, st.transmitted cmd A⟩ ∧
      A.reads = (List.range cmd.len.toNat).map (fun j => add64 cmd.addr.toNat j) ∧
      A.writes = (List.range sizeofVirtioNetHdr).map (fun j => st.txPage + j) ++
        (List.range cmd.len.toNat).map fun j => add64 (st.txPage + sizeofVirtioNetHdr) j := by
  obtain ⟨A, hA, hreads, hwrites⟩ := hpage.header
  have hhdr : add64 st.txPage sizeofVirtioNetHdr = st.txPage + sizeofVirtioNetHdr :=
    hpage.add64_eq (by decide)
  obtain ⟨B, hB, hBwrites⟩ := Touched.memcpy_ok (i := 0) (A := A)
    (fun j hj => by rw [Nat.zero_add]; exact hsrc j hj)
    (fun j hj => by rw [Nat.zero_add]; exact hdest j hj)
  have hBreads := (Touched.memcpy_of_ok hB).2
  simp only [Nat.zero_add] at hBwrites hBreads
  refine ⟨B, ?_, ?_, ?_⟩
  · simp only [processIoOne, hsubmit, hA, hhdr, Except.bind, hB, hlen, if_true]
    rfl
  · rw [hBreads, hreads, List.nil_append]
  · rw [hBwrites, hwrites]

theorem transmitted_len {A : Touched} (h : cmd.len.toNat ≤ txPageSize) :
    ((st.transmitted cmd A).txVq.descriptorTable Virtqueue.addBufDesc).len =
      sizeofVirtioNetHdr + cmd.len.toNat := by
  have hlt : sizeofVirtioNetHdr + cmd.len.toNat < 2 ^ 32 := by
    simp only [sizeofVirtioNetHdr, txPageSize] at h ⊢
    omega
  simp only [transmitted, notify, Virtqueue.addOutbuf, Virtqueue.addBuf, Virtqueue.addBufIdx,
    Function.update_self]
  rw [add64_of_lt (hlt.trans (by norm_num)), Nat.mod_eq_of_lt hlt]

theorem processIoOne_returns (hpage : TxPageMapped writable st) (hsubmit : cmd.opcode = .submit)
    (hlen : sizeofVirtioNetHdr + cmd.len.toNat ≤ txPageSize)
    (hread : ∀ i < cmd.len.toNat, readable (add64 cmd.addr.toNat i) = true ∧
      add64 cmd.addr.toNat i < kernelVma) :
    StaysInBounds st cmd (processIoOne readable writable st cmd) := by
  have hsmall : cmd.len.toNat ≤ txPageSize := (Nat.le_add_left _ _).trans hlen
  have hdest : ∀ j < cmd.len.toNat,
      add64 (st.txPage + sizeofVirtioNetHdr) j = st.txPage + (sizeofVirtioNetHdr + j) := by
    intro j hj
    have := hpage.le
    rw [add64_of_lt (by omega), Nat.add_assoc]
  obtain ⟨A, hrun, hreads, hwrites⟩ := processIoOne_copies hpage hsubmit hsmall
    (fun j hj => (hread j hj).1)
    (fun j hj => by rw [hdest j hj]; exact hpage.writable _ (by omega) (by omega))
  rw [hrun]
  refine Or.inr ⟨?_, rfl, transmitted_len hsmall, hlen, ?_⟩
  · intro a ha
    rw [hwrites] at ha
    rcases List.mem_append.mp ha with hhead | hbody
    · obtain ⟨j, hj, rfl⟩ := List.mem_map.mp hhead
      have := List.mem_range.mp hj
      omega
    · obtain ⟨j, hj, rfl⟩ := List.mem_map.mp hbody
      have hj' := List.mem_range.mp hj
      rw [hdest j hj']
      omega
  · intro a ha
    rw [hreads] at ha
    obtain ⟨j, hj, rfl⟩ := List.mem_map.mp ha
    exact (hread j (List.mem_range.mp hj)).2

theorem not_staysInBounds {r : IoResult} (hwrites : r.touched.writes ≠ [])
    (hidx : r.io.txVq.availIdx = st.txVq.availIdx) : ¬ StaysInBounds st cmd r := by
  rintro (⟨-, hnil⟩ | ⟨-, hnext, -⟩)
  · exact hwrites hnil
  · rw [hidx] at hnext
    omega

/-- **When a submit stays in bounds.** Header and payload fit the page, and the program can read
its buffer. -/
theorem submit_in_bounds_iff (readable writable : ℕ → Bool) (st : NetIo) (cmd : IOCmd)
    (hpage : TxPageMapped writable st) (hsubmit : cmd.opcode = .submit) :
    StaysInBounds st cmd (processIoOne readable writable st cmd) ↔
      sizeofVirtioNetHdr + cmd.len.toNat ≤ txPageSize ∧
        ∀ i < cmd.len.toNat, readable (add64 cmd.addr.toNat i) = true ∧
          add64 cmd.addr.toNat i < kernelVma := by
  constructor
  · obtain ⟨A, hA, hreads, hwrites⟩ := hpage.header
    have hmem : st.txPage ∈ A.writes := by
      rw [hwrites]
      exact List.mem_map.mpr ⟨0, by decide, Nat.add_zero _⟩
    have hkept := Touched.memcpy_writes readable writable
      (add64 st.txPage sizeofVirtioNetHdr) cmd.addr.toNat cmd.len.toNat 0 A
    simp only [processIoOne, hsubmit, hA, Except.bind]
    generalize hcopy : Touched.memcpy readable writable (add64 st.txPage sizeofVirtioNetHdr)
      cmd.addr.toNat cmd.len.toNat 0 A = copied at hkept
    -- the header is on record, so the command was not rejected in time
    have hwritten : ∀ B, Touched.final copied = B → B.writes ≠ [] := by
      rintro B rfl hnil
      rw [hnil] at hkept
      rw [List.prefix_nil.mp hkept] at hmem
      exact List.not_mem_nil hmem
    intro hbounds
    cases copied with
    | error B => exact absurd hbounds (not_staysInBounds (hwritten B rfl) rfl)
    | ok B =>
        dsimp only at hbounds
        split at hbounds
        · rcases hbounds with ⟨hnot, -⟩ | ⟨-, -, -, hlen, hbelow⟩
          · exact absurd rfl hnot
          · obtain ⟨hreadable, hBreads⟩ := Touched.memcpy_of_ok hcopy
            refine ⟨hlen, fun i hi => ?_⟩
            have hr := hreadable i hi
            rw [Nat.zero_add] at hr
            refine ⟨hr, hbelow _ ?_⟩
            rw [hBreads, hreads]
            exact List.mem_map.mpr ⟨i, List.mem_range.mpr hi, by rw [Nat.zero_add]⟩
        · exact absurd hbounds (not_staysInBounds (hwritten B rfl) rfl)
  · rintro ⟨hlen, hread⟩
    exact processIoOne_returns hpage hsubmit hlen hread

/-- A device with queues of two descriptors. -/
def twoDescriptors : NetIo where
  mem := fun _ => 0
  txPage := 0xffffffff80400000
  rxPage := 0xffffffff80401000
  txVq := Virtqueue.new 2 (by decide) (by decide)
  rxVq := Virtqueue.new 2 (by decide) (by decide)
  notifyOffMultiplier := 4
  txNotifyOff := 1
  rxNotifyOff := 0
  notified := []

theorem txPageMapped_twoDescriptors : TxPageMapped (fun _ => true) twoDescriptors :=
  ⟨by decide, fun _ _ _ => rfl⟩

/-- The frame of an ARP reply. -/
theorem submit_in_bounds_arp :
    StaysInBounds twoDescriptors ⟨.submit, 0x5000, 42⟩
      (processIoOne (fun _ => true) (fun _ => true) twoDescriptors ⟨.submit, 0x5000, 42⟩) :=
  (submit_in_bounds_iff _ _ twoDescriptors ⟨.submit, 0x5000, 42⟩ txPageMapped_twoDescriptors rfl).mpr
    (by decide)

/-- A buffer of 4096 bytes passes the check. The copy has written ten bytes behind the page, and
the device is given a descriptor of 4106 bytes. -/
theorem submit_overruns_page :
    let r := processIoOne (fun _ => true) (fun _ => true) twoDescriptors ⟨.submit, 0x5000, 4096⟩
    TxPageMapped (fun _ => true) twoDescriptors ∧ r.outcome = .returned ∧
      twoDescriptors.txPage + txPageSize ∈ r.touched.writes ∧
      (r.io.txVq.descriptorTable Virtqueue.addBufDesc).len = 4106 ∧
      ¬ StaysInBounds twoDescriptors ⟨.submit, 0x5000, 4096⟩ r := by
  intro r
  have hlen : (⟨.submit, 0x5000, 4096⟩ : IOCmd).len.toNat = 4096 := rfl
  obtain ⟨A, hr, -, hwrites⟩ : ∃ A,
      r = ⟨.returned, A, twoDescriptors.transmitted ⟨.submit, 0x5000, 4096⟩ A⟩ ∧ _ ∧ _ :=
    processIoOne_copies txPageMapped_twoDescriptors rfl (by decide) (fun _ _ => rfl)
      (fun _ _ => rfl)
  have hbehind : twoDescriptors.txPage + txPageSize ∈ r.touched.writes := by
    rw [hr, hwrites]
    refine List.mem_append_right _ (List.mem_map.mpr ⟨4086, List.mem_range.mpr ?_, ?_⟩)
    · rw [hlen]
      norm_num
    · decide
  refine ⟨txPageMapped_twoDescriptors, by rw [hr], hbehind, ?_, ?_⟩
  · rw [hr]
    exact transmitted_len (by decide)
  · rintro (⟨hnot, -⟩ | ⟨hpage, -⟩)
    · exact hnot (by rw [hr])
    · exact absurd (hpage _ hbehind).2 (lt_irrefl _)

end NetIo

end Manticore
