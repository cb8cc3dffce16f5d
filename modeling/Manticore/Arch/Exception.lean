import Manticore.Arch.Irq
import Manticore.Arch.SyscallEntry
import Manticore.Base.Bytes

/-!
# Exceptions and interrupts

The interrupt descriptor table of `arch/x86_64/exceptions.c` and the entry points of `entry.S`.  A
gate leads to an entry point, which pushes all registers, calls a C function with the frame, pops the
registers and returns with `iretq`.  Interrupts go through one of 224 stubs, 16 bytes apart, that push
their vector where an exception has its error code.

The processor and its stack are those of the system call entry.
-/

namespace Manticore

namespace Exception

/-! ## The interrupt descriptor table -/

structure IdtEntry where
  offset1 : ℕ
  selector : ℕ
  ist : ℕ
  zero : ℕ
  type : ℕ
  dpl : ℕ
  p : ℕ
  offset2 : ℕ
  offset3 : ℕ
  reserved : ℕ
deriving DecidableEq, Repr

def kernelCs : ℕ := 0x08
def interruptGate : ℕ := 14
def trapGate : ℕ := 15

def initIdtEntry (type ist offset : ℕ) : IdtEntry where
  offset1 := offset % 2 ^ 16
  offset2 := offset / 2 ^ 16 % 2 ^ 16
  offset3 := offset / 2 ^ 32 % 2 ^ 32
  selector := kernelCs
  ist := ist
  zero := 0
  type := type
  dpl := 0
  p := 1
  reserved := 0

/-- The 16 bytes of an entry; the bit fields fill two bytes from their low bits. -/
def IdtEntry.bytes (e : IdtEntry) : List UInt8 :=
  leBytes 2 e.offset1 ++ (leBytes 2 e.selector ++
    (leBytes 1 (e.ist % 8 + 8 * (e.zero % 32)) ++
      (leBytes 1 (e.type % 32 + 32 * (e.dpl % 4) + 128 * (e.p % 2)) ++
        (leBytes 2 e.offset2 ++ (leBytes 4 e.offset3 ++ leBytes 4 e.reserved)))))

/-- The functions of `entry.S` that the gates of the exceptions lead to. -/
inductive Handler where
  | divideError | debug | nmi | breakpoint | overflow | boundRangeExceeded | invalidOpcode
  | deviceNotAvailable | doubleFault | invalidTss | segmentNotPresent | stackFault
  | generalProtection | pageFault | x87FpuFloatingPoint | alignmentCheck | machineCheck
  | simdFloatingPoint | virtualization
deriving DecidableEq, Repr

/-- The vector, the kind of gate and the interrupt stack of each, in the order of `init_idt`. -/
def exceptionGates : List (ℕ × ℕ × ℕ × Handler) :=
  [(0, trapGate, 0, .divideError), (1, trapGate, 1, .debug), (2, interruptGate, 1, .nmi),
    (3, trapGate, 0, .breakpoint), (4, trapGate, 0, .overflow),
    (5, trapGate, 0, .boundRangeExceeded), (6, trapGate, 0, .invalidOpcode),
    (7, trapGate, 0, .deviceNotAvailable), (8, trapGate, 1, .doubleFault),
    (10, trapGate, 0, .invalidTss), (11, trapGate, 0, .segmentNotPresent),
    (12, trapGate, 0, .stackFault), (13, trapGate, 0, .generalProtection),
    (14, trapGate, 0, .pageFault), (16, trapGate, 0, .x87FpuFloatingPoint),
    (17, trapGate, 0, .alignmentCheck), (18, trapGate, 1, .machineCheck),
    (19, trapGate, 0, .simdFloatingPoint), (20, trapGate, 0, .virtualization)]

/-- An entry after `memset`. -/
def emptyEntry : IdtEntry := ⟨0, 0, 0, 0, 0, 0, 0, 0, 0, 0⟩

/-- The loop of `init_idt` over the interrupts. -/
def initInterrupts (interruptEntries : ℕ) (idt : ℕ → IdtEntry) (n : ℕ) : ℕ → IdtEntry :=
  (List.range n).foldl (fun idt idx => Function.update idt (nrExceptions + idx)
    (initIdtEntry interruptGate 1 (interruptEntries + idx * 16))) idt

def initExceptions (address : Handler → ℕ) (idt : ℕ → IdtEntry) : ℕ → IdtEntry :=
  exceptionGates.foldl (fun idt g =>
    Function.update idt g.1 (initIdtEntry g.2.1 g.2.2.1 (address g.2.2.2))) idt

/-- `init_idt`; `address` and `interruptEntries` are where the linker put the entry points. -/
def initIdt (address : Handler → ℕ) (interruptEntries : ℕ) : ℕ → IdtEntry :=
  initInterrupts interruptEntries (initExceptions address fun _ => emptyEntry) nrInterrupts

/-- A gate as the processor reads it. -/
structure Gate where
  offset : ℕ
  selector : ℕ
  ist : ℕ
  type : ℕ
  dpl : ℕ
  present : Bool
deriving DecidableEq, Repr

def Gate.read (bs : List UInt8) : Gate where
  offset := leNat (fieldAt bs 0 2) + 2 ^ 16 * leNat (fieldAt bs 6 2) + 2 ^ 32 * leNat (fieldAt bs 8 4)
  selector := leNat (fieldAt bs 2 2)
  ist := leNat (fieldAt bs 4 1) % 8
  type := leNat (fieldAt bs 5 1) % 32
  dpl := leNat (fieldAt bs 5 1) / 32 % 4
  present := leNat (fieldAt bs 5 1) / 128 == 1

/-- **A gate leads where it was set to.** -/
theorem gate_initIdtEntry {type ist offset : ℕ} (htype : type < 32) (hist : ist < 8)
    (hoffset : offset < 2 ^ 64) : Gate.read (initIdtEntry type ist offset).bytes =
      ⟨offset, kernelCs, ist, type, 0, true⟩ := by
  generalize he : initIdtEntry type ist offset = e
  have h0 : fieldAt e.bytes 0 2 = leBytes 2 e.offset1 := rfl
  have h2 : fieldAt e.bytes 2 2 = leBytes 2 e.selector := rfl
  have h4 : fieldAt e.bytes 4 1 = leBytes 1 (e.ist % 8 + 8 * (e.zero % 32)) := rfl
  have h5 : fieldAt e.bytes 5 1 =
      leBytes 1 (e.type % 32 + 32 * (e.dpl % 4) + 128 * (e.p % 2)) := rfl
  have h6 : fieldAt e.bytes 6 2 = leBytes 2 e.offset2 := rfl
  have h8 : fieldAt e.bytes 8 4 = leBytes 4 e.offset3 := rfl
  rw [Gate.read, h0, h2, h4, h5, h6, h8]
  simp only [leNat_leBytes]
  subst he
  simp only [initIdtEntry, kernelCs, Gate.mk.injEq, beq_iff_eq]
  refine ⟨?_, ?_, ?_, ?_, ?_, ?_⟩ <;> omega

theorem initInterrupts_succ (interruptEntries : ℕ) (idt : ℕ → IdtEntry) (n : ℕ) :
    initInterrupts interruptEntries idt (n + 1) =
      Function.update (initInterrupts interruptEntries idt n) (nrExceptions + n)
        (initIdtEntry interruptGate 1 (interruptEntries + n * 16)) := by
  rw [initInterrupts, List.range_succ, List.foldl_append]
  rfl

theorem initInterrupts_eq (interruptEntries : ℕ) (idt : ℕ → IdtEntry) (n v : ℕ) :
    initInterrupts interruptEntries idt n v =
      if nrExceptions ≤ v ∧ v < nrExceptions + n then
        initIdtEntry interruptGate 1 (interruptEntries + (v - nrExceptions) * 16)
      else idt v := by
  induction n with
  | zero => exact (if_neg (by omega)).symm
  | succ n ih =>
      rw [initInterrupts_succ]
      rcases eq_or_ne v (nrExceptions + n) with rfl | hne
      · rw [Function.update_self, if_pos (by omega), Nat.add_sub_cancel_left]
      · rw [Function.update_of_ne hne, ih]
        have hiff : (nrExceptions ≤ v ∧ v < nrExceptions + (n + 1)) ↔
            (nrExceptions ≤ v ∧ v < nrExceptions + n) := by omega
        simp only [hiff]

/-- The stub at an address of `interrupt_entries`. -/
def stubAt (interruptEntries a : ℕ) : Option ℕ :=
  if interruptEntries ≤ a ∧ (a - interruptEntries) % 16 = 0 ∧
      (a - interruptEntries) / 16 < nrInterrupts then some ((a - interruptEntries) / 16)
  else none

/-! ## Entry and return -/

/-- The registers in the order in which `EXCEPTION_ENTRY` pushes them. -/
def exceptionRegs : List Reg := savedRegs ++ [.rax]

/-- `pushq` of an immediate. -/
def pushWord (c : Cpu) (v : Word64) : Cpu :=
  { c.set .rsp (c.regs .rsp - 8) with stack := v :: c.stack }

/-- `EXCEPTION_ENTRY` up to the call.  The word of `subq $8, %rsp` is not read. -/
def entry (hasErrorCode : Bool) (c : Cpu) : Cpu :=
  let c := if hasErrorCode then c else pushWord c 0
  let c := c.execAll id (exceptionRegs.map .push)
  let c := c.set .rdi (c.regs .rsp)
  pushWord c 0

/-- `EXCEPTION_ENTRY` from the call up to `iretq`. -/
def exit (c : Cpu) : Cpu :=
  (c.dropWord.execAll id (exceptionRegs.reverse.map .pop)).dropWord

/-- What runs when an exception or an interrupt comes. -/
structure Context where
  regs : Reg → Word64
  rip : Word64
  cs : Word64
  rflags : Word64
  ss : Word64

/-- The words that the processor pushes, last one first. -/
def Context.frame (i : Context) : List Word64 := [i.rip, i.cs, i.rflags, i.regs .rsp, i.ss]

/-- The processor at the entry point, with the stack pointer of its new stack. -/
def deliver (i : Context) (rsp : Word64) : Cpu :=
  ⟨fun r => if r = .rsp then rsp - 40 else i.regs r, i.frame⟩

def iretq (c : Cpu) : Context where
  regs r := if r = .rsp then c.stack.getD 3 0 else c.regs r
  rip := c.stack.getD 0 0
  cs := c.stack.getD 1 0
  rflags := c.stack.getD 2 0
  ss := c.stack.getD 4 0

/-- `ef->error_code` for the C function: behind the word for the alignment and the registers. -/
def errorCode (c : Cpu) : Word64 := c.stack.getD 16 0

/-- Where `ef->rip` is. -/
def efRip : ℕ := 17

/-- The stub of an interrupt, up to the call of `do_interrupt`. -/
def interruptEntry (idx : ℕ) (c : Cpu) : Cpu :=
  entry true (pushWord c (BitVec.ofNat 64 (nrExceptions + idx)))

/-- The vector that `do_interrupt` gives to `handle_interrupt`, an `int`. -/
def interruptVector (c : Cpu) : ℤ := ((errorCode c).setWidth 32).toInt

variable {c : Cpu} {callee : Cpu → Cpu}

theorem stack_pushes (c : Cpu) (rs : List Reg) (hrsp : .rsp ∉ rs) :
    (c.execAll id (rs.map .push)).stack = rs.reverse.map c.regs ++ c.stack := by
  induction rs generalizing c with
  | nil => rfl
  | cons r rs ih =>
      obtain ⟨hne, hrsp⟩ := not_or.mp (mt List.mem_cons.mpr hrsp)
      have hstep : c.execAll id ((r :: rs).map .push) = (c.push r).execAll id (rs.map .push) := rfl
      have hmap : rs.reverse.map (c.push r).regs = rs.reverse.map c.regs := by
        refine List.map_congr_left fun x hx => ?_
        rw [Cpu.regs_push, if_neg]
        rintro rfl
        exact hrsp (List.mem_reverse.mp hx)
      rw [hstep, ih (c.push r) hrsp, hmap, Cpu.stack_push, List.reverse_cons, List.map_append,
        List.append_assoc]
      rfl

theorem stack_entry (c : Cpu) :
    (entry true c).stack = 0 :: (exceptionRegs.reverse.map c.regs ++ c.stack) :=
  congrArg (List.cons 0) (stack_pushes c exceptionRegs (by decide))

theorem mem_exceptionRegs (r : Reg) (hr : r ≠ .rsp) : r ∈ exceptionRegs.reverse := by
  revert hr
  cases r <;> decide

theorem stack_pops (callee : Cpu → Cpu) {f : Reg → Word64} {rs : List Reg} {rest : List Word64}
    {d : Cpu} (h : d.stack = rs.map f ++ rest) : (d.execAll callee (rs.map .pop)).stack = rest := by
  induction rs generalizing d with
  | nil => exact h
  | cons r rs ih =>
      refine @ih (d.pop r) ?_
      rw [Cpu.stack_pop, h, List.map_cons, List.cons_append, List.tail_cons]

/-- **The registers come back**, whatever the C function did to them, if it left the frame alone
behind the registers. -/
theorem exit_of_frame {d : Cpu} {f : Reg → Word64} {code : Word64} {rest : List Word64}
    (hframe : d.stack.tail = exceptionRegs.reverse.map f ++ code :: rest) :
    (exit d).stack = rest ∧ ∀ r, r ≠ .rsp → (exit d).regs r = f r := by
  have hstack : d.dropWord.stack = exceptionRegs.reverse.map f ++ code :: rest := hframe
  obtain ⟨hin, -, -⟩ := Cpu.pops id hstack (by decide) (by decide)
  constructor
  · show ((d.dropWord.execAll id (exceptionRegs.reverse.map .pop)).stack).tail = rest
    rw [stack_pops id hstack, List.tail_cons]
  · intro r hr
    rw [exit, Cpu.regs_dropWord, if_neg hr, hin r (mem_exceptionRegs r hr)]

theorem iretq_exit (rsp code : Word64) {i : Context} {rip : Word64} {d : Cpu}
    (hframe : d.stack.tail = exceptionRegs.reverse.map (pushWord (deliver i rsp) code).regs ++
      code :: rip :: i.frame.tail) : iretq (exit d) = { i with rip := rip } := by
  obtain ⟨hstack, hregs⟩ := exit_of_frame hframe
  have hback : (iretq (exit d)).regs = i.regs := by
    funext r
    by_cases hr : r = .rsp
    · simp only [iretq, if_pos hr, hstack]
      rw [hr]
      rfl
    · simp only [iretq, if_neg hr, hregs r hr]
      simp [pushWord, deliver, hr]
  have hd : iretq (exit d) = ⟨(iretq (exit d)).regs, (exit d).stack.getD 0 0,
      (exit d).stack.getD 1 0, (exit d).stack.getD 2 0, (exit d).stack.getD 4 0⟩ := rfl
  rw [hd, hback, hstack]
  rfl

/-- What the interrupt table and `handle_interrupt` make of a vector. -/
structure Served (address : Handler → ℕ) (interruptEntries : ℕ) (irq : IrqState) (v : ℕ)
    (service : IrqService) (i : Context) (rsp : Word64) (callee : Cpu → Cpu) : Prop where
  gate : Gate.read (initIdt address interruptEntries v).bytes =
    ⟨interruptEntries + (v - nrExceptions) * 16, kernelCs, 1, interruptGate, 0, true⟩
  stub : stubAt interruptEntries (Gate.read (initIdt address interruptEntries v).bytes).offset =
    some (v - nrExceptions)
  handled : handleInterrupt irq (interruptVector (interruptEntry (v - nrExceptions)
    (deliver i rsp))) = some (.called service.handler service.arg)
  transparent : iretq (exit (callee (interruptEntry (v - nrExceptions) (deliver i rsp)))) = i

theorem interruptVector_entry (i : Context) (rsp : Word64) {idx : ℕ} (hidx : idx < nrInterrupts) :
    interruptVector (interruptEntry idx (deliver i rsp)) = (nrExceptions + idx : ℕ) := by
  have hcode : errorCode (interruptEntry idx (deliver i rsp)) =
      BitVec.ofNat 64 (nrExceptions + idx) := by
    rw [errorCode, interruptEntry, stack_entry]
    rfl
  rw [interruptVector, hcode]
  simp only [nrInterrupts, nrInterruptVectors, nrExceptions] at hidx ⊢
  rw [BitVec.toInt_eq_toNat_of_lt] <;> simp only [BitVec.toNat_setWidth, BitVec.toNat_ofNat] <;>
    omega

/-- **An interrupt is served by who requested it.** After any calls of `request_irq`, an interrupt of
the vector that one of them returned passes its gate and its stub to the handler of that call, and
what was interrupted goes on with all its registers, whatever a handler that keeps to the calling
convention did. -/
theorem interrupt_served {cs : List IrqService} {rets : List ℤ} {irq : IrqState}
    (hrun : requestIrqs irqInit cs = some (rets, irq)) {k : ℕ} {service : IrqService}
    (hservice : cs[k]? = some service) (hhandler : service.handler ≠ 0)
    {interruptEntries : ℕ} (hentries : interruptEntries + nrInterrupts * 16 ≤ 2 ^ 64)
    (hcallee : SystemV callee) (address : Handler → ℕ) (i : Context) (rsp : Word64) :
    rets[k]? = some ((nrExceptions + k : ℕ) : ℤ) ∧
      Served address interruptEntries irq (nrExceptions + k) service i rsp callee := by
  have hlen : cs.length ≤ nrInterrupts := by
    by_contra hmany
    have hnone := requestIrqs_too_many cs [] (Nat.zero_le _) (by simpa using not_le.mp hmany)
    rw [irqAfter_nil, hrun] at hnone
    cases hnone
  rw [requestIrqs_init hlen] at hrun
  obtain ⟨rfl, rfl⟩ := some_pair_inj hrun
  have hkcs : k < cs.length := (List.getElem?_eq_some_iff.mp hservice).1
  have hk : k < nrInterrupts := hkcs.trans_le hlen
  have hidx : nrExceptions + k - nrExceptions = k := Nat.add_sub_cancel_left _ _
  have hgate : Gate.read (initIdt address interruptEntries (nrExceptions + k)).bytes =
      ⟨interruptEntries + k * 16, kernelCs, 1, interruptGate, 0, true⟩ := by
    rw [initIdt, initInterrupts_eq, if_pos (by omega), hidx]
    exact gate_initIdtEntry (by decide) (by decide) (by omega)
  refine ⟨?_, ?_, ?_, ?_, ?_⟩
  · rw [List.getElem?_map, List.getElem?_range hkcs]
    rfl
  · rw [hgate, hidx]
  · rw [hgate, hidx, stubAt, if_pos (by simp only; omega)]
    simp only [Nat.add_sub_cancel_left, Nat.mul_div_cancel _ (show 0 < 16 by decide)]
  · rw [hidx, interruptVector_entry i rsp hk]
    exact handleInterrupt_after hlen hservice hhandler
  · rw [hidx, interruptEntry]
    refine iretq_exit rsp (BitVec.ofNat 64 (nrExceptions + k)) ?_
    rw [hcallee.frame, stack_entry]
    rfl

/-- The second of two services, and the registers of a user process. -/
theorem interrupt_served_second :
    (List.range 2).map (fun k => ((nrExceptions + k : ℕ) : ℤ)) = [32, 33] ∧
      Served (fun _ => 0xffffffff80100000) 0xffffffff80200000 (irqAfter [⟨0x1000, 1⟩, ⟨0x2000, 2⟩]) 33
        ⟨0x2000, 2⟩ ⟨fun _ => 7, 0x401000, 0x2b, 0x202, 0x23⟩ 0xffffffff80300000 returnZero :=
  ⟨rfl, (interrupt_served (k := 1)
    (show requestIrqs irqInit [⟨0x1000, 1⟩, ⟨0x2000, 2⟩] = some ([32, 33], _) from
      requestIrqs_init (by decide))
    rfl (by decide) (by decide) systemV_returnZero _ _ _).2⟩

/-- `EXCEPTION_ERROR_ENTRY` or `EXCEPTION_NOERROR_ENTRY`. -/
def Handler.hasErrorCode : Handler → Bool
  | .doubleFault | .invalidTss | .segmentNotPresent | .stackFault | .generalProtection
  | .pageFault | .alignmentCheck => true
  | _ => false

/-- The exceptions for which the processor pushes an error code. -/
def errorCodeVectors : List ℕ := [8, 10, 11, 12, 13, 14, 17, 21, 29, 30]

/-- The processor at the entry point of an exception. -/
def raise (v : ℕ) (code : Word64) (i : Context) (rsp : Word64) : Cpu :=
  if errorCodeVectors.contains v then pushWord (deliver i rsp) code else deliver i rsp

theorem entry_raise {g : ℕ × ℕ × ℕ × Handler} (hg : g ∈ exceptionGates) (code : Word64)
    (i : Context) (rsp : Word64) :
    entry g.2.2.2.hasErrorCode (raise g.1 code i rsp) =
      entry true (pushWord (deliver i rsp) (if g.2.2.2.hasErrorCode then code else 0)) := by
  have hcode : ∀ g ∈ exceptionGates, errorCodeVectors.contains g.1 = g.2.2.2.hasErrorCode := by
    decide
  rw [raise, hcode g hg]
  cases g.2.2.2.hasErrorCode <;> rfl

theorem initExceptions_of_mem (address : Handler → ℕ) (idt : ℕ → IdtEntry)
    {g : ℕ × ℕ × ℕ × Handler} (hg : g ∈ exceptionGates) :
    initExceptions address idt g.1 = initIdtEntry g.2.1 g.2.2.1 (address g.2.2.2) := by
  simp only [exceptionGates, List.mem_cons, List.not_mem_nil, or_false] at hg
  rcases hg with rfl | rfl | rfl | rfl | rfl | rfl | rfl | rfl | rfl | rfl | rfl | rfl | rfl | rfl |
    rfl | rfl | rfl | rfl | rfl <;> rfl

theorem gate_exception {address : Handler → ℕ} (haddress : ∀ h, address h < 2 ^ 64)
    (interruptEntries : ℕ) {g : ℕ × ℕ × ℕ × Handler} (hg : g ∈ exceptionGates) :
    Gate.read (initIdt address interruptEntries g.1).bytes =
      ⟨address g.2.2.2, kernelCs, g.2.2.1, g.2.1, 0, true⟩ := by
  have hsmall : ∀ g ∈ exceptionGates, g.1 < nrExceptions ∧ g.2.1 < 32 ∧ g.2.2.1 < 8 := by decide
  obtain ⟨hvector, htype, hist⟩ := hsmall g hg
  rw [initIdt, initInterrupts_eq, if_neg (by omega), initExceptions_of_mem address _ hg]
  exact gate_initIdtEntry htype hist (haddress _)

/-- **An exception is transparent.** The gate of every exception leads to its entry point, and where
the C function returns, what raised the exception goes on with all its registers. -/
theorem exception_transparent {address : Handler → ℕ} (haddress : ∀ h, address h < 2 ^ 64)
    (hcallee : SystemV callee) (interruptEntries : ℕ) (code : Word64) (i : Context) (rsp : Word64) :
    ∀ g ∈ exceptionGates,
      Gate.read (initIdt address interruptEntries g.1).bytes =
        ⟨address g.2.2.2, kernelCs, g.2.2.1, g.2.1, 0, true⟩ ∧
      iretq (exit (callee (entry g.2.2.2.hasErrorCode (raise g.1 code i rsp)))) = i := by
  intro g hg
  refine ⟨gate_exception haddress interruptEntries hg, ?_⟩
  rw [entry_raise hg]
  refine iretq_exit rsp (if g.2.2.2.hasErrorCode then code else 0) ?_
  rw [hcallee.frame, stack_entry]
  rfl

/-- A page fault of a process, with all entry points at one address. -/
theorem exception_transparent_example :
    Gate.read (initIdt (fun _ => 0xffffffff80100000) 0xffffffff80200000 14).bytes =
        ⟨0xffffffff80100000, kernelCs, 0, trapGate, 0, true⟩ ∧
      iretq (exit (returnZero (entry Handler.pageFault.hasErrorCode
        (raise 14 2 ⟨fun _ => 7, 0x401000, 0x2b, 0x202, 0x23⟩ 0xffffffff80300000)))) =
        ⟨fun _ => 7, 0x401000, 0x2b, 0x202, 0x23⟩ :=
  @exception_transparent returnZero (fun _ => 0xffffffff80100000) (fun _ => by decide)
    systemV_returnZero _ _ _ _ (14, trapGate, 0, .pageFault) (by decide)

/-- `do_x86_page_fault_exception`, with the value of `page_fault_get_fixup`. -/
def doX86PageFaultException (fixup : Word64) (c : Cpu) : Option Cpu :=
  if fixup = 0 then none -- panic("Halted")
  else some { c with stack := c.stack.set efRip fixup }

/-- **A page fault goes on at the fixup**, with every register as it was at the fault, and it halts the
kernel just where there is no fixup.  What the compiled function does to the registers is `callee`. -/
theorem page_fault_returns_to_fixup (hcallee : SystemV callee) (code fixup : Word64) (i : Context)
    (rsp : Word64) :
    (doX86PageFaultException fixup (entry Handler.pageFault.hasErrorCode (raise 14 code i rsp))).map
        (fun c => iretq (exit (callee c))) =
      if fixup = 0 then none else some { i with rip := fixup } := by
  have hentry := entry_raise (g := (14, trapGate, 0, .pageFault)) (by decide) code i rsp
  rw [hentry, doX86PageFaultException]
  by_cases hfixup : fixup = 0
  · rw [if_pos hfixup, if_pos hfixup]
    rfl
  · rw [if_neg hfixup, if_neg hfixup, Option.map_some]
    refine congrArg some (iretq_exit rsp code ?_)
    rw [hcallee.frame, stack_entry]
    rfl

/-- A copy from an address that is not mapped. -/
theorem page_fault_returns_to_fixup_example :
    (doX86PageFaultException 0xffffffff80400000 (entry Handler.pageFault.hasErrorCode
        (raise 14 0 ⟨fun _ => 7, 0xffffffff80400020, 8, 0x202, 0x10⟩ 0xffffffff80300000))).map
        (fun c => iretq (exit (returnZero c))) =
      some ⟨fun _ => 7, 0xffffffff80400000, 8, 0x202, 0x10⟩ :=
  page_fault_returns_to_fixup systemV_returnZero 0 0xffffffff80400000 _ _

end Exception

end Manticore
