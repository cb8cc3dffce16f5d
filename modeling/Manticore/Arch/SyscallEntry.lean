import Mathlib

/-!
# The way into the kernel

A system call passes through three register assignments: the operands of the `syscall`
instruction in `libmanticore`, what the processor does to `rcx` and `r11`, and the shuffle of
`syscall_entry` in `arch/x86_64/entry.S` into the C calling convention.

The stack is the list of words pushed since the instruction, last one first; nothing below
them is read.  The C function is any function on the machine that keeps to the System V
convention.
-/

namespace Manticore

inductive Reg where
  | rax | rbx | rcx | rdx | rsi | rdi | rbp | rsp
  | r8 | r9 | r10 | r11 | r12 | r13 | r14 | r15
deriving DecidableEq, Repr

abbrev Word64 := BitVec 64

structure Cpu where
  regs : Reg → Word64
  stack : List Word64

namespace Cpu

def set (c : Cpu) (r : Reg) (v : Word64) : Cpu :=
  { c with regs := fun s => if s = r then v else c.regs s }

@[simp] theorem regs_set (c : Cpu) (r s : Reg) (v : Word64) :
    (c.set r v).regs s = if s = r then v else c.regs s := rfl

@[simp] theorem stack_set (c : Cpu) (r : Reg) (v : Word64) : (c.set r v).stack = c.stack := rfl

def push (c : Cpu) (r : Reg) : Cpu :=
  { c.set .rsp (c.regs .rsp - 8) with stack := c.regs r :: c.stack }

@[simp] theorem regs_push (c : Cpu) (r s : Reg) :
    (c.push r).regs s = if s = .rsp then c.regs .rsp - 8 else c.regs s := rfl

@[simp] theorem stack_push (c : Cpu) (r : Reg) : (c.push r).stack = c.regs r :: c.stack := rfl

def pop (c : Cpu) (r : Reg) : Cpu :=
  { (c.set .rsp (c.regs .rsp + 8)).set r (c.stack.headD 0) with stack := c.stack.tail }

@[simp] theorem regs_pop (c : Cpu) (r s : Reg) : (c.pop r).regs s =
    if s = r then c.stack.headD 0 else if s = .rsp then c.regs .rsp + 8 else c.regs s := rfl

@[simp] theorem stack_pop (c : Cpu) (r : Reg) : (c.pop r).stack = c.stack.tail := rfl

/-- `add $8, %rsp`. -/
def dropWord (c : Cpu) : Cpu :=
  { c.set .rsp (c.regs .rsp + 8) with stack := c.stack.tail }

@[simp] theorem regs_dropWord (c : Cpu) (s : Reg) :
    c.dropWord.regs s = if s = .rsp then c.regs .rsp + 8 else c.regs s := rfl

@[simp] theorem stack_dropWord (c : Cpu) : c.dropWord.stack = c.stack.tail := rfl

end Cpu

/-! ## `syscall_entry` -/

inductive Instr where
  | push (r : Reg)
  | pop (r : Reg)
  | mov (src dst : Reg)
  | callSyscall
  | addRsp8
deriving DecidableEq, Repr

/-- The registers in the order in which they are pushed; they are popped in the opposite. -/
def savedRegs : List Reg :=
  [.r15, .r14, .r13, .r12, .r11, .r10, .r9, .r8, .rdi, .rsi, .rbp, .rdx, .rcx, .rbx]

/-- From `syscall_entry` up to the call of `syscall`. -/
def entryCode : List Instr :=
  savedRegs.map .push ++
    [.push .r9, .mov .r8 .r9, .mov .rcx .r8, .mov .rdx .rcx, .mov .rsi .rdx, .mov .rdi .rsi,
      .mov .rax .rdi]

/-- From the call up to `sysretq`. -/
def exitCode : List Instr :=
  [.callSyscall, .addRsp8] ++ savedRegs.reverse.map .pop

/-- One instruction; `callee` is what the call of the C function `syscall` does. -/
def Cpu.exec (callee : Cpu → Cpu) (c : Cpu) : Instr → Cpu
  | .push r => c.push r
  | .pop r => c.pop r
  | .mov src dst => c.set dst (c.regs src)
  | .callSyscall => callee c
  | .addRsp8 => c.dropWord

def Cpu.execAll (callee : Cpu → Cpu) (c : Cpu) (code : List Instr) : Cpu :=
  code.foldl (Cpu.exec callee) c

/-- The registers a C function gives back as it got them. -/
def calleeSaved : List Reg := [.rbx, .rbp, .rsp, .r12, .r13, .r14, .r15]

/-- The System V convention, as a caller with one argument on the stack relies on it: the
argument's word belongs to the callee, the words above it do not. -/
structure SystemV (callee : Cpu → Cpu) : Prop where
  saved : ∀ c, ∀ r ∈ calleeSaved, (callee c).regs r = c.regs r
  frame : ∀ c, (callee c).stack.tail = c.stack.tail

/-- `nr` of `syscall(int nr, ...)`: the low half of `rdi`, as a number of 64 bits again. -/
def Cpu.nr (c : Cpu) : Word64 := ((c.regs .rdi).setWidth 32).signExtend 64

/-- The arguments of `syscall` after `nr`, as `va_arg` gives them. -/
def Cpu.cArgs (c : Cpu) : List Word64 :=
  [c.regs .rsi, c.regs .rdx, c.regs .rcx, c.regs .r8, c.regs .r9, c.stack.headD 0]

/-! ## The stubs of `libmanticore` -/

inductive SyscallStub where
  | syscall0 (number : Word64)
  | syscall1 (number arg0 : Word64)
  | syscall2 (number arg0 arg1 : Word64)
  | syscall4 (number arg0 arg1 arg2 arg3 : Word64)
deriving DecidableEq, Repr

namespace SyscallStub

def number : SyscallStub → Word64
  | syscall0 n | syscall1 n _ | syscall2 n _ _ | syscall4 n _ _ _ _ => n

def args : SyscallStub → List Word64
  | syscall0 _ => []
  | syscall1 _ a => [a]
  | syscall2 _ a b => [a, b]
  | syscall4 _ a b c d => [a, b, c, d]

/-- The machine at the `syscall` instruction: the operands are in the registers of their
constraints, every other register has any value. -/
def operands (c : Cpu) : SyscallStub → Cpu
  | syscall0 n => c.set .rax n
  | syscall1 n a => (c.set .rax n).set .rdi a
  | syscall2 n a b => ((c.set .rax n).set .rdi a).set .rsi b
  | syscall4 n a b d e => ((((c.set .rax n).set .rdi a).set .rsi b).set .rdx d).set .rcx e

end SyscallStub

/-- What the processor does: the return address to `rcx`, the flags to `r11`. -/
def Cpu.syscallInstr (c : Cpu) (rip rflags : Word64) : Cpu := (c.set .rcx rip).set .r11 rflags

/-- The machine at the call of the C function. -/
def Cpu.atCall (c : Cpu) (rip rflags : Word64) : Cpu :=
  (c.syscallInstr rip rflags).execAll id entryCode

/-- The machine at `sysretq`. -/
def Cpu.atSysret (callee : Cpu → Cpu) (c : Cpu) (rip rflags : Word64) : Cpu :=
  (c.atCall rip rflags).execAll callee exitCode

/-! ## What arrives -/

/-- The kernel is entered with the number and the arguments of the stub. -/
def Arrives (stub : SyscallStub) (c : Cpu) (rip rflags : Word64) : Prop :=
  (((stub.operands c).atCall rip rflags)).nr = stub.number ∧
    ((stub.operands c).atCall rip rflags).cArgs.take stub.args.length = stub.args

/-- Every register but `rax`, `rcx` and `r11` is back. -/
def Restored (callee : Cpu → Cpu) (stub : SyscallStub) (c : Cpu) (rip rflags : Word64) : Prop :=
  ∀ r, r ∉ [Reg.rax, .rcx, .r11] →
    ((stub.operands c).atSysret callee rip rflags).regs r = (stub.operands c).regs r

variable {callee : Cpu → Cpu} (c : Cpu) (rip rflags : Word64)

theorem atCall_regs :
    (c.atCall rip rflags).regs .rdi = c.regs .rax ∧
      (c.atCall rip rflags).cArgs =
        [c.regs .rdi, c.regs .rsi, c.regs .rdx, rip, c.regs .r8, c.regs .r9] := by
  simp [Cpu.atCall, Cpu.syscallInstr, Cpu.execAll, entryCode, savedRegs, Cpu.exec, Cpu.cArgs]

theorem atCall_stack : (c.atCall rip rflags).stack =
    c.regs .r9 :: (savedRegs.reverse.map (c.syscallInstr rip rflags).regs ++ c.stack) := by
  simp [Cpu.atCall, Cpu.syscallInstr, Cpu.execAll, entryCode, savedRegs, Cpu.exec]

theorem atCall_rsp : (c.atCall rip rflags).regs .rsp = c.regs .rsp - 8 * 15 := by
  simp [Cpu.atCall, Cpu.syscallInstr, Cpu.execAll, entryCode, savedRegs, Cpu.exec]
  bv_omega

theorem Cpu.pops (callee : Cpu → Cpu) {f : Reg → Word64} :
    ∀ {rs : List Reg} {rest : List Word64} {d : Cpu}, d.stack = rs.map f ++ rest → rs.Nodup → .rsp ∉ rs →
      (∀ r ∈ rs, (d.execAll callee (rs.map .pop)).regs r = f r) ∧
        (∀ r, r ∉ rs → r ≠ .rsp → (d.execAll callee (rs.map .pop)).regs r = d.regs r) ∧
        (d.execAll callee (rs.map .pop)).regs .rsp =
          d.regs .rsp + BitVec.ofNat 64 (8 * rs.length)
  | [], _, _, _, _, _ =>
      ⟨fun _ hr => absurd hr List.not_mem_nil, fun _ _ _ => rfl, by simp [Cpu.execAll]⟩
  | s :: rs, rest, d, hstack, hnodup, hrsp => by
      obtain ⟨hs, hnodup⟩ := List.nodup_cons.mp hnodup
      obtain ⟨hne, hrsp⟩ := not_or.mp (mt List.mem_cons.mpr hrsp)
      have hrest : (d.pop s).stack = rs.map f ++ rest := by
        rw [stack_pop, hstack, List.map_cons, List.cons_append, List.tail_cons]
      obtain ⟨hin, hout, hsp⟩ := Cpu.pops callee hrest hnodup hrsp
      have hstep : d.execAll callee ((s :: rs).map .pop) =
          (d.pop s).execAll callee (rs.map .pop) := rfl
      rw [hstep]
      refine ⟨?_, ?_, ?_⟩
      · intro r hr
        rcases List.mem_cons.mp hr with rfl | hr
        · rw [hout r hs (Ne.symm hne), regs_pop, if_pos rfl, hstack]
          rfl
        · exact hin r hr
      · intro r hr hrsp
        obtain ⟨hrs, hr⟩ := not_or.mp (mt List.mem_cons.mpr hr)
        rw [hout r hr hrsp, regs_pop, if_neg hrs, if_neg hrsp]
      · rw [hsp, regs_pop, if_neg hne, if_pos rfl, List.length_cons]
        bv_omega

theorem mem_savedRegs (r : Reg) (hr : r ∉ [Reg.rax, .rcx, .r11]) (hrsp : r ≠ .rsp) :
    r ∈ savedRegs.reverse := by
  revert hr hrsp
  cases r <;> decide

theorem atSysret_regs (h : SystemV callee) : ∀ r, r ∉ [Reg.rax, .rcx, .r11] →
    (c.atSysret callee rip rflags).regs r = c.regs r := by
  intro r hr
  have hframe := h.frame (c.atCall rip rflags)
  have hrsp := h.saved (c.atCall rip rflags) .rsp (by decide)
  rw [atCall_stack, List.tail_cons] at hframe
  rw [atCall_rsp] at hrsp
  have hexit : c.atSysret callee rip rflags =
      (callee (c.atCall rip rflags)).dropWord.execAll callee (savedRegs.reverse.map .pop) := by
    simp only [Cpu.atSysret, Cpu.execAll, exitCode, List.foldl_append, List.foldl_cons,
      List.foldl_nil, Cpu.exec]
  obtain ⟨hin, -, hsp⟩ := Cpu.pops callee (d := (callee (c.atCall rip rflags)).dropWord) hframe
    (by decide) (by decide)
  rw [hexit]
  by_cases hr' : r = .rsp
  · rw [hr', hsp, Cpu.regs_dropWord, if_pos rfl, hrsp]
    simp only [savedRegs, List.length_reverse, List.length_cons, List.length_nil]
    bv_omega
  · rw [hin r (mem_savedRegs r hr hr')]
    simp only [List.mem_cons, List.not_mem_nil, or_false, not_or] at hr
    simp only [Cpu.syscallInstr, Cpu.regs_set, if_neg hr.2.1, if_neg hr.2.2]

/-- **A system call arrives as it was made**, and leaves the registers alone, exactly if its
number is an `int` and its fourth argument, if it has one, is the address it returns to. -/
theorem syscall_arrives_iff (h : SystemV callee) (stub : SyscallStub) :
    Arrives stub c rip rflags ∧ Restored callee stub c rip rflags ↔
      (stub.number.setWidth 32).signExtend 64 = stub.number ∧
        ∀ n a b d e, stub = .syscall4 n a b d e → e = rip := by
  have hback : Restored callee stub c rip rflags := atSysret_regs _ rip rflags h
  obtain ⟨hrdi, hargs⟩ := atCall_regs (stub.operands c) rip rflags
  simp only [hback, and_true, Arrives, Cpu.nr, hrdi, hargs]
  cases stub with
  | syscall0 n => simp [SyscallStub.operands, SyscallStub.number, SyscallStub.args]
  | syscall1 n a => simp [SyscallStub.operands, SyscallStub.number, SyscallStub.args]
  | syscall2 n a b => simp [SyscallStub.operands, SyscallStub.number, SyscallStub.args]
  | syscall4 n a b d e =>
      simp only [SyscallStub.operands, SyscallStub.number, SyscallStub.args]
      constructor
      · rintro ⟨hn, hargs⟩
        refine ⟨by simpa using hn, ?_⟩
        rintro n' a' b' d' e' heq
        cases heq
        simpa using hargs.symm
      · rintro ⟨hn, hlast⟩
        have he : e = rip := hlast n a b d e rfl
        exact ⟨by simpa using hn, by simp [he]⟩

/-- A C function that returns `0` and touches nothing else. -/
def returnZero (c : Cpu) : Cpu := c.set .rax 0

theorem systemV_returnZero : SystemV returnZero := by
  refine ⟨?_, fun _ => rfl⟩
  intro c r hr
  have hne : r ≠ .rax := fun heq => absurd (heq ▸ hr) (by decide)
  simp [returnZero, hne]

/-- `acquire("/dev/eth", 0)` with the name at `0x402000`. -/
theorem syscall_arrives_acquire :
    let stub := SyscallStub.syscall2 8 0x402000 0
    Arrives stub ⟨fun _ => 0, []⟩ 0x401000 0x202 ∧
      Restored returnZero stub ⟨fun _ => 0, []⟩ 0x401000 0x202 :=
  (syscall_arrives_iff _ 0x401000 0x202 systemV_returnZero _).mpr
    ⟨by decide, fun _ _ _ _ _ heq => nomatch heq⟩

/-- **`get_config` loses its length.** The stub puts it into `rcx`, where the processor puts
the return address. -/
theorem syscall4_length_lost :
    ¬ Arrives (.syscall4 7 0 0 0x402000 6) ⟨fun _ => 0, []⟩ 0x401000 0x202 ∧
      (((SyscallStub.syscall4 7 0 0 0x402000 6).operands ⟨fun _ => 0, []⟩).atCall
        0x401000 0x202).cArgs.take 4 = [0, 0, 0x402000, 0x401000] := by
  constructor
  · rintro ⟨-, hargs⟩
    exact absurd hargs (by decide)
  · decide

end Manticore
