import Manticore.Arch.PageTable
import Manticore.Kernel.PageAllocator

/-!
# System calls and the pointers they are given

`kernel/syscall.c` and `kernel/user-copy.c`, by the addresses a call reads and writes
because a pointer argument names them.  What the kernel does apart from that enters as the
environment: which addresses can be accessed without a fault, what the process has
stored there, and what the called services return.
-/

namespace Manticore

def efault : ℤ := 14
def enosys : ℤ := 38

/-- What a call depends on, its arguments apart. -/
structure UserEnv where
  mapped : ℕ → Bool
  byte : ℕ → UInt8
  /-- The descriptor of `get_config` names a device, its MAC address, its I/O queue. -/
  device : Bool
  mac : Option (Fin 6 → UInt8)
  ioQueue : Option UInt64
  subscribe : ℤ
  acquire : ℤ
  vmspaceAlloc : ℤ

/-- The calls, with their arguments as they come from user space. -/
inductive Syscall where
  | exit
  | wait
  | consolePrint (ubuf count : UInt64)
  | subscribe (uevent : UInt64)
  | getevents (events : UInt64)
  | getConfig (opt : ℕ) (buf len : UInt64)
  | acquire (uname : UInt64)
  | vmspaceAlloc (uvmr size : UInt64)
  | unknown
deriving DecidableEq, Repr

/-- The `switch` of `syscall`. -/
def decodeSyscall (nr : ℤ) (arg0 arg1 arg2 arg3 : UInt64) : Syscall :=
  if nr = 1 then .exit
  else if nr = 2 then .wait
  else if nr = 3 then .consolePrint arg0 arg1
  else if nr = 4 then .subscribe arg0
  else if nr = 5 then .getevents arg0
  else if nr = 7 then .getConfig (arg1.toNat % 2 ^ 32) arg2 arg3
  else if nr = 8 then .acquire arg0
  else if nr = 9 then .vmspaceAlloc arg0 arg1
  else .unknown

/-- The result (none if the kernel panics), the user addresses read and written on the way, and
what was printed. -/
structure SysResult where
  ret : Option ℤ
  loaded : List ℕ
  stored : List ℕ
  printed : List UInt8

/-! ## Copying -/

/-- The bytes `rep movsb` gets through before a fault. -/
def copiedBytes (env : UserEnv) (addr len : ℕ) : List ℕ :=
  ((List.range len).map fun i => (addr + i) % 2 ^ 64).takeWhile env.mapped

def memcpyUserSafe (env : UserEnv) (addr len : ℕ) : ℤ × List ℕ :=
  let bytes := copiedBytes env addr len
  (if bytes.length = len then 0 else -efault, bytes)

/-- The user side of `memcpy_to_user` and of `memcpy_from_user`: only the first byte is
compared with `KERNEL_VMA`. -/
def memcpyUser (env : UserEnv) (addr len : ℕ) : ℤ × List ℕ :=
  if kernelVma ≤ addr then (-efault, []) else memcpyUserSafe env addr len

/-- The loop of `raw_strncpy_from_user` with `n` bytes to go. -/
def rawStrncpyFromUser (env : UserEnv) : ℕ → ℕ → ℤ × List ℕ
  | 0, _ => (0, [])
  | n + 1, addr =>
      if env.mapped addr = false then (-efault, [])
      else if env.byte addr = 0 then (0, [addr])
      else
        let (ret, bytes) := rawStrncpyFromUser env n ((addr + 1) % 2 ^ 64)
        (ret, addr :: bytes)

/-- `strncpy_from_user` leaves room for the terminator. -/
def strncpyFromUser (env : UserEnv) (addr len : ℕ) : ℤ × List ℕ :=
  if kernelVma ≤ addr then (-efault, []) else rawStrncpyFromUser env (len - 1) addr

/-! ## The calls -/

def eventSize : ℕ := 32
def maxNameLen : ℕ := 32
def consoleBufSize : ℕ := 64
def sizeofVmspaceRegion : ℕ := 24
def configEthernetMacAddress : ℕ := 0
def configIoQueue : ℕ := 1

/-- `chunks` rounds of the loop, from `off` with `count` bytes to go. -/
def consolePrintLoop (env : UserEnv) (ubuf : ℕ) : ℕ → ℕ → ℕ → SysResult
  | 0, off, _ => ⟨some off, [], [], []⟩
  | chunks + 1, off, count =>
      let nr := min count consoleBufSize
      let (err, bytes) := memcpyUser env ((ubuf + off) % 2 ^ 64) nr
      if err < 0 then ⟨some err, bytes, [], []⟩
      else
        let r := consolePrintLoop env ubuf chunks (off + nr) (count - nr)
        { r with loaded := bytes ++ r.loaded, printed := bytes.map env.byte ++ r.printed }

def sysConsolePrint (env : UserEnv) (ubuf count : ℕ) : SysResult :=
  consolePrintLoop env ubuf ((count + consoleBufSize - 1) / consoleBufSize) 0 count

/-- `sys_subscribe` and `sys_acquire`: a string from user space, then a service. -/
def sysWithName (env : UserEnv) (uname len : ℕ) (service : ℤ) : SysResult :=
  let (err, bytes) := strncpyFromUser env uname len
  ⟨some (if err < 0 then err else service), bytes, [], []⟩

/-- `*events = process_getevents()`, an eight byte store without any check. There is no fixup for
a fault of it. -/
def sysGetevents (env : UserEnv) (events : ℕ) : SysResult :=
  let bytes := copiedBytes env events 8
  if bytes.length = 8 then ⟨some 0, [], bytes, []⟩ else ⟨none, [], [], []⟩

/-- The length of the configuration value, if there is one. -/
def configLength (env : UserEnv) (opt : ℕ) : Option ℕ :=
  if env.device = false then none
  else if opt = configEthernetMacAddress then env.mac.map fun _ => 6
  else if opt = configIoQueue then env.ioQueue.map fun _ => 8
  else none

/-- `process_get_config`, which drops the result of `memcpy_to_user`. -/
def sysGetConfig (env : UserEnv) (opt buf len : ℕ) : SysResult :=
  match configLength env opt with
  | none => ⟨some (-einval), [], [], []⟩
  | some n => ⟨some 0, [], (memcpyUser env buf (min len n)).2, []⟩

def sysVmspaceAlloc (env : UserEnv) (uvmr size : ℕ) : SysResult :=
  if size ≠ sizeofVmspaceRegion then ⟨some (-einval), [], [], []⟩
  else
    let (err, bytes) := memcpyUser env uvmr sizeofVmspaceRegion
    if err ≠ 0 then ⟨some err, bytes, [], []⟩
    else if env.vmspaceAlloc ≠ 0 then ⟨some env.vmspaceAlloc, bytes, [], []⟩
    else
      let (err, bytes') := memcpyUser env uvmr sizeofVmspaceRegion
      ⟨some err, bytes, bytes', []⟩

def execSyscall (env : UserEnv) : Syscall → SysResult
  | .exit => ⟨none, [], [], []⟩
  | .wait => ⟨some 0, [], [], []⟩
  | .consolePrint ubuf count => sysConsolePrint env ubuf.toNat count.toNat
  | .subscribe uevent => sysWithName env uevent.toNat eventSize env.subscribe
  | .getevents events => sysGetevents env events.toNat
  | .getConfig opt buf len => sysGetConfig env opt buf.toNat len.toNat
  | .acquire uname => sysWithName env uname.toNat maxNameLen env.acquire
  | .vmspaceAlloc uvmr size => sysVmspaceAlloc env uvmr.toNat size.toNat
  | .unknown => ⟨some (-enosys), [], [], []⟩

/-! ## Safety -/

/-- The user memory a call names: pointer and length. -/
def Syscall.named : Syscall → Option (ℕ × ℕ)
  | .consolePrint ubuf count => some (ubuf.toNat, count.toNat)
  | .subscribe uevent => some (uevent.toNat, eventSize - 1)
  | .getevents events => some (events.toNat, 8)
  | .getConfig _ buf len => some (buf.toNat, len.toNat)
  | .acquire uname => some (uname.toNat, maxNameLen - 1)
  | .vmspaceAlloc uvmr size => some (uvmr.toNat, size.toNat)
  | _ => none

/-- `[p, p + n)` is not empty and reaches kernel addresses. -/
def ReachesKernel (p n : ℕ) : Prop := n ≠ 0 ∧ kernelVma < p + n

/-- Only user addresses are accessed; a range that reaches the kernel is refused with
`EFAULT`, and nothing is written, neither to memory nor to the console. -/
structure SysResult.Safe (r : SysResult) (named : Option (ℕ × ℕ)) : Prop where
  loads : ∀ a ∈ r.loaded, a < kernelVma
  stores : ∀ a ∈ r.stored, a < kernelVma
  refused : ∀ p n, named = some (p, n) → ReachesKernel p n →
    r.ret = some (-efault) ∧ r.stored = [] ∧ r.printed = []

/-- **No kernel memory on the caller's behalf**, whatever the environment. -/
def Syscall.Safe (c : Syscall) : Prop := ∀ env, (execSyscall env c).Safe c.named

/-- The arguments for which the checks of the code are enough. -/
def Syscall.Confined : Syscall → Prop
  | .consolePrint ubuf count => ¬ ReachesKernel ubuf.toNat count.toNat ∨ kernelVma ≤ ubuf.toNat
  | .subscribe uevent => uevent.toNat + (eventSize - 1) ≤ kernelVma ∨ kernelVma ≤ uevent.toNat
  | .getevents events => events.toNat + 8 ≤ kernelVma
  | .getConfig _ buf len => ¬ ReachesKernel buf.toNat len.toNat
  | .acquire uname => uname.toNat + (maxNameLen - 1) ≤ kernelVma ∨ kernelVma ≤ uname.toNat
  | .vmspaceAlloc uvmr size => ¬ ReachesKernel uvmr.toNat size.toNat ∨
      size.toNat = sizeofVmspaceRegion ∧ kernelVma ≤ uvmr.toNat
  | _ => True

/-! ## Copies that stay below the kernel -/

variable {env : UserEnv} {addr len n a : ℕ}

theorem copiedBytes_lt (h : addr + len ≤ kernelVma) (ha : a ∈ copiedBytes env addr len) :
    a < kernelVma := by
  obtain ⟨i, hi, rfl⟩ := List.mem_map.mp ((List.takeWhile_subset _) ha)
  rw [List.mem_range] at hi
  exact lt_of_le_of_lt (Nat.mod_le _ _) (by omega)

theorem memcpyUser_of_le (h : kernelVma ≤ addr) : memcpyUser env addr len = (-efault, []) :=
  if_pos h

theorem memcpyUser_lt (h : addr + len ≤ kernelVma ∨ kernelVma ≤ addr)
    (ha : a ∈ (memcpyUser env addr len).2) : a < kernelVma := by
  by_cases hk : kernelVma ≤ addr
  · rw [memcpyUser_of_le hk] at ha
    cases ha
  · rw [memcpyUser, if_neg hk] at ha
    exact copiedBytes_lt (h.resolve_right hk) ha

theorem rawStrncpyFromUser_lt (h : addr + n ≤ kernelVma)
    (ha : a ∈ (rawStrncpyFromUser env n addr).2) : a < kernelVma := by
  induction n generalizing addr with
  | zero => cases ha
  | succ n ih =>
      have hlt : addr < kernelVma := by omega
      unfold rawStrncpyFromUser at ha
      split at ha
      · cases ha
      · split at ha
        · rw [List.mem_singleton.mp ha]
          exact hlt
        · rcases List.mem_cons.mp ha with rfl | ha
          · exact hlt
          · have hmod : (addr + 1) % 2 ^ 64 = addr + 1 := Nat.mod_eq_of_lt (by
              simp only [kernelVma] at hlt
              omega)
            rw [hmod] at ha
            exact ih (by omega) ha

theorem strncpyFromUser_lt (h : addr + (len - 1) ≤ kernelVma ∨ kernelVma ≤ addr)
    (ha : a ∈ (strncpyFromUser env addr len).2) : a < kernelVma := by
  unfold strncpyFromUser at ha
  split at ha
  · cases ha
  · rename_i hk
    exact rawStrncpyFromUser_lt (h.resolve_right hk) ha

/-! ## An environment without obstacles -/

/-- All addresses can be accessed, no string ends, and every service succeeds. -/
def openEnv : UserEnv where
  mapped := fun _ => true
  byte := fun _ => 1
  device := true
  mac := some fun _ => 0
  ioQueue := some 0
  subscribe := 0
  acquire := 0
  vmspaceAlloc := 0

theorem copiedBytes_open (addr len : ℕ) :
    copiedBytes openEnv addr len = (List.range len).map fun i => (addr + i) % 2 ^ 64 := by
  have hall : ∀ l : List ℕ, l.takeWhile openEnv.mapped = l := by
    intro l
    induction l with
    | nil => rfl
    | cons x l ih => rw [List.takeWhile_cons_of_pos rfl, ih]
  exact hall _

theorem kernel_mem_copied (hlt : addr < kernelVma) (hgt : kernelVma < addr + len) :
    memcpyUser openEnv addr len = (0, copiedBytes openEnv addr len) ∧
      kernelVma ∈ copiedBytes openEnv addr len := by
  constructor
  · rw [memcpyUser, if_neg (by omega), memcpyUserSafe]
    simp [copiedBytes_open]
  · rw [copiedBytes_open, List.mem_map]
    refine ⟨kernelVma - addr, List.mem_range.mpr (by omega), ?_⟩
    rw [show addr + (kernelVma - addr) = kernelVma by omega]
    decide

theorem kernel_mem_strncpy (hlt : addr ≤ kernelVma) (hgt : kernelVma < addr + n) :
    kernelVma ∈ (rawStrncpyFromUser openEnv n addr).2 := by
  induction n generalizing addr with
  | zero => omega
  | succ n ih =>
      have hstep : rawStrncpyFromUser openEnv (n + 1) addr =
          ((rawStrncpyFromUser openEnv n ((addr + 1) % 2 ^ 64)).1,
            addr :: (rawStrncpyFromUser openEnv n ((addr + 1) % 2 ^ 64)).2) := rfl
      rw [hstep]
      rcases Nat.eq_or_lt_of_le hlt with rfl | hlt
      · exact List.mem_cons_self
      · have hmod : (addr + 1) % 2 ^ 64 = addr + 1 := Nat.mod_eq_of_lt (by
          simp only [kernelVma] at hlt
          omega)
        rw [hmod]
        exact List.mem_cons_of_mem _ (ih hlt (by omega))

/-! ## `sys_console_print` -/

section Console

variable {ubuf chunks off count : ℕ}

theorem consolePrintLoop_stored (env : UserEnv) (ubuf : ℕ) : ∀ chunks off count,
    (consolePrintLoop env ubuf chunks off count).stored = []
  | 0, _, _ => rfl
  | chunks + 1, off, count => by
      unfold consolePrintLoop
      simp only
      split
      · rfl
      · exact consolePrintLoop_stored env ubuf chunks _ _

theorem consolePrintLoop_lt (h : ubuf + off + count ≤ kernelVma) :
    ∀ a ∈ (consolePrintLoop env ubuf chunks off count).loaded, a < kernelVma := by
  induction chunks generalizing off count with
  | zero => intro a ha; cases ha
  | succ chunks ih =>
      have hmod : (ubuf + off) % 2 ^ 64 = ubuf + off := Nat.mod_eq_of_lt (by
        simp only [kernelVma] at h
        omega)
      have hchunk : ubuf + off + min count consoleBufSize ≤ kernelVma := by omega
      intro a ha
      rw [consolePrintLoop, hmod] at ha
      dsimp only at ha
      split at ha
      · exact memcpyUser_lt (.inl hchunk) ha
      · rcases List.mem_append.mp ha with ha | ha
        · exact memcpyUser_lt (.inl hchunk) ha
        · exact ih (by omega) a ha

theorem exists_chunks (hcount : count ≠ 0) :
    ∃ k, (count + consoleBufSize - 1) / consoleBufSize = k + 1 :=
  Nat.exists_eq_succ_of_ne_zero (by simp only [consoleBufSize]; omega)

theorem sysConsolePrint_refused (hk : kernelVma ≤ ubuf) (hlt : ubuf < 2 ^ 64) (hcount : count ≠ 0) :
    sysConsolePrint env ubuf count = ⟨some (-efault), [], [], []⟩ := by
  obtain ⟨chunks, hchunks⟩ := exists_chunks hcount
  rw [sysConsolePrint, hchunks, consolePrintLoop]
  simp only [Nat.add_zero, Nat.mod_eq_of_lt hlt, memcpyUser_of_le hk]
  rw [if_pos (by decide)]

theorem sysConsolePrint_printed (hlt : ubuf < kernelVma) (hcount : count ≠ 0) :
    (sysConsolePrint openEnv ubuf count).printed ≠ [] := by
  obtain ⟨chunks, hchunks⟩ := exists_chunks hcount
  have hmod : ubuf % 2 ^ 64 = ubuf := Nat.mod_eq_of_lt (by
    simp only [kernelVma] at hlt
    omega)
  have hcopy : memcpyUser openEnv ubuf (min count consoleBufSize) =
      (0, copiedBytes openEnv ubuf (min count consoleBufSize)) := by
    rw [memcpyUser, if_neg (by omega), memcpyUserSafe]
    simp [copiedBytes_open]
  intro hnil
  rw [sysConsolePrint, hchunks, consolePrintLoop, Nat.add_zero, hmod, hcopy] at hnil
  dsimp only at hnil
  rw [if_neg (lt_irrefl _)] at hnil
  have hlen := congrArg List.length (List.append_eq_nil_iff.mp hnil).1
  simp only [copiedBytes_open, List.length_map, List.length_range, List.length_nil,
    consoleBufSize] at hlen
  omega

end Console

/-! ## All calls -/

theorem sysWithName_safe {service : ℤ} {p : ℕ}
    (h : p + (len - 1) ≤ kernelVma ∨ kernelVma ≤ p) :
    (sysWithName env p len service).Safe (some (p, len - 1)) := by
  refine ⟨fun a ha => strncpyFromUser_lt h ha, List.forall_mem_nil _, ?_⟩
  rintro p' n' hnamed ⟨-, hgt⟩
  obtain ⟨rfl, rfl⟩ := some_pair_inj hnamed
  have hk : kernelVma ≤ p := by omega
  refine ⟨?_, rfl, rfl⟩
  rw [sysWithName, strncpyFromUser, if_pos hk]
  show some (if -efault < 0 then -efault else service) = some (-efault)
  rw [if_pos (show -efault < 0 by decide)]

theorem not_sysWithName_safe {service : ℤ} {p : ℕ}
    (h : ¬ (p + (len - 1) ≤ kernelVma ∨ kernelVma ≤ p)) :
    ¬ (sysWithName openEnv p len service).Safe (some (p, len - 1)) := by
  intro hsafe
  rw [not_or, not_le, not_le] at h
  have hmem := kernel_mem_strncpy h.2.le h.1
  refine absurd (hsafe.loads kernelVma ?_) (lt_irrefl _)
  rw [sysWithName, strncpyFromUser, if_neg (by omega)]
  exact hmem

theorem SysResult.Safe.of_below {r : SysResult} {p n : ℕ} (hloads : ∀ a ∈ r.loaded, a < kernelVma)
    (hstores : ∀ a ∈ r.stored, a < kernelVma) (h : ¬ ReachesKernel p n) : r.Safe (some (p, n)) := by
  refine ⟨hloads, hstores, fun p' n' hnamed hreach => absurd hreach ?_⟩
  obtain ⟨rfl, rfl⟩ := some_pair_inj hnamed
  exact h

theorem SysResult.Safe.of_refused {named : Option (ℕ × ℕ)} :
    SysResult.Safe ⟨some (-efault), [], [], []⟩ named :=
  ⟨List.forall_mem_nil _, List.forall_mem_nil _, fun _ _ _ _ => ⟨rfl, rfl, rfl⟩⟩

theorem le_of_not_reachesKernel {p : ℕ} (h : ¬ ReachesKernel p n) :
    n = 0 ∨ p + n ≤ kernelVma := by
  by_contra hnot
  rw [not_or, not_le] at hnot
  exact h hnot

theorem memcpyUser_lt_of_not_reaches {p : ℕ} (h : ¬ ReachesKernel p n) (hle : len ≤ n)
    (ha : a ∈ (memcpyUser env p len).2) : a < kernelVma := by
  by_cases hk : kernelVma ≤ p
  · exact memcpyUser_lt (.inr hk) ha
  · have := le_of_not_reachesKernel h
    exact memcpyUser_lt (.inl (by omega)) ha

theorem sysConsolePrint_safe {u c : ℕ} (h : ¬ ReachesKernel u c ∨ kernelVma ≤ u)
    (hu : u < 2 ^ 64) : (sysConsolePrint env u c).Safe (some (u, c)) := by
  by_cases hc : c = 0
  · subst hc
    exact .of_below (List.forall_mem_nil _) (List.forall_mem_nil _) fun h => h.1 rfl
  by_cases hk : kernelVma ≤ u
  · rw [sysConsolePrint_refused hk hu hc]
    exact .of_refused
  · have hreach := h.resolve_right hk
    refine .of_below (consolePrintLoop_lt ?_) ?_ hreach
    · exact (le_of_not_reachesKernel hreach).resolve_left hc
    · rw [sysConsolePrint, consolePrintLoop_stored]
      exact List.forall_mem_nil _

theorem sysGetConfig_safe {opt buf len : ℕ} (h : ¬ ReachesKernel buf len) :
    (sysGetConfig env opt buf len).Safe (some (buf, len)) := by
  unfold sysGetConfig
  split
  · exact .of_below (List.forall_mem_nil _) (List.forall_mem_nil _) h
  · exact .of_below (List.forall_mem_nil _)
      (fun a ha => memcpyUser_lt_of_not_reaches h (min_le_left _ _) ha) h

theorem sysVmspaceAlloc_safe {uvmr size : ℕ} (h : ¬ ReachesKernel uvmr size ∨
    size = sizeofVmspaceRegion ∧ kernelVma ≤ uvmr) :
    (sysVmspaceAlloc env uvmr size).Safe (some (uvmr, size)) := by
  rw [sysVmspaceAlloc]
  rcases h with h | ⟨rfl, hk⟩
  · split
    · exact .of_below (List.forall_mem_nil _) (List.forall_mem_nil _) h
    · rename_i hsize
      have hlt : ∀ a ∈ (memcpyUser env uvmr sizeofVmspaceRegion).2, a < kernelVma := fun a ha =>
        memcpyUser_lt_of_not_reaches h (not_not.mp hsize).ge ha
      dsimp only
      split
      · exact .of_below hlt (List.forall_mem_nil _) h
      · split
        · exact .of_below hlt (List.forall_mem_nil _) h
        · exact .of_below hlt hlt h
  · rw [if_neg (not_not.mpr rfl), memcpyUser_of_le hk]
    exact .of_refused

theorem confined_of_safe {c : Syscall} (h : (execSyscall openEnv c).Safe c.named) :
    c.Confined := by
  by_contra hnot
  cases c with
  | exit => exact hnot trivial
  | wait => exact hnot trivial
  | unknown => exact hnot trivial
  | subscribe uevent => exact not_sysWithName_safe hnot h
  | acquire uname => exact not_sysWithName_safe hnot h
  | consolePrint ubuf count =>
      simp only [Syscall.Confined, not_or, not_not, not_le] at hnot
      exact sysConsolePrint_printed hnot.2 hnot.1.1 (h.refused _ _ rfl hnot.1).2.2
  | getevents events =>
      -- the call does not fail
      have hret : (sysGetevents openEnv events.toNat).ret = some 0 := by
        rw [sysGetevents, copiedBytes_open]
        simp
      simp only [Syscall.Confined, not_le] at hnot
      have hrefused := (h.refused _ _ rfl ⟨by decide, hnot⟩).1
      exact absurd (hret.symm.trans hrefused) (by decide)
  | getConfig opt buf len =>
      simp only [Syscall.Confined, not_not] at hnot
      have hret : (sysGetConfig openEnv opt buf.toNat len.toNat).ret ≠ some (-efault) := by
        unfold sysGetConfig
        split
        · exact Option.some_injective _ |>.ne (by decide)
        · exact Option.some_injective _ |>.ne (by decide)
      exact hret (h.refused _ _ rfl hnot).1
  | vmspaceAlloc uvmr size =>
      simp only [Syscall.Confined, not_or, not_not, not_and, not_le] at hnot
      obtain ⟨hreach, hbelow⟩ := hnot
      by_cases hsize : size.toNat = sizeofVmspaceRegion
      · rw [hsize] at hreach
        obtain ⟨heq, hmem⟩ := kernel_mem_copied (hbelow hsize) hreach.2
        refine absurd (h.loads kernelVma ?_) (lt_irrefl _)
        show kernelVma ∈ (sysVmspaceAlloc openEnv uvmr.toNat size.toNat).loaded
        rw [sysVmspaceAlloc, if_neg (not_not.mpr hsize)]
        simp only [heq]
        exact hmem
      · -- a size other than that of the structure is refused, but with another error
        have hret := (h.refused _ _ rfl hreach).1
        change (sysVmspaceAlloc openEnv uvmr.toNat size.toNat).ret = _ at hret
        rw [sysVmspaceAlloc, if_pos hsize] at hret
        exact absurd hret (by decide)

/-- **System calls touch no kernel memory exactly if** the range they are given ends below
it or starts in it, as the checks of `user-copy.c` compare the first byte only; for
`getevents` and `get_config`, which ignore or lack the check, and for `vmspace_alloc` with a wrong
size, the range has to end below. -/
theorem syscall_safe_iff (nr : ℤ) (arg0 arg1 arg2 arg3 : UInt64) :
    (decodeSyscall nr arg0 arg1 arg2 arg3).Safe ↔
      (decodeSyscall nr arg0 arg1 arg2 arg3).Confined := by
  generalize decodeSyscall nr arg0 arg1 arg2 arg3 = c
  refine ⟨fun h => confined_of_safe (h openEnv), fun h env => ?_⟩
  have hnil : ∀ ret : Option ℤ, SysResult.Safe ⟨ret, [], [], []⟩ none := fun ret =>
    ⟨List.forall_mem_nil _, List.forall_mem_nil _, fun p n hn => by cases hn⟩
  cases c with
  | exit => exact hnil _
  | wait => exact hnil _
  | unknown => exact hnil _
  | subscribe uevent => exact sysWithName_safe h
  | acquire uname => exact sysWithName_safe h
  | consolePrint ubuf count => exact sysConsolePrint_safe h ubuf.toNat_lt
  | getConfig opt buf len => exact sysGetConfig_safe h
  | vmspaceAlloc uvmr size => exact sysVmspaceAlloc_safe h
  | getevents events =>
      have hle : events.toNat + 8 ≤ kernelVma := h
      have hreach : ¬ ReachesKernel events.toNat 8 := fun hr => absurd hr.2 (not_lt.mpr hle)
      show (sysGetevents env events.toNat).Safe (some (events.toNat, 8))
      unfold sysGetevents
      dsimp only
      split
      · exact .of_below (List.forall_mem_nil _) (fun a ha => copiedBytes_lt hle ha) hreach
      · exact .of_below (List.forall_mem_nil _) (List.forall_mem_nil _) hreach

/-- **`getevents` writes where it is told to.** With a kernel address for an argument, eight
bytes of kernel memory are overwritten, and the call returns 0. -/
theorem getevents_kernel_not_safe :
    ¬ (decodeSyscall 5 0xffffffff80100000 0 0 0).Safe := by
  intro h
  have hstores := (h openEnv).stores 0xffffffff80100000 (by decide)
  exact absurd hstores (by decide)

end Manticore
