import Mathlib.Data.List.GetD
import Mathlib.Tactic
import Manticore.Kernel.PageAllocator

/-!
# Interrupt vectors

`request_irq` and `handle_interrupt` of `arch/x86_64/irq.c`.  Vectors are given out by a counter and
never taken back.  There are `NR_INTERRUPTS` services, and the tests of both functions let one
vector more through.

An access outside of `irq_services` is `none`.
-/

namespace Manticore

def nrInterruptVectors : ℕ := 256

def nrExceptions : ℕ := 32

def nrInterrupts : ℕ := nrInterruptVectors - nrExceptions

/-- `struct irq_service`; both fields are addresses. -/
structure IrqService where
  handler : ℕ
  arg : ℕ
deriving DecidableEq

structure IrqState where
  /-- An `unsigned int`. -/
  nextVector : ℕ
  irqServices : Fin nrInterrupts → IrqService

def irqInit : IrqState := ⟨nrExceptions, fun _ => ⟨0, 0⟩⟩

/-- Both functions leave a vector alone that is not in range. -/
def outOfRange (vector : ℤ) : Bool :=
  vector < nrExceptions || vector > nrInterruptVectors

def requestIrq (s : IrqState) (handler arg : ℕ) : Option (ℤ × IrqState) :=
  let vector := Int.bmod s.nextVector (2 ^ 32)
  let s := { s with nextVector := (s.nextVector + 1) % 2 ^ 32 }
  if outOfRange vector then some (-einval, s)
  else
    let idx := (vector - nrExceptions).toNat
    if h : idx < nrInterrupts then
      if (s.irqServices ⟨idx, h⟩).handler ≠ 0 then some (-einval, s)
      else some (vector,
        { s with irqServices := Function.update s.irqServices ⟨idx, h⟩ ⟨handler, arg⟩ })
    else none

inductive Interrupt where
  | ignored
  | called (handler arg : ℕ)
  | unhandled (vector : ℤ)
deriving DecidableEq

def interruptService (s : IrqState) (vector : ℤ) : Option Interrupt :=
  if outOfRange vector then some .ignored
  else
    let idx := (vector - nrExceptions).toNat
    if h : idx < nrInterrupts then
      let service := s.irqServices ⟨idx, h⟩
      if service.handler ≠ 0 then some (.called service.handler service.arg)
      else some (.unhandled vector)
    else none

/-- `end_of_interrupt` acknowledges the interrupt to the APIC. -/
def handleInterrupt (s : IrqState) (vector : ℤ) : Option Interrupt := interruptService s vector

/-- A sequence of calls of `request_irq`: what they return, and the state after them. -/
def requestIrqs (s : IrqState) : List IrqService → Option (List ℤ × IrqState)
  | [] => some ([], s)
  | c :: cs => do
      let (ret, s) ← requestIrq s c.handler c.arg
      let (rets, s) ← requestIrqs s cs
      return (ret :: rets, s)

/-- **Vectors are exclusive and bounded** in the sequence of calls `cs`. -/
structure IrqExclusive (cs : List IrqService) (rets : List ℤ) (s : IrqState) : Prop where
  /-- No call leaves the table. -/
  run : requestIrqs irqInit cs = some (rets, s)
  bounded : ∀ v ∈ rets, 0 ≤ v → (nrExceptions : ℤ) ≤ v ∧ v < nrInterruptVectors
  exclusive : (rets.filter (0 ≤ ·)).Nodup
  handled : ∀ (i : ℕ) v (c : IrqService), rets[i]? = some v → 0 ≤ v → cs[i]? = some c →
    handleInterrupt s v = some (.called c.handler c.arg)

/-! ## The table after a number of calls -/

/-- The state that the calls `cs` lead to. -/
def irqAfter (cs : List IrqService) : IrqState where
  nextVector := nrExceptions + cs.length
  irqServices i := cs.getD i ⟨0, 0⟩

theorem outOfRange_add {k : ℕ} (hk : k ≤ nrInterrupts) :
    outOfRange ((nrExceptions + k : ℕ) : ℤ) = false := by
  simp only [nrInterrupts, nrInterruptVectors, nrExceptions] at hk
  rw [outOfRange, Bool.or_eq_false_iff, decide_eq_false_iff_not, decide_eq_false_iff_not]
  simp only [nrInterruptVectors, nrExceptions]
  omega

theorem toNat_vector_sub (k : ℕ) :
    (((nrExceptions + k : ℕ) : ℤ) - nrExceptions).toNat = k := by omega

theorem nextVector_after {cs : List IrqService} (h : cs.length ≤ nrInterrupts) :
    Int.bmod (irqAfter cs).nextVector (2 ^ 32) = (nrExceptions + cs.length : ℕ) := by
  simp only [nrInterrupts, nrInterruptVectors, nrExceptions] at h
  show Int.bmod ((nrExceptions + cs.length : ℕ) : ℤ) (2 ^ 32) = _
  apply Int.bmod_eq_of_le <;> simp only [nrExceptions] <;> omega

theorem irqServices_after (cs : List IrqService) (c : IrqService) (h : cs.length < nrInterrupts) :
    Function.update (irqAfter cs).irqServices ⟨cs.length, h⟩ c =
      (irqAfter (cs ++ [c])).irqServices := by
  funext i
  rcases eq_or_ne i ⟨cs.length, h⟩ with rfl | hne
  · rw [Function.update_self]
    show c = (cs ++ [c]).getD cs.length ⟨0, 0⟩
    simp
  · rw [Function.update_of_ne hne]
    show cs.getD i ⟨0, 0⟩ = (cs ++ [c]).getD i ⟨0, 0⟩
    have hi : (i : ℕ) ≠ cs.length := fun h' => hne (Fin.ext h')
    rcases Nat.lt_or_ge i cs.length with hlt | hge
    · rw [List.getD_append _ _ _ _ hlt]
    · rw [List.getD_eq_default _ _ hge, List.getD_eq_default]
      rw [List.length_append, List.length_singleton]
      omega

section OneCall

variable {s : IrqState} {vector : ℤ} {idx : ℕ} (hvector : Int.bmod s.nextVector (2 ^ 32) = vector)
  (hrange : outOfRange vector = false) (hidx : (vector - nrExceptions).toNat = idx)
include hvector hrange hidx

theorem requestIrq_of_free (h : idx < nrInterrupts)
    (hfree : (s.irqServices ⟨idx, h⟩).handler = 0) (handler arg : ℕ) :
    requestIrq s handler arg =
      some (vector, ⟨(s.nextVector + 1) % 2 ^ 32,
        Function.update s.irqServices ⟨idx, h⟩ ⟨handler, arg⟩⟩) := by
  subst hidx hvector
  unfold requestIrq
  dsimp only
  rw [hrange, if_neg Bool.false_ne_true, dif_pos h, if_neg (not_not.mpr hfree)]

theorem requestIrq_of_outside (h : ¬ idx < nrInterrupts) (handler arg : ℕ) :
    requestIrq s handler arg = none := by
  subst hidx hvector
  unfold requestIrq
  dsimp only
  rw [hrange, if_neg Bool.false_ne_true, dif_neg h]

end OneCall

theorem irqServices_of_failed {s s' : IrqState} {handler arg : ℕ} {ret : ℤ}
    (h : requestIrq s handler arg = some (ret, s')) (hret : ret < 0) :
    s'.irqServices = s.irqServices := by
  unfold requestIrq at h
  dsimp only at h
  split at h
  · cases h; rfl
  · next hrange =>
      split at h
      · split at h
        · cases h; rfl
        · -- A vector in range is not negative.
          rw [outOfRange, Bool.or_eq_true, decide_eq_true_iff, decide_eq_true_iff] at hrange
          have hle := not_lt.mp (not_or.mp hrange).1
          rw [← (some_pair_inj h).1] at hret
          exact absurd hret (not_lt.mpr ((Int.natCast_nonneg _).trans hle))
      · cases h

/-- **One call**: it takes the next vector, as long as there is one. -/
theorem requestIrq_after {cs : List IrqService} (c : IrqService) (h : cs.length < nrInterrupts) :
    requestIrq (irqAfter cs) c.handler c.arg =
      some (((nrExceptions + cs.length : ℕ) : ℤ), irqAfter (cs ++ [c])) := by
  have hnext : (nrExceptions + cs.length + 1) % 2 ^ 32 = nrExceptions + (cs ++ [c]).length := by
    simp only [nrInterrupts, nrInterruptVectors, nrExceptions] at h ⊢
    rw [List.length_append, List.length_singleton]
    omega
  have hfree : ((irqAfter cs).irqServices ⟨cs.length, h⟩).handler = 0 := by
    show (cs.getD cs.length ⟨0, 0⟩).handler = 0
    rw [List.getD_eq_default _ _ le_rfl]
  rw [requestIrq_of_free (nextVector_after h.le) (outOfRange_add h.le) (toNat_vector_sub _) h hfree,
    irqServices_after cs c h]
  show some (_, IrqState.mk ((nrExceptions + cs.length + 1) % 2 ^ 32) _) = _
  rw [hnext]
  rfl

theorem requestIrq_full {cs : List IrqService} (h : cs.length = nrInterrupts) (handler arg : ℕ) :
    requestIrq (irqAfter cs) handler arg = none :=
  requestIrq_of_outside (nextVector_after h.le) (outOfRange_add h.le) (toNat_vector_sub _)
    (Nat.not_lt.mpr h.ge) handler arg

theorem requestIrqs_after (cs front : List IrqService)
    (h : front.length + cs.length ≤ nrInterrupts) :
    requestIrqs (irqAfter front) cs =
      some ((List.range' front.length cs.length).map fun k => ((nrExceptions + k : ℕ) : ℤ),
        irqAfter (front ++ cs)) := by
  induction cs generalizing front with
  | nil => rw [List.append_nil]; rfl
  | cons c cs ih =>
      rw [List.length_cons] at h
      have hlen : (front ++ [c]).length = front.length + 1 := by simp
      have hrest := ih (front ++ [c]) (by omega)
      rw [List.append_assoc, List.singleton_append, hlen] at hrest
      rw [requestIrqs, requestIrq_after c (by omega)]
      simp only [Option.bind_eq_bind, Option.bind_some, hrest]
      rfl

theorem irqAfter_nil : irqAfter [] = irqInit := rfl

theorem requestIrqs_init {cs : List IrqService} (h : cs.length ≤ nrInterrupts) :
    requestIrqs irqInit cs =
      some ((List.range cs.length).map fun k => ((nrExceptions + k : ℕ) : ℤ), irqAfter cs) := by
  have hrun := requestIrqs_after cs [] (by simpa using h)
  rwa [List.nil_append, List.length_nil, ← List.range_eq_range', irqAfter_nil] at hrun

theorem requestIrqs_too_many (cs front : List IrqService) (hfront : front.length ≤ nrInterrupts)
    (h : nrInterrupts < front.length + cs.length) :
    requestIrqs (irqAfter front) cs = none := by
  induction cs generalizing front with
  | nil => simp only [List.length_nil] at h; omega
  | cons c cs ih =>
      rw [List.length_cons] at h
      rcases Nat.eq_or_lt_of_le hfront with heq | hlt
      · rw [requestIrqs, requestIrq_full heq]
        rfl
      · have hlen : (front ++ [c]).length = front.length + 1 := by simp
        rw [requestIrqs, requestIrq_after c hlt]
        simp only [Option.bind_eq_bind, Option.bind_some, ih (front ++ [c]) (by omega) (by omega)]
        rfl

/-! ## Interrupts -/

theorem isSome_interruptService (s : IrqState) (vector : ℤ) :
    (interruptService s vector).isSome ↔ vector ≠ nrInterruptVectors := by
  have hcond : (outOfRange vector ∨ (vector - nrExceptions).toNat < nrInterrupts) ↔
      vector ≠ nrInterruptVectors := by
    rw [outOfRange, Bool.or_eq_true, decide_eq_true_iff, decide_eq_true_iff]
    simp only [nrInterrupts, nrInterruptVectors, nrExceptions]
    omega
  rw [← hcond]
  unfold interruptService
  dsimp only
  split
  · next h => exact iff_of_true rfl (Or.inl h)
  · next h =>
      split
      · next hidx => exact iff_of_true (by split <;> rfl) (Or.inr hidx)
      · next hidx => exact iff_of_false Bool.false_ne_true (not_or.mpr ⟨h, hidx⟩)

theorem handleInterrupt_after {cs : List IrqService} {c : IrqService} {i : ℕ}
    (h : cs.length ≤ nrInterrupts) (hi : cs[i]? = some c) (hc : c.handler ≠ 0) :
    handleInterrupt (irqAfter cs) ((nrExceptions + i : ℕ) : ℤ) =
      some (.called c.handler c.arg) := by
  have hlt : i < cs.length := (List.getElem?_eq_some_iff.mp hi).1
  have hget : cs.getD i ⟨0, 0⟩ = c := by rw [List.getD_eq_getElem?_getD, hi]; rfl
  unfold handleInterrupt interruptService
  dsimp only
  simp only [toNat_vector_sub]
  rw [outOfRange_add (hlt.le.trans h), if_neg Bool.false_ne_true, dif_pos (hlt.trans_le h)]
  simp only [irqAfter, hget]
  rw [if_pos hc]

/-- **When vectors are exclusive and bounded**: as long as there are no more calls than services.
Interrupts stay in the table unless their vector is the one behind the last, and a call that fails
leaves the services alone in every state. -/
theorem irq_exclusive_iff (cs : List IrqService) (hcs : ∀ c ∈ cs, c.handler ≠ 0) :
    ((∃ rets s, IrqExclusive cs rets s) ↔ cs.length ≤ nrInterrupts) ∧
      (∀ s vector, (handleInterrupt s vector).isSome ↔ vector ≠ nrInterruptVectors) ∧
      ∀ s handler arg ret s', requestIrq s handler arg = some (ret, s') → ret < 0 →
        s'.irqServices = s.irqServices := by
  refine ⟨⟨?_, fun h => ⟨_, _, requestIrqs_init h, ?_, ?_, ?_⟩⟩, isSome_interruptService,
    fun s handler arg ret s' => irqServices_of_failed⟩
  · rintro ⟨rets, s, hok⟩
    by_contra hlt
    have hnone := requestIrqs_too_many cs [] (Nat.zero_le _) (by simpa using hlt)
    rw [irqAfter_nil, hok.run] at hnone
    cases hnone
  · intro v hv _
    obtain ⟨k, hk, rfl⟩ := List.mem_map.mp hv
    have hk' := List.mem_range.mp hk
    simp only [nrInterrupts, nrInterruptVectors, nrExceptions] at h ⊢
    omega
  · apply List.Nodup.filter
    apply List.nodup_range.map
    intro a b hab
    exact Nat.add_left_cancel (Int.ofNat.inj hab)
  · intro i v c hv _ hc
    obtain ⟨k, hk, rfl⟩ := List.getElem?_map .. ▸ hv |> Option.map_eq_some_iff.mp
    obtain rfl : i = k := by
      obtain ⟨hlt, heq⟩ := List.getElem?_eq_some_iff.mp hk
      rwa [List.getElem_range] at heq
    exact handleInterrupt_after h hc (hcs c (List.mem_of_getElem? hc))

theorem irq_exclusive_timer :
    (∃ rets s, IrqExclusive [⟨0x1000, 0⟩, ⟨0x2000, 1⟩] rets s) ∧
      IrqService.handler ⟨0x1000, 0⟩ ≠ 0 ∧ IrqService.handler ⟨0x2000, 1⟩ ≠ 0 :=
  ⟨(irq_exclusive_iff [⟨0x1000, 0⟩, ⟨0x2000, 1⟩] (by decide)).1.mpr (by decide), by decide, by decide⟩

/-- **The 225th handler is written behind the table.** All vectors are given out, and the next call
still passes the test. -/
theorem request_irq_225_out_of_bounds :
    requestIrqs irqInit (List.replicate 225 ⟨0x1000, 0⟩) = none ∧
      (∃ rets s, requestIrqs irqInit (List.replicate 224 ⟨0x1000, 0⟩) = some (rets, s) ∧
        requestIrq s 0x1000 0 = none) := by
  have hlen : (List.replicate 224 (⟨0x1000, 0⟩ : IrqService)).length = nrInterrupts :=
    List.length_replicate
  refine ⟨?_, _, _, requestIrqs_init hlen.le, requestIrq_full hlen 0x1000 0⟩
  rw [← irqAfter_nil]
  apply requestIrqs_too_many _ [] (Nat.zero_le _)
  rw [List.length_replicate]
  decide

end Manticore
