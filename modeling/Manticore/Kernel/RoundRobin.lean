import Manticore.Kernel.Sched

/-!
# Round robin and preemption

`RUNQUEUE` is a queue: what is taken from its head and what is left is what was there and what
was appended.  So nobody overtakes, whatever is spawned or woken up in between.

`schedule` cannot preempt.  The guard of `prev.state.borrow()` lives through the arms of its
match, and `enqueue` in the second arm replaces the state under it.
-/

namespace Manticore

namespace SchedState

/-! ## Dispatches -/

/-- The process that a step makes current. -/
def dispatched (st : SchedState) : Op → List ℕ
  | .spawn _ => []
  | .wait => (st.step .wait).current.toList
  | .idle => (st.step .idle).current.toList

/-- The processes that a step appends to the run queue. -/
def enqueued (st : SchedState) : Op → List ℕ
  | .spawn _ => [st.processes.length]
  | .wait => []
  | .idle => st.waitqueue

/-- The process that begins to wait in a step. -/
def begins (st : SchedState) : Op → List ℕ
  | .spawn _ => []
  | .wait => st.current.toList
  | .idle => []

/-- What the steps of a run yield, in order. -/
def collect (f : SchedState → Op → List ℕ) : SchedState → List Op → List ℕ
  | _, [] => []
  | st, op :: ops => f st op ++ collect f (st.step op) ops

def dispatches : SchedState → List Op → List ℕ := collect dispatched

/-- The processes that called `process_wait`, in order. -/
def waits : SchedState → List Op → List ℕ := collect begins

variable {st st' : SchedState} {p : ℕ}

/-! ## The queues after a call -/

theorem enqueue_queues (h : st.enqueue p = some st') :
    st'.runqueue = st.runqueue ++ [p] ∧ st'.waitqueue = st.waitqueue ∧
      st'.current = st.current := by
  rw [enqueue] at h
  split at h
  · cases h
  · obtain rfl := Option.some.inj h
    exact ⟨rfl, rfl, rfl⟩

theorem wakeUp_queues {ps : List ℕ} (hwait : st.waitqueue = ps) (h : wakeUp ps st = some st') :
    st'.runqueue = st.runqueue ++ ps ∧ st'.waitqueue = [] := by
  induction ps generalizing st with
  | nil =>
      obtain rfl := Option.some.inj h
      exact ⟨(List.append_nil _).symm, hwait⟩
  | cons p ps ih =>
      rw [wakeUp] at h
      obtain ⟨st₁, henq, hrest⟩ := Option.bind_eq_some_iff.mp h
      obtain ⟨hrun₁, hwait₁, -⟩ := enqueue_queues henq
      obtain ⟨hrun, hwait'⟩ := ih hwait₁ hrest
      refine ⟨?_, hwait'⟩
      rw [hrun, hrun₁, List.append_assoc, List.singleton_append]

theorem wakeUp_current {ps : List ℕ} (h : wakeUp ps st = some st') : st'.current = st.current := by
  induction ps generalizing st with
  | nil =>
      obtain rfl := Option.some.inj h
      rfl
  | cons p ps ih =>
      rw [wakeUp] at h
      obtain ⟨st₁, henq, hrest⟩ := Option.bind_eq_some_iff.mp h
      rw [ih hrest, (enqueue_queues henq).2.2]

theorem schedule_cases {st₁ : SchedState} (hput : st.putPrev = some st₁) :
    (st₁.runqueue = [] ∧ st.schedule = some st₁) ∨
      ∃ next rest loaded, st₁.runqueue = next :: rest ∧
        st.schedule = some (st₁.runHead next rest loaded) := by
  simp only [schedule, hput, Option.map_some]
  rcases hrun : st₁.runqueue with _ | ⟨next, rest⟩
  · exact Or.inl ⟨rfl, rfl⟩
  · refine Or.inr ⟨next, rest, ?_⟩
    cases st.current with
    | none => exact ⟨_, rfl, rfl⟩
    | some prev =>
        dsimp only
        split
        · exact ⟨_, rfl, rfl⟩
        · exact ⟨st₁.loaded, rfl, rfl⟩

theorem putPrev_queues (h : st.putPrev = some st') : st'.current = none ∧
    st'.runqueue = st.runqueue ∧ st'.waitqueue = st.waitqueue ++ st.current.toList := by
  rw [putPrev] at h
  cases hcur : st.current with
  | none =>
      rw [hcur] at h
      obtain rfl := Option.some.inj h
      exact ⟨hcur, rfl, (List.append_nil _).symm⟩
  | some prev =>
      simp only [hcur] at h
      split at h
      · rw [pushWait] at h
        split at h
        · cases h
        · obtain rfl := Option.some.inj h
          exact ⟨rfl, rfl, rfl⟩
      · cases h

theorem schedule_takes (h : st.schedule = some st') :
    st'.current.toList ++ st'.runqueue = st.runqueue ∧
      st'.waitqueue = st.waitqueue ++ st.current.toList := by
  obtain ⟨st₁, hput, -⟩ := Option.map_eq_some_iff.mp h
  obtain ⟨hcur, hrun, hwait⟩ := putPrev_queues hput
  rw [← hrun, ← hwait]
  rcases schedule_cases hput with ⟨-, heq⟩ | ⟨next, rest, loaded, hrun₁, heq⟩
  · rw [h] at heq
    obtain rfl := Option.some.inj heq
    rw [hcur]
    exact ⟨rfl, rfl⟩
  · rw [h] at heq
    obtain rfl := Option.some.inj heq
    exact ⟨hrun₁.symm, rfl⟩

/-! ## Nobody overtakes -/

section Steps

variable {op : Op}

theorem step_of_some (h : st.tryStep op = some st') : st.step op = st' := by
  rw [step, h]
  rfl

/-- **One step**: what is taken from the head of the run queue and what is left are what was
there and what was appended. -/
theorem tryStep_runqueue (h : st.tryStep op = some st') (hop : Allowed st op) :
    st.dispatched op ++ st'.runqueue = st.runqueue ++ st.enqueued op := by
  have hstep := step_of_some h
  cases op with
  | spawn q => exact (enqueue_queues h).1
  | wait =>
      rw [dispatched, hstep, enqueued, List.append_nil]
      obtain ⟨p, hcur⟩ := Option.ne_none_iff_exists'.mp hop
      simp only [tryStep, processWait, hcur] at h
      exact (schedule_takes h).1
  | idle =>
      rw [dispatched, hstep, enqueued]
      obtain ⟨st₁, hwake, hsched⟩ := Option.bind_eq_some_iff.mp h
      rw [(schedule_takes hsched).1]
      exact (wakeUp_queues rfl hwake).1

theorem tryStep_waitqueue (h : st.tryStep op = some st') (hop : Allowed st op) :
    st'.waitqueue <:+ st.waitqueue ++ st.begins op := by
  cases op with
  | spawn q =>
      rw [begins, List.append_nil, (enqueue_queues h).2.1]
  | wait =>
      obtain ⟨p, hcur⟩ := Option.ne_none_iff_exists'.mp hop
      simp only [tryStep, processWait, hcur] at h
      rw [(schedule_takes h).2]
      exact List.suffix_refl _
  | idle =>
      obtain ⟨st₁, hwake, hsched⟩ := Option.bind_eq_some_iff.mp h
      have hcur : st₁.current = none := by
        rw [← hop]
        exact wakeUp_current hwake
      rw [(schedule_takes hsched).2, (wakeUp_queues rfl hwake).2, hcur]
      exact List.nil_suffix

end Steps

theorem Placed.step (h : Placed st ∧ OwnTasks st) {op : Op} (hop : Allowed st op) :
    st.tryStep op = some (st.step op) ∧ Placed (st.step op) ∧ OwnTasks (st.step op) := by
  obtain ⟨st', heq, hst'⟩ := h.1.tryStep h.2 hop
  rw [step_of_some heq]
  exact ⟨heq, hst'⟩

/-- **A run**: the dispatches and the run queue at the end are the run queue at the start and
what was appended. -/
theorem Placed.dispatches_append (h : Placed st ∧ OwnTasks st) {ops : List Op}
    (hops : Guarded SchedState.step Allowed st ops) :
    dispatches st ops ++ (run SchedState.step st ops).runqueue =
      st.runqueue ++ collect enqueued st ops := by
  induction ops generalizing st with
  | nil => exact (List.append_nil _).symm
  | cons op ops ih =>
      obtain ⟨heq, hnext⟩ := Placed.step h hops.1
      have hrest := ih hnext hops.2
      rw [dispatches] at hrest ⊢
      rw [run_cons, collect, collect, List.append_assoc, hrest, ← List.append_assoc,
        tryStep_runqueue heq hops.1, List.append_assoc]

theorem Placed.waitqueue_suffix (h : Placed st ∧ OwnTasks st) {ops : List Op}
    (hops : Guarded SchedState.step Allowed st ops) :
    (run SchedState.step st ops).waitqueue <:+ st.waitqueue ++ waits st ops := by
  induction ops generalizing st with
  | nil =>
      show st.waitqueue <:+ st.waitqueue ++ []
      rw [List.append_nil]
  | cons op ops ih =>
      obtain ⟨heq, hnext⟩ := Placed.step h hops.1
      have hrest := ih hnext hops.2
      rw [waits] at hrest ⊢
      rw [run_cons, collect, ← List.append_assoc]
      obtain ⟨front, hfront⟩ := tryStep_waitqueue heq hops.1
      refine hrest.trans ⟨front, ?_⟩
      rw [← hfront, List.append_assoc]

theorem eq_of_append_cons {pre front post back : List ℕ} (hpre : p ∉ pre) (hfront : p ∉ front)
    (h : front ++ p :: back = pre ++ p :: post) : front = pre := by
  induction front generalizing pre with
  | nil =>
      cases pre with
      | nil => rfl
      | cons x pre =>
          obtain ⟨rfl, -⟩ := List.cons.inj h
          exact absurd List.mem_cons_self hpre
  | cons y front ih =>
      cases pre with
      | nil =>
          obtain ⟨rfl, -⟩ := List.cons.inj h
          exact absurd List.mem_cons_self hfront
      | cons x pre =>
          obtain ⟨rfl, hrest⟩ := List.cons.inj h
          rw [ih (fun hp => hpre (List.mem_cons_of_mem _ hp))
            (fun hp => hfront (List.mem_cons_of_mem _ hp)) hrest]

/-- **No overtaking.** After any run, a process with `pre` ahead of it in the run queue is
dispatched right after these, in their order, whatever happens until then; and
`wake_up_processes` appends all that wait, in the order in which they began to. -/
theorem run_no_overtaking (ops more : List Op) (h : Guarded step Allowed start (ops ++ more)) :
    let st := run step start ops
    (∀ pre p post, st.runqueue = pre ++ p :: post →
      (∀ before after, dispatches st more = before ++ p :: after → p ∉ before → before = pre) ∧
      (p ∉ dispatches st more → dispatches st more <+: pre)) ∧
    st.waitqueue <:+ waits start ops ∧
    ∃ st', st.wakeUpProcesses = some st' ∧ st'.runqueue = st.runqueue ++ st.waitqueue ∧
      st'.waitqueue = [] := by
  intro st
  have hstart : Placed start ∧ OwnTasks start := ⟨placed_start, List.nodup_nil⟩
  have hops := h.of_append
  have hst : Placed st ∧ OwnTasks st :=
    run_invariant_of_guarded (P := fun st => Placed st ∧ OwnTasks st)
      (fun s op hop hs => (Placed.step hs hop).2) hops hstart
  refine ⟨?_, ?_, ?_⟩
  · intro pre p post hrun
    have hfifo := Placed.dispatches_append hst h.rest
    rw [hrun, List.append_assoc, List.cons_append] at hfifo
    have hnot : p ∉ pre := by
      have hnodup := (List.nodup_append.mp (List.nodup_append.mp hst.1.nodup).1).2.1
      rw [hrun] at hnodup
      exact fun hp => (List.nodup_append.mp hnodup).2.2 p hp p List.mem_cons_self rfl
    refine ⟨fun before after hd hbefore => ?_, fun hnever => ?_⟩
    · rw [hd, List.append_assoc, List.cons_append] at hfifo
      exact eq_of_append_cons hnot hbefore hfifo
    · rcases List.append_eq_append_iff.mp hfifo with ⟨l, hl, -⟩ | ⟨l, hl, hrest⟩
      · exact ⟨l, hl.symm⟩
      · cases l with
        | nil => rw [hl, List.append_nil]
        | cons x l =>
            obtain ⟨rfl, -⟩ := List.cons.inj hrest
            exact absurd (by rw [hl]; simp) hnever
  · exact Placed.waitqueue_suffix hstart hops
  · obtain ⟨st', hwake, -⟩ := hst.1.wakeUp rfl
    exact ⟨st', hwake, wakeUp_queues rfl hwake⟩

/-- Three processes: the third is dispatched after the first two, and a fourth one spawned in
between does not change that. -/
theorem run_no_overtaking_three :
    let st := run step start [.spawn ⟨1, 0x1000⟩, .spawn ⟨2, 0x2000⟩, .spawn ⟨3, 0x3000⟩]
    let more : List Op := [.idle, .spawn ⟨4, 0x4000⟩, .wait, .wait, .wait, .wait, .idle]
    dispatches st more = [0, 1, 2, 3, 0] ∧
      ∀ before after, dispatches st more = before ++ 2 :: after → 2 ∉ before → before = [0, 1] := by
  intro st more
  refine ⟨by decide, ((run_no_overtaking [.spawn ⟨1, 0x1000⟩, .spawn ⟨2, 0x2000⟩,
    .spawn ⟨3, 0x3000⟩] more ?_).1 [0, 1] 2 [] (by decide)).1⟩
  refine ⟨?_, ?_, ?_, ?_, ?_, ?_, ?_, ?_, ?_, ?_, trivial⟩ <;> simp only [Allowed] <;> decide

/-! ## Preemption -/

/-- The run queue once the current process is put away: at the tail, if it was running. -/
def readyQueue (st : SchedState) : List ℕ :=
  st.runqueue ++ st.current.toList.filter fun p => decide (st.state p ≠ .waiting)

def blockedQueue (st : SchedState) : List ℕ :=
  st.waitqueue ++ st.current.toList.filter fun p => decide (st.state p = .waiting)

/-- `schedule` returns, with the head of the ready processes running, the others in their order,
and every process in its place. -/
def Preempts (st : SchedState) : Prop :=
  ∃ st', st.schedule = some st' ∧ st'.current = st.readyQueue.head? ∧
    st'.runqueue = st.readyQueue.tail ∧ st'.waitqueue = st.blockedQueue ∧
    (∀ p ∈ st'.current, st'.state p = .running) ∧ InPlace st'

/-! ### The borrow of the state cell -/

/-- `RefCell::replace` of the state of `p`, where `borrows` counts the guards that are alive. -/
def replaceState (borrows : ℕ → ℕ) (st : SchedState) (p : ℕ) (tag : ProcessState) :
    Option SchedState :=
  if borrows p = 0 then some (st.setState p tag) else none

/-- `enqueue`, with the borrows of its caller. -/
def enqueueBorrowed (borrows : ℕ → ℕ) (st : SchedState) (p : ℕ) : Option SchedState :=
  (st.replaceState borrows p .runnable).bind fun st =>
    if st.Linked p then none else some { st with runqueue := st.runqueue ++ [p] }

/-- The closure of `schedule`. The guard of the scrutinee is alive in both arms. -/
def putPrevBorrowed (borrows : ℕ → ℕ) (st : SchedState) : Option SchedState :=
  match st.current with
  | none => some st
  | some prev =>
      let st := { st with current := none }
      let borrows := Function.update borrows prev (borrows prev + 1)
      match st.state prev with
      | .waiting => st.pushWait prev
      | _ => st.enqueueBorrowed borrows prev

/-- Whatever else is borrowed, the second arm panics. -/
theorem putPrevBorrowed_eq (borrows : ℕ → ℕ) (st : SchedState) :
    st.putPrevBorrowed borrows = st.putPrev := by
  have hpanic : ∀ (st : SchedState) p,
      st.enqueueBorrowed (Function.update borrows p (borrows p + 1)) p = none := by
    intro st p
    simp [enqueueBorrowed, replaceState]
  rw [putPrevBorrowed, putPrev]
  cases hcur : st.current with
  | none => rfl
  | some prev =>
      dsimp only
      cases st.state prev with
      | waiting => rfl
      | runnable => exact hpanic _ prev
      | running => exact hpanic _ prev

theorem schedule_panics (hcur : st.current = some p) (hp : st.state p ≠ .waiting) :
    st.schedule = none := by
  have hput : st.putPrev = none := by simp only [putPrev, hcur]
  simp only [schedule, hput, Option.map_none]

/-- **`schedule` preempts nobody.** With every process in its place, it does what it should if
and only if the current process, if there is one, has begun to wait. -/
theorem schedule_preempts_iff (h : InPlace st) :
    Preempts st ↔ ∀ p ∈ st.current, st.state p = .waiting := by
  constructor
  · rintro ⟨st', hsched, -⟩ p hcur
    by_contra hp
    rw [schedule_panics hcur hp] at hsched
    cases hsched
  · intro hwaits
    have hready : st.readyQueue = st.runqueue := by
      have hnone : (st.current.toList.filter fun p => decide (st.state p ≠ .waiting)) = [] :=
        List.filter_eq_nil_iff.mpr fun p hp => by simp [hwaits p (Option.mem_toList.mp hp)]
      rw [readyQueue, hnone, List.append_nil]
    have hblocked : st.blockedQueue = st.waitqueue ++ st.current.toList := by
      rw [blockedQueue, List.filter_eq_self.mpr]
      exact fun p hp => by simp [hwaits p (Option.mem_toList.mp hp)]
    obtain ⟨hput, h₁⟩ := h.putPrev hwaits
    obtain ⟨hcur, hrun, hwait⟩ := putPrev_queues hput
    rw [Preempts, hready, hblocked, ← hrun, ← hwait]
    rcases schedule_cases hput with ⟨hnil, heq⟩ | ⟨next, rest, loaded, hrun₁, heq⟩
    · refine ⟨_, heq, ?_, ?_, rfl, ?_, h₁⟩
      · rw [hcur, hnil]
        rfl
      · rw [hnil]
        rfl
      · exact fun p hp => absurd hp (by simp [hcur])
    · refine ⟨_, heq, ?_, ?_, rfl, ?_, h₁.runHead hcur hrun₁ loaded⟩
      · rw [hrun₁]
        rfl
      · rw [hrun₁]
        rfl
      · intro p hp
        obtain rfl := Option.some.inj hp
        exact Function.update_self _ _ _

/-- One process, current with the tag `tag`. -/
def oneProcess (tag : ProcessState) : SchedState :=
  ⟨[⟨1, 0x1000⟩], fun _ => tag, some 0, [], [], some 0x1000, false⟩

theorem inPlace_oneProcess {tag : ProcessState} (h : tag = .running ∨ tag = .waiting) :
    InPlace (oneProcess tag) :=
  ⟨List.Perm.refl _, fun _ _ => h, List.forall_mem_nil _, List.forall_mem_nil _⟩

/-- A process that waits gives way. -/
theorem schedule_preempts_waiting : Preempts (oneProcess .waiting) :=
  (schedule_preempts_iff (inPlace_oneProcess (Or.inr rfl))).mpr fun _ _ => rfl

/-- **A running process** with nobody else to run: the state is in order, and `schedule`
panics. -/
theorem schedule_running_panics :
    InPlace (oneProcess .running) ∧ (oneProcess .running).schedule = none ∧
      ¬ Preempts (oneProcess .running) := by
  refine ⟨inPlace_oneProcess (Or.inl rfl), rfl, ?_⟩
  rintro ⟨st', hsched, -⟩
  cases hsched

end SchedState

end Manticore
