import Manticore.Base.Run

/-!
# The scheduler

`kernel/sched.rs`: one current process, a queue of runnable and one of waiting processes.
A process is named by its place in the order of spawning.  Queues are intrusive: pushing a
process that is linked already panics, and so does replacing a state while it is borrowed.
Panics are `none`.

`device::process_io`, which `process_wait` calls, touches none of this state.
-/

namespace Manticore

inductive ProcessState where
  | runnable
  | running
  | waiting
deriving DecidableEq, Repr

/-- What the scheduler reads of a process: its task state and its MMU map. -/
structure SchedProcess where
  taskState : ℕ
  mmuMap : ℕ
deriving DecidableEq, Repr

/-- The statics of the scheduler, the state tags, and the map that `switch_to` of an address
space loaded last. -/
structure SchedState where
  processes : List SchedProcess
  state : ℕ → ProcessState
  current : Option ℕ
  runqueue : List ℕ
  waitqueue : List ℕ
  loaded : Option ℕ
  panicked : Bool

namespace SchedState

/-- The link of the process is in use. -/
def Linked (st : SchedState) (p : ℕ) : Prop := p ∈ st.runqueue ∨ p ∈ st.waitqueue

instance (st : SchedState) (p : ℕ) : Decidable (st.Linked p) :=
  inferInstanceAs (Decidable (_ ∨ _))

def setState (st : SchedState) (p : ℕ) (tag : ProcessState) : SchedState :=
  { st with state := Function.update st.state p tag }

def enqueue (st : SchedState) (p : ℕ) : Option SchedState :=
  let st := st.setState p .runnable
  if st.Linked p then none else some { st with runqueue := st.runqueue ++ [p] }

/-- `WAITQUEUE.push_back`. -/
def pushWait (st : SchedState) (p : ℕ) : Option SchedState :=
  if st.Linked p then none else some { st with waitqueue := st.waitqueue ++ [p] }

/-- `switch_to` of the address space of `p`. -/
def loadMap (st : SchedState) (p : ℕ) : SchedState :=
  { st with loaded := (st.processes[p]?).map SchedProcess.mmuMap }

def taskState (st : SchedState) (p : ℕ) : Option ℕ := (st.processes[p]?).map SchedProcess.taskState

/-- The first half of `schedule`: the current process goes into a queue. -/
def putPrev (st : SchedState) : Option SchedState :=
  match st.current with
  | none => some st
  | some prev =>
      match st.state prev with
      | .waiting => { st with current := none }.pushWait prev
      -- `enqueue` would replace the state that the match has borrowed
      | _ => none

def schedule (st : SchedState) : Option SchedState :=
  let prev := st.current
  st.putPrev.map fun st =>
    match st.runqueue with
    | [] => st
    | next :: rest =>
        let st := { st with runqueue := rest, current := some next }.setState next .running
        match prev with
        | none => st.loadMap next
        | some prev => if st.taskState prev ≠ st.taskState next then st.loadMap next else st

/-- `process_wait` panics without a current process. -/
def processWait (st : SchedState) : Option SchedState :=
  match st.current with
  | none => none
  | some p => (st.setState p .waiting).schedule

/-- The loop of `wake_up_processes` over the processes still waiting. -/
def wakeUp : List ℕ → SchedState → Option SchedState
  | [], st => some st
  | p :: ps, st => ({ st with waitqueue := ps }.enqueue p).bind (wakeUp ps)

def wakeUpProcesses (st : SchedState) : Option SchedState := wakeUp st.waitqueue st

/-- The end of `process_spawn`. -/
def spawn (st : SchedState) (p : SchedProcess) : Option SchedState :=
  { st with processes := st.processes ++ [p] }.enqueue st.processes.length

inductive Op where
  | spawn (p : SchedProcess)
  | wait
  | idle
deriving DecidableEq, Repr

def tryStep (st : SchedState) : Op → Option SchedState
  | .spawn p => st.spawn p
  | .wait => st.processWait
  | .idle => st.wakeUpProcesses.bind schedule

def step (st : SchedState) (op : Op) : SchedState :=
  (st.tryStep op).getD { st with panicked := true }

/-- A new process has a task state of its own, only a current process waits, and the idle
loop runs only if there is none. -/
def Allowed (st : SchedState) : Op → Prop
  | .spawn p => ∀ q ∈ st.processes, q.taskState ≠ p.taskState
  | .wait => st.current ≠ none
  | .idle => st.current = none

/-- Empty queues, no process. -/
def start : SchedState := ⟨[], fun _ => .runnable, none, [], [], none, false⟩

/-- **Placement.** Every process is in exactly one place, once, with the tag of that place;
the map of the current process is the one loaded last; and nothing panicked. -/
structure Placed (st : SchedState) : Prop where
  perm : (st.current.toList ++ st.runqueue ++ st.waitqueue).Perm (List.range st.processes.length)
  running : ∀ p ∈ st.current, st.state p = .running
  runnable : ∀ p ∈ st.runqueue, st.state p = .runnable
  waiting : ∀ p ∈ st.waitqueue, st.state p = .waiting
  loaded : ∀ p ∈ st.current, st.loaded = (st.processes[p]?).map SchedProcess.mmuMap
  calm : st.panicked = false

/-- Every process is in exactly one place with the tag of that place; the current process is
running, or has just begun to wait. -/
structure InPlace (st : SchedState) : Prop where
  perm : (st.current.toList ++ st.runqueue ++ st.waitqueue).Perm (List.range st.processes.length)
  current : ∀ p ∈ st.current, st.state p = .running ∨ st.state p = .waiting
  runnable : ∀ p ∈ st.runqueue, st.state p = .runnable
  waiting : ∀ p ∈ st.waitqueue, st.state p = .waiting

/-- The first runnable process is taken from the queue and runs, with some map loaded. -/
def runHead (st : SchedState) (next : ℕ) (rest : List ℕ) (loaded : Option ℕ) : SchedState :=
  { { st with runqueue := rest, current := some next }.setState next .running with
    loaded := loaded }

/-- The current process is at the end of the wait queue. -/
def putAway (st : SchedState) : SchedState :=
  { st with current := none, waitqueue := st.waitqueue ++ st.current.toList }

/-! ## Steps -/

variable {st st' : SchedState} {p : ℕ}

theorem enqueue_of_free (h : ¬ st.Linked p) : st.enqueue p =
    some { st.setState p .runnable with runqueue := st.runqueue ++ [p] } := if_neg h

theorem pushWait_of_free (h : ¬ st.Linked p) :
    st.pushWait p = some { st with waitqueue := st.waitqueue ++ [p] } := if_neg h

namespace InPlace

theorem nodup (h : InPlace st) : (st.current.toList ++ st.runqueue ++ st.waitqueue).Nodup :=
  h.perm.nodup_iff.mpr List.nodup_range

theorem putPrev (h : InPlace st) (hwaits : ∀ p ∈ st.current, st.state p = .waiting) :
    st.putPrev = some st.putAway ∧ InPlace st.putAway := by
  refine ⟨?_, ?_, (fun x hx => nomatch hx), h.runnable, ?_⟩
  · cases hcur : st.current with
    | none =>
        have hsame : st.putAway = st := by
          cases st
          simp_all [putAway]
        rw [hsame, SchedState.putPrev, hcur]
    | some p =>
        have hnodup := h.nodup
        rw [hcur, Option.toList_some, List.append_assoc, List.singleton_append] at hnodup
        have hfree : ¬ Linked { st with current := none } p := fun hl =>
          (List.nodup_cons.mp hnodup).1 (List.mem_append.mpr hl)
        simp only [SchedState.putPrev, putAway, hcur, hwaits p hcur]
        exact pushWait_of_free hfree
  · show (st.runqueue ++ (st.waitqueue ++ st.current.toList)).Perm _
    rw [← List.append_assoc]
    refine (List.perm_append_comm).trans ?_
    rw [← List.append_assoc]
    exact h.perm
  · intro x hx
    rcases List.mem_append.mp hx with hx | hx
    · exact h.waiting x hx
    · exact hwaits x (Option.mem_toList.mp hx)

theorem runHead {next : ℕ} {rest : List ℕ} (h : InPlace st) (hnone : st.current = none)
    (hrun : st.runqueue = next :: rest) (loaded : Option ℕ) :
    InPlace (st.runHead next rest loaded) := by
  have hnodup := h.nodup
  have hperm := h.perm
  rw [hnone, hrun, Option.toList_none, List.nil_append] at hnodup hperm
  have hkeep : ∀ x ∈ rest ++ st.waitqueue,
      Function.update st.state next .running x = st.state x := fun x hx =>
    Function.update_of_ne (fun heq => (List.nodup_cons.mp hnodup).1 (by rw [← heq]; exact hx)) _ _
  refine ⟨hperm, ?_, ?_, ?_⟩
  · intro x hx
    obtain rfl := Option.some.inj hx
    exact Or.inl (Function.update_self _ _ _)
  · intro x hx
    exact (hkeep x (List.mem_append_left _ hx)).trans
      (h.runnable x (by rw [hrun]; exact List.mem_cons_of_mem _ hx))
  · exact fun x hx => (hkeep x (List.mem_append_right _ hx)).trans (h.waiting x hx)

end InPlace

namespace Placed

theorem inPlace (h : Placed st) : InPlace st :=
  ⟨h.perm, fun p hp => .inl (h.running p hp), h.runnable, h.waiting⟩

theorem nodup (h : Placed st) :
    (st.current.toList ++ st.runqueue ++ st.waitqueue).Nodup := h.inPlace.nodup

theorem spawn (h : Placed st) (q : SchedProcess) :
    ∃ st', st.spawn q = some st' ∧ Placed st' := by
  have hnew : ∀ p ∈ st.current.toList ++ st.runqueue ++ st.waitqueue,
      p < st.processes.length := fun p hp => List.mem_range.mp (h.perm.mem_iff.mp hp)
  have hcur : ∀ p ∈ st.current, p < st.processes.length := fun p hp =>
    hnew p (by simp [Option.mem_def.mp hp])
  have hrun : ∀ p ∈ st.runqueue, p < st.processes.length := fun p hp => hnew p (by simp [hp])
  have hwait : ∀ p ∈ st.waitqueue, p < st.processes.length := fun p hp => hnew p (by simp [hp])
  have hfree : ¬ Linked { st with processes := st.processes ++ [q] } st.processes.length := by
    rintro (hl | hl)
    · exact absurd (hrun _ hl) (lt_irrefl _)
    · exact absurd (hwait _ hl) (lt_irrefl _)
  refine ⟨_, enqueue_of_free hfree, ?_⟩
  have hkeep : ∀ p < st.processes.length,
      Function.update st.state st.processes.length .runnable p = st.state p := fun p hp =>
    Function.update_of_ne (ne_of_lt hp) _ _
  refine ⟨?_, ?_, ?_, ?_, ?_, h.calm⟩
  · show (st.current.toList ++ (st.runqueue ++ [st.processes.length]) ++ st.waitqueue).Perm
      (List.range (st.processes ++ [q]).length)
    rw [List.length_append, List.length_singleton, List.range_succ]
    have hmove : (st.current.toList ++ (st.runqueue ++ [st.processes.length]) ++
        st.waitqueue).Perm (st.current.toList ++ st.runqueue ++ st.waitqueue ++
          [st.processes.length]) := by
      rw [← List.append_assoc, List.append_assoc, List.append_assoc _ st.waitqueue]
      exact List.Perm.append_left _ List.perm_append_comm
    exact hmove.trans (h.perm.append_right _)
  · exact fun p hp => (hkeep p (hcur p hp)).trans (h.running p hp)
  · intro p hp
    rcases List.mem_append.mp hp with hp | hp
    · exact (hkeep p (hrun p hp)).trans (h.runnable p hp)
    · rw [List.mem_singleton.mp hp]
      exact Function.update_self _ _ _
  · exact fun p hp => (hkeep p (hwait p hp)).trans (h.waiting p hp)
  · intro p hp
    show st.loaded = ((st.processes ++ [q])[p]?).map SchedProcess.mmuMap
    rw [List.getElem?_append_left (hcur p hp)]
    exact h.loaded p hp

theorem wakeOne {ps : List ℕ} (h : Placed st) (hwait : st.waitqueue = p :: ps) :
    ∃ st', { st with waitqueue := ps }.enqueue p = some st' ∧ st'.waitqueue = ps ∧
      st'.current = st.current ∧ st'.processes = st.processes ∧ Placed st' := by
  have hnodup := h.nodup
  rw [hwait] at hnodup
  obtain ⟨hfront, hback, hdisj⟩ := List.nodup_append.mp hnodup
  have hps : p ∉ ps := (List.nodup_cons.mp hback).1
  have hfresh : ∀ x ∈ st.current.toList ++ st.runqueue, x ≠ p := fun x hx =>
    hdisj x hx p List.mem_cons_self
  have hrun : p ∉ st.runqueue := fun hp => hfresh p (by simp [hp]) rfl
  have hfree : ¬ Linked { st with waitqueue := ps } p := by
    rintro (hl | hl)
    · exact hrun hl
    · exact hps hl
  have heq := enqueue_of_free hfree
  refine ⟨_, heq, rfl, rfl, rfl, ?_⟩
  have hkeep : ∀ x, x ≠ p → Function.update st.state p .runnable x = st.state x := fun x hx =>
    Function.update_of_ne hx _ _
  refine ⟨?_, ?_, ?_, ?_, h.loaded, h.calm⟩
  · show (st.current.toList ++ (st.runqueue ++ [p]) ++ ps).Perm (List.range st.processes.length)
    have hperm := h.perm
    rw [hwait] at hperm
    simpa using hperm
  · intro x hx
    have hne := hfresh x (List.mem_append_left _ (Option.mem_toList.mpr hx))
    exact (hkeep x hne).trans (h.running x hx)
  · intro x hx
    rcases List.mem_append.mp hx with hx | hx
    · exact (hkeep x (hfresh x (List.mem_append_right _ hx))).trans (h.runnable x hx)
    · rw [List.mem_singleton.mp hx]
      exact Function.update_self _ _ _
  · intro x hx
    have hne : x ≠ p := fun heq => hps (heq ▸ hx)
    exact (hkeep x hne).trans (h.waiting x (by rw [hwait]; exact List.mem_cons_of_mem _ hx))

theorem wakeUp {ps : List ℕ} (h : Placed st) (hwait : st.waitqueue = ps) :
    ∃ st', SchedState.wakeUp ps st = some st' ∧ st'.current = st.current ∧
      st'.processes = st.processes ∧ Placed st' := by
  induction ps generalizing st with
  | nil => exact ⟨st, rfl, rfl, rfl, h⟩
  | cons p ps ih =>
      obtain ⟨st₁, heq, hwait₁, hcur₁, hprocs₁, h₁⟩ := h.wakeOne hwait
      obtain ⟨st', heq', hcur', hprocs', h'⟩ := ih h₁ hwait₁
      refine ⟨st', ?_, hcur'.trans hcur₁, hprocs'.trans hprocs₁, h'⟩
      rw [SchedState.wakeUp, heq, Option.bind_some, heq']

theorem takeNext {next : ℕ} {rest : List ℕ} (h : Placed st) (hnone : st.current = none)
    (hrun : st.runqueue = next :: rest) {loaded : Option ℕ}
    (hloaded : loaded = (st.processes[next]?).map SchedProcess.mmuMap) :
    Placed (st.runHead next rest loaded) := by
  have hnext := h.inPlace.runHead hnone hrun loaded
  refine ⟨hnext.perm, fun x hx => ?_, hnext.runnable, hnext.waiting, fun x hx => ?_, h.calm⟩
  · obtain rfl := Option.some.inj hx
    exact Function.update_self _ _ _
  · obtain rfl := Option.some.inj hx
    exact hloaded

theorem inPlace_waiting (h : Placed st) (hcur : st.current = some p) :
    InPlace (st.setState p .waiting) := by
  have hnodup := h.nodup
  rw [hcur, Option.toList_some, List.append_assoc, List.singleton_append] at hnodup
  have hkeep : ∀ x ∈ st.runqueue ++ st.waitqueue,
      Function.update st.state p .waiting x = st.state x := fun x hx =>
    Function.update_of_ne (fun heq => (List.nodup_cons.mp hnodup).1 (by rw [← heq]; exact hx)) _ _
  refine ⟨h.perm, fun x hx => .inr ?_, fun x hx => ?_, fun x hx => ?_⟩
  · obtain rfl := Option.some.inj (hcur.symm.trans hx)
    exact Function.update_self _ _ _
  · exact (hkeep x (List.mem_append_left _ hx)).trans (h.runnable x hx)
  · exact (hkeep x (List.mem_append_right _ hx)).trans (h.waiting x hx)

theorem putPrev (h : Placed st) (hcur : st.current = some p) :
    ∃ st', (st.setState p .waiting).putPrev = some st' ∧ st'.current = none ∧
      st'.runqueue = st.runqueue ∧ st'.processes = st.processes ∧ Placed st' := by
  have hwaits : ∀ x ∈ (st.setState p .waiting).current,
      (st.setState p .waiting).state x = .waiting := by
    intro x hx
    obtain rfl := Option.some.inj (hcur.symm.trans hx)
    exact Function.update_self _ _ _
  obtain ⟨heq, hin⟩ := (h.inPlace_waiting hcur).putPrev hwaits
  exact ⟨_, heq, rfl, rfl, rfl, hin.perm, (fun x hx => nomatch hx), hin.runnable, hin.waiting,
    (fun x hx => nomatch hx), h.calm⟩

end Placed

/-- Every process has a task state of its own. -/
def OwnTasks (st : SchedState) : Prop := (st.processes.map SchedProcess.taskState).Nodup

theorem Placed.schedule_idle (h : Placed st) (hnone : st.current = none) :
    ∃ st', st.schedule = some st' ∧ st'.processes = st.processes ∧ Placed st' := by
  have hput : st.putPrev = some st := by rw [SchedState.putPrev, hnone]
  rcases hrun : st.runqueue with _ | ⟨next, rest⟩
  · refine ⟨st, ?_, rfl, h⟩
    simp only [schedule, hput, Option.map_some, hrun]
  · have hnext := h.takeNext hnone hrun rfl
    refine ⟨_, ?_, ?_, hnext⟩
    · simp only [schedule, hput, Option.map_some, hrun, hnone]
      rfl
    · rfl

theorem Placed.processWait (h : Placed st) (htasks : OwnTasks st) (hcur : st.current = some p) :
    ∃ st', st.processWait = some st' ∧ st'.processes = st.processes ∧ Placed st' := by
  obtain ⟨st₁, hput, hcur₁, hrun₁, hprocs₁, h₁⟩ := h.putPrev hcur
  have hcur' : (st.setState p .waiting).current = some p := hcur
  rcases hrun : st₁.runqueue with _ | ⟨next, rest⟩
  · refine ⟨st₁, ?_, hprocs₁, h₁⟩
    simp only [SchedState.processWait, hcur, schedule, hput, Option.map_some, hrun]
  · have hnext := h₁.takeNext hcur₁ hrun rfl
    have hne : st₁.taskState p ≠ st₁.taskState next := by
      intro heq
      have hnodup := h.nodup
      rw [hcur, ← hrun₁, hrun] at hnodup
      have hlt : p < st.processes.length :=
        List.mem_range.mp (h.perm.mem_iff.mp (by rw [hcur]; simp))
      rw [SchedState.taskState, SchedState.taskState, hprocs₁, ← List.getElem?_map,
        ← List.getElem?_map] at heq
      obtain rfl := (List.getElem?_inj (by rw [List.length_map]; exact hlt) htasks).mp heq
      simp at hnodup
    refine ⟨_, ?_, ?_, hnext⟩
    · simp only [SchedState.processWait, hcur, schedule, hput, Option.map_some, hrun, hcur']
      show some (if st₁.taskState p ≠ st₁.taskState next then _ else _) = _
      rw [if_pos hne]
      rfl
    · exact hprocs₁

/-! ## Runs -/

theorem Placed.tryStep {op : Op} (h : Placed st) (htasks : OwnTasks st) (hop : Allowed st op) :
    ∃ st', st.tryStep op = some st' ∧ Placed st' ∧ OwnTasks st' := by
  cases op with
  | spawn q =>
      obtain ⟨st', heq, h'⟩ := h.spawn q
      have hprocs : st'.processes = st.processes ++ [q] := by
        rw [SchedState.spawn, enqueue] at heq
        split at heq
        · cases heq
        · rw [← Option.some.inj heq]
          rfl
      refine ⟨st', heq, h', ?_⟩
      rw [OwnTasks, hprocs, List.map_append]
      refine List.nodup_append.mpr ⟨htasks, List.nodup_singleton _, ?_⟩
      intro a ha b hb
      obtain ⟨r, hr, rfl⟩ := List.mem_map.mp ha
      rw [List.mem_singleton.mp hb]
      exact hop r hr
  | wait =>
      obtain ⟨p, hcur⟩ := Option.ne_none_iff_exists'.mp hop
      obtain ⟨st', heq, hprocs, h'⟩ := h.processWait htasks hcur
      exact ⟨st', heq, h', by rw [OwnTasks, hprocs]; exact htasks⟩
  | idle =>
      obtain ⟨st₁, heq₁, hcur₁, hprocs₁, h₁⟩ := h.wakeUp rfl
      obtain ⟨st', heq, hprocs, h'⟩ := h₁.schedule_idle (hcur₁.trans hop)
      refine ⟨st', ?_, h', by rw [OwnTasks, hprocs, hprocs₁]; exact htasks⟩
      rw [SchedState.tryStep, wakeUpProcesses, heq₁, Option.bind_some, heq]

theorem placed_start : Placed start :=
  ⟨List.Perm.refl _, fun _ h => absurd h (by simp [start]), List.forall_mem_nil _,
    List.forall_mem_nil _, fun _ h => absurd h (by simp [start]), rfl⟩

/-- **Every process has its place** after any sequence of spawns, waits and idle rounds. -/
theorem run_placed {ops : List Op} (h : Guarded step Allowed start ops) :
    Placed (run step start ops) := by
  have hinv := run_invariant_of_guarded (P := fun st => Placed st ∧ OwnTasks st)
    (fun st op hop hst => ?_) h ⟨placed_start, List.nodup_nil⟩
  · exact hinv.1
  · obtain ⟨st', heq, hst'⟩ := hst.1.tryStep hst.2 hop
    rw [step, heq]
    exact hst'

/-- Two processes take turns. -/
theorem run_placed_two_processes : Placed (run step start
    [.spawn ⟨1, 0x1000⟩, .spawn ⟨2, 0x2000⟩, .idle, .wait, .wait, .idle]) := by
  refine run_placed ⟨?_, ?_, ?_, ?_, ?_, ?_, trivial⟩ <;> simp only [Allowed] <;> decide

end SchedState

end Manticore
