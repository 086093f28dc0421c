import ModuleForge.Worker.Pool
import Mathlib.Data.List.Induction

/-!
# What can happen to a worker pool

`Happens job p s q` lists everything that a step `s` can make of a pool `p`, with what the pool has
checked before. `happens_of_step?` says that a step does nothing else, and `run?_induction` carries
a property of pools from one step to whole runs. The invariants of pools rest on these two.
`StartsSucceed` says of a run that there was a thread for every dedicated worker.
-/

namespace ModuleForge.Worker.Pool

variable {job : Job} {p q : Pool} {i capacity : Nat} {id : Task.Id} {payload : Task.Payload}
    {late : Bool} {launch : Launch} {w : Worker}

/-! ## The tasks -/

theorem exists_tasks_updatePhase {t : Entry} (ht : p.tasks[i]? = some t) (f : Phase → Phase) :
    ∃ before after, p.tasks = before ++ t :: after ∧
      (p.updatePhase i f).tasks = before ++ { t with phase := f t.phase } :: after := by
  obtain ⟨hi, rfl⟩ := List.getElem?_eq_some_iff.1 ht
  refine ⟨p.tasks.take i, p.tasks.drop (i + 1), ?_, List.modify_eq_take_cons_drop hi⟩
  rw [List.getElem_cons_drop, List.take_append_drop]

theorem getElem?_updatePhase_self {t : Entry} (ht : p.tasks[i]? = some t) (f : Phase → Phase) :
    (p.updatePhase i f).tasks[i]? = some { t with phase := f t.phase } := by
  simp [updatePhase, ht]

theorem getElem?_updatePhase_ne {j : Nat} (h : i ≠ j) (f : Phase → Phase) :
    (p.updatePhase i f).tasks[j]? = p.tasks[j]? :=
  List.getElem?_modify_ne _ _ h

/-- What identifies the tasks, in the order of submission. -/
def identities (p : Pool) : List (Task.Id × Task.Payload) := p.tasks.map fun t => (t.id, t.payload)

theorem identities_updatePhase (i : Nat) (f : Phase → Phase) :
    (p.updatePhase i f).identities = p.identities := by
  refine List.ext_getElem? fun j => ?_
  simp only [identities, updatePhase, List.getElem?_map, List.getElem?_modify]
  cases p.tasks[j]? with
  | none => rfl
  | some t => by_cases h : i = j <;> simp [h]

theorem identities_submit (key : String) (payload : Task.Payload) :
    (p.submit key payload).2.identities = p.identities ++ [(⟨key, p.sequence⟩, payload)] :=
  List.map_append

/-! ## What a step can do -/

/-- A worker is taken from its place: the newest warm one, the one that has been idle for longest,
or a new one. -/
inductive Draws (p : Pool) : Launch → Worker → Origin → Pool → Prop
  | warm {launch : Launch} {warm : WarmPool} {w : Worker} {rest : List Worker}
      (hwarm : p.warm = some warm) (hlast : warm.workers = rest ++ [w]) :
      Draws p launch w .warm { p with warm := some { warm with workers := rest } }
  | idle {launch : Launch} {w : Worker} {rest : List Worker} (hidle : p.idle = w :: rest) :
      Draws p launch w .dedicated { p with idle := rest }
  | start (hidle : p.idle = []) (hroom : p.spawned < p.capacity) :
      Draws p .started ⟨p.started, "kiln-worker-" ++ toString p.spawned⟩ .dedicated
        { p with spawned := p.spawned + 1, live := p.live + 1, started := p.started + 1 }

/-- There is no dedicated worker to be had: all of them are busy or lost, or a new one cannot be
started. -/
inductive Misses (p : Pool) : Launch → Pool → Prop
  | full {launch : Launch} (hidle : p.idle = []) (hfull : p.capacity ≤ p.spawned) :
      Misses p launch p
  | failed (hidle : p.idle = []) (hroom : p.spawned < p.capacity) :
      Misses p .failed { p with spawned := p.spawned + 1, failed := p.failed + 1 }

/-- **Everything that a step can make of a pool.** -/
inductive Happens (job : Job) (p : Pool) : Step → Pool → Prop
  | submit (key : String) (payload : Task.Payload) :
      Happens job p (.submit key payload) (p.submit key payload).2
  | fill (launches : List Launch) : Happens job p (.fill launches) (p.fill launches)
  | mark : Happens job p .mark p.mark
  /-- A waiting task draws a worker. Only its first look goes to the warm ones. -/
  | lend {i : Nat} {launch : Launch} {id : Task.Id} {payload : Task.Payload} {late permit : Bool}
      {w : Worker} {origin : Origin} {q : Pool}
      (htask : p.tasks[i]? = some ⟨id, payload, .waiting late⟩)
      (hawake : late = true → i ∉ p.sleepers) (hwarm : origin = .warm → late = false)
      (hdraw : Draws { p with permit } launch w origin q) :
      Happens job p (.dispatch i launch) (q.lend i id payload w origin)
  /-- There is no worker for a waiting task, and there will be none. -/
  | refuse {i : Nat} {launch : Launch} {id : Task.Id} {payload : Task.Payload} {late permit : Bool}
      {sleepers : List Nat} {q : Pool} (htask : p.tasks[i]? = some ⟨id, payload, .waiting late⟩)
      (hawake : late = true → i ∉ p.sleepers)
      (hsleepers : sleepers = p.sleepers ∨ sleepers = p.sleepers.tail)
      (hmiss : Misses { p with permit, sleepers } launch q)
      (hexhausted : q.live = 0 ∧ q.capacity ≤ q.spawned) :
      Happens job p (.dispatch i launch) (q.setPhase i (.finished (.error .noWorkers)))
  /-- A waiting task has found no worker, and will look once more or goes to sleep. -/
  | wait {i : Nat} {launch : Launch} {id : Task.Id} {payload : Task.Payload} {late : Bool}
      {sleepers : List Nat} {q : Pool} (htask : p.tasks[i]? = some ⟨id, payload, .waiting late⟩)
      (hawake : late = true → i ∉ p.sleepers)
      (hsleepers : sleepers = p.sleepers ∨ sleepers = p.sleepers ++ [i])
      (hmiss : Misses { p with permit := false, sleepers } launch q) :
      Happens job p (.dispatch i launch) (q.setPhase i (.waiting true))
  /-- A new worker cannot be started for a waiting task, which will try again. -/
  | retry {i : Nat} {launch : Launch} {id : Task.Id} {payload : Task.Payload} {q : Pool}
      (htask : p.tasks[i]? = some ⟨id, payload, .waiting false⟩) (hmiss : Misses p launch q)
      (hfailed : p.failed < q.failed) :
      Happens job p (.dispatch i launch) q
  /-- A worker takes up a request. -/
  | answer {before after : List Request} {r : Request} {reply : Reply}
      (hrequests : p.requests = before ++ r :: after)
      (hreply : reply =
        if r.worker ∈ p.dead then .dropped else r.worker.respond job r.id r.payload) :
      Happens job p (.answer r.worker)
        (updatePhase { p with
          requests := before ++ after
          dead := if reply = .dropped then p.dead ++ [r.worker] else p.dead } r.task
          (Phase.receive reply))
  | release {i : Nat} {id : Task.Id} {payload : Task.Payload} {w : Worker} {origin : Origin}
      {response : Task.Response}
      (htask : p.tasks[i]? = some ⟨id, payload, .running w origin (.arrived response)⟩) :
      Happens job p (.conclude i)
        ((p.release w origin).setPhase i (.finished (resultOf id response)))
  | lose {i : Nat} {id : Task.Id} {payload : Task.Payload} {w : Worker} {origin : Origin}
      (htask : p.tasks[i]? = some ⟨id, payload, .running w origin .dropped⟩) :
      Happens job p (.conclude i)
        ((p.lose w origin).setPhase i (.finished (.error (.workerLost id))))

theorem draws_of_takeDedicated (h : p.takeDedicated launch = (some w, q)) :
    Draws p launch w .dedicated q := by
  unfold takeDedicated at h
  split at h
  · cases h
    exact .idle ‹_›
  · split at h
    · split at h
      · cases h
        exact .start ‹_› ‹_›
      · cases h
    · cases h

theorem misses_of_takeDedicated (h : p.takeDedicated launch = (none, q)) : Misses p launch q := by
  unfold takeDedicated at h
  split at h
  · cases h
  · split at h
    · split at h
      · cases h
      · cases h
        exact .failed ‹_› ‹_›
    · cases h
      exact .full ‹_› (Nat.le_of_not_lt ‹_›)

/-- A look that finds no worker may at most have used up capacity. -/
theorem Misses.exists_eq (h : Misses p launch q) :
    p.idle = [] ∧ ∃ spawned failed, q = { p with spawned, failed } := by
  cases h with
  | full hidle => exact ⟨hidle, _, _, rfl⟩
  | failed hidle => exact ⟨hidle, _, _, rfl⟩

theorem Misses.frame (h : Misses p launch q) (sleepers : List Nat) (permit : Bool) :
    Misses { p with sleepers, permit } launch { q with sleepers, permit } := by
  cases h with
  | full hidle hfull => exact .full hidle hfull
  | failed hidle hroom => exact .failed hidle hroom

theorem isExhausted_iff : p.isExhausted = true ↔ p.live = 0 ∧ p.capacity ≤ p.spawned := by
  simp [isExhausted]

theorem happens_of_poll? (htask : p.tasks[i]? = some ⟨id, payload, .waiting false⟩)
    (h : p.poll? i launch id payload = some q) : Happens job p (.dispatch i launch) q := by
  unfold poll? at h
  split at h
  · cases h
    have hdraw : Draws { p with permit := p.permit } launch _ _ _ := draws_of_takeDedicated ‹_›
    exact .lend htask (by simp) (by simp) hdraw
  · have hmiss := misses_of_takeDedicated ‹_›
    split at h
    · cases h
      have hmiss : Misses { p with permit := p.permit, sleepers := p.sleepers } launch _ := hmiss
      exact .refuse htask (by simp) (.inl rfl) hmiss (isExhausted_iff.1 ‹_›)
    · split at h
      · cases h
        exact .retry htask hmiss ‹_›
      · cases h

theorem happens_compete (htask : p.tasks[i]? = some ⟨id, payload, .waiting late⟩)
    (hawake : late = true → i ∉ p.sleepers) :
    Happens job p (.dispatch i launch) (p.compete i launch id payload) := by
  unfold compete
  split
  · exact .lend htask hawake (by simp) (draws_of_takeDedicated ‹_›)
  · have hmiss := misses_of_takeDedicated ‹_›
    obtain ⟨-, spawned, failed, rfl⟩ := hmiss.exists_eq
    split
    · exact .refuse htask hawake (.inr rfl) (hmiss.frame p.sleepers.tail _) (isExhausted_iff.1 ‹_›)
    · split
      · exact .wait htask hawake (.inl rfl) hmiss
      · exact .wait htask hawake (.inr rfl) (hmiss.frame (p.sleepers ++ [i]) false)

theorem happens_of_acquire? (h : p.acquire? i launch = some q) :
    Happens job p (.dispatch i launch) q := by
  unfold acquire? at h
  split at h
  · -- the task has found no warm worker before
    split at h
    · cases h
    · cases h
      exact happens_compete ‹_› fun _ => ‹_›
  · rename_i htask
    split at h
    · cases h
      exact happens_compete htask (by simp)
    · rename_i warm hwarm
      split at h
      · split at h
        · rename_i w hlast
          obtain ⟨rest, hrest⟩ := List.getLast?_eq_some_iff.1 hlast
          rw [hrest, List.dropLast_concat] at h
          cases h
          have hdraw : Draws { p with permit := p.permit } launch w .warm _ := .warm hwarm hrest
          exact .lend htask (by simp) (fun _ => rfl) hdraw
        · cases h
          exact happens_compete htask (by simp)
      · exact happens_of_poll? htask h
  · cases h

theorem happens_of_answer? (h : p.answer? job w = some q) : Happens job p (.answer w) q := by
  unfold answer? at h
  split at h
  · rename_i r hfind
    obtain ⟨hw, before, after, hrequests, hbefore⟩ := List.find?_eq_some_iff_append.1 hfind
    obtain rfl : r.worker = w := by simpa using hw
    have herase : p.requests.eraseP (·.worker == r.worker) = before ++ after := by
      rw [hrequests, List.eraseP_append_right _ (by simpa using hbefore),
        List.eraseP_cons_of_pos (by simp)]
    cases h
    rw [herase]
    exact .answer hrequests rfl
  · cases h

theorem happens_of_conclude? (h : p.conclude? i = some q) : Happens job p (.conclude i) q := by
  unfold conclude? at h
  split at h
  · cases h
    exact .release ‹_›
  · cases h
    exact .lose ‹_›
  · cases h

/-- **A step does nothing else.** -/
theorem happens_of_step? {s : Step} (h : p.step? job s = some q) : Happens job p s q := by
  cases s with
  | submit key payload => cases h; exact .submit key payload
  | fill launches => cases h; exact .fill launches
  | mark => cases h; exact .mark
  | dispatch i launch => exact happens_of_acquire? h
  | answer w => exact happens_of_answer? h
  | conclude i => exact happens_of_conclude? h

/-! ## What a step leaves alone -/

theorem exists_startWarms_eq (p : Pool) (launches : List Launch) :
    ∃ started warm, p.startWarms launches = { p with started, warm } := by
  induction launches generalizing p with
  | nil => exact ⟨_, _, rfl⟩
  | cons launch launches ih =>
    obtain ⟨started, warm, h⟩ := ih (p.startWarm launch)
    refine ⟨started, warm, h.trans ?_⟩
    unfold startWarm
    split <;> rfl

theorem exists_fill_eq (p : Pool) (launches : List Launch) :
    ∃ started warm, p.fill launches = { p with started, warm } := by
  obtain ⟨started, warm, h⟩ := exists_startWarms_eq p launches
  rw [fill, h]
  exact ⟨_, _, rfl⟩

/-- A draw touches nothing but the places of the workers. -/
theorem Draws.exists_eq {origin : Origin} (h : Draws p launch w origin q) :
    ∃ warm idle spawned live started, q = { p with warm, idle, spawned, live, started } := by
  cases h <;> exact ⟨_, _, _, _, _, rfl⟩

theorem exists_create_eq (capacity : Nat) (setup : Setup) :
    ∃ started warm, create capacity setup = { capacity, started, warm } := by
  cases setup with
  | none => exact ⟨_, _, rfl⟩
  | uninitialized => exact ⟨_, _, rfl⟩
  | ready launches => exact exists_fill_eq _ launches

/-- A task that hands its payload over changes its phase; it may wake somebody, but nobody goes to
sleep. -/
theorem exists_lend_eq (p : Pool) (i : Nat) (id : Task.Id) (payload : Task.Payload) (w : Worker)
    (origin : Origin) :
    ∃ sleepers permit live requests lost phase, sleepers.Sublist p.sleepers ∧
      p.lend i id payload w origin =
        setPhase { p with sleepers, permit, live, requests, lost } i phase := by
  unfold lend
  split
  · exact ⟨_, _, _, _, _, _, List.tail_sublist _, rfl⟩
  · exact ⟨_, _, _, _, _, _, .refl _, rfl⟩

/-! ## Starts -/

/-- A dedicated worker that a task asks for in this step cannot be started. -/
def Step.failsToStart : Step → Bool
  | .dispatch _ .failed => true
  | _ => false

/-- **Every start succeeds**: whenever a task asks for a new dedicated worker in the course of a run,
there is a thread for it. Warm workers may fail to start. -/
def StartsSucceed (steps : List Step) : Prop := ∀ s ∈ steps, s.failsToStart = false

instance (steps : List Step) : Decidable (StartsSucceed steps) :=
  inferInstanceAs (Decidable (∀ s ∈ steps, s.failsToStart = false))

theorem startsSucceed_concat {steps : List Step} {s : Step} :
    StartsSucceed (steps ++ [s]) ↔ StartsSucceed steps ∧ s.failsToStart = false := by
  simp [StartsSucceed, or_imp, forall_and]

/-- A look finds no worker only if there is none, as long as new ones can be started. -/
theorem Misses.full_of_failsToStart (h : Misses p launch q)
    (hs : (Step.dispatch i launch).failsToStart = false) : q = p ∧ p.capacity ≤ p.spawned := by
  cases h with
  | full _ hfull => exact ⟨rfl, hfull⟩
  | failed => cases hs

/-! ## When a step is possible -/

theorem answer?_ne_none {r : Request} (hr : r ∈ p.requests) : p.answer? job r.worker ≠ none := by
  unfold answer?
  split
  · simp
  · rename_i hfind
    exact absurd hr fun hr => by simpa using List.find?_eq_none.1 hfind r hr

theorem conclude?_ne_none {origin : Origin} {reply : Reply}
    (htask : p.tasks[i]? = some ⟨id, payload, .running w origin reply⟩) (hreply : reply ≠ .pending) :
    p.conclude? i ≠ none := by
  cases reply with
  | pending => exact absurd rfl hreply
  | arrived response => simp [conclude?, htask]
  | dropped => simp [conclude?, htask]

/-- A task that has found no warm worker is stopped by nothing but sleep. -/
theorem mem_sleepers_of_acquire?_eq_none
    (htask : p.tasks[i]? = some ⟨id, payload, .waiting true⟩) (h : p.acquire? i launch = none) :
    i ∈ p.sleepers := by
  by_contra hi
  simp [acquire?, htask, hi] at h

/-- A task that has not found out about warm workers is stopped only while the dedicated ones are
busy. -/
theorem full_of_acquire?_eq_none (htask : p.tasks[i]? = some ⟨id, payload, .waiting false⟩)
    (h : p.acquire? i .started = none) : p.idle = [] ∧ p.capacity ≤ p.spawned := by
  have hpoll : p.poll? i .started id payload = none := by
    simp only [acquire?, htask] at h
    split at h
    · cases h
    · split at h
      · split at h <;> cases h
      · exact h
  unfold poll? at hpoll
  split at hpoll
  · cases hpoll
  · have hmiss := misses_of_takeDedicated ‹_›
    exact ⟨hmiss.exists_eq.1, (hmiss.full_of_failsToStart (i := i) rfl).2⟩

/-! ## Runs -/

/-- What holds of a pool at the start and is kept by every step holds at the end of every run. The
property may speak of the steps that have been taken. -/
theorem run?_induction {start : Pool} {P : List Step → Pool → Prop} (hstart : P [] start)
    (hstep : ∀ {steps : List Step} {p q : Pool} {s : Step}, P steps p → Happens job p s q →
      P (steps ++ [s]) q) {steps : List Step} (h : start.run? job steps = some p) : P steps p := by
  induction steps using List.reverseRecOn generalizing p with
  | nil => cases h; exact hstart
  | append_singleton steps s ih =>
    rw [run?, List.foldlM_append] at h
    obtain ⟨q, hq, h⟩ := Option.bind_eq_some_iff.1 h
    obtain ⟨p', hp', h⟩ := Option.bind_eq_some_iff.1 h
    cases h
    exact hstep (ih hq) (happens_of_step? hp')

/-! ## Submissions -/

/-- The key and the payload of a task that a step submits. -/
def Step.submission? : Step → Option (String × Task.Payload)
  | .submit key payload => some (key, payload)
  | _ => none

/-- The tasks that are submitted in the course of a run. -/
def submissions (steps : List Step) : List (String × Task.Payload) :=
  steps.filterMap Step.submission?

theorem submissions_concat (steps : List Step) (s : Step) :
    submissions (steps ++ [s]) = submissions steps ++ s.submission?.toList := by
  cases h : s.submission? <;> simp [submissions, h]

/-- **What a step leaves as it is**: the capacity, the tasks unless it submits one, and the number of
starts that have failed unless one fails. -/
structure Keeps (s : Step) (p q : Pool) : Prop where
  capacity : q.capacity = p.capacity
  identities : s.submission? = none → q.identities = p.identities
  sequence : s.submission? = none → q.sequence = p.sequence
  failed : s.failsToStart = false → q.failed = p.failed

theorem Happens.keeps {s : Step} (h : Happens job p s q) : Keeps s p q := by
  have hfailed {launch : Launch} {p q : Pool} (hmiss : Misses p launch q) (i : Nat)
      (hs : (Step.dispatch i launch).failsToStart = false) : q.failed = p.failed :=
    congrArg Pool.failed (hmiss.full_of_failsToStart hs).1
  cases h with
  | submit key payload => exact ⟨rfl, nofun, nofun, fun _ => rfl⟩
  | fill launches =>
    obtain ⟨started, warm, h⟩ := exists_fill_eq p launches
    rw [h]
    exact ⟨rfl, fun _ => rfl, fun _ => rfl, fun _ => rfl⟩
  | mark => exact ⟨rfl, fun _ => rfl, fun _ => rfl, fun _ => rfl⟩
  | @lend i _ id payload _ _ w origin q _ _ _ hdraw =>
    obtain ⟨_, _, _, _, _, _, -, hlend⟩ := exists_lend_eq q i id payload w origin
    obtain ⟨_, _, _, _, _, rfl⟩ := hdraw.exists_eq
    rw [hlend]
    exact ⟨rfl, fun _ => identities_updatePhase _ _, fun _ => rfl, fun _ => rfl⟩
  | refuse _ _ _ hmiss | wait _ _ _ hmiss =>
    have hfailed := hfailed hmiss
    obtain ⟨-, _, _, rfl⟩ := hmiss.exists_eq
    exact ⟨rfl, fun _ => identities_updatePhase _ _, fun _ => rfl, hfailed _⟩
  | retry _ hmiss =>
    have hfailed := hfailed hmiss
    obtain ⟨-, _, _, rfl⟩ := hmiss.exists_eq
    exact ⟨rfl, fun _ => rfl, fun _ => rfl, hfailed _⟩
  | answer | release | lose =>
    exact ⟨rfl, fun _ => identities_updatePhase _ _, fun _ => rfl, fun _ => rfl⟩

theorem failed_of_run? {setup : Setup} {steps : List Step} (hstarts : StartsSucceed steps)
    (h : (create capacity setup).run? job steps = some p) : p.failed = 0 := by
  refine run?_induction (P := fun steps p => StartsSucceed steps → p.failed = 0)
    (fun _ => ?_) (fun hp hs hstarts => ?_) h hstarts
  · obtain ⟨started, warm, hcreate⟩ := exists_create_eq capacity setup
    rw [hcreate]
  · obtain ⟨hbefore, hlast⟩ := startsSucceed_concat.1 hstarts
    rw [hs.keeps.failed hlast, hp hbefore]

/-- The submitted tasks with their numbers, of which there are only so many. -/
def numbered (tasks : List (String × Task.Payload)) : List (Task.Id × Task.Payload) :=
  tasks.mapIdx fun n task => (⟨task.1, n % Task.sequenceLimit⟩, task.2)

/-- **The tasks of a pool are the submitted ones, numbered in the order of submission.** -/
theorem identities_of_run? {setup : Setup} {steps : List Step}
    (h : (create capacity setup).run? job steps = some p) :
    p.identities = numbered (submissions steps) := by
  suffices hp : p.identities = numbered (submissions steps) ∧
      p.sequence = (submissions steps).length % Task.sequenceLimit from hp.1
  refine run?_induction (P := fun steps p => p.identities = numbered (submissions steps) ∧
      p.sequence = (submissions steps).length % Task.sequenceLimit) ?_ ?_ h
  · obtain ⟨started, warm, hcreate⟩ := exists_create_eq capacity setup
    rw [hcreate]
    exact ⟨rfl, rfl⟩
  · rintro steps p q s ⟨hidentities, hnext⟩ hs
    rw [submissions_concat]
    cases hsub : s.submission? with
    | none =>
      rw [hs.keeps.identities hsub, hs.keeps.sequence hsub, Option.toList_none, List.append_nil]
      exact ⟨hidentities, hnext⟩
    | some task =>
      cases hs with
      | submit key payload =>
        cases hsub
        rw [identities_submit, hidentities, hnext]
        simp [numbered, List.mapIdx_append, Pool.submit, hnext]
      | _ => cases hsub

theorem length_tasks_of_run? {setup : Setup} {steps : List Step}
    (h : (create capacity setup).run? job steps = some p) :
    p.tasks.length = (submissions steps).length := by
  simpa [identities, numbered] using congrArg List.length (identities_of_run? h)

end ModuleForge.Worker.Pool
