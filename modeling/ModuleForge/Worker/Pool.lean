import ModuleForge.Task

/-!
# The worker pool

Tasks are run by workers. A pool starts up to `capacity` dedicated workers, each when it is first
needed, and may draw on workers that were started ahead of time, the warm ones. A warm worker that
has finished a task joins the dedicated ones. A worker that dies is not replaced, and no task is run
twice.

A task and its worker talk by messages: the request lies in the worker's inbox until the worker takes
it up, and the answer lies in a channel of the task's own until the task looks at it. A task that
finds no worker goes to sleep, and each worker that comes back or dies wakes one task.

Everything that happens to a pool is one of the steps below; each is atomic, and the pool can take
them in any order. A step that is not possible in a state answers `none`. A worker runs on a thread of
its own, and a step that starts one says whether there was a thread for it. All workers run the same
job.
-/

namespace ModuleForge

/-- A worker has a name, and a serial number that no other worker of the pool has. -/
structure Worker where
  serial : Nat
  name : String
  deriving DecidableEq, Repr, Inhabited

/-- What a worker does with a payload; a job may look at the name of the worker that runs it. -/
abbrev Job := String → Task.Payload → Task.Verdict

namespace Worker

/-- What comes of the start of a worker. -/
inductive Launch where
  | started
  /-- There is no thread for it. -/
  | failed
  deriving DecidableEq, Repr, Inhabited

/-- What has come through the channel on which a task waits for its worker. -/
inductive Reply where
  | pending
  | arrived (response : Task.Response)
  /-- The worker died and let go of the channel. -/
  | dropped
  deriving DecidableEq, Repr, Inhabited

/-- The answer of a worker to a task; the job may take the worker down. -/
def respond (w : Worker) (job : Job) (id : Task.Id) (payload : Task.Payload) : Reply :=
  match job w.name payload with
  | .output output => .arrived ⟨id, .success output⟩
  | .rejected error => .arrived ⟨id, .failure error⟩
  | .crashed => .dropped

/-- Where the worker of a running task was drawn from. -/
inductive Origin where
  | dedicated
  | warm
  deriving DecidableEq, Repr, Inhabited

/-- How far a task has come. -/
inductive Phase where
  /-- It has no worker yet. Once it has found no warm worker it waits for a dedicated one. -/
  | waiting (dedicatedOnly : Bool)
  | running (worker : Worker) (origin : Origin) (reply : Reply)
  | finished (result : Except Task.Error Task.Output)

/-- A submitted task. -/
structure Entry where
  id : Task.Id
  payload : Task.Payload
  phase : Phase

def Phase.status : Phase → Task.Status
  | .waiting _ => .queued
  | .running _ _ _ => .running
  | .finished (.ok _) => .done
  | .finished (.error _) => .failed

/-- The worker of a running task. -/
def Phase.worker? : Phase → Option Worker
  | .running w _ _ => some w
  | _ => none

/-- Something came through the channel of a running task. -/
def Phase.receive (reply : Reply) : Phase → Phase
  | .running w origin _ => .running w origin reply
  | phase => phase

/-- What a task asks of the worker it has drawn. -/
structure Request where
  /-- The worker in whose inbox it lies. -/
  worker : Worker
  id : Task.Id
  payload : Task.Payload
  /-- The task whose channel takes the answer. -/
  task : Nat

/-- Workers that were started ahead of time. Nobody draws on them before they are initialized. -/
structure WarmPool where
  initialized : Bool := false
  workers : List Worker := []
  deriving DecidableEq, Repr, Inhabited

/-- The state of a pool. -/
structure Pool where
  /-- The most dedicated workers whose start is ever tried. -/
  capacity : Nat
  warm : Option WarmPool := none
  idle : List Worker := []
  /-- The tasks that sleep until they are woken, the longest first. -/
  sleepers : List Nat := []
  /-- A wake-up found nobody asleep; the next task that would go to sleep looks once more instead. -/
  permit : Bool := false
  /-- The number of dedicated workers whose start was tried so far. -/
  spawned : Nat := 0
  /-- The number of those that could not be started. -/
  failed : Nat := 0
  /-- The number of workers in the dedicated pool that have not died. -/
  live : Nat := 0
  /-- The number of workers started so far, warm ones included. -/
  started : Nat := 0
  /-- The number of the next task; behind the largest one the numbers begin again. -/
  sequence : Nat := 0
  /-- The requests in the inboxes of the workers, the oldest first. -/
  requests : List Request := []
  /-- Workers that a job has taken down. -/
  dead : List Worker := []
  /-- Dead workers that their tasks have given up. -/
  lost : List Worker := []
  /-- All tasks in the order of submission. -/
  tasks : List Entry := []

namespace Pool

/-! ## Steps from outside -/

/-- Queues a task. -/
def submit (p : Pool) (key : String) (payload : Task.Payload) : Task.Id × Pool :=
  let id : Task.Id := ⟨key, p.sequence⟩
  (id, { p with
    sequence := (p.sequence + 1) % Task.sequenceLimit
    tasks := p.tasks ++ [⟨id, payload, .waiting false⟩] })

/-- The warm workers can be drawn from now on. -/
def mark (p : Pool) : Pool :=
  { p with warm := p.warm.map fun w => { w with initialized := true } }

/-- The name of the next warm worker counts those that are ready. One that cannot be started is left
out. -/
def startWarm (p : Pool) (launch : Launch) : Pool :=
  match p.warm, launch with
  | some w, .started =>
    let worker : Worker := ⟨p.started, "kiln-warm-" ++ toString w.workers.length⟩
    { p with started := p.started + 1, warm := some { w with workers := w.workers ++ [worker] } }
  | _, _ => p

/-- Starts warm workers, without making them available. -/
def startWarms (p : Pool) : List Launch → Pool
  | [] => p
  | launch :: launches => startWarms (p.startWarm launch) launches

/-- Starts warm workers and makes the warm pool available. -/
def fill (p : Pool) (launches : List Launch) : Pool := (p.startWarms launches).mark

/-! ## Dispatch -/

def updatePhase (p : Pool) (i : Nat) (f : Phase → Phase) : Pool :=
  { p with tasks := p.tasks.modify i fun t => { t with phase := f t.phase } }

abbrev setPhase (p : Pool) (i : Nat) (phase : Phase) : Pool := p.updatePhase i fun _ => phase

/-- Wakes the task that has slept for longest, or permits the next one not to go to sleep. -/
def notify (p : Pool) : Pool :=
  { p with sleepers := p.sleepers.tail, permit := p.permit || p.sleepers.isEmpty }

/-- The dedicated worker that has been idle for longest, or a new one while there is capacity. A
start that fails uses the capacity up too. -/
def takeDedicated (p : Pool) (launch : Launch) : Option Worker × Pool :=
  match p.idle with
  | w :: rest => (some w, { p with idle := rest })
  | [] =>
    if p.spawned < p.capacity then
      match launch with
      | .started =>
        (some ⟨p.started, "kiln-worker-" ++ toString p.spawned⟩,
          { p with spawned := p.spawned + 1, live := p.live + 1, started := p.started + 1 })
      | .failed => (none, { p with spawned := p.spawned + 1, failed := p.failed + 1 })
    else (none, p)

/-- The start of every dedicated worker was tried, and none is left. -/
def isExhausted (p : Pool) : Bool := p.live == 0 && p.capacity ≤ p.spawned

/-- A worker comes back from a task; a warm one joins the dedicated workers. -/
def release (p : Pool) (w : Worker) (origin : Origin) : Pool :=
  notify { p with
    idle := p.idle ++ [w]
    live := if origin = .warm then p.live + 1 else p.live }

/-- A worker died on a task; a warm one was never counted. -/
def lose (p : Pool) (w : Worker) (origin : Origin) : Pool :=
  notify { p with
    lost := p.lost ++ [w]
    live := if origin = .dedicated then p.live - 1 else p.live }

/-- A task hands its payload to the worker it has drawn. The inbox of a dead worker takes nothing. -/
def lend (p : Pool) (i : Nat) (id : Task.Id) (payload : Task.Payload) (w : Worker)
    (origin : Origin) : Pool :=
  if w ∈ p.dead then (p.lose w origin).setPhase i (.finished (.error (.workerLost id)))
  else
    setPhase { p with requests := p.requests ++ [⟨w, id, payload, i⟩] } i
      (.running w origin .pending)

/-- While the warm pool is not initialized, a task tries for a dedicated worker from time to time. A
try that changes nothing is no step. -/
def poll? (p : Pool) (i : Nat) (launch : Launch) (id : Task.Id) (payload : Task.Payload) :
    Option Pool :=
  match p.takeDedicated launch with
  | (some w, q) => some (q.lend i id payload w .dedicated)
  | (none, q) =>
    if q.isExhausted then some (q.setPhase i (.finished (.error .noWorkers)))
    else if p.failed < q.failed then some q
    else none

/-- A task takes a dedicated worker, or fails if there can be none, or goes to sleep. One that fails
wakes the next task, which fails too. -/
def compete (p : Pool) (i : Nat) (launch : Launch) (id : Task.Id) (payload : Task.Payload) : Pool :=
  match takeDedicated { p with permit := false } launch with
  | (some w, q) => q.lend i id payload w .dedicated
  | (none, q) =>
    if q.isExhausted then (q.setPhase i (.finished (.error .noWorkers))).notify
    else if p.permit then q.setPhase i (.waiting true)
    else setPhase { q with sleepers := q.sleepers ++ [i] } i (.waiting true)

/-- **A waiting task looks for a worker**: for the newest warm one first, if there are any, then for
a dedicated one. -/
def acquire? (p : Pool) (i : Nat) (launch : Launch) : Option Pool :=
  match p.tasks[i]? with
  | some ⟨id, payload, .waiting true⟩ =>
    if i ∈ p.sleepers then none else some (p.compete i launch id payload)
  | some ⟨id, payload, .waiting false⟩ =>
    match p.warm with
    | none => some (p.compete i launch id payload)
    | some warm =>
      if warm.initialized then
        match warm.workers.getLast? with
        | some w =>
          some (lend { p with warm := some { warm with workers := warm.workers.dropLast } }
            i id payload w .warm)
        | none => some (p.compete i launch id payload)
      else p.poll? i launch id payload
  | _ => none

/-- **A worker takes up the oldest request in its inbox** and answers it, or dies of it. A dead worker
lets go of what is left in its inbox. -/
def answer? (job : Job) (p : Pool) (w : Worker) : Option Pool :=
  match p.requests.find? (·.worker == w) with
  | some r =>
    let reply : Reply := if w ∈ p.dead then .dropped else w.respond job r.id r.payload
    let p := { p with
      requests := p.requests.eraseP (·.worker == w)
      dead := if reply = Reply.dropped then p.dead ++ [w] else p.dead }
    some (p.updatePhase r.task (Phase.receive reply))
  | none => none

/-- What a response means to the task that waits for it. -/
def resultOf (id : Task.Id) (response : Task.Response) : Except Task.Error Task.Output :=
  if response.id ≠ id then
    .error (.protocol ("expected reply for " ++ id.text ++ ", got " ++ response.id.text))
  else
    match response.outcome with
    | .success output => .ok output
    | .failure error => .error (.transform error)

/-- **A running task ends**, with its worker's answer or with its worker's death. -/
def conclude? (p : Pool) (i : Nat) : Option Pool :=
  match p.tasks[i]? with
  | some ⟨id, _, .running w origin (.arrived response)⟩ =>
    some ((p.release w origin).setPhase i (.finished (resultOf id response)))
  | some ⟨id, _, .running w origin .dropped⟩ =>
    some ((p.lose w origin).setPhase i (.finished (.error (.workerLost id))))
  | _ => none

/-! ## Runs -/

/-- What can happen to a pool. -/
inductive Step where
  | submit (key : String) (payload : Task.Payload)
  | fill (launches : List Launch)
  | mark
  /-- A task looks for a worker. If it has to start one, `launch` comes of it. -/
  | dispatch (task : Nat) (launch : Launch)
  | answer (worker : Worker)
  | conclude (task : Nat)

/-- The pool takes the step by itself. -/
def Step.isInternal : Step → Bool
  | .dispatch _ _ | .answer _ | .conclude _ => true
  | _ => false

/-- **What a step makes of a pool.** -/
def step? (job : Job) (p : Pool) : Step → Option Pool
  | .submit key payload => some (p.submit key payload).2
  | .fill launches => some (p.fill launches)
  | .mark => some p.mark
  | .dispatch i launch => p.acquire? i launch
  | .answer w => p.answer? job w
  | .conclude i => p.conclude? i

/-- Takes steps one after another, all of which must be possible. -/
def run? (job : Job) (p : Pool) (steps : List Step) : Option Pool := steps.foldlM (step? job) p

/-- The warm pool that a pool is created with. -/
inductive Setup where
  | none
  | uninitialized
  | ready (launches : List Launch)

/-- A fresh pool. -/
def create (capacity : Nat) : Setup → Pool
  | .none => { capacity }
  | .uninitialized => { capacity, warm := some {} }
  | .ready launches => { capacity, warm := some {} : Pool }.fill launches

/-! ## Answers -/

/-- The result of a task that has ended. -/
def result? (p : Pool) (i : Nat) : Option (Except Task.Error Task.Output) :=
  match p.tasks[i]? with
  | some ⟨_, _, .finished result⟩ => some result
  | _ => none

def status? (p : Pool) (i : Nat) : Option Task.Status := (p.tasks[i]?).map (·.phase.status)

end Pool

end Worker

end ModuleForge
