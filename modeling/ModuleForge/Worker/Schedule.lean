import ModuleForge.Worker.Pool

/-!
# A fair schedule

One way to run a pool to its end: all waiting tasks look for a worker in the order of submission,
then the worker of the first running task answers it and the task ends, and so on. Every worker that
is needed can be started. Results that do not depend on the order of the steps can be read off this
one.
-/

namespace ModuleForge.Worker.Pool

/-- Takes a step if it is possible. -/
def attempt (job : Job) (p : Pool) (step : Step) : Pool := (p.step? job step).getD p

/-- Every waiting task looks for a worker. -/
def acquireAll (job : Job) (p : Pool) : Pool :=
  (List.range p.tasks.length).foldl (fun p i => p.attempt job (.dispatch i .started)) p

/-- The first running task, with its worker. -/
def firstRunning? (p : Pool) : Option (Nat × Worker) :=
  (List.range p.tasks.length).findSome? fun i =>
    ((p.tasks[i]?).bind (·.phase.worker?)).map fun w => (i, w)

/-- A round: all tasks look for a worker, and the first running one ends. -/
def round (job : Job) (p : Pool) : Pool :=
  let p := p.acquireAll job
  match p.firstRunning? with
  | some (i, w) => (p.attempt job (.answer w)).attempt job (.conclude i)
  | none => p

/-- Runs a number of rounds. -/
def rounds (job : Job) (p : Pool) : Nat → Pool
  | 0 => p
  | n + 1 => rounds job (p.round job) n

/-- **Runs all tasks to their end.** A round ends a task, or lets a waiting task see that there are no
workers. -/
def settle (job : Job) (p : Pool) : Pool := p.rounds job (2 * p.tasks.length + 1)

end ModuleForge.Worker.Pool
