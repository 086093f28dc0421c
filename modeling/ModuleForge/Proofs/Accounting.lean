import ModuleForge.Proofs.Dispatch
import Mathlib.Data.List.Nodup

/-!
# Where the workers are

Every worker that a pool has started is in exactly one place: among the warm ones, in the idle
queue, with one running task, or lost. `Balanced hand p` says so of a pool out of which the workers
in `hand` have just been taken; a step that moves a worker takes it into the hand (`Balanced.draw`,
`Balanced.updatePhase`) and puts it down somewhere else (`Balanced.release`, `Balanced.lose`,
`Balanced.updatePhase`).
-/

namespace ModuleForge.Worker

/-- What a task in this phase holds: the worker of a running task, with where it was drawn from. -/
def Phase.held : Phase → List (Worker × Origin)
  | .running w origin _ => [(w, origin)]
  | _ => []

namespace Pool

variable {job : Job} {p q : Pool} {hand hand' : List (Worker × Origin)} {w : Worker}
  {origin : Origin} {launch : Launch} {i : Nat} {t : Entry}

/-! ## Places -/

def warmWorkers (p : Pool) : List Worker := (p.warm.map (·.workers)).getD []

/-- The workers that tasks hold. -/
def leases (p : Pool) : List (Worker × Origin) := p.tasks.flatMap (·.phase.held)

/-- The workers that are with no task: ready for one, or lost. -/
def unleased (p : Pool) : List Worker := p.warmWorkers ++ p.idle ++ p.lost

/-- All workers of a pool, place by place. -/
def workers (p : Pool) : List Worker := p.unleased ++ p.leases.map (·.1)

/-- How many of some leased workers were drawn as dedicated ones. -/
def dedicated (leases : List (Worker × Origin)) : Nat := leases.countP (·.2 = .dedicated)

theorem dedicated_append (l l' : List (Worker × Origin)) :
    dedicated (l ++ l') = dedicated l + dedicated l' := List.countP_append

/-- A task that changes its phase gives up what it held, and holds what the new phase says. -/
theorem leases_updatePhase (ht : p.tasks[i]? = some t) (f : Phase → Phase) :
    ((p.updatePhase i f).leases ++ t.phase.held).Perm (p.leases ++ (f t.phase).held) := by
  obtain ⟨before, after, hp, hq⟩ := exists_tasks_updatePhase ht f
  refine List.perm_iff_count.2 fun lease => ?_
  simp only [leases, hp, hq, List.flatMap_append, List.flatMap_cons, List.count_append]
  omega

/-- The accounts of a pool, with the workers in `hand` counted as leased. -/
structure Balanced (hand : List (Worker × Origin)) (p : Pool) : Prop where
  spawned_le : p.spawned ≤ p.capacity
  placed : ((p.workers ++ hand.map (·.1)).map (·.serial)).Perm (List.range p.started)
  live_eq : p.live = p.idle.length + dedicated (p.leases ++ hand)
  spawned_le_live : p.spawned ≤ p.live + p.lost.length + p.failed

namespace Balanced

/-! ## Moving a worker -/

/-- The accounts do not depend on who sleeps, on the messages, or on which workers are dead. -/
theorem frame (h : Balanced hand p) (sleepers : List Nat) (permit : Bool) (requests : List Request)
    (dead : List Worker) : Balanced hand { p with sleepers, permit, requests, dead } :=
  ⟨h.spawned_le, h.placed, h.live_eq, h.spawned_le_live⟩

theorem updatePhase (h : Balanced hand p) (ht : p.tasks[i]? = some t) {f : Phase → Phase}
    (hhand : (hand' ++ (f t.phase).held).Perm (hand ++ t.phase.held)) :
    Balanced hand' (p.updatePhase i f) := by
  have hleases : ((p.updatePhase i f).leases ++ hand').Perm (p.leases ++ hand) := by
    refine List.perm_iff_count.2 fun lease => ?_
    have h₁ := (leases_updatePhase ht f).count_eq lease
    have h₂ := hhand.count_eq lease
    simp only [List.count_append] at h₁ h₂ ⊢
    omega
  refine ⟨h.spawned_le, ?_, ?_, h.spawned_le_live⟩
  · have hworkers := (hleases.map (·.1)).append_left p.unleased
    rw [List.map_append, List.map_append, ← List.append_assoc, ← List.append_assoc] at hworkers
    exact (hworkers.map _).trans h.placed
  · rw [dedicated, hleases.countP_eq]
    exact h.live_eq

theorem finish {id : Task.Id} {payload : Task.Payload} {reply : Reply} (h : Balanced [] p)
    (ht : p.tasks[i]? = some ⟨id, payload, .running w origin reply⟩)
    (result : Except Task.Error Task.Output) :
    Balanced [(w, origin)] (p.setPhase i (.finished result)) :=
  h.updatePhase ht (.refl _)

theorem receive (h : Balanced hand p) (i : Nat) (reply : Reply) :
    Balanced hand (p.updatePhase i (Phase.receive reply)) := by
  cases ht : p.tasks[i]? with
  | none =>
    -- the accounts do not know that a request comes from a task
    have hsame : p.updatePhase i (Phase.receive reply) = p := by
      rw [Pool.updatePhase, List.modify_eq_self (List.getElem?_eq_none_iff.1 ht)]
    rwa [hsame]
  | some t =>
    have hheld : (t.phase.receive reply).held = t.phase.held := by cases t.phase <;> rfl
    exact h.updatePhase ht (by rw [hheld])

theorem draw (h : Balanced [] p) (hdraw : Draws p launch w origin q) : Balanced [(w, origin)] q := by
  have hplaced := h.placed
  have hlive := h.live_eq
  have hroom := h.spawned_le_live
  simp only [List.map_nil, List.append_nil] at hplaced hlive
  cases hdraw with
  | warm hwarm hlast =>
    refine ⟨h.spawned_le, ?_, ?_, hroom⟩
    · refine (List.Perm.map _ (List.perm_iff_count.2 fun a => ?_)).trans hplaced
      simp only [workers, unleased, warmWorkers, hwarm, hlast, Option.map_some, Option.getD_some,
        leases, List.map_cons, List.map_nil, List.count_append]
      omega
    · rw [dedicated_append]
      exact hlive
  | @idle _ w rest hidle =>
    refine ⟨h.spawned_le, ?_, ?_, hroom⟩
    · refine (List.Perm.map _ (List.perm_iff_count.2 fun a => ?_)).trans hplaced
      simp only [workers, unleased, warmWorkers, hidle, leases, List.map_cons, List.map_nil,
        List.count_append, List.count_cons, List.count_nil]
      omega
    · rw [hidle, List.length_cons] at hlive
      rw [dedicated_append]
      change p.live = rest.length + (dedicated p.leases + 1)
      omega
  | start hidle hspawn =>
    refine ⟨hspawn, ?_, ?_, ?_⟩
    · rw [List.map_append, List.range_succ]
      exact hplaced.append_right _
    · rw [dedicated_append]
      exact congrArg (· + 1) hlive
    · dsimp only
      omega

theorem miss (h : Balanced hand p) (hmiss : Misses p launch q) : Balanced hand q := by
  cases hmiss with
  | full => exact h
  | failed _ hspawn =>
    have hroom := h.spawned_le_live
    refine ⟨hspawn, h.placed, h.live_eq, ?_⟩
    dsimp only
    omega

theorem release (h : Balanced [(w, origin)] p) : Balanced [] (p.release w origin) := by
  have hlive := h.live_eq
  have hroom := h.spawned_le_live
  have hidle : (p.release w origin).idle.length = p.idle.length + 1 := List.length_append
  rw [dedicated_append] at hlive
  refine ⟨h.spawned_le, ?_, ?_, ?_⟩
  · refine (List.Perm.map _ (List.perm_iff_count.2 fun a => ?_)).trans h.placed
    simp only [workers, unleased, warmWorkers, Pool.release, notify, leases, List.map_cons,
      List.map_nil, List.append_nil, List.count_append]
    omega
  · rw [hidle, List.append_nil]
    cases origin with
    | dedicated =>
      change p.live = p.idle.length + 1 + dedicated p.leases
      change p.live = p.idle.length + (dedicated p.leases + 1) at hlive
      omega
    | warm => exact (congrArg (· + 1) hlive).trans (Nat.add_right_comm _ _ _)
  · cases origin with
    | dedicated => exact hroom
    | warm =>
      change p.spawned ≤ p.live + 1 + p.lost.length + p.failed
      omega

theorem lose (h : Balanced [(w, origin)] p) : Balanced [] (p.lose w origin) := by
  have hlive := h.live_eq
  have hroom := h.spawned_le_live
  have hlost : (p.lose w origin).lost.length = p.lost.length + 1 := List.length_append
  rw [dedicated_append] at hlive
  refine ⟨h.spawned_le, ?_, ?_, ?_⟩
  · refine (List.Perm.map _ (List.perm_iff_count.2 fun a => ?_)).trans h.placed
    simp only [workers, unleased, warmWorkers, Pool.lose, notify, leases, List.map_cons,
      List.map_nil, List.append_nil, List.count_append]
    omega
  · rw [List.append_nil]
    cases origin with
    | dedicated =>
      change p.live - 1 = p.idle.length + dedicated p.leases
      change p.live = p.idle.length + (dedicated p.leases + 1) at hlive
      omega
    | warm => exact hlive
  · rw [hlost]
    cases origin with
    | dedicated =>
      change p.spawned ≤ p.live - 1 + (p.lost.length + 1) + p.failed
      omega
    | warm =>
      change p.spawned ≤ p.live + (p.lost.length + 1) + p.failed
      omega

/-- A worker in the hand goes to a task, or is lost because it is dead. -/
theorem lend (h : Balanced [(w, origin)] p) (ht : p.tasks[i]? = some t) (hheld : t.phase.held = [])
    (id : Task.Id) (payload : Task.Payload) : Balanced [] (p.lend i id payload w origin) := by
  unfold Pool.lend
  split
  · refine h.lose.updatePhase ht ?_
    rw [hheld]
    exact .refl _
  · have hasked := h.frame p.sleepers p.permit (p.requests ++ [⟨w, id, payload, i⟩]) p.dead
    refine hasked.updatePhase ht ?_
    rw [hheld]
    exact .refl _

theorem startWarm (h : Balanced [] p) (launch : Launch) : Balanced [] (p.startWarm launch) := by
  unfold Pool.startWarm
  split
  · rename_i warm hwarm
    refine ⟨h.spawned_le, ?_, h.live_eq, h.spawned_le_live⟩
    have hplaced := h.placed.append_right [p.started]
    rw [← List.range_succ] at hplaced
    refine (List.perm_iff_count.2 fun n => ?_).trans hplaced
    simp only [workers, unleased, warmWorkers, hwarm, Option.map_some, Option.getD_some, leases,
      List.map_append, List.map_cons, List.map_nil, List.count_append]
    omega
  · exact h

theorem mark (h : Balanced [] p) : Balanced [] p.mark := by
  have hwarm : p.mark.warmWorkers = p.warmWorkers := by
    cases hw : p.warm <;> simp [Pool.mark, warmWorkers, hw]
  refine ⟨h.spawned_le, ?_, h.live_eq, h.spawned_le_live⟩
  rw [workers, unleased, hwarm]
  exact h.placed

theorem fill (h : Balanced [] p) (launches : List Launch) : Balanced [] (p.fill launches) := by
  suffices hstarted : Balanced [] (p.startWarms launches) from hstarted.mark
  induction launches generalizing p with
  | nil => exact h
  | cons launch launches ih => exact ih (h.startWarm launch)

theorem create (capacity : Nat) (setup : Setup) : Balanced [] (create capacity setup) := by
  have hempty (warm : Option WarmPool) (hwarm : warm = none ∨ warm = some {}) :
      Balanced [] { capacity, warm } := by
    obtain rfl | rfl := hwarm <;> exact ⟨Nat.zero_le _, .nil, rfl, Nat.zero_le _⟩
  cases setup with
  | none => exact hempty _ (.inl rfl)
  | uninitialized => exact hempty _ (.inr rfl)
  | ready launches => exact (hempty _ (.inr rfl)).fill launches

theorem submit (h : Balanced [] p) (key : String) (payload : Task.Payload) :
    Balanced [] (p.submit key payload).2 := by
  have hleases : (p.submit key payload).2.leases = p.leases := by
    simp [leases, Pool.submit, Phase.held]
  refine ⟨h.spawned_le, ?_, ?_, h.spawned_le_live⟩
  · rw [workers, hleases]
    exact h.placed
  · rw [hleases]
    exact h.live_eq

/-- **Every step keeps the accounts.** -/
theorem step {s : Step} (h : Balanced [] p) (hs : Happens job p s q) : Balanced [] q := by
  cases hs with
  | submit key payload => exact h.submit key payload
  | fill launches => exact h.fill launches
  | mark => exact h.mark
  | lend htask _ _ hdraw =>
    have hdrawn := (h.frame _ _ _ _).draw hdraw
    obtain ⟨_, _, _, _, _, rfl⟩ := hdraw.exists_eq
    exact hdrawn.lend htask rfl _ _
  | refuse htask _ _ hmiss =>
    have hmissed := (h.frame _ _ _ _).miss hmiss
    obtain ⟨-, _, _, rfl⟩ := hmiss.exists_eq
    exact hmissed.updatePhase htask (.refl _)
  | wait htask _ _ hmiss =>
    have hmissed := (h.frame _ _ _ _).miss hmiss
    obtain ⟨-, _, _, rfl⟩ := hmiss.exists_eq
    exact hmissed.updatePhase htask (.refl _)
  | retry _ hmiss => exact h.miss hmiss
  | answer => exact (h.frame _ _ _ _).receive _ _
  | release htask => exact (h.finish htask _).release
  | lose htask => exact (h.finish htask _).lose

end Balanced

/-- The accounts of a pool after any run. -/
theorem balanced_of_run? {capacity : Nat} {setup : Setup} {steps : List Step}
    (h : (create capacity setup).run? job steps = some p) :
    Balanced [] p ∧ p.capacity = capacity := by
  refine run?_induction (P := fun _ p => Balanced [] p ∧ p.capacity = capacity) ?_ ?_ h
  · obtain ⟨started, warm, hcreate⟩ := exists_create_eq capacity setup
    exact ⟨.create capacity setup, by rw [hcreate]⟩
  · rintro - p q s ⟨hp, hcapacity⟩ hs
    exact ⟨hp.step hs, hs.keeps.capacity.trans hcapacity⟩

theorem map_sequence_numbered (tasks : List (String × Task.Payload)) :
    (numbered tasks).map (·.1.sequence) =
      (List.range tasks.length).map (· % Task.sequenceLimit) := by
  refine List.ext_getElem (by simp [numbered]) fun n h₁ h₂ => ?_
  simp [numbered]

/-- As long as the numbers do not begin again, they differ. -/
theorem nodup_numbers {n : Nat} (h : n ≤ Task.sequenceLimit) :
    ((List.range n).map (· % Task.sequenceLimit)).Nodup := by
  have hsmall : ∀ i ∈ List.range n, i % Task.sequenceLimit = i := fun i hi =>
    Nat.mod_eq_of_lt (Nat.lt_of_lt_of_le (List.mem_range.1 hi) h)
  rw [List.map_congr_left hsmall, List.map_id']
  exact List.nodup_range

/-- **The accounts of a pool always balance**, whether workers can be started or not. After any run of
a fresh pool no more starts of dedicated workers were tried than its capacity allows; every worker
that was started, warm or dedicated, is in exactly one place; the live workers are the idle ones and
those that tasks have drawn as dedicated ones, so there is one to be subtracted whenever such a worker
is lost; and the tasks bear the numbers of their submission, which differ as long as they do not begin
again. -/
theorem run_accounts {capacity : Nat} {setup : Setup} {steps : List Step}
    (h : (create capacity setup).run? job steps = some p) :
    p.spawned ≤ capacity ∧
      ((p.warmWorkers ++ p.idle ++ p.lost ++ p.leases.map (·.1)).map (·.serial)).Perm
        (List.range p.started) ∧
      p.live = p.idle.length + dedicated p.leases ∧
      (∀ t ∈ p.tasks, ∀ w reply, t.phase = .running w .dedicated reply → 0 < p.live) ∧
      p.tasks.length = (submissions steps).length ∧
      p.tasks.map (·.id.sequence) =
        (List.range (submissions steps).length).map (· % Task.sequenceLimit) ∧
      ((submissions steps).length ≤ Task.sequenceLimit →
        (p.tasks.map (·.id.sequence)).Nodup) := by
  obtain ⟨hp, rfl⟩ := balanced_of_run? h
  have hplaced := hp.placed
  have hlive := hp.live_eq
  have hnumbers := congrArg (List.map (·.1.sequence)) (identities_of_run? h)
  rw [identities, List.map_map, map_sequence_numbered] at hnumbers
  simp only [List.map_nil, List.append_nil] at hplaced hlive
  refine ⟨hp.spawned_le, hplaced, hlive, ?_, length_tasks_of_run? h, hnumbers, fun hfew => ?_⟩
  · intro t ht w reply hphase
    have hmem : (w, .dedicated) ∈ p.leases :=
      List.mem_flatMap.2 ⟨t, ht, by rw [hphase]; exact List.mem_singleton_self _⟩
    have : 0 < dedicated p.leases := List.countP_pos_iff.2 ⟨_, hmem, rfl⟩
    omega
  · exact hnumbers ▸ nodup_numbers hfew

/-- One of two warm workers cannot be started, the other one is adopted after the only dedicated one
has died, and a task draws it again. -/
theorem run_accounts_adopted :
    ∃ p, (create 1 (.ready [.failed, .started])).run?
        (fun _ payload => if payload.code = "" then .crashed else .output ⟨payload.code, []⟩)
        [.submit "a" { code := "1", path := "a.js" }, .submit "b" { code := "", path := "b.js" },
          .submit "c" { code := "3", path := "c.js" }, .dispatch 0 .failed, .dispatch 1 .started,
          .answer ⟨1, "kiln-worker-0"⟩, .conclude 1, .answer ⟨0, "kiln-warm-0"⟩, .conclude 0,
          .dispatch 2 .started] = some p ∧
      p.spawned ≤ 1 ∧
      ((p.warmWorkers ++ p.idle ++ p.lost ++ p.leases.map (·.1)).map (·.serial)).Perm
        (List.range 2) ∧
      p.lost = [⟨1, "kiln-worker-0"⟩] ∧ p.leases = [(⟨0, "kiln-warm-0"⟩, .dedicated)] ∧
      p.live = p.idle.length + dedicated p.leases ∧ 0 < p.live ∧
      p.tasks.length = 3 ∧ (p.tasks.map (·.id.sequence)).Nodup := by
  refine Exists.imp (fun p h => ⟨h, ?_⟩) ⟨_, rfl⟩
  obtain ⟨hspawned, hplaced, hlive, hpos, hlength, -, hnumbers⟩ := run_accounts h
  cases h
  have htask := hpos _ (List.mem_of_getElem? (i := 2) rfl) _ _ rfl
  exact ⟨hspawned, hplaced, rfl, rfl, hlive, htask, hlength, hnumbers (by decide)⟩

end Pool

end ModuleForge.Worker
