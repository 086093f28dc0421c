import ModuleForge.Proofs.Accounting
import ModuleForge.Proofs.Waking

/-!
# Every task gets its own result

However the steps of a pool are ordered, a task ends with what the job makes of its payload, as long
as workers can be started and the job takes none down; and a pool in which nothing can happen has
ended all its tasks.

`Wired` ties each request to the one task that waits for it, and each answer to the payload it is
for. That no task is refused a worker follows from the accounts (`Balanced`), and that none waits
for ever from the accounts and from `Alert`.
-/

namespace ModuleForge

/-- What a task ends with when the job has ended so on its payload. -/
def Task.Verdict.result (id : Task.Id) : Task.Verdict → Except Task.Error Task.Output
  | .output out => .ok out
  | .rejected message => .error (.transform message)
  | .crashed => .error (.workerLost id)

namespace Worker

variable {job : Job} {id : Task.Id} {payload : Task.Payload} {w : Worker}

/-! ## Answers -/

theorem respond_ne_pending : w.respond job id payload ≠ .pending := by
  unfold respond
  split <;> simp

theorem respond_eq_dropped (h : w.respond job id payload = .dropped) :
    job w.name payload = .crashed := by
  unfold respond at h
  split at h
  · cases h
  · cases h
  · assumption

/-- An answer bears the number of its task, which reads the verdict off it. -/
theorem resultOf_of_respond {response : Task.Response}
    (h : w.respond job id payload = .arrived response) :
    Pool.resultOf id response = (job w.name payload).result id := by
  unfold respond at h
  split at h
  · cases h
    simp [Pool.resultOf, Task.Verdict.result, *]
  · cases h
    simp [Pool.resultOf, Task.Verdict.result, *]
  · cases h

namespace Pool

variable {p q : Pool} {i : Nat} {t : Entry} {requests requests' : List Request} {tasks : List Entry}

/-! ## Requests and answers -/

/-- A task is where its phase says: its request is on the way, or its own answer has come, or it has
ended with the job's verdict. -/
inductive Fits (job : Job) (requests : List Request) (i : Nat) : Entry → Prop
  | waiting {id : Task.Id} {payload : Task.Payload} (late : Bool) :
      Fits job requests i ⟨id, payload, .waiting late⟩
  | asked {id : Task.Id} {payload : Task.Payload} {w : Worker} {origin : Origin}
      (hr : ⟨w, id, payload, i⟩ ∈ requests) :
      Fits job requests i ⟨id, payload, .running w origin .pending⟩
  | answered {id : Task.Id} {payload : Task.Payload} {w : Worker} {origin : Origin} {reply : Reply}
      (hreply : w.respond job id payload = reply) :
      Fits job requests i ⟨id, payload, .running w origin reply⟩
  | ended {id : Task.Id} {payload : Task.Payload} (name : String) :
      Fits job requests i ⟨id, payload, .finished ((job name payload).result id)⟩

/-- Every request has one task that waits for it, and every task fits. -/
structure Wired (job : Job) (requests : List Request) (tasks : List Entry) : Prop where
  asked : ∀ r ∈ requests, ∃ origin,
    tasks[r.task]? = some ⟨r.id, r.payload, .running r.worker origin .pending⟩
  once : (requests.map (·.task)).Nodup
  fits : ∀ i t, tasks[i]? = some t → Fits job requests i t

theorem Fits.mono (h : Fits job requests i t)
    (hrequests : ∀ r ∈ requests, r.task = i → r ∈ requests') : Fits job requests' i t := by
  cases h with
  | waiting late => exact .waiting late
  | asked hr => exact .asked (hrequests _ hr rfl)
  | answered hreply => exact .answered hreply
  | ended name => exact .ended name

/-- One task changes its phase, and nobody else's requests change. -/
theorem Wired.updatePhase (h : Wired job requests p.tasks) (ht : p.tasks[i]? = some t)
    {f : Phase → Phase} (hothers : ∀ r : Request, r.task ≠ i → (r ∈ requests' ↔ r ∈ requests))
    (honce : (requests'.map (·.task)).Nodup)
    (hasked : ∀ r ∈ requests', r.task = i → ∃ origin, ({ t with phase := f t.phase } : Entry) =
      ⟨r.id, r.payload, .running r.worker origin .pending⟩)
    (hfits : Fits job requests' i { t with phase := f t.phase }) :
    Wired job requests' (p.updatePhase i f).tasks := by
  refine ⟨fun r hr => ?_, honce, fun j t' ht' => ?_⟩
  · by_cases hi : r.task = i
    · obtain ⟨origin, heq⟩ := hasked r hr hi
      exact ⟨origin, by rw [hi, getElem?_updatePhase_self ht, heq]⟩
    · obtain ⟨origin, hr⟩ := h.asked r ((hothers r hi).1 hr)
      exact ⟨origin, by rw [getElem?_updatePhase_ne (Ne.symm hi), hr]⟩
  · by_cases hi : i = j
    · subst hi
      rw [getElem?_updatePhase_self ht] at ht'
      cases ht'
      exact hfits
    · rw [getElem?_updatePhase_ne hi] at ht'
      exact (h.fits j t' ht').mono fun r hr hj =>
        (hothers r fun hri => hi (hri.symm.trans hj)).2 hr

theorem Wired.notMem_requests (h : Wired job requests tasks) (ht : tasks[i]? = some t)
    (hphase : ∀ w origin, t.phase ≠ .running w origin .pending) : ∀ r ∈ requests, r.task ≠ i := by
  rintro r hr rfl
  obtain ⟨origin, heq⟩ := h.asked r hr
  rw [ht] at heq
  cases heq
  exact hphase _ _ rfl

/-- A task changes its phase while nothing of it is on the way. -/
theorem Wired.turn (h : Wired job requests p.tasks) (ht : p.tasks[i]? = some t)
    (hphase : ∀ w origin, t.phase ≠ .running w origin .pending) {phase : Phase}
    (hfits : Fits job requests i { t with phase }) :
    Wired job requests (p.setPhase i phase).tasks :=
  h.updatePhase ht (fun _ _ => .rfl) h.once
    (fun r hr hi => absurd hi (h.notMem_requests ht hphase r hr)) hfits

theorem Wired.ask {late : Bool} (h : Wired job requests p.tasks)
    (ht : p.tasks[i]? = some ⟨id, payload, .waiting late⟩) (w : Worker) (origin : Origin) :
    Wired job (requests ++ [⟨w, id, payload, i⟩])
      (p.setPhase i (.running w origin .pending)).tasks := by
  have hfree := h.notMem_requests ht (by simp)
  refine h.updatePhase ht (fun r hr => ?_) ?_ (fun r hr hi => ?_) (.asked (by simp))
  · rw [List.mem_append, List.mem_singleton]
    refine or_iff_left ?_
    rintro rfl
    exact hr rfl
  · rw [List.map_append, List.map_singleton]
    refine List.concat_eq_append ▸ (List.nodup_concat _ _).2 ⟨fun hmem => ?_, h.once⟩
    obtain ⟨r, hr, hi⟩ := List.mem_map.1 hmem
    exact hfree r hr hi
  · obtain hr | hr := List.mem_append.1 hr
    · exact absurd hi (hfree r hr)
    · obtain rfl := List.mem_singleton.1 hr
      exact ⟨origin, rfl⟩

theorem Wired.answer {before after : List Request} {r : Request}
    (h : Wired job (before ++ r :: after) p.tasks) :
    Wired job (before ++ after)
      (p.updatePhase r.task (Phase.receive (r.worker.respond job r.id r.payload))).tasks := by
  obtain ⟨origin, ht⟩ := h.asked r (by simp)
  have honce : ((r :: (before ++ after)).map (·.task)).Nodup :=
    (List.perm_middle.map _).nodup_iff.1 h.once
  rw [List.map_cons, List.nodup_cons] at honce
  refine h.updatePhase ht (fun r' hr' => ?_) honce.2 (fun r' hr' hi => ?_) (.answered rfl)
  · have hne : r' ≠ r := by
      rintro rfl
      exact hr' rfl
    simp [hne]
  · exact absurd (List.mem_map.2 ⟨r', hr', hi⟩) honce.1

theorem Wired.submit (h : Wired job requests p.tasks) (key : String) (payload : Task.Payload) :
    Wired job requests (p.submit key payload).2.tasks := by
  refine ⟨fun r hr => ?_, h.once, fun i t ht => ?_⟩
  · obtain ⟨origin, ht⟩ := h.asked r hr
    exact ⟨origin, (List.getElem?_append_left (List.getElem?_eq_some_iff.1 ht).1).trans ht⟩
  · obtain hi | hi := Nat.lt_or_ge i p.tasks.length
    · exact h.fits i t ((List.getElem?_append_left hi).symm.trans ht)
    · have ht := (List.getElem?_append_right hi).symm.trans ht
      obtain rfl := List.mem_singleton.1 (List.mem_of_getElem? ht)
      exact .waiting false

/-! ## Pools that lose no worker -/

theorem mem_identities {phase : Phase} (ht : p.tasks[i]? = some ⟨id, payload, phase⟩) :
    (id, payload) ∈ p.identities :=
  List.mem_map.2 ⟨_, List.mem_of_getElem? ht, rfl⟩

/-- A pool with some capacity in which every start has succeeded, and on none of whose tasks the job
takes its worker down. -/
structure Served (job : Job) (p : Pool) : Prop where
  balanced : Balanced [] p
  capacity_pos : 0 < p.capacity
  calm : ∀ x ∈ p.identities, ∀ name, job name x.2 ≠ .crashed
  dead : p.dead = []
  lost : p.lost = []
  failed : p.failed = 0
  wired : Wired job p.requests p.tasks

namespace Served

theorem live_pos (h : Served job p) (hfull : p.capacity ≤ p.spawned) : 0 < p.live := by
  have hcapacity := h.capacity_pos
  have hspawned := h.balanced.spawned_le_live
  rw [h.lost, List.length_nil, h.failed] at hspawned
  omega

theorem respond_ne_dropped {phase : Phase} (h : Served job p)
    (ht : p.tasks[i]? = some ⟨id, payload, phase⟩) (w : Worker) :
    w.respond job id payload ≠ .dropped :=
  fun hdropped => h.calm _ (mem_identities ht) w.name (respond_eq_dropped hdropped)

/-- A step takes no worker down and keeps requests and answers in order. -/
theorem course {s : Step} (h : Served job p) (hs : Happens job p s q)
    (hstarts : s.failsToStart = false) :
    q.dead = [] ∧ q.lost = [] ∧ Wired job q.requests q.tasks := by
  cases hs with
  | submit key payload => exact ⟨h.dead, h.lost, h.wired.submit key payload⟩
  | fill launches =>
    obtain ⟨started, warm, hfill⟩ := exists_fill_eq p launches
    rw [hfill]
    exact ⟨h.dead, h.lost, h.wired⟩
  | mark => exact ⟨h.dead, h.lost, h.wired⟩
  | @lend i _ id payload _ _ w origin q htask _ _ hdraw =>
    obtain ⟨_, _, _, _, _, rfl⟩ := hdraw.exists_eq
    have hw : w ∉ p.dead := by
      rw [h.dead]
      exact List.not_mem_nil
    rw [Pool.lend, if_neg hw]
    exact ⟨h.dead, h.lost, h.wired.ask htask w origin⟩
  | refuse _ _ _ hmiss hexhausted =>
    obtain ⟨rfl, hfull⟩ := hmiss.full_of_failsToStart hstarts
    exact absurd hexhausted.1 (Nat.ne_of_gt (h.live_pos hfull))
  | wait htask _ _ hmiss =>
    obtain ⟨rfl, -⟩ := hmiss.full_of_failsToStart hstarts
    exact ⟨h.dead, h.lost, h.wired.turn htask (by simp) (.waiting true)⟩
  | retry _ hmiss =>
    obtain ⟨rfl, -⟩ := hmiss.full_of_failsToStart hstarts
    exact ⟨h.dead, h.lost, h.wired⟩
  | @answer before after r reply hrequests hreply =>
    have hwired := h.wired
    rw [hrequests] at hwired
    obtain ⟨origin, htask⟩ := hwired.asked r (by simp)
    rw [h.dead, if_neg List.not_mem_nil] at hreply
    subst hreply
    rw [if_neg (h.respond_ne_dropped htask r.worker)]
    exact ⟨h.dead, h.lost, hwired.answer⟩
  | @release i id payload w origin response htask =>
    refine ⟨h.dead, h.lost, h.wired.turn htask (by simp) ?_⟩
    cases h.wired.fits i _ htask with
    | answered hreply =>
      rw [resultOf_of_respond hreply]
      exact .ended w.name
  | @lose i _ _ w _ htask =>
    cases h.wired.fits i _ htask with
    | answered hreply => exact absurd hreply (h.respond_ne_dropped htask w)

theorem step {s : Step} (h : Served job p) (hs : Happens job p s q)
    (hstarts : s.failsToStart = false)
    (hcalm : ∀ x, s.submission? = some x → ∀ name, job name x.2 ≠ .crashed) : Served job q := by
  obtain ⟨hdead, hlost, hwired⟩ := h.course hs hstarts
  refine ⟨h.balanced.step hs, hs.keeps.capacity ▸ h.capacity_pos, ?_, hdead, hlost,
    (hs.keeps.failed hstarts).trans h.failed, hwired⟩
  cases hsub : s.submission? with
  | none =>
    rw [hs.keeps.identities hsub]
    exact h.calm
  | some x =>
    cases hs with
    | submit key payload =>
      intro y hy
      rw [identities_submit] at hy
      obtain hy | hy := List.mem_append.1 hy
      · exact h.calm y hy
      · obtain rfl := List.mem_singleton.1 hy
        exact hcalm _ rfl
    | _ => cases hsub

theorem result_eq {result : Except Task.Error Task.Output} (h : Served job p)
    (hi : p.identities[i]? = some (id, payload)) (hresult : p.result? i = some result) :
    (∃ name, result = (job name payload).result id) ∧
      p.status? i = some (Phase.finished result).status := by
  unfold result? at hresult
  split at hresult
  · rename_i htask
    cases hresult
    rw [identities, List.getElem?_map, htask] at hi
    cases hi
    refine ⟨?_, by rw [status?, htask]; rfl⟩
    cases h.wired.fits i _ htask with
    | ended name => exact ⟨name, rfl⟩
  · cases hresult

/-! ## Pools in which nothing can happen -/

section
variable (h : Served job p)
  (hstuck : ∀ s : Step, s.isInternal = true → s.failsToStart = false → p.step? job s = none)
include h hstuck

theorem not_running {origin : Origin} {reply : Reply} :
    p.tasks[i]? ≠ some ⟨id, payload, .running w origin reply⟩ := by
  intro htask
  cases h.wired.fits i _ htask with
  | asked hr => exact answer?_ne_none hr (hstuck (.answer w) rfl rfl)
  | answered hreply =>
    exact conclude?_ne_none htask (hreply ▸ respond_ne_pending) (hstuck (.conclude i) rfl rfl)

theorem live_eq_length_idle : p.live = p.idle.length := by
  have hleases : p.leases = [] := by
    refine List.flatMap_eq_nil_iff.2 fun t ht => ?_
    obtain ⟨i, ht⟩ := List.mem_iff_getElem?.1 ht
    obtain ⟨id, payload, phase⟩ := t
    cases phase with
    | running w origin reply => exact absurd ht (h.not_running hstuck)
    | _ => rfl
  have hlive := h.balanced.live_eq
  rwa [hleases] at hlive

/-- No task waits: some dedicated worker is alive and no task holds it, so it is idle, and then
somebody is awake. -/
theorem not_waiting (halert : Alert p) {late : Bool} :
    p.tasks[i]? ≠ some ⟨id, payload, .waiting late⟩ := by
  intro htask
  suffices hfull : p.idle = [] ∧ p.capacity ≤ p.spawned by
    have hlive := h.live_pos hfull.2
    rw [h.live_eq_length_idle hstuck, hfull.1] at hlive
    exact Nat.lt_irrefl 0 hlive
  have hnone (i : Nat) : p.acquire? i .started = none := hstuck (.dispatch i .started) rfl rfl
  cases late with
  | true =>
    have hasleep (j : Nat) (hj : p.IsLate j) : j ∈ p.sleepers := by
      obtain ⟨_, _, hj⟩ := hj
      exact mem_sleepers_of_acquire?_eq_none hj (hnone j)
    have hsleepers : p.sleepers ≠ [] := List.ne_nil_of_mem (hasleep i ⟨_, _, htask⟩)
    exact ⟨halert.idle_eq_nil hsleepers hasleep, halert.full hsleepers⟩
  | false =>
    exact full_of_acquire?_eq_none htask (hnone i)

theorem isSome_result? (halert : Alert p) (hi : i < p.tasks.length) :
    (p.result? i).isSome = true := by
  cases ht : p.tasks[i]? with
  | none => exact absurd (List.getElem?_eq_none_iff.1 ht) (Nat.not_le.2 hi)
  | some t =>
    obtain ⟨id, payload, phase⟩ := t
    cases phase with
    | waiting late => exact absurd ht (h.not_waiting hstuck halert)
    | running w origin reply => exact absurd ht (h.not_running hstuck)
    | finished result => simp [result?, ht]

end

end Served

/-- A pool that is created with some capacity, in which every start succeeds, and on none of whose
submitted payloads the job takes its worker down, serves its tasks. -/
theorem served_of_run? {capacity : Nat} {setup : Setup} {steps : List Step}
    (hcapacity : 0 < capacity) (hstarts : StartsSucceed steps)
    (hcalm : ∀ x ∈ submissions steps, ∀ name, job name x.2 ≠ .crashed)
    (h : (create capacity setup).run? job steps = some p) : Served job p := by
  refine run?_induction (P := fun steps p => StartsSucceed steps → (∀ x ∈ submissions steps,
    ∀ name, job name x.2 ≠ .crashed) → Served job p) (fun _ _ => ?_)
    (fun hp hs hstarts hcalm => ?_) h hstarts hcalm
  · have hbalanced := Balanced.create capacity setup
    obtain ⟨started, warm, hcreate⟩ := exists_create_eq capacity setup
    rw [hcreate] at hbalanced ⊢
    exact ⟨hbalanced, hcapacity, by simp [identities], rfl, rfl, rfl, by simp, List.nodup_nil,
      by simp⟩
  · rw [submissions_concat] at hcalm
    obtain ⟨hbefore, hlast⟩ := startsSucceed_concat.1 hstarts
    have hp := hp hbefore fun x hx => hcalm x (List.mem_append_left _ hx)
    refine hp.step hs hlast fun x hx => hcalm x ?_
    rw [hx]
    exact List.mem_append_right _ List.mem_cons_self

theorem alert_of_run? {capacity : Nat} {setup : Setup} {steps : List Step}
    (hstarts : StartsSucceed steps) (h : (create capacity setup).run? job steps = some p) :
    Alert p := by
  refine run?_induction (P := fun steps p => StartsSucceed steps → Alert p)
    (fun _ => alert_create capacity setup) (fun hp hs hstarts => ?_) h hstarts
  obtain ⟨hbefore, hlast⟩ := startsSucceed_concat.1 hstarts
  exact (hp hbefore).step hs hlast

/-- **The results do not depend on the order of the steps.** Let every start of a dedicated worker
succeed, and let a job take no worker down on the payloads that are submitted. After any run of a
fresh pool with some capacity, a task that has ended has ended with what the job makes of its own
payload, and its status tells whether that is an output; and if the pool can take no step by itself
as long as starts succeed, all submitted tasks have ended. -/
theorem run_results {run : Task.Payload → Task.Verdict} {capacity : Nat} {setup : Setup}
    {steps : List Step} (hcapacity : 1 ≤ capacity) (hstarts : StartsSucceed steps)
    (hcalm : ∀ x ∈ submissions steps, run x.2 ≠ .crashed)
    (h : (create capacity setup).run? (fun _ => run) steps = some p) :
    p.tasks.length = (submissions steps).length ∧
      (∀ i key payload result, (submissions steps)[i]? = some (key, payload) →
        p.result? i = some result →
        (∃ output, run payload = .output output ∧ result = .ok output ∧
          p.status? i = some .done) ∨
        (∃ error, run payload = .rejected error ∧ result = .error (.transform error) ∧
          p.status? i = some .failed)) ∧
      ((∀ s : Step, s.isInternal = true → s.failsToStart = false →
          p.step? (fun _ => run) s = none) →
        ∀ i, i < (submissions steps).length → (p.result? i).isSome = true) := by
  have hserved := served_of_run? hcapacity hstarts (fun x hx _ => hcalm x hx) h
  have hlength := length_tasks_of_run? h
  refine ⟨hlength, fun i key payload result hsub hresult => ?_, fun hstuck i hi => ?_⟩
  · have hi : p.identities[i]? = some (⟨key, i % Task.sequenceLimit⟩, payload) := by
      rw [identities_of_run? h, numbered, List.getElem?_mapIdx, hsub]
      rfl
    obtain ⟨⟨-, rfl⟩, hstatus⟩ := hserved.result_eq hi hresult
    cases hverdict : run payload with
    | output out =>
      rw [hverdict] at hstatus
      exact .inl ⟨out, rfl, rfl, hstatus⟩
    | rejected message =>
      rw [hverdict] at hstatus
      exact .inr ⟨message, rfl, rfl, hstatus⟩
    | crashed => exact absurd hverdict (hcalm _ (List.mem_of_getElem? hsub))
  · exact hserved.isSome_result? hstuck (alert_of_run? hstarts h) (hlength ▸ hi)

/-- A task takes the worker for which another one has been woken, which goes back to sleep. -/
theorem run_results_overtaken :
    ∃ p, (create 1 .none).run?
        (fun _ payload =>
          if payload.code = "" then .rejected "empty" else .output ⟨payload.code, []⟩)
        [.submit "a" { code := "1", path := "a.js" }, .submit "b" { code := "", path := "b.js" },
          .dispatch 0 .started, .dispatch 1 .started, .answer ⟨0, "kiln-worker-0"⟩,
          .submit "c" { code := "3", path := "c.js" }, .conclude 0, .dispatch 2 .started,
          .dispatch 1 .started, .answer ⟨0, "kiln-worker-0"⟩, .conclude 2, .dispatch 1 .started,
          .answer ⟨0, "kiln-worker-0"⟩, .conclude 1] = some p ∧
      p.tasks.length = 3 ∧
      (∃ error, p.result? 1 = some (.error (.transform error)) ∧ p.status? 1 = some .failed) ∧
      ∀ i, i < 3 → (p.result? i).isSome = true := by
  refine Exists.imp (fun p h => ⟨h, ?_⟩) ⟨_, rfl⟩
  obtain ⟨hlength, hresults, hended⟩ := run_results (by decide) (by decide) (by decide) h
  cases h
  refine ⟨hlength, ?_, hended fun s hs _ => ?_⟩
  · obtain ⟨output, houtput, -⟩ | ⟨error, -, hresult, hstatus⟩ := hresults 1 _ _ _ rfl rfl
    · cases houtput
    · exact ⟨error, congrArg some hresult, hstatus⟩
  · cases s with
    | dispatch i launch => rcases i with _ | _ | _ | i <;> rfl
    | answer w => rfl
    | conclude i => rcases i with _ | _ | _ | i <;> rfl
    | _ => cases hs

/-- A task whose worker cannot be started goes to sleep for good, although the pool has room for
another worker. -/
example :
    ∃ p, (create 2 .none).run? (fun _ payload => .output ⟨payload.code, []⟩)
        [.submit "a" { code := "1", path := "a.js" }, .dispatch 0 .failed] = some p ∧
      p.spawned < p.capacity ∧ p.acquire? 0 .started = none :=
  ⟨_, rfl, by decide, rfl⟩

end Pool

end Worker

end ModuleForge
