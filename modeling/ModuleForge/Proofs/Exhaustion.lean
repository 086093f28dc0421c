import ModuleForge.Proofs.Accounting

/-!
# When a pool has no worker for a task

A task fails for want of workers when no more dedicated workers may be started and none of them is
alive. The test looks at two counters that do not know a warm worker before it has come back from its
first task. So a refusal says that every dedicated worker is lost or could not be started
(`run_refusals`), and in a pool that was created without warm workers that nobody is left at all; but
a warm worker may be busy, and will be idle when it has finished (`premature_refusal`).
-/

namespace ModuleForge.Worker.Pool

variable {job : Job} {p q : Pool} {i j : Nat} {result : Except Task.Error Task.Output}

/-! ## Who gets a result -/

theorem result?_eq_some_iff :
    p.result? i = some result ↔ ∃ t, p.tasks[i]? = some t ∧ t.phase = .finished result := by
  unfold result?
  split
  · rename_i htask
    rw [htask]
    simp
  · rename_i hnot
    refine ⟨fun h => (Option.some_ne_none _ h.symm).elim, ?_⟩
    rintro ⟨⟨id, payload, phase⟩, ht, rfl⟩
    exact absurd ht (hnot id payload result)

/-- A change of phases that finishes nobody with a result leaves this result where it was. -/
theorem result?_of_updatePhase {f : Phase → Phase}
    (hf : ∀ phase, f phase = .finished result → phase = .finished result)
    (h : (p.updatePhase j f).result? i = some result) : p.result? i = some result := by
  obtain ⟨t', ht', hphase⟩ := result?_eq_some_iff.1 h
  refine result?_eq_some_iff.2 ?_
  by_cases hij : j = i
  · subst hij
    cases ht : p.tasks[j]? with
    | none => simp [updatePhase, ht] at ht'
    | some t =>
      rw [getElem?_updatePhase_self ht] at ht'
      cases ht'
      exact ⟨t, rfl, hf _ hphase⟩
  · rw [getElem?_updatePhase_ne hij] at ht'
    exact ⟨t', ht', hphase⟩

theorem result?_of_setPhase {phase : Phase} (hphase : phase ≠ .finished result)
    (h : (p.setPhase j phase).result? i = some result) : p.result? i = some result :=
  result?_of_updatePhase (fun _ heq => absurd heq hphase) h

theorem result?_of_submit {key : String} {payload : Task.Payload}
    (h : (p.submit key payload).2.result? i = some result) : p.result? i = some result := by
  obtain ⟨t, ht, hphase⟩ := result?_eq_some_iff.1 h
  obtain hi | hi := Nat.lt_or_ge i p.tasks.length
  · exact result?_eq_some_iff.2 ⟨t, (List.getElem?_append_left hi).symm.trans ht, hphase⟩
  · have ht := (List.getElem?_append_right hi).symm.trans ht
    obtain rfl := List.mem_singleton.1 (List.mem_of_getElem? ht)
    cases hphase

theorem result?_of_lend {id : Task.Id} {payload : Task.Payload} {w : Worker} {origin : Origin}
    (h : (p.lend j id payload w origin).result? i = some (.error .noWorkers)) :
    p.result? i = some (.error .noWorkers) := by
  unfold lend at h
  split at h <;> exact result?_of_setPhase (by simp) h

theorem resultOf_ne_noWorkers (id : Task.Id) (response : Task.Response) :
    resultOf id response ≠ .error .noWorkers := by
  unfold resultOf
  split
  · simp
  · split <;> simp

/-- A task fails for want of workers only when it finds none and the counters say that no dedicated
one is left. -/
theorem Happens.refusal {s : Step} (h : Happens job p s q) (hi : p.result? i = none)
    (hq : q.result? i = some (.error .noWorkers)) :
    ∃ j launch sleepers permit r, s = .dispatch j launch ∧
      Misses { p with sleepers, permit } launch r ∧ (r.live = 0 ∧ r.capacity ≤ r.spawned) ∧
      q = r.setPhase j (.finished (.error .noWorkers)) := by
  by_contra hnot
  suffices hold : p.result? i = some (.error .noWorkers) by
    rw [hi] at hold
    cases hold
  cases h with
  | submit key payload => exact result?_of_submit hq
  | fill launches =>
    obtain ⟨started, warm, hfill⟩ := exists_fill_eq p launches
    rwa [hfill] at hq
  | mark => exact hq
  | lend _ _ _ hdraw =>
    have hold := result?_of_lend hq
    obtain ⟨_, _, _, _, _, rfl⟩ := hdraw.exists_eq
    exact hold
  | refuse _ _ _ hmiss hexhausted => exact absurd ⟨_, _, _, _, _, rfl, hmiss, hexhausted, rfl⟩ hnot
  | wait _ _ _ hmiss =>
    have hold := result?_of_setPhase (by simp) hq
    obtain ⟨-, _, _, rfl⟩ := hmiss.exists_eq
    exact hold
  | retry _ hmiss =>
    obtain ⟨-, _, _, rfl⟩ := hmiss.exists_eq
    exact hq
  | answer =>
    refine result?_of_updatePhase (fun phase heq => ?_) hq
    cases phase with
    | running => cases heq
    | _ => exact heq
  | release =>
    exact result?_of_setPhase (fun heq => resultOf_ne_noWorkers _ _ (Phase.finished.inj heq)) hq
  | lose => exact result?_of_setPhase (by simp) hq

/-! ## Pools without warm workers -/

theorem mem_leases_updatePhase {f : Phase → Phase} {lease : Worker × Origin}
    (h : lease ∈ (p.updatePhase i f).leases) :
    lease ∈ p.leases ∨ ∃ t, p.tasks[i]? = some t ∧ lease ∈ (f t.phase).held := by
  cases ht : p.tasks[i]? with
  | none =>
    rw [updatePhase, List.modify_eq_self (List.getElem?_eq_none_iff.1 ht)] at h
    exact .inl h
  | some t =>
    have hmem := (leases_updatePhase ht f).mem_iff.1 (List.mem_append_left _ h)
    exact (List.mem_append.1 hmem).imp_right fun hheld => ⟨t, rfl, hheld⟩

/-- There is no warm pool, and nobody has drawn a warm worker. -/
structure IsCold (p : Pool) : Prop where
  warm_eq : p.warm = none
  leases : ∀ lease ∈ p.leases, lease.2 = .dedicated

namespace IsCold

theorem frame (h : p.IsCold) (hwarm : q.warm = p.warm) (htasks : q.tasks = p.tasks) : q.IsCold := by
  refine ⟨hwarm.trans h.warm_eq, ?_⟩
  rw [Pool.leases, htasks]
  exact h.leases

theorem mark_eq (h : p.IsCold) : p.mark = p := by
  obtain ⟨capacity, warm⟩ := p
  obtain rfl : warm = none := h.warm_eq
  rfl

theorem startWarms_eq (h : p.IsCold) (launches : List Launch) : p.startWarms launches = p := by
  induction launches with
  | nil => rfl
  | cons launch launches ih =>
    have hsame : p.startWarm launch = p := by simp only [startWarm, h.warm_eq]
    rw [startWarms, hsame, ih]

theorem updatePhase {f : Phase → Phase} (h : p.IsCold)
    (hf : ∀ t, p.tasks[i]? = some t → ∀ lease ∈ (f t.phase).held, lease.2 = .dedicated) :
    (p.updatePhase i f).IsCold := by
  refine ⟨h.warm_eq, fun lease hlease => ?_⟩
  obtain hlease | ⟨t, ht, hheld⟩ := mem_leases_updatePhase hlease
  · exact h.leases lease hlease
  · exact hf t ht lease hheld

theorem setPhase {phase : Phase} (h : p.IsCold) (hphase : phase.held = []) :
    (p.setPhase i phase).IsCold :=
  h.updatePhase fun _ _ lease hlease => by
    rw [hphase] at hlease
    cases hlease

theorem lend {launch : Launch} {w : Worker} {origin : Origin} {id : Task.Id}
    {payload : Task.Payload} (hdraw : Draws p launch w origin q) (h : p.IsCold) :
    (q.lend i id payload w origin).IsCold := by
  have hq : q.IsCold ∧ origin = .dedicated := by
    cases hdraw with
    | warm hwarm => exact absurd (h.warm_eq.symm.trans hwarm) (by simp)
    | idle => exact ⟨⟨h.warm_eq, h.leases⟩, rfl⟩
    | start => exact ⟨⟨h.warm_eq, h.leases⟩, rfl⟩
  obtain ⟨⟨hwarm, hleases⟩, rfl⟩ := hq
  unfold Pool.lend
  split
  · exact setPhase ⟨hwarm, hleases⟩ rfl
  · refine updatePhase ⟨hwarm, hleases⟩ fun _ _ lease hlease => ?_
    obtain rfl := List.mem_singleton.1 hlease
    rfl

theorem step {s : Step} (h : p.IsCold) (hs : Happens job p s q) : q.IsCold := by
  cases hs with
  | submit key payload =>
    refine ⟨h.warm_eq, fun lease hlease => h.leases lease ?_⟩
    simpa [Pool.leases, Pool.submit, Phase.held] using hlease
  | fill launches =>
    rw [fill, h.startWarms_eq, h.mark_eq]
    exact h
  | mark =>
    rw [h.mark_eq]
    exact h
  | lend _ _ _ hdraw => exact lend hdraw (h.frame rfl rfl)
  | refuse _ _ _ hmiss =>
    obtain ⟨-, _, _, rfl⟩ := hmiss.exists_eq
    exact setPhase (h.frame rfl rfl) rfl
  | wait _ _ _ hmiss =>
    obtain ⟨-, _, _, rfl⟩ := hmiss.exists_eq
    exact setPhase (h.frame rfl rfl) rfl
  | retry _ hmiss =>
    obtain ⟨-, _, _, rfl⟩ := hmiss.exists_eq
    exact h.frame rfl rfl
  | @answer _ _ _ reply =>
    refine updatePhase (h.frame rfl rfl) fun t ht lease hlease => ?_
    have hheld : (t.phase.receive reply).held = t.phase.held := by cases t.phase <;> rfl
    rw [hheld] at hlease
    exact h.leases lease (List.mem_flatMap.2 ⟨t, List.mem_of_getElem? ht, hlease⟩)
  | release => exact setPhase (h.frame rfl rfl) rfl
  | lose => exact setPhase (h.frame rfl rfl) rfl

end IsCold

theorem isCold_of_run? {capacity : Nat} {steps : List Step}
    (h : (create capacity .none).run? job steps = some p) : p.IsCold :=
  run?_induction (P := fun _ p => p.IsCold) ⟨rfl, by simp [leases, create]⟩
    (fun hp hs => hp.step hs) h

/-! ## Refusals -/

/-- When no dedicated worker is alive, whoever is with a task was drawn as a warm worker. -/
theorem Balanced.leases_warm (h : Balanced [] p) (hlive : p.live = 0) :
    ∀ lease ∈ p.leases, lease.2 = .warm := by
  have hcount := h.live_eq
  rw [hlive, List.append_nil] at hcount
  have hnone : dedicated p.leases = 0 := by omega
  rintro ⟨w, origin⟩ hlease
  cases origin with
  | warm => rfl
  | dedicated => exact absurd (decide_eq_true rfl) (List.countP_eq_zero.1 hnone _ hlease)

/-- What the counters say when a task is refused a worker. -/
theorem Balanced.counts_of_miss {launch : Launch} {sleepers : List Nat} {permit : Bool} {r : Pool}
    (h : Balanced [] p) (hmiss : Misses { p with sleepers, permit } launch r)
    (hexhausted : r.live = 0 ∧ r.capacity ≤ r.spawned) :
    p.live = 0 ∧ r.spawned = p.capacity ∧ p.capacity ≤ p.lost.length + r.failed := by
  obtain ⟨hlive, hfull⟩ := hexhausted
  have hr := (h.frame sleepers permit p.requests p.dead).miss hmiss
  have hspawned := Nat.le_antisymm hr.spawned_le hfull
  have hroom := hr.spawned_le_live
  rw [hlive, hspawned, Nat.zero_add] at hroom
  obtain ⟨-, spawned, failed, rfl⟩ := hmiss.exists_eq
  exact ⟨hlive, hspawned, hroom⟩

/-- **A refusal means that the dedicated workers are gone.** Let a task fail for want of workers in a
step after any run of a fresh pool. Then nobody is idle, no more dedicated workers may be started, as
many workers as that are lost or could not be started, and whoever still runs a task is a warm worker
on its first task. If every start succeeds, all dedicated workers were started before and as many
workers are lost. Every worker that was ever started is lost, waits in the warm pool, or is such a
warm worker; in a pool without warm workers, no task runs and all workers are lost. -/
theorem run_refusals {capacity : Nat} {setup : Setup} {steps : List Step} {s : Step}
    (h : (create capacity setup).run? job steps = some p) (hs : p.step? job s = some q)
    (hi : p.result? i = none) (hq : q.result? i = some (.error .noWorkers)) :
    p.idle = [] ∧ (∀ lease ∈ p.leases, lease.2 = .warm) ∧
      q.spawned = capacity ∧ capacity ≤ p.lost.length + q.failed ∧
      (StartsSucceed (steps ++ [s]) → p.spawned = capacity ∧ capacity ≤ p.lost.length) ∧
      ((p.lost ++ p.warmWorkers ++ p.leases.map (·.1)).map (·.serial)).Perm
        (List.range p.started) ∧
      (setup = .none → p.leases = [] ∧ (p.lost.map (·.serial)).Perm (List.range p.started)) := by
  obtain ⟨j, launch, sleepers, permit, r, rfl, hmiss, hexhausted, rfl⟩ :=
    (happens_of_step? hs).refusal hi hq
  obtain ⟨hp, rfl⟩ := balanced_of_run? h
  obtain ⟨hlive, hspawned, hlost⟩ := hp.counts_of_miss hmiss hexhausted
  have hidle : p.idle = [] := hmiss.exists_eq.1
  have hwarm := hp.leases_warm hlive
  have hplaced : ((p.lost ++ p.warmWorkers ++ p.leases.map (·.1)).map (·.serial)).Perm
      (List.range p.started) := by
    refine (List.Perm.map _ (List.perm_iff_count.2 fun w => ?_)).trans hp.placed
    simp only [workers, unleased, hidle, List.map_nil, List.append_nil, List.count_append]
    omega
  refine ⟨hidle, hwarm, hspawned, hlost, fun hstarts => ?_, hplaced, ?_⟩
  · obtain ⟨hbefore, hlast⟩ := startsSucceed_concat.1 hstarts
    obtain ⟨rfl, -⟩ := hmiss.full_of_failsToStart hlast
    have hlost : p.capacity ≤ p.lost.length + p.failed := hlost
    rw [failed_of_run? hbefore h] at hlost
    exact ⟨hspawned, hlost⟩
  rintro rfl
  have hcold := isCold_of_run? h
  have hleases : p.leases = [] := by
    refine List.eq_nil_iff_forall_not_mem.2 fun lease hlease => ?_
    have horigin := hcold.leases lease hlease
    rw [hwarm lease hlease] at horigin
    cases horigin
  refine ⟨hleases, ?_⟩
  rw [hleases, warmWorkers, hcold.warm_eq] at hplaced
  simpa using hplaced

/-- The only dedicated worker has died, and the next task is refused. -/
theorem run_refusals_lastWorker :
    ∃ p, (create 1 .none).run? (fun _ _ => .crashed)
        [.submit "a" { code := "1", path := "a.js" }, .submit "b" { code := "2", path := "b.js" },
          .dispatch 0 .started, .answer ⟨0, "kiln-worker-0"⟩, .conclude 0] = some p ∧
      ∃ q, p.step? (fun _ _ => .crashed) (.dispatch 1 .started) = some q ∧
      p.result? 1 = none ∧ q.result? 1 = some (.error .noWorkers) ∧
      p.idle = [] ∧ p.spawned = 1 ∧ 1 ≤ p.lost.length ∧ p.leases = [] ∧
      (p.lost.map (·.serial)).Perm (List.range 1) := by
  refine Exists.imp (fun p h => ⟨h, ?_⟩) ⟨_, rfl⟩
  have hrefusal (q : Pool) := run_refusals (q := q) (i := 1) (s := .dispatch 1 .started) h
  cases h
  refine ⟨_, rfl, rfl, rfl, ?_⟩
  obtain ⟨hidle, -, -, -, hstarts, -, hcold⟩ := hrefusal _ rfl rfl rfl
  obtain ⟨hspawned, hlost⟩ := hstarts (by decide)
  obtain ⟨hleases, hplaced⟩ := hcold rfl
  exact ⟨hidle, hspawned, hlost, hleases, hplaced⟩

/-- A job that echoes the code, and takes its worker down on an empty one. -/
def fragileEcho : Job :=
  fun _ payload => if payload.code = "" then .crashed else .output ⟨payload.code, []⟩

/-- The warm pool is filled after the only dedicated worker has died. One task draws the warm worker
and another one is refused meanwhile, although the warm worker is alive, finishes its task and is
idle then. -/
theorem premature_refusal :
    ∃ p q r, (create 1 .uninitialized).run? fragileEcho
        [.submit "a" { code := "", path := "a.js" }, .dispatch 0 .started,
          .answer ⟨0, "kiln-worker-0"⟩, .conclude 0, .fill [.started],
          .submit "b" { code := "2", path := "b.js" }, .submit "c" { code := "3", path := "c.js" },
          .dispatch 1 .started] = some p ∧
      p.step? fragileEcho (.dispatch 2 .started) = some q ∧
      p.result? 2 = none ∧ q.result? 2 = some (.error .noWorkers) ∧
      p.leases = [(⟨1, "kiln-warm-0"⟩, .warm)] ∧ p.dead = [⟨0, "kiln-worker-0"⟩] ∧
      q.run? fragileEcho [.answer ⟨1, "kiln-warm-0"⟩, .conclude 1] = some r ∧
      r.idle = [⟨1, "kiln-warm-0"⟩] ∧ r.live = 1 :=
  ⟨_, _, _, rfl, rfl, rfl, rfl, rfl, rfl, rfl, rfl, rfl⟩

end ModuleForge.Worker.Pool
