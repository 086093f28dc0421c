import ModuleForge.Proofs.Dispatch
import Mathlib.Data.List.Nodup

/-!
# No wake-up is lost

A task that finds all workers busy goes to sleep, and each worker that comes back wakes one. Between
its waking and its next look another task may take the worker away. `Alert p` says what makes this
harmless: as long as anybody sleeps, there is for every idle worker a task that is awake and will
look for a dedicated worker. It also says that nobody sleeps while a worker may be started, which
holds as long as every start succeeds.
-/

namespace ModuleForge.Worker.Pool

variable {job : Job} {p q : Pool} {i : Nat}

/-- The task has found no warm worker, and waits for a dedicated one. -/
def IsLate (p : Pool) (i : Nat) : Prop :=
  ∃ id payload, p.tasks[i]? = some ⟨id, payload, .waiting true⟩

/-- For every idle worker somebody is awake who will look for it. -/
def Attended (p : Pool) : Prop :=
  ∃ awake : List Nat, awake.Nodup ∧ (∀ i ∈ awake, p.IsLate i ∧ i ∉ p.sleepers) ∧
    p.idle.length ≤ awake.length

/-- While tasks sleep, no idle worker is overlooked, and no dedicated worker can be started. -/
structure Alert (p : Pool) : Prop where
  nodup : p.sleepers.Nodup
  late : ∀ i ∈ p.sleepers, p.IsLate i
  full : p.sleepers ≠ [] → p.capacity ≤ p.spawned
  attended : p.sleepers ≠ [] → p.Attended

/-! ## Tasks that wait -/

theorem IsLate.of_eq {j : Nat} (h : p.IsLate j) (hj : q.tasks[j]? = p.tasks[j]?) : q.IsLate j := by
  rwa [IsLate, hj]

theorem not_isLate {t : Entry} (ht : p.tasks[i]? = some t) (hphase : t.phase ≠ .waiting true) :
    ¬ p.IsLate i := by
  rintro ⟨id, payload, h⟩
  rw [ht] at h
  cases h
  exact hphase rfl

theorem IsLate.receive {j : Nat} (h : p.IsLate j) (i : Nat) (reply : Reply) :
    (p.updatePhase i (Phase.receive reply)).IsLate j := by
  by_cases hij : i = j
  · subst hij
    obtain ⟨id, payload, ht⟩ := h
    exact ⟨id, payload, getElem?_updatePhase_self ht _⟩
  · exact h.of_eq (getElem?_updatePhase_ne hij _)

theorem IsLate.submit {j : Nat} (h : p.IsLate j) (key : String) (payload : Task.Payload) :
    (p.submit key payload).2.IsLate j := by
  obtain ⟨id, payload', ht⟩ := h
  exact ⟨id, payload', (List.getElem?_append_left (List.getElem?_eq_some_iff.1 ht).1).trans ht⟩

/-! ## Idle workers -/

theorem attended_of_idle_eq_nil (h : p.idle = []) : p.Attended :=
  ⟨[], List.nodup_nil, by simp, by simp [h]⟩

theorem Attended.mono (h : p.Attended) (hlate : ∀ j, p.IsLate j → q.IsLate j)
    (hsleepers : q.sleepers ⊆ p.sleepers) (hidle : q.idle.length ≤ p.idle.length) : q.Attended := by
  obtain ⟨awake, hnodup, hawake, hle⟩ := h
  exact ⟨awake, hnodup, fun j hj => ⟨hlate j (hawake j hj).1,
    fun hq => (hawake j hj).2 (hsleepers hq)⟩, Nat.le_trans hidle hle⟩

/-- A task that changes its phase leaves the idle workers attended if it takes one of them, or if it
did not attend to any. -/
theorem Attended.leave (h : p.Attended) (hothers : ∀ j, i ≠ j → q.tasks[j]? = p.tasks[j]?)
    (hsleepers : q.sleepers ⊆ p.sleepers)
    (hidle : q.idle.length + 1 ≤ p.idle.length ∨ ¬ p.IsLate i ∧ q.idle.length ≤ p.idle.length) :
    q.Attended := by
  obtain ⟨awake, hnodup, hawake, hle⟩ := h
  refine ⟨awake.erase i, hnodup.erase i, fun j hj => ?_, ?_⟩
  · obtain ⟨hne, hj⟩ := hnodup.mem_erase_iff.1 hj
    exact ⟨(hawake j hj).1.of_eq (hothers j hne.symm), fun hq => (hawake j hj).2 (hsleepers hq)⟩
  · obtain hidle | ⟨hi, hidle⟩ := hidle
    · have := List.le_length_erase (a := i) (l := awake)
      omega
    · rw [List.erase_of_not_mem fun hmem => hi (hawake i hmem).1]
      omega

/-- A worker that comes back wakes a task, which attends to it. -/
theorem Attended.wake {s : Nat} {rest : List Nat} (h : p.Attended) (hs : p.sleepers = s :: rest)
    (hrest : s ∉ rest) (hlate : ∀ j, p.IsLate j → q.IsLate j) (hwoken : q.IsLate s)
    (hsleepers : q.sleepers = rest) (hidle : q.idle.length ≤ p.idle.length + 1) : q.Attended := by
  obtain ⟨awake, hnodup, hawake, hle⟩ := h
  have hfresh : s ∉ awake := fun hmem => (hawake s hmem).2 (by rw [hs]; exact List.mem_cons_self)
  refine ⟨s :: awake, List.nodup_cons.2 ⟨hfresh, hnodup⟩, ?_, by rw [List.length_cons]; omega⟩
  rw [List.forall_mem_cons, hsleepers]
  refine ⟨⟨hwoken, hrest⟩, fun j hj => ⟨hlate j (hawake j hj).1, fun hj' => ?_⟩⟩
  exact (hawake j hj).2 (by rw [hs]; exact List.mem_cons_of_mem s hj')

/-! ## Steps -/

/-- A change that puts nobody to sleep keeps a pool alert, if it keeps the idle workers attended. -/
theorem Alert.of_sublist (h : Alert p) (hsleepers : q.sleepers.Sublist p.sleepers)
    (hlate : ∀ j ∈ q.sleepers, p.IsLate j → q.IsLate j)
    (hfull : p.capacity ≤ p.spawned → q.capacity ≤ q.spawned)
    (hattended : p.capacity ≤ p.spawned → p.Attended → q.sleepers ≠ [] → q.Attended) : Alert q := by
  have hne (hq : q.sleepers ≠ []) : p.sleepers ≠ [] := by
    intro hp
    rw [hp, List.sublist_nil] at hsleepers
    exact hq hsleepers
  exact {
    nodup := h.nodup.sublist hsleepers
    late := fun j hj => hlate j hj (h.late j (hsleepers.subset hj))
    full := fun hq => hfull (h.full (hne hq))
    attended := fun hq => hattended (h.full (hne hq)) (h.attended (hne hq)) hq }

theorem Alert.notMem_sleepers {t : Entry} (h : Alert p) (ht : p.tasks[i]? = some t)
    (hawake : t.phase = .waiting true → i ∉ p.sleepers) : i ∉ p.sleepers := by
  intro hi
  by_cases hphase : t.phase = .waiting true
  · exact hawake hphase hi
  · exact not_isLate ht hphase (h.late i hi)

theorem Alert.leave (h : Alert p) (hi : i ∉ p.sleepers)
    (hothers : ∀ j, i ≠ j → q.tasks[j]? = p.tasks[j]?)
    (hsleepers : q.sleepers.Sublist p.sleepers)
    (hfull : p.capacity ≤ p.spawned → q.capacity ≤ q.spawned)
    (hattended : p.capacity ≤ p.spawned → p.Attended → q.sleepers ≠ [] → q.Attended) : Alert q := by
  refine h.of_sublist hsleepers (fun j hj hlate => hlate.of_eq (hothers j ?_)) hfull hattended
  rintro rfl
  exact hi (hsleepers.subset hj)

theorem Draws.idle_length {launch : Launch} {w : Worker} {origin : Origin}
    (h : Draws p launch w origin q) :
    p.spawned ≤ q.spawned ∧ (q.idle.length + 1 ≤ p.idle.length ∨
      origin = .warm ∧ q.idle.length ≤ p.idle.length ∨ p.spawned < p.capacity) := by
  cases h with
  | warm => exact ⟨Nat.le_refl _, .inr (.inl ⟨rfl, Nat.le_refl _⟩)⟩
  | idle hidle => exact ⟨Nat.le_refl _, .inl (by rw [hidle]; exact Nat.le_refl _)⟩
  | start _ hroom => exact ⟨Nat.le_succ _, .inr (.inr hroom)⟩

section
variable {id : Task.Id} {payload : Task.Payload} {w : Worker} {origin : Origin} {reply : Reply}

theorem Alert.release (h : Alert p)
    (htask : p.tasks[i]? = some ⟨id, payload, .running w origin reply⟩) (phase : Phase) :
    Alert ((p.release w origin).setPhase i phase) := by
  have hi : ¬ p.IsLate i := not_isLate htask (by simp)
  have hothers (j : Nat) (hij : i ≠ j) :
      ((p.release w origin).setPhase i phase).tasks[j]? = p.tasks[j]? :=
    getElem?_updatePhase_ne hij _
  have hlate (j : Nat) (hj : p.IsLate j) : ((p.release w origin).setPhase i phase).IsLate j :=
    hj.of_eq (hothers j fun hij => hi (hij ▸ hj))
  refine h.leave (fun hmem => hi (h.late i hmem)) hothers (List.tail_sublist _) (fun hfull => hfull)
    fun _ hp hq => ?_
  -- somebody still sleeps, so the worker that came back has woken somebody else
  cases hsleepers : p.sleepers with
  | nil => exact absurd (congrArg List.tail hsleepers) hq
  | cons s rest =>
    have hnodup := h.nodup
    rw [hsleepers, List.nodup_cons] at hnodup
    have hs : p.IsLate s := h.late s (by rw [hsleepers]; exact List.mem_cons_self)
    exact hp.wake hsleepers hnodup.1 hlate (hlate s hs) (congrArg List.tail hsleepers)
      (Nat.le_of_eq List.length_append)

theorem Alert.lose (h : Alert p)
    (htask : p.tasks[i]? = some ⟨id, payload, .running w origin reply⟩) (phase : Phase) :
    Alert ((p.lose w origin).setPhase i phase) := by
  have hi : ¬ p.IsLate i := not_isLate htask (by simp)
  have hothers (j : Nat) (hij : i ≠ j) :
      ((p.lose w origin).setPhase i phase).tasks[j]? = p.tasks[j]? :=
    getElem?_updatePhase_ne hij _
  refine h.leave (fun hmem => hi (h.late i hmem)) hothers (List.tail_sublist _) (fun hfull => hfull)
    fun _ hp _ => ?_
  exact hp.leave hothers (List.tail_sublist _).subset (.inr ⟨hi, Nat.le_refl _⟩)

end

/-- **Every step keeps a pool alert**, unless a worker cannot be started: then its task goes to sleep
although another one could be. -/
theorem Alert.step {s : Step} (h : Alert p) (hs : Happens job p s q)
    (hstarts : s.failsToStart = false) : Alert q := by
  cases hs with
  | submit key payload =>
    exact h.of_sublist (.refl _) (fun j _ hj => hj.submit key payload) id fun _ hp _ =>
      hp.mono (fun j hj => hj.submit key payload) (List.Subset.refl _) (Nat.le_refl _)
  | fill launches =>
    obtain ⟨started, warm, hfill⟩ := exists_fill_eq p launches
    rw [hfill]
    exact ⟨h.nodup, h.late, h.full, h.attended⟩
  | mark => exact ⟨h.nodup, h.late, h.full, h.attended⟩
  | @lend i _ id payload late permit w origin q htask hawake hwarm hdraw =>
    have hi := h.notMem_sleepers htask fun hphase => hawake (by cases hphase; rfl)
    obtain ⟨hspawned, hidle⟩ := hdraw.idle_length
    obtain ⟨_, _, _, _, _, _, hsub, hlend⟩ := exists_lend_eq q i id payload w origin
    obtain ⟨_, _, _, _, _, rfl⟩ := hdraw.exists_eq
    rw [hlend]
    refine h.leave hi (fun j hij => getElem?_updatePhase_ne hij _) hsub
      (fun hfull => Nat.le_trans hfull hspawned) fun hfull hp _ => ?_
    refine hp.leave (fun j hij => getElem?_updatePhase_ne hij _) hsub.subset ?_
    obtain hidle | ⟨rfl, hidle⟩ | hroom := hidle
    · exact .inl hidle
    · exact .inr ⟨not_isLate htask (by simp [hwarm rfl]), hidle⟩
    · exact absurd hfull (Nat.not_le.2 hroom)
  | @refuse _ _ _ _ _ _ sleepers _ htask hawake hsleepers hmiss =>
    have hi := h.notMem_sleepers htask fun hphase => hawake (by cases hphase; rfl)
    have hsub : sleepers.Sublist p.sleepers := by
      obtain rfl | rfl := hsleepers
      · exact .refl _
      · exact List.tail_sublist _
    have hidle := hmiss.exists_eq.1
    obtain ⟨rfl, -⟩ := hmiss.full_of_failsToStart hstarts
    exact h.leave hi (fun j hij => getElem?_updatePhase_ne hij _) hsub id
      fun _ _ _ => attended_of_idle_eq_nil hidle
  | @wait i _ id payload _ sleepers _ htask hawake hsleepers hmiss =>
    have hi := h.notMem_sleepers htask fun hphase => hawake (by cases hphase; rfl)
    have hidle := hmiss.exists_eq.1
    obtain ⟨rfl, hfull⟩ := hmiss.full_of_failsToStart hstarts
    refine ⟨?_, fun j hj => ?_, fun _ => hfull, fun _ => attended_of_idle_eq_nil hidle⟩
    · obtain rfl | rfl := hsleepers
      · exact h.nodup
      · exact List.concat_eq_append ▸ (List.nodup_concat _ _).2 ⟨hi, h.nodup⟩
    · by_cases hij : i = j
      · subst hij
        exact ⟨id, payload, getElem?_updatePhase_self htask fun _ => .waiting true⟩
      · have hj' : j ∈ p.sleepers := by
          obtain rfl | rfl := hsleepers
          · exact hj
          · exact (List.mem_append.1 hj).resolve_right fun hj => hij (List.mem_singleton.1 hj).symm
        exact (h.late j hj').of_eq (getElem?_updatePhase_ne hij _)
  | retry _ hmiss =>
    obtain ⟨rfl, -⟩ := hmiss.full_of_failsToStart hstarts
    exact h
  | answer =>
    exact h.of_sublist (.refl _) (fun j _ hj => hj.receive _ _) id fun _ hp _ =>
      hp.mono (fun j hj => hj.receive _ _) (List.Subset.refl _) (Nat.le_refl _)
  | release htask => exact h.release htask _
  | lose htask => exact h.lose htask _

theorem alert_create (capacity : Nat) (setup : Setup) : Alert (create capacity setup) := by
  obtain ⟨started, warm, h⟩ := exists_create_eq capacity setup
  rw [h]
  exact ⟨List.nodup_nil, by simp, by simp, by simp⟩

/-- A pool in which tasks sleep, all of whose other tasks have stopped looking for workers, has no
idle worker. -/
theorem Alert.idle_eq_nil (h : Alert p) (hsleepers : p.sleepers ≠ [])
    (hasleep : ∀ i, p.IsLate i → i ∈ p.sleepers) : p.idle = [] := by
  obtain ⟨awake, -, hawake, hle⟩ := h.attended hsleepers
  have hnil : awake = [] := List.eq_nil_iff_forall_not_mem.2 fun i hi =>
    (hawake i hi).2 (hasleep i (hawake i hi).1)
  rw [hnil] at hle
  exact List.eq_nil_of_length_eq_zero (Nat.le_zero.1 hle)

end ModuleForge.Worker.Pool
