import SmallTrial.PoolInvariant

/-! `ThreadPool` when no job panics: every job that is submitted is run once, and `drop` never gets
stuck. The messages form a queue in which no worker can reach a terminate message before a job sent
earlier, and as long as a worker has not received its terminate message one is left for it. -/

namespace SmallTrial.Pool

open Transition

variable {size : Nat}

/-! ### Messages -/

namespace Coherent

variable {tr : List (Event size)} {s : State size} {k : Nat}

theorem count_newJob (H : Coherent tr s k) (job : Nat) :
    (sent tr).count (.newJob job) = if job < s.accepted then 1 else 0 := by
  have hterminate : (List.replicate k Message.terminate).count (.newJob job) = 0 := by
    rw [List.count_eq_zero]
    intro hmem
    cases List.eq_of_mem_replicate hmem
  have hinj : Function.Injective Message.newJob := fun _ _ h => Message.newJob.inj h
  rw [H.sent_eq, List.count_append, hterminate, Nat.add_zero, List.count_map_of_injective _ _ hinj]
  split
  · rename_i hlt
    exact List.count_eq_one_of_mem List.nodup_range (List.mem_range.mpr hlt)
  · rename_i hge
    exact List.count_eq_zero.mpr fun hmem => hge (List.mem_range.mp hmem)

theorem execute_mem (H : Coherent tr s k) (job : Nat) : .execute job ∈ tr ↔ job < s.accepted := by
  have hsent : Message.newJob job ∈ sent tr ↔ .execute job ∈ tr := by
    rw [sent, List.mem_filterMap]
    constructor
    · rintro ⟨e, he, hm⟩
      cases e <;> cases hm
      exact he
    · exact fun he => ⟨_, he, rfl⟩
  rw [← hsent, ← List.count_pos_iff, H.count_newJob]
  split <;> simp [*]

/-- A message that is left in the channel has all the terminate messages behind it or is one. -/
theorem channel_eq_nil (H : Coherent tr s k) (hk : 0 < k)
    (hnone : s.channel.count .terminate = 0) : s.channel = [] := by
  by_contra hne
  have hlast : (sent tr).getLast? = some .terminate := by
    obtain ⟨k, rfl⟩ : ∃ j, k = j + 1 := ⟨k - 1, by omega⟩
    rw [H.sent_eq, List.replicate_succ', ← List.append_assoc, List.getLast?_concat]
  rw [H.channel_eq, List.getLast?_append_of_ne_nil _ hne] at hlast
  exact List.count_eq_zero.mp hnone (List.mem_of_getLast? hlast)

/-- Once every worker has left its loop the channel is empty. -/
theorem channel_of_exited (H : Coherent tr s k) (hsize : 0 < size) (hk : k = size)
    (hexited : ∀ id, s.worker id = .exited) : s.channel = [] := by
  have hsum : ∑ id, (s.worker id).tookTerminate = Fintype.card (Fin size) :=
    sum_eq_card fun id => by rw [hexited id, WorkerPc.tookTerminate]
  rw [Fintype.card_fin] at hsum
  have := H.terminate_eq
  exact H.channel_eq_nil (by omega) (by omega)

end Coherent

section Run

variable {steps : Nat → Nat} {panics : Nat → Bool} {s₀ s : State size} {tr : List (Event size)}

/-- No job is started twice, by one worker or by two. -/
theorem starts_le_one (hnew : ThreadPool.new size = some s₀) (h : Run (Step steps panics) s₀ tr s)
    (job : Nat) : total (Event.starts job) tr ≤ 1 := by
  obtain ⟨k, H⟩ := coherent hnew h
  calc total (Event.starts job) tr ≤ (received tr).count (.newJob job) := by
        rw [received_job hnew h]
        exact Nat.le_add_right _ _
    _ ≤ (sent tr).count (.newJob job) := by
        rw [H.channel_eq, List.count_append]
        exact Nat.le_add_right _ _
    _ ≤ 1 := by
        rw [H.count_newJob]
        split <;> omega

/-- When all workers have ended, a job that was received has been started and has ended. -/
theorem ended_of_received (hnew : ThreadPool.new size = some s₀)
    (h : Run (Step steps panics) s₀ tr s) (hended : ∀ id, (s.worker id).ended = true) (job : Nat)
    (hreceived : (received tr).count (.newJob job) = 1) :
    total (fun e => e.finishes job + e.jobPanics job) tr = 1 := by
  have hshare : ∀ id, (s.worker id).holds (.newJob job) = 0 ∧ (s.worker id).runs job = 0 := by
    intro id
    rcases Coherent.ended_iff.mp (hended id) with hpc | hpc <;> rw [hpc] <;> exact ⟨rfl, rfl⟩
  have hholds : ∑ id, (s.worker id).holds (.newJob job) = 0 :=
    Finset.sum_eq_zero fun id _ => (hshare id).1
  have hruns : ∑ id, (s.worker id).runs job = 0 := Finset.sum_eq_zero fun id _ => (hshare id).2
  have := received_job hnew h job
  have := started_job hnew h job
  omega

/-- A worker only panics in a job that panics. -/
theorem panics_of_mem (hnew : ThreadPool.new size = some s₀) (h : Run (Step steps panics) s₀ tr s) :
    ∀ e ∈ tr, e.panics ≠ 0 → ∃ id job, e = .jobPanic id job ∧ panics job = true := by
  refine h.forall_mem fun tr a e b hrun hstep hpanics => ?_
  obtain ⟨k, H⟩ := coherent hnew hrun
  rcases step_cases hstep with ⟨hnone, -⟩ | ⟨id, pc', -, hshares, -, -, -, hmove⟩
  · cases e <;> first | exact absurd rfl hpanics | cases hnone
  · generalize hpc : a.worker id = pc at hmove
    cases hmove with
    | jobPanic id job hjob => exact ⟨id, job, rfl, hjob⟩
    | lockPanic => cases hshares.2.1.symm.trans H.unpoisoned
    | recvPanic => exact absurd hshares.1 (H.channel_of_gone hshares.2.1 hpc)
    | _ => exact absurd rfl hpanics

theorem jobPanics_eq_zero (hnew : ThreadPool.new size = some s₀)
    (h : Run (Step steps panics) s₀ tr s) {job : Nat} (hjob : panics job = false) :
    total (Event.jobPanics job) tr = 0 := by
  refine total_eq_zero fun e he => ?_
  cases e with
  | jobPanic id job' =>
      obtain ⟨_, _, hevent, hpanics⟩ := panics_of_mem hnew h _ he Nat.one_ne_zero
      cases hevent
      refine if_neg ?_
      rintro rfl
      rw [hjob] at hpanics
      cases hpanics
  | _ => rfl

theorem not_panicked (hjobs : ∀ job, panics job = false) (hnew : ThreadPool.new size = some s₀)
    (h : Run (Step steps panics) s₀ tr s) (id : Fin size) : s.worker id ≠ .panicked := by
  intro hid
  have hle := le_sum WorkerPc.hasPanicked s.worker id
  have hzero : total Event.panics tr = 0 := total_eq_zero fun e he => by
    by_contra hne
    obtain ⟨-, job, -, hjob⟩ := panics_of_mem hnew h e he hne
    rw [hjobs job] at hjob
    cases hjob
  rw [← panicked_workers hnew h, hzero, hid] at hle
  exact absurd hle (by decide)

/-- `execute` can only panic when every worker has. -/
theorem panicked_of_disconnected {k : Nat} (H : Coherent tr s k) (hserving : s.phase = .serving)
    (hgone : s.disconnected) (id : Fin size) : s.worker id = .panicked := by
  have hphase := H.phase
  rw [PhaseOk, hserving] at hphase
  obtain rfl : k = 0 := hphase
  refine (Coherent.ended_iff.mp (hgone id)).resolve_left fun hid => ?_
  have hle := le_sum WorkerPc.tookTerminate s.worker id
  have hk := H.terminate_eq
  rw [hid] at hle
  have hone : WorkerPc.tookTerminate .exited = 1 := rfl
  omega

theorem executePanic_notMem (hjobs : ∀ job, panics job = false)
    (hnew : ThreadPool.new size = some s₀) (h : Run (Step steps panics) s₀ tr s) :
    .executePanic ∉ tr := by
  intro hmem
  refine h.forall_mem (P := (· ≠ .executePanic)) ?_ _ hmem rfl
  rintro tr a e b hrun hstep rfl
  obtain ⟨k, H⟩ := coherent hnew hrun
  obtain ⟨hsize, -⟩ := new_eq hnew
  rcases step_cases hstep with ⟨-, hserving, hgone, -⟩ | ⟨id, pc', hid, -⟩
  · exact not_panicked hjobs hnew hrun ⟨0, hsize⟩ (panicked_of_disconnected H hserving hgone _)
  · cases hid

/-! ### Each job once -/

/-- The workers of a pool of size 2. -/
def firstWorker : Party 2 := .worker 0

def secondWorker : Party 2 := .worker 1

/-- Two workers and three jobs. The second worker has the mutex first; while it runs the first job, the other
one runs the second to its end and takes the third, and then the pool is dropped. -/
def threeJobs : List (Party 2) :=
  List.replicate 3 .execute ++ List.replicate 4 secondWorker ++ List.replicate 10 firstWorker ++
    List.replicate 4 .drop ++ List.replicate 6 secondWorker ++ List.replicate 6 firstWorker ++
    List.replicate 3 .drop

/-- Some of what happens in it. -/
def threeJobsEvents : List (Event 2) :=
  [.execute 0, .execute 1, .execute 2, .start 1 0, .start 0 1, .finish 0 1, .start 0 2, .dropStart,
    .finish 1 0, .finish 0 2]

/-- `threeJobs` replayed from the new pool. -/
theorem threeJobs_run : ∃ s₀ tr s, ThreadPool.new 2 = some s₀ ∧
    Run (Step (fun _ => 1) fun _ => false) s₀ tr s ∧ s.phase = .returned ∧ threeJobsEvents.Sublist tr := by
  have hreplay : ((ThreadPool.new 2).bind fun s₀ =>
      (replay (State.next (fun _ => 1) fun _ => false) s₀ threeJobs).map fun r =>
        (r.1.phase, decide (threeJobsEvents.Sublist r.2))) = some (.returned, true) := by decide +kernel
  obtain ⟨s₀, hnew, hrun⟩ := Option.bind_eq_some_iff.mp hreplay
  obtain ⟨⟨s, tr⟩, hrun, hfacts⟩ := Option.map_eq_some_iff.mp hrun
  simp only [Prod.mk.injEq, decide_eq_true_eq] at hfacts
  exact ⟨s₀, tr, s, hnew, Run.of_replay (fun _ p _ _ h => ⟨p, h⟩) hrun, hfacts⟩

/-- **Every job runs once.** If no job panics, then in every run of the pool the messages are received
in the order they were sent, `execute` does not panic, no job is started twice, and when `drop` has
returned every job has been run to its end exactly once. -/
theorem threadPool_runs_once (hjobs : ∀ job, panics job = false)
    (hnew : ThreadPool.new size = some s₀) (h : Run (Step steps panics) s₀ tr s) :
    received tr <+: sent tr ∧ .executePanic ∉ tr ∧
    (∀ job, total (Event.starts job) tr ≤ (sent tr).count (.newJob job) ∧
      total (Event.starts job) tr ≤ 1) ∧
    (s.phase = .returned → ∀ job, .execute job ∈ tr → total (Event.finishes job) tr = 1) := by
  obtain ⟨k, H⟩ := coherent hnew h
  obtain ⟨hsize, -⟩ := new_eq hnew
  refine ⟨⟨s.channel, H.channel_eq.symm⟩, executePanic_notMem hjobs hnew h,
    fun job => ⟨?_, starts_le_one hnew h job⟩, fun hret job hjob => ?_⟩
  · rw [H.channel_eq, List.count_append, received_job hnew h]
    omega
  · have hphase := H.phase
    rw [PhaseOk, hret] at hphase
    obtain ⟨hk, hexited⟩ := hphase
    have hended : ∀ id, (s.worker id).ended = true := fun id => by
      rw [hexited id]
      rfl
    have hreceived : (received tr).count (.newJob job) = 1 := by
      have hsent := H.channel_eq
      rw [H.channel_of_exited hsize hk hexited, List.append_nil] at hsent
      rw [← hsent, H.count_newJob, if_pos ((H.execute_mem job).mp hjob)]
    have hone := ended_of_received hnew h hended job hreceived
    have hadd := total_add (Event.finishes job) (Event.jobPanics job) tr
    have hzero := jobPanics_eq_zero hnew h (hjobs job)
    omega

theorem threadPool_runs_once_threeJobs : ∃ tr : List (Event 2), threeJobsEvents.Sublist tr ∧
    received tr <+: sent tr ∧ .executePanic ∉ tr ∧ ∀ job < 3, total (Event.finishes job) tr = 1 := by
  obtain ⟨s₀, tr, s, hnew, hrun, hret, hevents⟩ := threeJobs_run
  obtain ⟨hreceived, hpanic, -, hdone⟩ := threadPool_runs_once (fun _ => rfl) hnew hrun
  refine ⟨tr, hevents, hreceived, hpanic, fun job hjob => hdone hret job (hevents.subset ?_)⟩
  obtain rfl | rfl | rfl : job = 0 ∨ job = 1 ∨ job = 2 := by omega
  all_goals decide

/-! ### Progress -/

/-- A worker that is not waiting for the mutex, nor for a message that is still to be sent, has a step. -/
theorem work_enabled {id : Fin size} (hended : (s.worker id).ended = false)
    (hlock : s.worker id = .lock → s.guard = none) (hrecv : s.worker id = .recv → s.channel ≠ []) :
    ∃ r, s.work steps panics id = some r := by
  rw [State.work]
  cases hpc : s.worker id with
  | lock =>
      rw [hlock hpc]
      dsimp only
      split <;> exact ⟨_, rfl⟩
  | recv =>
      obtain ⟨m, rest, hchannel⟩ := List.exists_cons_of_ne_nil (hrecv hpc)
      rw [hchannel]
      exact ⟨_, rfl⟩
  | release m => exact ⟨_, rfl⟩
  | got m => cases m <;> exact ⟨_, rfl⟩
  | run job left =>
      cases left with
      | zero =>
          dsimp only
          split <;> exact ⟨_, rfl⟩
      | succ left => exact ⟨_, rfl⟩
  | exited | panicked =>
      rw [hpc] at hended
      cases hended

theorem took_of_locks {pc : WorkerPc} (h : pc = .recv) : pc.tookTerminate = 0 := by
  rw [h]
  rfl

/-- When all terminate messages are sent and a worker has not ended, some worker has a step: the one
that holds the mutex, if there is one, and else this one. -/
theorem worker_progress (H : Coherent tr s size) {id : Fin size}
    (hid : (s.worker id).ended = false) : ∃ id r, s.work steps panics id = some r := by
  have hrecv : ∀ id', s.worker id' = .recv → s.channel ≠ [] := fun id' h =>
    List.ne_nil_of_mem (H.terminate_mem (took_of_locks h))
  by_cases hfree : s.worker id = .lock → s.guard = none
  · exact ⟨id, work_enabled hid hfree (hrecv id)⟩
  · push Not at hfree
    obtain ⟨-, hguard⟩ := hfree
    obtain ⟨id', hid'⟩ := Option.ne_none_iff_exists'.mp hguard
    have hlocks := (H.guard_iff id').mp hid'
    refine ⟨id', work_enabled ?_ (fun hlock => ?_) (hrecv id')⟩
    · cases hpc : s.worker id' <;> rw [hpc] at hlocks <;> first | rfl | cases hlocks
    · rw [hlock] at hlocks
      cases hlocks

/-- From the start of `drop` to its end, `drop` or a worker has a step. -/
theorem drop_progress {k : Nat} (H : Coherent tr s k) (hserving : s.phase ≠ .serving)
    (hret : s.phase ≠ .returned) (hpanic : s.phase ≠ .panicked) :
    (∃ r, s.drop = some r) ∨ ∃ id r, s.work steps panics id = some r := by
  have hphase := H.phase
  rw [PhaseOk] at hphase
  cases hp : s.phase with
  | serving => exact absurd hp hserving
  | sending j =>
      refine .inl ?_
      rw [State.drop, hp]
      dsimp only
      split
      · split <;> exact ⟨_, rfl⟩
      · exact ⟨_, rfl⟩
  | joining j =>
      rw [hp] at hphase
      obtain ⟨rfl, -, -⟩ := hphase
      by_cases hj : j < k
      · cases hended : (s.worker ⟨j, hj⟩).ended with
        | false => exact .inr (worker_progress H hended)
        | true =>
            refine .inl ?_
            rw [State.drop, hp]
            dsimp only
            rw [dif_pos hj]
            rcases Coherent.ended_iff.mp hended with hpc | hpc <;> rw [hpc] <;> exact ⟨_, rfl⟩
      · refine .inl ?_
        rw [State.drop, hp]
        dsimp only
        rw [dif_neg hj]
        exact ⟨_, rfl⟩
  | returned => exact absurd hp hret
  | panicked => exact absurd hp hpanic

end Run

/-! ### Termination -/

/-- The steps a message still causes once it is received. -/
def Message.weight (steps : Nat → Nat) : Message → Nat
  | .newJob job => steps job + 5
  | .terminate => 2

/-- The steps a worker still takes without another message. -/
def WorkerPc.weight (steps : Nat → Nat) : WorkerPc → Nat
  | .lock => 2
  | .recv => 1
  | .release m => m.weight steps
  | .got m => m.weight steps - 1
  | .run _ left => left + 3
  | .exited | .panicked => 0

/-- The steps `drop` still takes, and those its messages cause. -/
def Phase.weight (size : Nat) : Phase → Nat
  | .serving => 4 * size + 3
  | .sending k => 3 * (size - k) + size + 2
  | .joining id => size - id + 1
  | .returned | .panicked => 0

/-- A bound for the number of steps until nothing is left to do. -/
def State.remaining (steps : Nat → Nat) (s : State size) : Nat :=
  s.phase.weight size + (s.channel.map (Message.weight steps)).sum +
    ∑ id, (s.worker id).weight steps

section Measure

variable {steps : Nat → Nat} {panics : Nat → Bool} {s s' : State size} {e : Event size}

/-- A worker's step costs it weight, or it takes a message out of the channel. -/
theorem weight_of_moves {pc pc' : WorkerPc} (hmove : Moves steps panics pc e pc') :
    pc'.weight steps < pc.weight steps ∨ ∃ id m, e = .recv id m ∧
      pc.weight steps = 1 ∧ pc'.weight steps = m.weight steps := by
  cases hmove with
  | recv id m => exact .inr ⟨id, m, rfl, rfl, rfl⟩
  | release id m => cases m <;> exact .inl (Nat.lt_succ_self _)
  | jobPanic | lockPanic | recvPanic => exact .inl (Nat.succ_pos _)
  | _ => exact .inl (Nat.lt_succ_self _)

/-- A step of a worker brings the end nearer, before `drop` as well. -/
theorem remaining_lt_of_moves {id : Fin size} {pc' : WorkerPc} (hshares : Shares s e s')
    (hphase : s'.phase = s.phase) (hworker : s'.worker = Function.update s.worker id pc')
    (hmove : Moves steps panics (s.worker id) e pc') : s'.remaining steps < s.remaining steps := by
  have hsum := sum_update (WorkerPc.weight steps) s.worker id pc'
  rw [← hworker] at hsum
  unfold State.remaining
  rw [hphase]
  rcases weight_of_moves hmove with hlt | ⟨id', m, rfl, hbefore, hafter⟩
  · have hchannel : (s'.channel.map (Message.weight steps)).sum ≤
        (s.channel.map (Message.weight steps)).sum := by
      rcases hshares.channel_cases with ⟨_, m, -, hc⟩ | ⟨-, hc⟩
      · rw [hc, List.map_cons, List.sum_cons]
        omega
      · rw [hc]
    omega
  · rw [hshares.1, List.map_cons, List.sum_cons]
    omega

/-- **Every step brings the end nearer** once `drop` has begun. -/
theorem remaining_lt (hstep : Step steps panics s e s') (hserving : s.phase ≠ .serving) :
    s'.remaining steps < s.remaining steps := by
  rcases step_cases hstep with ⟨-, howner⟩ | ⟨id, pc', -, hshares, hphase, -, hworker, hmove⟩
  · cases e with
    | execute => exact absurd howner.1 hserving
    | executePanic => exact absurd howner.1 hserving
    | dropStart => exact absurd howner.1 hserving
    | sendTerminate =>
        obtain ⟨k, hphase, hlt, -, rfl⟩ := howner
        simp only [State.remaining, hphase, Phase.weight, List.map_append, List.sum_append,
          List.map_singleton, List.sum_singleton, Message.weight]
        omega
    | joinStart =>
        obtain ⟨k, hphase, -, rfl⟩ := howner
        simp only [State.remaining, hphase, Phase.weight]
        omega
    | join id =>
        obtain ⟨hphase, -, rfl⟩ := howner
        have := id.isLt
        simp only [State.remaining, hphase, Phase.weight]
        omega
    | dropReturn =>
        obtain ⟨k, hphase, -, rfl⟩ := howner
        simp only [State.remaining, hphase, Phase.weight]
        omega
    | dropPanic =>
        obtain ⟨⟨k, hphase, -⟩ | ⟨id, hphase, -⟩, rfl⟩ := howner
        · simp only [State.remaining, hphase, Phase.weight]
          omega
        · simp only [State.remaining, hphase, Phase.weight]
          omega
    | _ => exact howner.elim
  · exact remaining_lt_of_moves hshares hphase hworker hmove

/-- Once begun, `drop` is not taken back. -/
theorem phase_ne_serving (hstep : Step steps panics s e s') (hserving : s.phase ≠ .serving) :
    s'.phase ≠ .serving := by
  rcases step_cases hstep with ⟨-, howner⟩ | ⟨id, pc', -, -, hphase, -⟩
  · cases e with
    | execute | executePanic | dropStart => exact absurd howner.1 hserving
    | sendTerminate =>
        obtain ⟨_, -, -, -, rfl⟩ := howner
        exact nofun
    | joinStart | dropReturn =>
        obtain ⟨_, -, -, rfl⟩ := howner
        exact nofun
    | join =>
        obtain ⟨-, -, rfl⟩ := howner
        exact nofun
    | dropPanic =>
        obtain ⟨-, rfl⟩ := howner
        exact nofun
    | _ => exact howner.elim
  · rwa [hphase]

end Measure

section Run

variable {steps : Nat → Nat} {panics : Nat → Bool} {s₀ s : State size} {tr : List (Event size)}

/-- How often worker `id` has received a terminate message. -/
def terminatesOf (id : Fin size) (tr : List (Event size)) : Nat := tr.count (.recv id .terminate)

theorem terminatesOf_eq (hnew : ThreadPool.new size = some s₀) (h : Run (Step steps panics) s₀ tr s)
    (id : Fin size) : terminatesOf id tr = (s.worker id).tookTerminate := by
  refine h.invariant (fun tr s => terminatesOf id tr = (s.worker id).tookTerminate) ?_ ?_
  · obtain ⟨-, rfl⟩ := new_eq hnew
    rfl
  · intro tr a e b _ hI hstep
    have hsnoc : terminatesOf id (tr ++ [e]) =
        terminatesOf id tr + if e = .recv id .terminate then 1 else 0 := by
      simp [terminatesOf, List.count_append, List.count_singleton]
    rw [hsnoc, hI]
    rcases step_cases hstep with ⟨hnone, howner⟩ | ⟨id', pc', hid, -, -, -, hworker, hmove⟩
    · have hne : e ≠ .recv id .terminate := by
        rintro rfl
        cases hnone
      rw [howner.worker_eq, if_neg hne, Nat.add_zero]
    · rw [hworker]
      by_cases heq : id = id'
      · subst heq
        rw [Function.update_self]
        generalize a.worker id = pc at hmove
        cases hmove with
        | recv _ m =>
            cases hid
            cases m <;> simp [WorkerPc.tookTerminate]
        | release _ m => cases m <;> rfl
        | _ => rfl
      · have hne : e ≠ .recv id .terminate := by
          rintro rfl
          exact heq (Option.some.inj hid)
        rw [Function.update_of_ne heq, if_neg hne, Nat.add_zero]

/-- **Shutdown never gets stuck.** If no job panics, then from the start of `drop` to its end `drop` or
a worker has a step, every step decreases `remaining`, which bounds the steps that are left, each worker
receives at most one terminate message, and when `drop` has returned each has received exactly one, all
workers have left their loops, and the channel is empty. -/
theorem threadPool_shutdown (hjobs : ∀ job, panics job = false)
    (hnew : ThreadPool.new size = some s₀) (h : Run (Step steps panics) s₀ tr s)
    (hdrop : s.phase ≠ .serving) :
    (s.phase ≠ .returned → (∃ r, s.drop = some r) ∨ ∃ id r, s.work steps panics id = some r) ∧
    (∀ e s', Step steps panics s e s' → s'.remaining steps < s.remaining steps) ∧
    (∀ tr' s', Run (Step steps panics) s tr' s' → tr'.length ≤ s.remaining steps) ∧
    (∀ id, terminatesOf id tr ≤ 1) ∧
    (s.phase = .returned →
      (∀ id, s.worker id = .exited ∧ terminatesOf id tr = 1) ∧ s.channel = []) := by
  obtain ⟨k, H⟩ := coherent hnew h
  obtain ⟨hsize, -⟩ := new_eq hnew
  have hphase := H.phase
  rw [PhaseOk] at hphase
  refine ⟨fun hret => ?_, fun e s' hstep => remaining_lt hstep hdrop, fun tr' s' hrun => ?_,
    fun id => ?_, fun hret => ?_⟩
  · refine drop_progress H hdrop hret fun hpanic => ?_
    rw [hpanic] at hphase
    obtain ⟨-, id, hid⟩ := hphase
    exact not_panicked hjobs hnew h id hid
  · have hlength := hrun.length_add_le (State.remaining steps) (fun s => s.phase ≠ .serving) hdrop
      (fun _ _ _ hne hstep => phase_ne_serving hstep hne)
      (fun _ _ _ hne hstep => remaining_lt hstep hne)
    omega
  · rw [terminatesOf_eq hnew h]
    exact tookTerminate_le _
  · rw [hret] at hphase
    obtain ⟨hk, hexited⟩ := hphase
    refine ⟨fun id => ⟨hexited id, ?_⟩, H.channel_of_exited hsize hk hexited⟩
    rw [terminatesOf_eq hnew h, hexited id]
    rfl

theorem threadPool_shutdown_threeJobs : ∃ (tr : List (Event 2)) (s : State 2), s.phase = .returned ∧
    (∀ id, s.worker id = .exited ∧ terminatesOf id tr = 1) ∧ s.channel = [] := by
  obtain ⟨s₀, tr, s, hnew, hrun, hret, -⟩ := threeJobs_run
  have hphase : s.phase ≠ .serving := by
    rw [hret]
    exact nofun
  obtain ⟨-, -, -, -, hend⟩ := threadPool_shutdown (fun _ => rfl) hnew hrun hphase
  exact ⟨tr, s, hret, hend hret⟩

end Run

end SmallTrial.Pool
