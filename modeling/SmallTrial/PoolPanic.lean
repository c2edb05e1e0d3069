import SmallTrial.PoolShutdown

/-! `ThreadPool` when jobs panic. A panic ends the worker the job runs in and nothing else, so the pool
works on as long as a worker is left; with the last worker `execute` panics, and `drop` panics in
`join().unwrap()` or in `send().unwrap()` if a worker has. -/

namespace SmallTrial.Pool

open Transition

variable {size : Nat}

/-- Behind a terminate message the channel holds no jobs. -/
theorem Coherent.no_job_left {tr : List (Event size)} {s : State size} {k : Nat}
    (H : Coherent tr s k) (hreceived : .terminate ∈ received tr) (job : Nat) :
    .newJob job ∉ s.channel := by
  have hsplit := H.channel_eq.symm.trans H.sent_eq
  rcases List.append_eq_append_iff.mp hsplit with ⟨rest, hjobs, -⟩ | ⟨rest, -, hrest⟩
  · have hmem : Message.terminate ∈ (List.range s.accepted).map Message.newJob := by
      rw [hjobs]
      exact List.mem_append_left _ hreceived
    simp at hmem
  · intro hmem
    have hlast : Message.newJob job ∈ List.replicate k Message.terminate := by
      rw [hrest]
      exact List.mem_append_right _ hmem
    cases List.eq_of_mem_replicate hlast

section Run

variable {steps : Nat → Nat} {panics : Nat → Bool} {s₀ s : State size} {tr : List (Event size)}

theorem terminate_received (hnew : ThreadPool.new size = some s₀)
    (h : Run (Step steps panics) s₀ tr s) {id : Fin size} (hid : s.worker id = .exited) :
    .terminate ∈ received tr := by
  have hone : (s.worker id).tookTerminate = 1 := by
    rw [hid]
    rfl
  have hle := le_sum WorkerPc.tookTerminate s.worker id
  rw [← List.count_pos_iff, received_terminate hnew h]
  omega

/-- If one of the workers left its loop and all have ended, every job has been started and has ended. -/
theorem ended_of_ended (hnew : ThreadPool.new size = some s₀) (h : Run (Step steps panics) s₀ tr s)
    (hended : ∀ id, (s.worker id).ended = true) {id : Fin size} (hid : s.worker id = .exited)
    (job : Nat) (hjob : .execute job ∈ tr) :
    total (fun e => e.finishes job + e.jobPanics job) tr = 1 := by
  obtain ⟨k, H⟩ := coherent hnew h
  refine ended_of_received hnew h hended job ?_
  have hcount := H.count_newJob job
  rw [if_pos ((H.execute_mem job).mp hjob), H.channel_eq, List.count_append,
    List.count_eq_zero.mpr (H.no_job_left (terminate_received hnew h hid) job)] at hcount
  exact hcount

theorem exists_exited (hnew : ThreadPool.new size = some s₀) (h : Run (Step steps panics) s₀ tr s)
    (hended : ∀ id, (s.worker id).ended = true) (hfew : total Event.panics tr < size) :
    ∃ id, s.worker id = .exited := by
  by_contra hnone
  push Not at hnone
  have hall : ∀ id, s.worker id = .panicked := fun id =>
    (Coherent.ended_iff.mp (hended id)).resolve_left (hnone id)
  have hsum : ∑ id, (s.worker id).hasPanicked = Fintype.card (Fin size) :=
    sum_eq_card fun id => by rw [hall id, WorkerPc.hasPanicked]
  rw [panicked_workers hnew h, hsum, Fintype.card_fin] at hfew
  exact absurd hfew (lt_irrefl _)

theorem finishes_eq_zero (h : Run (Step steps panics) s₀ tr s) {job : Nat} (hjob : panics job = true) :
    total (Event.finishes job) tr = 0 := by
  refine total_eq_zero (h.forall_mem (P := fun e => e.finishes job = 0) fun tr a e b _ hstep => ?_)
  rcases step_cases hstep with ⟨hnone, -⟩ | ⟨id, pc', -, -, -, -, -, hmove⟩
  · cases e <;> first | rfl | cases hnone
  · generalize a.worker id = pc at hmove
    cases hmove with
    | finish id job' hfinish =>
        refine if_neg ?_
        rintro rfl
        rw [hjob] at hfinish
        cases hfinish
    | _ => rfl

theorem executePanic_iff (hnew : ThreadPool.new size = some s₀)
    (h : Run (Step steps panics) s₀ tr s) (hserving : s.phase = .serving) :
    (∃ s', Step steps panics s .executePanic s') ↔ ∀ id, s.worker id = .panicked := by
  obtain ⟨k, H⟩ := coherent hnew h
  constructor
  · rintro ⟨s', hstep⟩ id
    rcases step_cases hstep with ⟨-, -, hgone, -⟩ | ⟨id', pc', hid, -⟩
    · exact panicked_of_disconnected H hserving hgone id
    · cases hid
  · intro hall
    have hgone : s.disconnected := fun id => by rw [hall id, WorkerPc.ended]
    refine ⟨s, .execute, ?_⟩
    rw [State.next, State.execute, hserving]
    exact if_pos hgone

/-- **What a panicking job does.** It ends the worker that runs it, and no worker panics for another
reason. No job is started twice. `execute` panics when all workers have panicked, and only then. When
all workers have ended and one of them without a panic, every job accepted has been run once, to its end
if it does not panic. From its start on `drop` or a worker has a step until `drop` ends, each step brings
the end nearer, and `drop` returns, with all workers joined, if none has panicked, and panics otherwise. -/
theorem threadPool_job_panics (hnew : ThreadPool.new size = some s₀)
    (h : Run (Step steps panics) s₀ tr s) :
    (∀ e ∈ tr, e.panics ≠ 0 → ∃ id job, e = .jobPanic id job ∧ panics job = true) ∧
    total Event.panics tr = ∑ id, (s.worker id).hasPanicked ∧
    (∀ job, total (Event.starts job) tr ≤ 1) ∧
    (s.phase = .serving →
      ((∃ s', Step steps panics s .executePanic s') ↔ ∀ id, s.worker id = .panicked)) ∧
    ((∀ id, (s.worker id).ended = true) → total Event.panics tr < size → ∀ job, .execute job ∈ tr →
      total (Event.finishes job) tr = (if panics job then 0 else 1) ∧
      total (Event.jobPanics job) tr = (if panics job then 1 else 0)) ∧
    (s.phase = .returned → total Event.panics tr = 0 ∧ ∀ id, s.worker id = .exited) ∧
    (s.phase = .panicked → total Event.panics tr ≠ 0) ∧
    (s.phase ≠ .serving → s.phase ≠ .returned → s.phase ≠ .panicked →
      (∃ r, s.drop = some r) ∨ ∃ id r, s.work steps panics id = some r) ∧
    (s.phase ≠ .serving → ∀ e s', Step steps panics s e s' → s'.remaining steps < s.remaining steps) := by
  obtain ⟨k, H⟩ := coherent hnew h
  have hphase := H.phase
  rw [PhaseOk] at hphase
  refine ⟨panics_of_mem hnew h, panicked_workers hnew h, starts_le_one hnew h,
    executePanic_iff hnew h, ?_, ?_, ?_, drop_progress H,
    fun hserving e s' hstep => remaining_lt hstep hserving⟩
  · intro hended hfew job hjob
    obtain ⟨id, hid⟩ := exists_exited hnew h hended hfew
    have hone := ended_of_ended hnew h hended hid job hjob
    rw [total_add] at hone
    cases hpanics : panics job with
    | false =>
        have hzero := jobPanics_eq_zero hnew h hpanics
        exact ⟨by simp; omega, by simp [hzero]⟩
    | true =>
        have hzero := finishes_eq_zero h hpanics
        exact ⟨by simp [hzero], by simp; omega⟩
  · intro hret
    rw [hret] at hphase
    refine ⟨?_, hphase.2⟩
    rw [panicked_workers hnew h]
    refine Finset.sum_eq_zero fun id _ => ?_
    rw [hphase.2 id]
    rfl
  · intro hpanic
    rw [hpanic] at hphase
    obtain ⟨-, id, hid⟩ := hphase
    have hle := le_sum WorkerPc.hasPanicked s.worker id
    rw [hid, ← panicked_workers hnew h, WorkerPc.hasPanicked] at hle
    exact Nat.ne_of_gt hle

end Run

/-! ### Runs with a panic -/

/-- A pool whose first job panics, replayed with steps in the given order. -/
def firstJobPanics (size : Nat) (ps : List (Party size)) : Option (State size × List (Event size)) :=
  (ThreadPool.new size).bind fun s₀ => replay (State.next (fun _ => 0) fun job => job = 0) s₀ ps

theorem run_of_firstJobPanics {ps : List (Party size)} {s : State size} {tr : List (Event size)}
    (h : firstJobPanics size ps = some (s, tr)) : ∃ s₀, ThreadPool.new size = some s₀ ∧
      Run (Step (fun _ => 0) fun job => job = 0) s₀ tr s := by
  obtain ⟨s₀, hnew, hrun⟩ := Option.bind_eq_some_iff.mp h
  exact ⟨s₀, hnew, Run.of_replay (fun _ p _ _ h => ⟨p, h⟩) hrun⟩

/-- Two workers, two jobs: the first worker ends with the first job, the second runs the second job. -/
def twoWorkers : List (Party 2) :=
  .execute :: .execute :: List.replicate 5 firstWorker ++ List.replicate 4 .drop ++
    List.replicate 9 secondWorker ++ [.drop]

theorem threadPool_job_panics_two : ∃ (s : State 2) (tr : List (Event 2)),
    s.phase = .panicked ∧ .execute 1 ∈ tr ∧ total Event.panics tr = 1 ∧
      total (Event.finishes 1) tr = 1 := by
  have hreplay : (firstJobPanics 2 twoWorkers).map (fun r => (r.1.phase, decide r.1.disconnected,
      decide (.execute 1 ∈ r.2), total Event.panics r.2)) = some (.panicked, true, true, 1) := by
    decide +kernel
  obtain ⟨⟨s, tr⟩, hreplayed, hfacts⟩ := Option.map_eq_some_iff.mp hreplay
  simp only [Prod.mk.injEq, decide_eq_true_eq] at hfacts
  obtain ⟨hphase, hended, hjob, hpanics⟩ := hfacts
  obtain ⟨s₀, hnew, hrun⟩ := run_of_firstJobPanics hreplayed
  obtain ⟨-, -, -, -, hdone, -⟩ := threadPool_job_panics hnew hrun
  have hfew : total Event.panics tr < 2 := by omega
  exact ⟨s, tr, hphase, hjob, hpanics, (hdone hended hfew 1 hjob).1⟩

/-- The worker of a pool of size 1. -/
def onlyWorker : Party 1 := .worker 0

/-- One worker, two jobs: the worker ends with the first job. -/
def oneWorker : List (Party 1) :=
  .execute :: .execute :: List.replicate 5 onlyWorker ++ [.execute, .drop, .drop]

/-- With one worker and a first job that panics the second job accepted is never run, the third call of
`execute` panics, and so does `drop`. -/
theorem threadPool_job_not_confined : ∃ (s₀ s : State 1) (tr : List (Event 1)),
    ThreadPool.new 1 = some s₀ ∧ Run (Step (fun _ => 0) fun job => job = 0) s₀ tr s ∧
      .execute 1 ∈ tr ∧ total (Event.starts 1) tr = 0 ∧ .executePanic ∈ tr ∧ .dropPanic ∈ tr ∧
      ∀ p, s.next (fun _ => 0) (fun job => job = 0) p = none := by
  have hreplay : (firstJobPanics 1 oneWorker).map (fun r => (decide (.execute 1 ∈ r.2),
      total (Event.starts 1) r.2, decide (.executePanic ∈ r.2), decide (.dropPanic ∈ r.2),
      r.1.phase, r.1.worker 0)) = some (true, 0, true, true, .panicked, .panicked) := by
    decide +kernel
  obtain ⟨⟨s, tr⟩, hreplayed, hfacts⟩ := Option.map_eq_some_iff.mp hreplay
  simp only [Prod.mk.injEq, decide_eq_true_eq] at hfacts
  obtain ⟨hjob, hstarts, hexecute, hdrop, hphase, hworker⟩ := hfacts
  obtain ⟨s₀, hnew, hrun⟩ := run_of_firstJobPanics hreplayed
  refine ⟨s₀, s, tr, hnew, hrun, hjob, hstarts, hexecute, hdrop, fun p => ?_⟩
  cases p with
  | execute => rw [State.next, State.execute, hphase]
  | drop => rw [State.next, State.drop, hphase]
  | worker id =>
      obtain rfl : id = 0 := Subsingleton.elim id 0
      rw [State.next, State.work, hworker]

end SmallTrial.Pool
