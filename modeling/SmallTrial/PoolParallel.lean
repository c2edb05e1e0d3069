import SmallTrial.PoolPanic

/-! The jobs of `ThreadPool` run side by side: a worker gives the mutex back before it runs its job, so that
a job waits only as long as every worker has one to run. -/

namespace SmallTrial.Pool

open Transition

variable {size : Nat}

/-- A step that a worker takes to get a message and act on it, as opposed to those of the jobs and of the
owner. -/
def Event.internal : Event size → Bool
  | .acquire _ | .recv _ _ | .release _ | .start _ _ | .exit _ => true
  | _ => false

namespace WorkerPc

/-- The worker runs a job, or a job has ended it. -/
def occupied : WorkerPc → Bool
  | .run _ _ | .panicked => true
  | _ => false

/-- The steps that the worker may take to act on what it has received. -/
def overhead : WorkerPc → Nat
  | .lock => 1
  | .release _ => 3
  | .got _ => 2
  | _ => 0

end WorkerPc

/-- A bound for the steps of the workers between two steps of the jobs or of the owner. -/
def State.overhead (s : State size) : Nat := 4 * s.channel.length + ∑ id, (s.worker id).overhead

/-- The workers have nothing to do besides their jobs. -/
def Settled (steps : Nat → Nat) (panics : Nat → Bool) (s : State size) : Prop :=
  ∀ e s', Step steps panics s e s' → e.internal = false

/-- The steps of the workers besides their jobs. -/
def Internal (steps : Nat → Nat) (panics : Nat → Bool) : State size → Event size → State size → Prop :=
  Restrict (Step steps panics) fun _ e => e.internal = true

variable {steps : Nat → Nat} {panics : Nat → Bool} {s₀ s s' : State size} {e : Event size}
  {tr : List (Event size)}

/-! ### Between the steps of the jobs -/

/-- A step of a worker costs it overhead, or it takes a message out of the channel. -/
theorem overhead_of_moves {pc pc' : WorkerPc} (hmove : Moves steps panics pc e pc')
    (hinternal : e.internal = true) : pc'.overhead < pc.overhead ∨
      ∃ id m, e = .recv id m ∧ pc.overhead = 0 ∧ pc'.overhead = 3 := by
  cases hmove with
  | acquire | start | exit => exact .inl (Nat.succ_pos _)
  | release => exact .inl (Nat.lt_succ_self 2)
  | recv id m => exact .inr ⟨id, m, rfl, rfl, rfl⟩
  | jobStep | finish | jobPanic | lockPanic | recvPanic => cases hinternal

theorem overhead_lt (hstep : Internal steps panics s e s') : s'.overhead < s.overhead := by
  obtain ⟨hstep, hinternal⟩ := hstep
  rcases step_cases hstep with ⟨hnone, -⟩ | ⟨id, pc', -, hshares, -, -, hworker, hmove⟩
  · cases e with
    | acquire | recv | release | start | exit => cases hnone
    | _ => cases hinternal
  · have hsum := sum_update WorkerPc.overhead s.worker id pc'
    rw [← hworker] at hsum
    unfold State.overhead
    rcases overhead_of_moves hmove hinternal with hlt | ⟨id', m, rfl, hbefore, hafter⟩
    · have hchannel : s'.channel.length ≤ s.channel.length := by
        rcases hshares.channel_cases with ⟨_, m, -, hc⟩ | ⟨-, hc⟩
        · rw [hc]
          exact Nat.le_succ _
        · rw [hc]
      omega
    · rw [hshares.1, List.length_cons]
      omega

/-- The workers take only so many steps in a row without a step of a job or of the owner. -/
theorem length_le_overhead {tr' : List (Event size)} (h : Run (Internal steps panics) s tr' s') :
    tr'.length ≤ s.overhead := by
  have hlen := h.length_add_le State.overhead (fun _ => True) trivial (fun _ _ _ _ _ => trivial)
    fun _ _ _ _ hstep => overhead_lt hstep
  omega

theorem exists_settled (s : State size) :
    ∃ tr' s', Run (Internal steps panics) s tr' s' ∧ Settled steps panics s' := by
  refine Run.exists_final State.overhead (fun _ => True) _ (fun _ _ _ _ _ => trivial)
    (fun _ _ _ _ hstep => overhead_lt hstep) (fun a _ hgoes => ?_) trivial
  unfold Settled at hgoes
  push Not at hgoes
  obtain ⟨e, b, hstep, hinternal⟩ := hgoes
  exact ⟨e, b, hstep, Bool.eq_true_of_not_eq_false hinternal⟩

/-! ### Settled states -/

/-- A step of a worker that a settled state does not have. -/
theorem Settled.not_internal (h : Settled steps panics s) {id : Fin size} {r : State size × Event size}
    (hwork : s.work steps panics id = some r) : r.2.internal = false := h r.2 r.1 ⟨.worker id, hwork⟩

namespace Coherent

variable {k : Nat}

/-- In a settled state no worker is about to act on a message. -/
theorem holds_eq_zero (hsettled : Settled steps panics s) (id : Fin size) (m : Message) :
    (s.worker id).holds m = 0 := by
  cases hpc : s.worker id with
  | release m' =>
      have hwork : s.work steps panics id = some ({ s with guard := none }.setWorker id (.got m'), .release id) := by
        rw [State.work, hpc]
      cases hsettled.not_internal hwork
  | got m' =>
      cases m' with
      | newJob job =>
          have hwork : s.work steps panics id = some (s.setWorker id (.run job (steps job)), .start id job) := by
            rw [State.work, hpc]
          cases hsettled.not_internal hwork
      | terminate =>
          have hwork : s.work steps panics id = some (s.setWorker id .exited, .exit id) := by
            rw [State.work, hpc]
          cases hsettled.not_internal hwork
  | _ => rfl

/-- In a settled state nobody holds the mutex while there is a message. -/
theorem guard_eq_none (H : Coherent tr s k) (hsettled : Settled steps panics s) (hne : s.channel ≠ []) :
    s.guard = none := by
  by_contra hguard
  obtain ⟨id, hid⟩ := Option.ne_none_iff_exists'.mp hguard
  have hlocks := (H.guard_iff id).mp hid
  obtain ⟨m, rest, hchannel⟩ := List.exists_cons_of_ne_nil hne
  cases hpc : s.worker id with
  | recv =>
      have hwork : s.work steps panics id =
          some ({ s with channel := rest }.setWorker id (.release m), .recv id m) := by
        rw [State.work, hpc, hchannel]
      cases hsettled.not_internal hwork
  | release m' =>
      have hholds := holds_eq_zero hsettled id m'
      rw [hpc, WorkerPc.holds, if_pos rfl] at hholds
      cases hholds
  | _ =>
      rw [hpc] at hlocks
      cases hlocks

/-- In a settled state with a job in the channel every worker is occupied. -/
theorem occupied_of_waiting (H : Coherent tr s k) (hnew : ThreadPool.new size = some s₀)
    (hrun : Run (Step steps panics) s₀ tr s) (hsettled : Settled steps panics s) {job : Nat}
    (hjob : .newJob job ∈ s.channel) (id : Fin size) : (s.worker id).occupied = true := by
  have hguard := H.guard_eq_none hsettled (List.ne_nil_of_mem hjob)
  cases hpc : s.worker id with
  | lock =>
      have hwork : s.work steps panics id =
          some ({ s with guard := some id }.setWorker id .recv, .acquire id) := by
        rw [State.work, hpc, hguard, H.unpoisoned]
        rfl
      cases hsettled.not_internal hwork
  | recv =>
      have hlocks : (s.worker id).locks = true := by rw [hpc]; rfl
      rw [(H.guard_iff id).mpr hlocks] at hguard
      cases hguard
  | release m | got m =>
      have hholds := holds_eq_zero hsettled id m
      rw [hpc, WorkerPc.holds, if_pos rfl] at hholds
      cases hholds
  | exited => exact absurd hjob (H.no_job_left (terminate_received hnew hrun hpc) job)
  | run | panicked => rfl

/-- A job that was accepted is in the channel, or a worker is about to act on it, or it was started. -/
theorem job_cases (H : Coherent tr s k) (hnew : ThreadPool.new size = some s₀)
    (hrun : Run (Step steps panics) s₀ tr s) {job : Nat} (hjob : job < s.accepted) :
    s.channel.count (.newJob job) + ∑ id, (s.worker id).holds (.newJob job) +
      total (Event.starts job) tr = 1 := by
  have hsent := H.count_newJob job
  rw [if_pos hjob, H.channel_eq, List.count_append, received_job hnew hrun] at hsent
  omega

theorem started_or_occupied (H : Coherent tr s k) (hnew : ThreadPool.new size = some s₀)
    (hrun : Run (Step steps panics) s₀ tr s) (hsettled : Settled steps panics s) :
    (∀ job < s.accepted, total (Event.starts job) tr = 1) ∨ ∀ id, (s.worker id).occupied = true := by
  by_cases hwaiting : ∃ job, .newJob job ∈ s.channel
  · obtain ⟨job, hjob⟩ := hwaiting
    exact .inr (H.occupied_of_waiting hnew hrun hsettled hjob)
  · refine .inl fun job hjob => ?_
    have hcount : s.channel.count (.newJob job) = 0 := List.count_eq_zero.mpr fun h => hwaiting ⟨job, h⟩
    have hholds : ∑ id, (s.worker id).holds (.newJob job) = 0 :=
      Finset.sum_eq_zero fun id _ => holds_eq_zero hsettled id _
    have hcases := H.job_cases hnew hrun hjob
    omega

end Coherent

/-! ### How many workers are occupied -/

def Message.isJob : Message → Bool
  | .newJob _ => true
  | .terminate => false

namespace Event

def receivesJob : Event size → Nat
  | .recv _ m => m.isJob.toNat
  | _ => 0

def finishesJob : Event size → Nat
  | .finish _ _ => 1
  | _ => 0

/-- A panic of a worker outside of its jobs. -/
def breaks : Event size → Nat
  | .lockPanic _ | .recvPanic _ => 1
  | _ => 0

end Event

/-- The worker has received a job that it has not finished. -/
def WorkerPc.hasJob : WorkerPc → Nat
  | .release m | .got m => m.isJob.toNat
  | .run _ _ | .panicked => 1
  | _ => 0

theorem hasJob_eq (hnew : ThreadPool.new size = some s₀) (h : Run (Step steps panics) s₀ tr s) :
    total (fun e => e.receivesJob + e.breaks) tr =
      total Event.finishesJob tr + ∑ id, (s.worker id).hasJob := by
  have hinit : WorkerPc.hasJob .lock = 0 := rfl
  refine balance hinit (fun e he => ?_) (fun e pc pc' hmove => ?_) hnew h
  · cases e <;> first | rfl | cases he
  · cases hmove with
    | recv id m | release id m => simp [Event.receivesJob, Event.breaks, Event.finishesJob, WorkerPc.hasJob]
    | _ => rfl

theorem total_breaks (hnew : ThreadPool.new size = some s₀) (h : Run (Step steps panics) s₀ tr s) :
    total Event.breaks tr = 0 := by
  refine total_eq_zero fun e he => ?_
  cases e with
  | lockPanic | recvPanic =>
      obtain ⟨_, _, heq, -⟩ := panics_of_mem hnew h _ he Nat.one_ne_zero
      cases heq
  | _ => rfl

theorem countP_received (tr : List (Event size)) :
    (received tr).countP Message.isJob = total Event.receivesJob tr := by
  induction tr with
  | nil => rfl
  | cons e tr ih =>
      rw [total, List.map_cons, List.sum_cons, ← total, ← ih]
      cases e with
      | recv id m =>
          have hcons : received (.recv id m :: tr) = m :: received tr := rfl
          rw [hcons, List.countP_cons, Event.receivesJob, Nat.add_comm]
          cases m <;> rfl
      | _ => exact (Nat.zero_add _).symm

/-- As many jobs are sent as are accepted. -/
theorem Coherent.countP_sent {k : Nat} (H : Coherent tr s k) : (sent tr).countP Message.isJob = s.accepted := by
  have hjobs : ((List.range s.accepted).map Message.newJob).countP Message.isJob = s.accepted := by
    have hall : ∀ job ∈ List.range s.accepted, (Message.isJob ∘ Message.newJob) job = true := fun _ _ => rfl
    rw [List.countP_map, List.countP_eq_length.mpr hall, List.length_range]
  have hterminate : (List.replicate k Message.terminate).countP Message.isJob = 0 := by
    rw [List.countP_eq_zero]
    intro m hm
    rw [List.eq_of_mem_replicate hm]
    exact Bool.false_ne_true
  rw [H.sent_eq, List.countP_append, hjobs, hterminate, Nat.add_zero]

theorem occupied_le_hasJob (pc : WorkerPc) : pc.occupied.toNat ≤ pc.hasJob := by
  cases pc <;> simp [WorkerPc.occupied, WorkerPc.hasJob]

/-- A worker is occupied by a job of its own. -/
theorem occupied_le_accepted (hnew : ThreadPool.new size = some s₀) (h : Run (Step steps panics) s₀ tr s) :
    ∑ id, (s.worker id).occupied.toNat ≤ s.accepted := by
  obtain ⟨k, H⟩ := coherent hnew h
  have hadd := total_add Event.receivesJob Event.breaks tr
  have hbalance := hasJob_eq hnew h
  have hbreaks := total_breaks hnew h
  have hsent := H.countP_sent
  rw [H.channel_eq, List.countP_append, countP_received] at hsent
  calc ∑ id, (s.worker id).occupied.toNat ≤ ∑ id, (s.worker id).hasJob :=
        Finset.sum_le_sum fun id _ => occupied_le_hasJob _
    _ ≤ s.accepted := by omega

/-- With more workers than jobs there is always one for the next job. -/
theorem exists_not_occupied (hnew : ThreadPool.new size = some s₀) (h : Run (Step steps panics) s₀ tr s)
    (hfew : s.accepted < size) : ∃ id, (s.worker id).occupied = false := by
  by_contra hall
  push Not at hall
  have hsum : ∑ id, (s.worker id).occupied.toNat = Fintype.card (Fin size) :=
    sum_eq_card fun id => by rw [Bool.eq_true_of_not_eq_false (hall id)]; rfl
  have hle := occupied_le_accepted hnew h
  rw [hsum, Fintype.card_fin] at hle
  omega

/-! ### The main result -/

/-- **A job only waits while all workers are occupied.** In every reachable state the workers come to rest
after a bounded number of steps of their own, without a step of a job or of the owner, and then every job
that was accepted has been started or every worker runs a job or was ended by one; the latter needs as many
jobs as workers. -/
theorem threadPool_work_conserving (hnew : ThreadPool.new size = some s₀)
    (h : Run (Step steps panics) s₀ tr s) :
    (∀ tr' s', Run (Internal steps panics) s tr' s' → tr'.length ≤ s.overhead) ∧
    (∃ tr' s', Run (Internal steps panics) s tr' s' ∧ Settled steps panics s') ∧
    ∀ tr' s', Run (Internal steps panics) s tr' s' → Settled steps panics s' →
      (∀ job < s'.accepted, total (Event.starts job) (tr ++ tr') = 1) ∨
        ((∀ id, (s'.worker id).occupied = true) ∧ size ≤ s'.accepted) := by
  refine ⟨fun tr' s' hrun => length_le_overhead hrun, exists_settled s, fun tr' s' hrun hsettled => ?_⟩
  have hall := h.append hrun.of_restrict
  obtain ⟨k, H⟩ := coherent hnew hall
  refine (H.started_or_occupied hnew hall hsettled).imp_right fun hoccupied => ⟨hoccupied, ?_⟩
  by_contra hfew
  obtain ⟨id, hid⟩ := exists_not_occupied hnew hall (Nat.lt_of_not_le hfew)
  rw [hoccupied id] at hid
  cases hid

/-- A pool of two workers with one job. -/
theorem threadPool_work_conserving_two : ∃ (s₀ s' : State 2) (tr : List (Event 2)),
    ThreadPool.new 2 = some s₀ ∧ Run (Step (fun _ => 5) fun _ => false) s₀ (.execute 0 :: tr) s' ∧
      ((∀ job < s'.accepted, total (Event.starts job) (.execute 0 :: tr) = 1) ∨
        ((∀ id, (s'.worker id).occupied = true) ∧ 2 ≤ s'.accepted)) := by
  have hreplay : ((ThreadPool.new 2).bind fun s₀ =>
      (replay (State.next (fun _ => 5) fun _ => false) s₀ [.execute]).map Prod.snd) =
        some [.execute 0] := by decide +kernel
  obtain ⟨s₀, hnew, hrun⟩ := Option.bind_eq_some_iff.mp hreplay
  obtain ⟨⟨s, tr₀⟩, hrun, rfl⟩ := Option.map_eq_some_iff.mp hrun
  have hrun : Run (Step (fun _ => 5) fun _ => false) s₀ [.execute 0] s :=
    Run.of_replay (fun _ p _ _ h => ⟨p, h⟩) hrun
  obtain ⟨-, ⟨tr, s', hinternal, hsettled⟩, hstarted⟩ := threadPool_work_conserving hnew hrun
  exact ⟨s₀, s', tr, hnew, hrun.append hinternal.of_restrict, hstarted tr s' hinternal hsettled⟩

end SmallTrial.Pool
