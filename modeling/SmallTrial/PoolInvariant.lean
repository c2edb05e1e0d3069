import SmallTrial.PoolModel
import SmallTrial.TransitionFamily

/-! The bookkeeping of `ThreadPool` along any run: what has been sent has been received in order or is
in the channel, a message received is held by one worker or has been handled, and a job started is
running in one worker or has ended. The mutex is held by the worker that receives or has just received,
and it is never poisoned, because a worker that waits for a message has a message to come. -/

namespace SmallTrial.Pool

open Transition

variable {size : Nat}

/-! ### What a step does -/

section Steps

variable (steps : Nat → Nat) (panics : Nat → Bool)

/-- The position of a worker before and after the step an event reports. -/
inductive Moves : WorkerPc → Event size → WorkerPc → Prop where
  | acquire (id) : Moves .lock (.acquire id) .recv
  | recv (id) (m) : Moves .recv (.recv id m) (.release m)
  | release (id) (m) : Moves (.release m) (.release id) (.got m)
  | start (id) (job) : Moves (.got (.newJob job)) (.start id job) (.run job (steps job))
  | jobStep (id) (job left) : Moves (.run job (left + 1)) (.jobStep id job) (.run job left)
  | finish (id) (job) : panics job = false → Moves (.run job 0) (.finish id job) .lock
  | jobPanic (id) (job) : panics job = true → Moves (.run job 0) (.jobPanic id job) .panicked
  | exit (id) : Moves (.got .terminate) (.exit id) .exited
  | lockPanic (id) : Moves .lock (.lockPanic id) .panicked
  | recvPanic (id) : Moves .recv (.recvPanic id) .panicked

/-- The worker that takes the step an event reports. -/
def Event.worker : Event size → Option (Fin size)
  | .acquire id | .recv id _ | .release id | .start id _ | .jobStep id _ | .finish id _ | .jobPanic id _
  | .exit id | .lockPanic id | .recvPanic id => some id
  | _ => none

/-- What a step of a worker does to the channel and the mutex. -/
def Shares (s : State size) : Event size → State size → Prop
  | .acquire id, s' => s.guard = none ∧ s.poisoned = false ∧ s'.channel = s.channel ∧
      s'.guard = some id ∧ s'.poisoned = false
  | .recv _ m, s' => s.channel = m :: s'.channel ∧ s'.guard = s.guard ∧ s'.poisoned = s.poisoned
  | .release _, s' => s'.channel = s.channel ∧ s'.guard = none ∧ s'.poisoned = s.poisoned
  | .lockPanic _, s' => s.guard = none ∧ s.poisoned = true ∧ s'.channel = s.channel
  | .recvPanic _, s' => s.channel = [] ∧ s.senderGone = true ∧ s'.channel = s.channel
  | _, s' => s'.channel = s.channel ∧ s'.guard = s.guard ∧ s'.poisoned = s.poisoned

/-- What a step of the owner does. -/
def OwnerStep (s : State size) : Event size → State size → Prop
  | .execute job, s' => s.phase = .serving ∧ ¬s.disconnected ∧ job = s.accepted ∧
      s' = { s with channel := s.channel ++ [.newJob job], accepted := s.accepted + 1 }
  | .executePanic, s' => s.phase = .serving ∧ s.disconnected ∧ s' = s
  | .dropStart, s' => s.phase = .serving ∧ s' = { s with phase := .sending 0 }
  | .sendTerminate, s' => ∃ k, s.phase = .sending k ∧ k < size ∧ ¬s.disconnected ∧
      s' = { s with channel := s.channel ++ [.terminate], phase := .sending (k + 1) }
  | .joinStart, s' => ∃ k, s.phase = .sending k ∧ size ≤ k ∧ s' = { s with phase := .joining 0 }
  | .join id, s' => s.phase = .joining id ∧ s.worker id = .exited ∧
      s' = { s with phase := .joining (id + 1) }
  | .dropReturn, s' => ∃ k, s.phase = .joining k ∧ size ≤ k ∧ s' = { s with phase := .returned }
  | .dropPanic, s' => ((∃ k, s.phase = .sending k ∧ k < size ∧ s.disconnected) ∨
      ∃ id : Fin size, s.phase = .joining id ∧ s.worker id = .panicked) ∧
      s' = { s with phase := .panicked }
  | _, _ => False

variable {steps panics} {s s' : State size} {e : Event size}

theorem work_cases {id : Fin size} (h : s.work steps panics id = some (s', e)) :
    e.worker = some id ∧ Shares s e s' ∧ s'.phase = s.phase ∧ s'.accepted = s.accepted ∧
      ∃ pc', s'.worker = Function.update s.worker id pc' ∧ Moves steps panics (s.worker id) e pc' := by
  rw [State.work] at h
  cases hpc : s.worker id with
  | lock =>
      rw [hpc] at h
      dsimp only at h
      cases hguard : s.guard with
      | some id' =>
          rw [hguard] at h
          cases h
      | none =>
          rw [hguard] at h
          dsimp only at h
          split at h <;> cases h
          · rename_i hpoisoned
            exact ⟨rfl, ⟨hguard, hpoisoned, rfl⟩, rfl, rfl, _, rfl, .lockPanic id⟩
          · rename_i hpoisoned
            have hclean := Bool.eq_false_iff.mpr hpoisoned
            exact ⟨rfl, ⟨hguard, hclean, rfl, rfl, hclean⟩, rfl, rfl, _, rfl, .acquire id⟩
  | recv =>
      rw [hpc] at h
      dsimp only at h
      cases hchannel : s.channel with
      | cons m rest =>
          rw [hchannel] at h
          cases h
          exact ⟨rfl, ⟨hchannel, rfl, rfl⟩, rfl, rfl, _, rfl, .recv id m⟩
      | nil =>
          rw [hchannel] at h
          dsimp only at h
          split at h <;> cases h
          rename_i hgone
          exact ⟨rfl, ⟨hchannel, hgone, hchannel.symm⟩, rfl, rfl, _, rfl, .recvPanic id⟩
  | release m =>
      rw [hpc] at h
      cases h
      exact ⟨rfl, ⟨rfl, rfl, rfl⟩, rfl, rfl, _, rfl, .release id m⟩
  | got m =>
      rw [hpc] at h
      cases m with
      | newJob job =>
          cases h
          exact ⟨rfl, ⟨rfl, rfl, rfl⟩, rfl, rfl, _, rfl, .start id job⟩
      | terminate =>
          cases h
          exact ⟨rfl, ⟨rfl, rfl, rfl⟩, rfl, rfl, _, rfl, .exit id⟩
  | run job left =>
      rw [hpc] at h
      cases left with
      | zero =>
          dsimp only at h
          split at h <;> cases h
          · rename_i hpanics
            exact ⟨rfl, ⟨rfl, rfl, rfl⟩, rfl, rfl, _, rfl, .jobPanic id job hpanics⟩
          · rename_i hpanics
            have hends := Bool.eq_false_iff.mpr hpanics
            exact ⟨rfl, ⟨rfl, rfl, rfl⟩, rfl, rfl, _, rfl, .finish id job hends⟩
      | succ left =>
          cases h
          exact ⟨rfl, ⟨rfl, rfl, rfl⟩, rfl, rfl, _, rfl, .jobStep id job left⟩
  | exited =>
      rw [hpc] at h
      cases h
  | panicked =>
      rw [hpc] at h
      cases h

theorem Shares.channel_cases (h : Shares s e s') :
    (∃ id m, e = .recv id m ∧ s.channel = m :: s'.channel) ∨
      (∀ id m, e ≠ .recv id m) ∧ s'.channel = s.channel := by
  cases e with
  | recv id m => exact .inl ⟨id, m, rfl, h.1⟩
  | acquire => exact .inr ⟨nofun, h.2.2.1⟩
  | lockPanic | recvPanic => exact .inr ⟨nofun, h.2.2⟩
  | _ => exact .inr ⟨nofun, h.1⟩

theorem execute_cases (h : s.execute = some (s', e)) : OwnerStep s e s' := by
  rw [State.execute] at h
  split at h
  · rename_i hphase
    split at h <;> cases h
    · rename_i hgone
      exact ⟨hphase, hgone, rfl⟩
    · rename_i hgone
      exact ⟨hphase, hgone, rfl, rfl⟩
  · cases h

theorem drop_cases (h : s.drop = some (s', e)) : OwnerStep s e s' := by
  rw [State.drop] at h
  split at h
  · rename_i hphase
    cases h
    exact ⟨hphase, rfl⟩
  · rename_i k hphase
    split at h
    · rename_i hlt
      split at h <;> cases h
      · rename_i hgone
        exact ⟨.inl ⟨k, hphase, hlt, hgone⟩, rfl⟩
      · rename_i hgone
        exact ⟨k, hphase, hlt, hgone, rfl⟩
    · rename_i hge
      cases h
      exact ⟨k, hphase, Nat.le_of_not_lt hge, rfl⟩
  · rename_i id hphase
    split at h
    · rename_i hlt
      split at h <;> cases h
      · rename_i hworker
        exact ⟨hphase, hworker, rfl⟩
      · rename_i hworker
        exact ⟨.inr ⟨⟨id, hlt⟩, hphase, hworker⟩, rfl⟩
    · rename_i hge
      cases h
      exact ⟨id, hphase, Nat.le_of_not_lt hge, rfl⟩
  · cases h
  · cases h

theorem step_cases (h : Step steps panics s e s') :
    (e.worker = none ∧ OwnerStep s e s') ∨
    ∃ id pc', e.worker = some id ∧ Shares s e s' ∧ s'.phase = s.phase ∧ s'.accepted = s.accepted ∧
      s'.worker = Function.update s.worker id pc' ∧ Moves steps panics (s.worker id) e pc' := by
  have howner : OwnerStep s e s' → e.worker = none ∧ OwnerStep s e s' := fun hstep => by
    cases e <;> first | exact ⟨rfl, hstep⟩ | exact hstep.elim
  obtain ⟨p, hp⟩ := h
  cases p with
  | execute => exact .inl (howner (execute_cases hp))
  | drop => exact .inl (howner (drop_cases hp))
  | worker id =>
      obtain ⟨hid, hshares, hphase, haccepted, pc', hworker, hmoves⟩ := work_cases hp
      exact .inr ⟨id, pc', hid, hshares, hphase, haccepted, hworker, hmoves⟩

theorem OwnerStep.worker_eq (h : OwnerStep s e s') : s'.worker = s.worker := by
  cases e with
  | execute => obtain ⟨-, -, -, rfl⟩ := h; rfl
  | executePanic => obtain ⟨-, -, rfl⟩ := h; rfl
  | dropStart => obtain ⟨-, rfl⟩ := h; rfl
  | sendTerminate => obtain ⟨_, -, -, -, rfl⟩ := h; rfl
  | joinStart => obtain ⟨_, -, -, rfl⟩ := h; rfl
  | join => obtain ⟨-, -, rfl⟩ := h; rfl
  | dropReturn => obtain ⟨_, -, -, rfl⟩ := h; rfl
  | dropPanic => obtain ⟨-, rfl⟩ := h; rfl
  | _ => exact h.elim

end Steps

/-! ### Counting -/

def sent (tr : List (Event size)) : List Message :=
  tr.filterMap fun
    | .execute job => some (.newJob job)
    | .sendTerminate => some .terminate
    | _ => none

def received (tr : List (Event size)) : List Message :=
  tr.filterMap fun
    | .recv _ m => some m
    | _ => none

namespace Event

def receives (m : Message) : Event size → Nat
  | .recv _ m' => if m' = m then 1 else 0
  | _ => 0

def starts (job : Nat) : Event size → Nat
  | .start _ job' => if job' = job then 1 else 0
  | _ => 0

def finishes (job : Nat) : Event size → Nat
  | .finish _ job' => if job' = job then 1 else 0
  | _ => 0

def jobPanics (job : Nat) : Event size → Nat
  | .jobPanic _ job' => if job' = job then 1 else 0
  | _ => 0

/-- The event ends a worker by a panic. -/
def panics : Event size → Nat
  | .jobPanic _ _ | .lockPanic _ | .recvPanic _ => 1
  | _ => 0

end Event

namespace WorkerPc

/-- The worker has received `m` and not acted on it yet. -/
def holds (m : Message) : WorkerPc → Nat
  | .release m' | .got m' => if m' = m then 1 else 0
  | _ => 0

def runs (job : Nat) : WorkerPc → Nat
  | .run job' _ => if job' = job then 1 else 0
  | _ => 0

/-- The worker has received its terminate message. -/
def tookTerminate : WorkerPc → Nat
  | .release .terminate | .got .terminate | .exited => 1
  | _ => 0

def hasPanicked : WorkerPc → Nat
  | .panicked => 1
  | _ => 0

/-- The worker holds the mutex. -/
def locks : WorkerPc → Bool
  | .recv | .release _ => true
  | _ => false

end WorkerPc

theorem sent_append (tr tr' : List (Event size)) : sent (tr ++ tr') = sent tr ++ sent tr' :=
  List.filterMap_append

theorem received_append (tr tr' : List (Event size)) :
    received (tr ++ tr') = received tr ++ received tr' := List.filterMap_append

theorem received_count (m : Message) (tr : List (Event size)) :
    (received tr).count m = total (Event.receives m) tr := by
  induction tr with
  | nil => rfl
  | cons e tr ih =>
      rw [total, List.map_cons, List.sum_cons, ← total, ← ih]
      cases e with
      | recv id m' =>
          rw [show received (.recv id m' :: tr) = m' :: received tr from rfl, List.count_cons,
            Event.receives]
          simp only [beq_iff_eq]
          omega
      | _ => exact (Nat.zero_add _).symm

section Balance

variable {steps : Nat → Nat} {panics : Nat → Bool} {s₀ s : State size} {tr : List (Event size)}

theorem new_eq (hnew : ThreadPool.new size = some s₀) : 0 < size ∧ s₀ =
    { worker := fun _ => .lock, channel := [], guard := none, poisoned := false, accepted := 0,
      phase := .serving } := by
  rw [ThreadPool.new] at hnew
  split at hnew <;> cases hnew
  rename_i hsize
  exact ⟨hsize, rfl⟩

/-- The bookkeeping of the pool: what the moves of the workers credit and debit. -/
theorem balance {credit debit : Event size → Nat} {share : WorkerPc → Nat}
    (hinit : share .lock = 0) (howner : ∀ e : Event size, e.worker = none → credit e = debit e)
    (hmoves : ∀ e pc pc', Moves steps panics pc e pc' → credit e + share pc = debit e + share pc')
    (hnew : ThreadPool.new size = some s₀) (h : Run (Step steps panics) s₀ tr s) :
    total credit tr = total debit tr + ∑ id, share (s.worker id) := by
  obtain ⟨-, rfl⟩ := new_eq hnew
  refine h.balance State.worker credit debit share (fun s e s' hstep => ?_) fun _ => hinit
  rcases step_cases hstep with ⟨hnone, hstep⟩ | ⟨id, pc', -, -, -, -, hworker, hmove⟩
  · exact .inl ⟨hstep.worker_eq, howner e hnone⟩
  · exact .inr ⟨id, pc', hworker, hmoves e _ _ hmove⟩

theorem received_job (hnew : ThreadPool.new size = some s₀) (h : Run (Step steps panics) s₀ tr s)
    (job : Nat) : (received tr).count (.newJob job) =
      total (Event.starts job) tr + ∑ id, (s.worker id).holds (.newJob job) := by
  rw [received_count]
  refine balance rfl (fun e he => ?_) (fun e pc pc' hmove => ?_) hnew h
  · cases e <;> first | rfl | cases he
  · cases hmove <;> simp [Event.receives, Event.starts, WorkerPc.holds]

/-- A terminate message received has a worker that exits or has exited. -/
theorem received_terminate (hnew : ThreadPool.new size = some s₀)
    (h : Run (Step steps panics) s₀ tr s) :
    (received tr).count .terminate = ∑ id, (s.worker id).tookTerminate := by
  have hzero : total (fun _ : Event size => 0) tr = 0 := by simp [total]
  rw [received_count, ← Nat.zero_add (∑ id, _), ← hzero]
  refine balance rfl (fun e he => ?_) (fun e pc pc' hmove => ?_) hnew h
  · cases e <;> first | rfl | cases he
  · cases hmove with
    | recv id m => cases m <;> simp [Event.receives, WorkerPc.tookTerminate]
    | release id m => cases m <;> rfl
    | _ => rfl

theorem started_job (hnew : ThreadPool.new size = some s₀) (h : Run (Step steps panics) s₀ tr s)
    (job : Nat) : total (Event.starts job) tr =
      total (fun e => e.finishes job + e.jobPanics job) tr + ∑ id, (s.worker id).runs job := by
  refine balance rfl (fun e he => ?_) (fun e pc pc' hmove => ?_) hnew h
  · cases e <;> first | rfl | cases he
  · cases hmove <;> simp [Event.starts, Event.finishes, Event.jobPanics, WorkerPc.runs]

/-- Each panic in a worker ends one worker. -/
theorem panicked_workers (hnew : ThreadPool.new size = some s₀)
    (h : Run (Step steps panics) s₀ tr s) :
    total Event.panics tr = ∑ id, (s.worker id).hasPanicked := by
  have hzero : total (fun _ : Event size => 0) tr = 0 := by simp [total]
  rw [← Nat.zero_add (∑ id, _), ← hzero]
  refine balance rfl (fun e he => ?_) (fun e pc pc' hmove => ?_) hnew h
  · cases e <;> first | rfl | cases he
  · cases hmove <;> rfl

end Balance

/-! ### The channel, the mutex and the owner -/

/-- Where the owner stands when it has sent `k` terminate messages. -/
def PhaseOk (s : State size) (k : Nat) : Prop :=
  match s.phase with
  | .serving => k = 0
  | .sending j => k = j ∧ j ≤ size
  | .joining j => k = size ∧ j ≤ size ∧ ∀ id : Fin size, id.val < j → s.worker id = .exited
  | .returned => k = size ∧ ∀ id, s.worker id = .exited
  | .panicked => (k = size ∨ s.disconnected) ∧ ∃ id, s.worker id = .panicked

/-- The invariant: what was sent is `k` terminate messages after the jobs, and it was received in
order up to what is left in the channel. -/
structure Coherent (tr : List (Event size)) (s : State size) (k : Nat) : Prop where
  channel_eq : sent tr = received tr ++ s.channel
  sent_eq : sent tr = (List.range s.accepted).map .newJob ++ List.replicate k .terminate
  guard_iff : ∀ id, s.guard = some id ↔ (s.worker id).locks = true
  unpoisoned : s.poisoned = false
  phase : PhaseOk s k
  took_eq : (received tr).count .terminate = ∑ id, (s.worker id).tookTerminate

theorem tookTerminate_le (pc : WorkerPc) : pc.tookTerminate ≤ 1 := by
  cases pc with
  | release m | got m => cases m <;> simp [WorkerPc.tookTerminate]
  | _ => simp [WorkerPc.tookTerminate]

namespace Coherent

variable {tr : List (Event size)} {s s' : State size} {k : Nat}

theorem terminate_eq (H : Coherent tr s k) :
    k = ∑ id, (s.worker id).tookTerminate + s.channel.count .terminate := by
  have hjobs : ((List.range s.accepted).map Message.newJob).count .terminate = 0 := by
    rw [List.count_eq_zero]
    simp
  have hsent : (sent tr).count .terminate = k := by
    rw [H.sent_eq, List.count_append, hjobs, List.count_replicate_self, Nat.zero_add]
  rw [← H.took_eq, ← List.count_append, ← H.channel_eq, hsent]

/-- As long as a worker has not received a terminate message and all have been sent, one is left. -/
theorem terminate_mem (H : Coherent tr s size) {id : Fin size}
    (hid : (s.worker id).tookTerminate = 0) : .terminate ∈ s.channel := by
  have hlt := sum_lt_card tookTerminate_le s.worker hid
  have hk := H.terminate_eq
  rw [Fintype.card_fin] at hlt
  exact List.count_pos_iff.mp (by omega)

/-- A worker that waits in `recv` has not lost the sender for good: a message is left for it. -/
theorem channel_of_gone (H : Coherent tr s k) (hgone : s.senderGone = true) {id : Fin size}
    (hid : s.worker id = .recv) : s.channel ≠ [] := by
  have hphase := H.phase
  have hk : k = size := by
    rw [PhaseOk] at hphase
    rw [State.senderGone, decide_eq_true_eq] at hgone
    rcases hgone with hret | hpan
    · rw [hret] at hphase
      exact hphase.1
    · rw [hpan] at hphase
      rcases hphase.1 with hk | hall
      · exact hk
      · have hended := hall id
        rw [hid] at hended
        cases hended
  subst hk
  have htook : (s.worker id).tookTerminate = 0 := by
    rw [hid]
    rfl
  exact List.ne_nil_of_mem (H.terminate_mem htook)

theorem exists_not_exited (H : Coherent tr s k) (hk : k < size) : ∃ id, s.worker id ≠ .exited := by
  by_contra hall
  push Not at hall
  have hsum : ∑ id, (s.worker id).tookTerminate = Fintype.card (Fin size) :=
    sum_eq_card fun id => by rw [hall id, WorkerPc.tookTerminate]
  rw [Fintype.card_fin] at hsum
  have := H.terminate_eq
  omega

theorem ended_iff {pc : WorkerPc} : pc.ended = true ↔ pc = .exited ∨ pc = .panicked := by
  cases pc <;> simp [WorkerPc.ended]

/-- A step of the owner that sends nothing. -/
theorem ownerQuiet (H : Coherent tr s k) {e : Event size} (hsent : sent [e] = [])
    (hreceived : received [e] = []) {phase : Phase} (hphase : PhaseOk { s with phase } k) :
    Coherent (tr ++ [e]) { s with phase } k where
  channel_eq := by
    rw [sent_append, received_append, hsent, hreceived, List.append_nil, List.append_nil, H.channel_eq]
  sent_eq := by rw [sent_append, hsent, List.append_nil, H.sent_eq]
  guard_iff := H.guard_iff
  unpoisoned := H.unpoisoned
  phase := hphase
  took_eq := by rw [received_append, hreceived, List.append_nil, H.took_eq]

theorem owner (H : Coherent tr s k) {e : Event size} (hstep : OwnerStep s e s') :
    ∃ k', Coherent (tr ++ [e]) s' k' := by
  have hphase := H.phase
  rw [PhaseOk] at hphase
  have hsend : ∀ m, received [e] = [] → sent [e] = [m] →
      sent (tr ++ [e]) = received (tr ++ [e]) ++ (s.channel ++ [m]) := by
    intro m hr hs
    rw [sent_append, received_append, hr, hs, H.channel_eq, List.append_nil, List.append_assoc]
  have htook : received [e] = [] →
      (received (tr ++ [e])).count .terminate = ∑ id, (s.worker id).tookTerminate := by
    intro hr
    rw [received_append, hr, List.append_nil, H.took_eq]
  cases e with
  | execute job =>
      obtain ⟨hserving, -, rfl, rfl⟩ := hstep
      rw [hserving] at hphase
      obtain rfl : k = 0 := hphase
      refine ⟨0, hsend _ rfl rfl, ?_, H.guard_iff, H.unpoisoned, ?_, htook rfl⟩
      · rw [sent_append, H.sent_eq, List.range_succ, List.map_append, List.replicate_zero,
          List.append_nil, List.append_nil]
        rfl
      · rw [PhaseOk]
        simp only [hserving]
  | executePanic =>
      obtain ⟨-, -, rfl⟩ := hstep
      exact ⟨k, H.ownerQuiet rfl rfl H.phase⟩
  | dropStart =>
      obtain ⟨hserving, rfl⟩ := hstep
      rw [hserving] at hphase
      exact ⟨k, H.ownerQuiet rfl rfl ⟨hphase, Nat.zero_le size⟩⟩
  | sendTerminate =>
      obtain ⟨j, hsending, hlt, -, rfl⟩ := hstep
      rw [hsending] at hphase
      obtain ⟨rfl, -⟩ := hphase
      refine ⟨k + 1, hsend _ rfl rfl, ?_, H.guard_iff, H.unpoisoned, ⟨rfl, hlt⟩, htook rfl⟩
      rw [sent_append, H.sent_eq, List.replicate_succ', List.append_assoc]
      rfl
  | joinStart =>
      obtain ⟨j, hsending, hge, rfl⟩ := hstep
      rw [hsending] at hphase
      obtain ⟨rfl, hle⟩ := hphase
      exact ⟨k, H.ownerQuiet rfl rfl ⟨Nat.le_antisymm hle hge, Nat.zero_le size,
        fun _ hid => absurd hid (Nat.not_lt_zero _)⟩⟩
  | join id =>
      obtain ⟨hjoining, hexited, rfl⟩ := hstep
      rw [hjoining] at hphase
      obtain ⟨hk, -, hjoined⟩ := hphase
      refine ⟨k, H.ownerQuiet rfl rfl ⟨hk, id.isLt, fun id' hid' => ?_⟩⟩
      rcases Nat.lt_succ_iff_lt_or_eq.mp hid' with hlt | heq
      · exact hjoined id' hlt
      · rw [Fin.ext heq]
        exact hexited
  | dropReturn =>
      obtain ⟨j, hjoining, hge, rfl⟩ := hstep
      rw [hjoining] at hphase
      obtain ⟨hk, -, hjoined⟩ := hphase
      exact ⟨k, H.ownerQuiet rfl rfl
        ⟨hk, fun id => hjoined id (Nat.lt_of_lt_of_le id.isLt hge)⟩⟩
  | dropPanic =>
      obtain ⟨hcase, rfl⟩ := hstep
      rcases hcase with ⟨j, hsending, hlt, hgone⟩ | ⟨id, hjoining, hpanicked⟩
      · rw [hsending] at hphase
        obtain ⟨rfl, -⟩ := hphase
        -- not all workers can have taken a terminate message, so one of them has panicked
        obtain ⟨id, hid⟩ := H.exists_not_exited hlt
        have hpanicked := (ended_iff.mp (hgone id)).resolve_left hid
        exact ⟨k, H.ownerQuiet rfl rfl ⟨.inr hgone, id, hpanicked⟩⟩
      · rw [hjoining] at hphase
        exact ⟨k, H.ownerQuiet rfl rfl ⟨.inl hphase.1, id, hpanicked⟩⟩
  | _ => exact hstep.elim

theorem not_ended_of_moves {steps : Nat → Nat} {panics : Nat → Bool} {pc pc' : WorkerPc}
    {e : Event size} (hmove : Moves steps panics pc e pc') : pc.ended = false := by
  cases hmove <;> rfl

/-- The owner's view of the workers does not change by a step of a worker. -/
theorem phase_update (H : PhaseOk s k) {id : Fin size} {pc' : WorkerPc}
    (hid : (s.worker id).ended = false) (hworker : s'.worker = Function.update s.worker id pc')
    (hphase : s'.phase = s.phase) : PhaseOk s' k := by
  have hkeep : ∀ id', (s.worker id').ended = true → s'.worker id' = s.worker id' := by
    intro id' hended
    rw [hworker, Function.update_of_ne]
    rintro rfl
    rw [hid] at hended
    cases hended
  have hexited : ∀ id', s.worker id' = .exited → s'.worker id' = .exited := fun id' h => by
    rw [hkeep id' (by rw [h]; rfl), h]
  rw [PhaseOk] at H ⊢
  rw [hphase]
  cases hp : s.phase with
  | serving | sending => rwa [hp] at H
  | joining j =>
      rw [hp] at H
      exact ⟨H.1, H.2.1, fun id' hlt => hexited id' (H.2.2 id' hlt)⟩
  | returned =>
      rw [hp] at H
      exact ⟨H.1, fun id' => hexited id' (H.2 id')⟩
  | panicked =>
      rw [hp] at H
      obtain ⟨hcase, id', hpanicked⟩ := H
      refine ⟨hcase.imp_right fun hall => ?_, id', ?_⟩
      · rw [State.disconnected] at hall
        exact absurd (hall id) (by simp [hid])
      · rw [hkeep id' (by rw [hpanicked]; rfl), hpanicked]

/-- The mutex is held by the worker that holds it, whether a step takes it, drops it or neither. -/
theorem guard_update (hguard : ∀ id, s.guard = some id ↔ (s.worker id).locks = true) {id : Fin size}
    {pc' : WorkerPc} (hworker : s'.worker = Function.update s.worker id pc')
    (hcase : (s'.guard = s.guard ∧ pc'.locks = (s.worker id).locks) ∨
      (s.guard = none ∧ s'.guard = some id ∧ pc'.locks = true) ∨
      ((s.worker id).locks = true ∧ s'.guard = none ∧ pc'.locks = false)) (id' : Fin size) :
    s'.guard = some id' ↔ (s'.worker id').locks = true := by
  rw [hworker]
  by_cases hid : id' = id
  · subst hid
    rw [Function.update_self]
    rcases hcase with ⟨hg, hl⟩ | ⟨-, hg, hl⟩ | ⟨-, hg, hl⟩
    · rw [hg, hl, hguard]
    · simp [hg, hl]
    · simp [hg, hl]
  · rw [Function.update_of_ne hid, ← hguard]
    rcases hcase with ⟨hg, -⟩ | ⟨hnone, hg, -⟩ | ⟨hlocks, hg, -⟩
    · rw [hg]
    · simp [hg, hnone, Ne.symm hid]
    · have hmine := (hguard id).mpr hlocks
      simp [hg, hmine, Ne.symm hid]

theorem worker (H : Coherent tr s k) {steps : Nat → Nat} {panics : Nat → Bool} {e : Event size}
    {id : Fin size} {pc' : WorkerPc} (hid : e.worker = some id) (hshares : Shares s e s')
    (hphase : s'.phase = s.phase) (haccepted : s'.accepted = s.accepted)
    (hworker : s'.worker = Function.update s.worker id pc')
    (hmove : Moves steps panics (s.worker id) e pc')
    (htook : (received (tr ++ [e])).count .terminate = ∑ id, (s'.worker id).tookTerminate) :
    Coherent (tr ++ [e]) s' k := by
  have hphaseOk := phase_update H.phase (not_ended_of_moves hmove) hworker hphase
  have hguard := guard_update H.guard_iff hworker
  have hsent : sent (tr ++ [e]) = sent tr := by
    rw [sent_append]
    generalize s.worker id = pc at hmove
    cases hmove <;> exact List.append_nil _
  have hquiet : received [e] = [] → s'.channel = s.channel →
      sent (tr ++ [e]) = received (tr ++ [e]) ++ s'.channel := by
    intro hr hc
    rw [hsent, received_append, hr, hc, List.append_nil, H.channel_eq]
  have hsent_eq : sent (tr ++ [e]) =
      (List.range s'.accepted).map .newJob ++ List.replicate k .terminate := by
    rw [hsent, H.sent_eq, haccepted]
  generalize hpc : s.worker id = pc at hmove hguard
  cases hmove with
  | acquire id =>
      cases hid
      obtain ⟨hfree, -, hchannel, htaken, hclean⟩ := hshares
      exact ⟨hquiet rfl hchannel, hsent_eq, hguard (.inr (.inl ⟨hfree, htaken, rfl⟩)), hclean,
        hphaseOk, htook⟩
  | recv id m =>
      obtain ⟨hchannel, hsame, hclean⟩ := hshares
      refine ⟨?_, hsent_eq, hguard (.inl ⟨hsame, rfl⟩), hclean.trans H.unpoisoned, hphaseOk, htook⟩
      rw [hsent, H.channel_eq, hchannel, received_append, List.append_assoc]
      rfl
  | release id m =>
      obtain ⟨hchannel, hfree, hclean⟩ := hshares
      exact ⟨hquiet rfl hchannel, hsent_eq, hguard (.inr (.inr ⟨rfl, hfree, rfl⟩)),
        hclean.trans H.unpoisoned, hphaseOk, htook⟩
  | lockPanic =>
      obtain ⟨-, hpoisoned, -⟩ := hshares
      cases hpoisoned.symm.trans H.unpoisoned
  | recvPanic =>
      obtain ⟨hempty, hgone, -⟩ := hshares
      exact absurd hempty (H.channel_of_gone hgone hpc)
  | start | jobStep | finish | jobPanic | exit =>
      obtain ⟨hchannel, hsame, hclean⟩ := hshares
      exact ⟨hquiet rfl hchannel, hsent_eq, hguard (.inl ⟨hsame, rfl⟩), hclean.trans H.unpoisoned,
        hphaseOk, htook⟩

end Coherent

section Run

variable {steps : Nat → Nat} {panics : Nat → Bool} {s₀ s : State size} {tr : List (Event size)}

/-- **The invariant holds along every run.** -/
theorem coherent (hnew : ThreadPool.new size = some s₀) (h : Run (Step steps panics) s₀ tr s) :
    ∃ k, Coherent tr s k := by
  refine h.invariant (fun tr s => ∃ k, Coherent tr s k) ?_ ?_
  · obtain ⟨-, rfl⟩ := new_eq hnew
    refine ⟨0, rfl, rfl, fun _ => ?_, rfl, rfl, ?_⟩
    · simp [WorkerPc.locks]
    · exact (Finset.sum_eq_zero fun _ _ => rfl).symm
  · rintro tr a e b hrun ⟨k, H⟩ hstep
    have htook := received_terminate hnew (hrun.snoc hstep)
    rcases step_cases hstep with ⟨-, howner⟩ | ⟨id, pc', hid, hshares, hphase, hacc, hworker, hmove⟩
    · exact H.owner howner
    · exact ⟨k, H.worker hid hshares hphase hacc hworker hmove htook⟩

end Run

end SmallTrial.Pool
