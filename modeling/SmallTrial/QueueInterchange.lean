import SmallTrial.QueueOwnership
import SmallTrial.QueueProgress
import SmallTrial.TransitionMutex

/-! The two queues of the crate cannot be told apart. `LockBasedQueue` is shared as a list behind a mutex,
whose holder may be interrupted; the histories of its calls are those of `LockFreeQueue`. What the lock
costs is that a call waits for the thread that holds it. -/

namespace SmallTrial.Queue

open Transition

variable {ι V : Type*}

namespace LockBasedQueue

/-- A `LockBasedQueue` and the threads that call it. Nothing panics between `lock()` and the drop of the
guard, so that the mutex is never poisoned. -/
abbrev State (ι V : Type*) := Guarded ι (Op V) (Res V) (List V)

/-- `LockBasedQueue::new`, shared by the threads -/
def State.new : State ι V := Guarded.new LockBasedQueue.new

abbrev Step [DecidableEq ι] : State ι V → ι × GuardedEvent (Op V) (Res V) → State ι V → Prop :=
  Guarded.Step LockBasedQueue.apply

end LockBasedQueue

/-! ### Where the threads rest -/

/-- The call has not done a step of its own yet, or has only to return. -/
def Pc.resting : Pc V → Bool
  | .idle | .enqFirstLoad _ | .deqFirstLoad | .ret _ => true
  | _ => false

/-- The lock-free queue stands for the atomic one, and no call is under way. -/
structure Rests (o : Fifo ι V) (s : State ι V) : Prop where
  simulates : Simulates s o
  life : s.life = .alive
  heap : {a | s.heap a ≠ none}.Finite
  pc : ∀ t, (s.pc t).resting = true

namespace Rests

variable {s s' : State ι V} {o o' : Fifo ι V} {t : ι}

theorem new (p : Addr) : Rests (Object.new LockBasedQueue.new) (State.new p : State ι V) where
  simulates := ⟨[p], 0, 0, Coupled.init p⟩
  life := rfl
  heap := by
    refine (Set.finite_singleton p).subset fun a ha => ?_
    by_contra hne
    exact ha (Function.update_of_ne (f := fun _ => none) hne _)
  pc := fun _ => rfl

/-- A thread that rests is where its call on the atomic queue is. -/
theorem pc_of_call (H : Rests o s) (t : ι) :
    (o.call t = .idle ∧ s.pc t = .idle) ∨ (∃ op, o.call t = .pending op ∧ s.pc t ≠ .idle) ∨
      ∃ res, o.call t = .done res ∧ s.pc t = .ret res := by
  obtain ⟨l, h, k, HC⟩ := H.simulates
  have hok := HC.pcOk t
  have hrest := H.pc t
  cases hpc : s.pc t <;> rw [hpc] at hok hrest <;> cases hrest
  case idle => exact .inl ⟨hok, rfl⟩
  case enqFirstLoad q =>
      obtain ⟨value, hcall, -⟩ := hok
      exact .inr (.inl ⟨_, hcall, by simp⟩)
  case deqFirstLoad => exact .inr (.inl ⟨_, hok, by simp⟩)
  case ret res => exact .inr (.inr ⟨res, hok, rfl⟩)

theorem pc_idle (H : Rests o s) (hcall : o.call t = .idle) : s.pc t = .idle := by
  obtain ⟨-, hpc⟩ | ⟨op, hcall', -⟩ | ⟨res, hcall', -⟩ := H.pc_of_call t
  · exact hpc
  · cases hcall.symm.trans hcall'
  · cases hcall.symm.trans hcall'

theorem pc_busy (H : Rests o s) {op : Op V} (hcall : o.call t = .pending op) : s.pc t ≠ .idle := by
  obtain ⟨hcall', -⟩ | ⟨op', -, hpc⟩ | ⟨res, hcall', -⟩ := H.pc_of_call t
  · cases hcall.symm.trans hcall'
  · exact hpc
  · cases hcall.symm.trans hcall'

theorem pc_ret (H : Rests o s) {res : Res V} (hcall : o.call t = .done res) : s.pc t = .ret res := by
  obtain ⟨hcall', -⟩ | ⟨op, hcall', -⟩ | ⟨res', hcall', hpc⟩ := H.pc_of_call t
  · cases hcall.symm.trans hcall'
  · cases hcall.symm.trans hcall'
  · cases hcall.symm.trans hcall'
    exact hpc

end Rests

variable [DecidableEq ι]

/-! ### A call that runs alone -/

section Alone

variable {s s' u : State ι V} {t : ι} {a : Act V} {o o' : Fifo ι V}

/-- The call of thread `t` takes effect. -/
def commit (o : Fifo ι V) (t : ι) (op : Op V) : Fifo ι V :=
  { o with value := (LockBasedQueue.apply op o.value).2 }.setCall t
    (.done (LockBasedQueue.apply op o.value).1)

theorem threadStep_observe (h : s.threadStep t = some (s', a)) (hret : ∀ res, a ≠ .ret res) :
    (Event.act t a).observe = none := by
  unfold State.threadStep at h
  split at h <;> (repeat' split at h)
  all_goals cases h
  all_goals first | rfl | exact absurd rfl (hret _)

theorem threadStep_ret {res : Res V} (h : s.threadStep t = some (s', .ret res)) : s.pc t = .ret res := by
  unfold State.threadStep at h
  split at h <;> (repeat' split at h) <;> cases h
  assumption

/-- A call that runs alone to its end passes the point where only its return is left. -/
theorem solo_to_ret {tr : List (Event ι V)} (h : Run (Solo t) s tr s') (hbusy : s.pc t ≠ .idle)
    (hidle : s'.pc t = .idle) :
    ∃ mid u res, Run (Solo t) s mid u ∧ u.pc t = .ret res ∧ mid.filterMap Event.observe = [] := by
  induction tr generalizing s with
  | nil =>
      rw [h.nil_inv] at hbusy
      exact absurd hidle hbusy
  | cons e tr ih =>
      obtain ⟨u, ⟨a, rfl, hstep⟩, hrest⟩ := h.cons_inv
      by_cases hret : ∃ res, a = .ret res
      · obtain ⟨res, rfl⟩ := hret
        exact ⟨[], s, res, .nil, threadStep_ret hstep, rfl⟩
      · have hbusy' : u.pc t ≠ .idle := fun hidle' => hret ((threadStep_busy hstep).1 hidle')
        obtain ⟨mid, v, res, hrun, hpc, hobs⟩ := ih hrest hbusy'
        refine ⟨.act t a :: mid, v, res, hrun.cons ⟨a, rfl, hstep⟩, hpc, ?_⟩
        rw [List.filterMap_cons_none (threadStep_observe hstep fun res h => hret ⟨res, h⟩), hobs]

/-- A step that the history does not show leaves the list alone, or is the one at which its call takes
effect. -/
theorem Answers.silent (h : Answers o (.act t a) o') (hobs : (Event.act t a).observe = none) :
    o' = o ∨ ∃ op, o.call t = .pending op ∧ o' = commit o t op := by
  cases a with
  | callEnqueue | callDequeue | ret => cases hobs
  | casNext ok =>
      cases ok with
      | false => exact .inl h
      | true =>
          obtain ⟨value, hcall, rfl⟩ := h
          exact .inr ⟨_, hcall, rfl⟩
  | casHead ok =>
      cases ok with
      | false => exact .inl h
      | true =>
          obtain ⟨value, rest, hcall, hvalue, rfl⟩ := h
          refine .inr ⟨_, hcall, ?_⟩
          rw [commit, hvalue]
          rfl
  | checkNull null =>
      cases null with
      | false => exact .inl h
      | true =>
          obtain ⟨hcall, hvalue, rfl⟩ := h
          refine .inr ⟨_, hcall, ?_⟩
          obtain ⟨_, call⟩ := o
          cases hvalue
          rfl
  | load | casTail | take | dropInPlace => exact .inl h
  | fault => exact h.elim

/-- What the thread leaves as it is. -/
structure Frame (t : ι) (s s' : State ι V) : Prop where
  life : s'.life = s.life
  heap : ∀ a, s'.heap a = none ↔ s.heap a = none
  pc : ∀ t', t' ≠ t → s'.pc t' = s.pc t'

/-- A call that runs alone without returning takes effect or does not, and changes nothing else. -/
theorem Simulates.solo (hR : Simulates s o) {tr : List (Event ι V)} (h : Run (Solo t) s tr u)
    (hobs : tr.filterMap Event.observe = []) : Frame t s u ∧ Run Step s tr u ∧ ∃ o', Simulates u o' ∧
      (o' = o ∨ ∃ op, o.call t = .pending op ∧ o' = commit o t op) := by
  induction h with
  | nil => exact ⟨⟨rfl, fun _ => Iff.rfl, fun _ _ => rfl⟩, .nil, o, hR, .inl rfl⟩
  | @snoc tr e v w _ hlast ih =>
      obtain ⟨a, rfl, hstep⟩ := hlast
      obtain ⟨hinit, hsilent⟩ := List.append_eq_nil_iff.mp (List.filterMap_append ▸ hobs)
      have hnone : (Event.act t a).observe = none := List.filterMap_eq_nil_iff.mp hsilent _ List.mem_cons_self
      obtain ⟨hframe, hrun, o₁, hR₁, hcase⟩ := ih hinit
      obtain ⟨o₂, hR₂, hanswers⟩ := hR₁.step (.thread v w t a hstep)
      obtain ⟨x, hpc⟩ := threadStep_pc hstep
      refine ⟨⟨?_, ?_, ?_⟩, hrun.snoc (.thread v w t a hstep), o₂, hR₂, ?_⟩
      · rw [threadStep_life hstep, hframe.life]
      · intro b
        rw [threadStep_heap hstep, hframe.heap]
      · intro t' ht
        rw [hpc, Function.update_of_ne ht, hframe.pc t' ht]
      · rcases hanswers.silent hnone with rfl | ⟨op, hcall, rfl⟩
        · exact hcase
        · rcases hcase with rfl | ⟨op', hcall', rfl⟩
          · exact .inr ⟨op, hcall, rfl⟩
          · -- a call takes effect once
            rw [commit, Object.setCall_self] at hcall
            cases hcall

end Alone

/-! ### The steps of the atomic queue, one after another -/

namespace Rests

variable {s s' : State ι V} {o o' : Fifo ι V} {t : ι}

/-- A thread moves to where it rests again. -/
theorem goto_pc (H : Rests o s) {x : Pc V} (hx : x.resting = true)
    (hpc : s'.pc = Function.update s.pc t x) (t' : ι) : (s'.pc t').resting = true := by
  rw [hpc]
  by_cases ht : t' = t
  · rw [ht, Function.update_self, hx]
  · rw [Function.update_of_ne ht]
    exact H.pc t'

theorem enqueue (H : Rests o s) (hcall : o.call t = .idle) (value : V) :
    ∃ q, Step s (.act t (.callEnqueue value q)) (s.callEnqueue t value q) ∧
      Rests (o.setCall t (.pending (.enqueue value))) (s.callEnqueue t value q) := by
  obtain ⟨q, hq⟩ := H.heap.exists_notMem
  have hstep : Step s (.act t (.callEnqueue value q)) (s.callEnqueue t value q) :=
    .enqueue s t value q H.life (H.pc_idle hcall) (not_not.mp hq)
  obtain ⟨o', hR, -, rfl⟩ := H.simulates.step hstep
  refine ⟨q, hstep, hR, H.life, (H.heap.insert q).subset fun a ha => ?_, H.goto_pc rfl rfl⟩
  by_cases haq : a = q
  · exact .inl haq
  · refine .inr fun hnone => ha ?_
    rw [← hnone]
    exact Function.update_of_ne haq ..

theorem dequeue (H : Rests o s) (hcall : o.call t = .idle) :
    Step s (.act t .callDequeue) (s.callDequeue t) ∧
      Rests (o.setCall t (.pending .dequeue)) (s.callDequeue t) := by
  have hstep : Step s (.act t .callDequeue) (s.callDequeue t) :=
    .dequeue s t H.life (H.pc_idle hcall)
  obtain ⟨o', hR, -, rfl⟩ := H.simulates.step hstep
  exact ⟨hstep, hR, H.life, H.heap, H.goto_pc rfl rfl⟩

/-- A call that is pending runs alone until only its return is left. -/
theorem commit (H : Rests o s) {op : Op V} (hcall : o.call t = .pending op) :
    ∃ tr s', Run Step s tr s' ∧ tr.filterMap Event.observe = [] ∧ Rests (Queue.commit o t op) s' := by
  have hsound : Sound s := ⟨o, H.simulates⟩
  obtain ⟨-, -, ⟨solo, s₁, hsolo, hidle, -⟩, -⟩ := finishes hsound (H.pc_busy hcall)
  obtain ⟨mid, u, res, hrun, hret, hobs⟩ := solo_to_ret hsolo.events (H.pc_busy hcall) hidle
  obtain ⟨hframe, hrun, o', hR, hcase⟩ := H.simulates.solo hrun hobs
  have hdone : o'.call t = .done res := by
    obtain ⟨l, h, k, HC⟩ := hR
    have hok := HC.pcOk t
    rwa [hret] at hok
  rcases hcase with rfl | ⟨op', hcall', rfl⟩
  · cases hcall.symm.trans hdone
  · cases hcall.symm.trans hcall'
    refine ⟨mid, u, hrun, hobs, hR, hframe.life.trans H.life, H.heap.subset fun a ha => ?_, fun t' => ?_⟩
    · exact fun hnone => ha ((hframe.heap a).mpr hnone)
    · by_cases ht : t' = t
      · rw [ht, hret]
        rfl
      · rw [hframe.pc t' ht]
        exact H.pc t'

theorem respond (H : Rests o s) {res : Res V} (hcall : o.call t = .done res) :
    Step s (.act t (.ret res)) (s.goto t .idle) ∧ Rests (o.setCall t .idle) (s.goto t .idle) := by
  have hthread : s.threadStep t = some (s.goto t .idle, .ret res) := by
    rw [State.threadStep, H.pc_ret hcall]
  obtain ⟨o', hR, -, rfl⟩ := H.simulates.step (.thread s _ t _ hthread)
  exact ⟨.thread s _ t _ hthread, hR, H.life, H.heap, H.goto_pc rfl rfl⟩

end Rests

theorem rests_runs : RunSimulation (Object.Step LockBasedQueue.apply) ObjectEvent.observe Step Event.observe
    (Rests (ι := ι) (V := V)) := by
  rintro o e o' s H hstep
  cases hstep with
  | invoke t op hcall =>
      cases op with
      | enqueue value =>
          obtain ⟨q, hstep, H'⟩ := H.enqueue hcall value
          exact ⟨_, _, H', .single hstep, rfl⟩
      | dequeue =>
          obtain ⟨hstep, H'⟩ := H.dequeue hcall
          exact ⟨_, _, H', .single hstep, rfl⟩
  | commit t op hcall =>
      obtain ⟨tr, s', hrun, hobs, H'⟩ := H.commit hcall
      exact ⟨tr, s', H', hrun, hobs⟩
  | respond t res hcall =>
      obtain ⟨hstep, H'⟩ := H.respond hcall
      exact ⟨_, _, H', .single hstep, rfl⟩

/-- The histories of the lock-free queue are those of the atomic one. -/
theorem lockFreeQueue_histories (p : Addr) :
    histories Step Event.observe (State.new p : State ι V) =
      histories (Object.Step LockBasedQueue.apply) ObjectEvent.observe (Object.new LockBasedQueue.new) :=
  Set.Subset.antisymm (simulates_forward.histories_subset (Rests.new p).simulates)
    (rests_runs.histories_subset (Rests.new p))

/-- **The queues are interchangeable.** Whatever calls the threads make and however they are interleaved,
the calls and results that can be seen of a `LockFreeQueue` are exactly those that can be seen of a
`LockBasedQueue`. -/
theorem queues_interchangeable (p : Addr) :
    histories Step Event.observe (State.new p : State ι V) =
      histories LockBasedQueue.Step GuardedEvent.observe (LockBasedQueue.State.new : LockBasedQueue.State ι V) := by
  rw [lockFreeQueue_histories, LockBasedQueue.State.new, Guarded.histories_eq]

/-! ### What the lock costs -/

/-- What the state of a `LockBasedQueue` promises its callers. -/
structure LockBasedQueue.Waits (s : LockBasedQueue.State ι V) : Prop where
  unique : ∀ t t', (s.pc t).holds = true → (s.pc t').holds = true → t = t'
  goes_on : ∀ t, s.pc t ≠ .idle →
    ∃ t' e s', s.pc t' ≠ .idle ∧ s.next LockBasedQueue.apply (t', none) = some (s', e)
  ends : ∀ tr s', Run (Restrict LockBasedQueue.Step fun _ e => ∀ op, e.2 ≠ .invoke op) s tr s' →
    ∀ t, tr.countP (·.1 = t) ≤ 5 ∧ (s.pc t = .idle → tr.countP (·.1 = t) = 0)
  stalls : ∀ t, (s.pc t).holds = true → ∀ tr s', Run LockBasedQueue.Step s tr s' → (∀ e ∈ tr, e.1 ≠ t) →
    ∀ t' op, s.pc t' = .locking op → s'.pc t' = .locking op

/-- **Waiting for the lock.** At most one thread is between `lock()` and the drop of its guard. There is no
deadlock: while calls are in progress one of them can go on, and if no new ones start each of them takes at
most five more steps. But where the thread that holds the lock is stopped, no other call gets past
`lock()`. -/
theorem lockBasedQueue_waits {tr : List (ι × GuardedEvent (Op V) (Res V))}
    {s : LockBasedQueue.State ι V} (h : Run LockBasedQueue.Step LockBasedQueue.State.new tr s) :
    LockBasedQueue.Waits s := by
  have H := Guarded.Exclusive.run h
  refine ⟨fun t t' => H.unique, fun t => Guarded.exists_next H, fun tr' s' hrun t => ?_,
    fun t ht tr' s' hrun hstop t' op hpc => Guarded.stalled H ht hrun hstop hpc⟩
  have hcount := Guarded.count_add_remaining hrun t
  have hle := (s.pc t).remaining_le
  refine ⟨by omega, fun hidle => ?_⟩
  rw [hidle, GuardedPc.remaining] at hcount
  omega

/-- One thread holds the mutex, and another one has called `dequeue`. -/
def contended : List (Bool × Option (Op Nat)) :=
  [(true, some (.enqueue 1)), (true, none), (false, some .dequeue)]

theorem lockBasedQueue_waits_contended :
    ∃ (tr : List (Bool × GuardedEvent (Op Nat) (Res Nat))) (s : LockBasedQueue.State Bool Nat),
      tr = [(true, .invoke (.enqueue 1)), (true, .lock), (false, .invoke .dequeue)] ∧
      Run LockBasedQueue.Step LockBasedQueue.State.new tr s ∧ LockBasedQueue.Waits s := by
  have hreplay : (replay (Guarded.next LockBasedQueue.apply) LockBasedQueue.State.new contended).map
      Prod.snd = some [(true, .invoke (.enqueue 1)), (true, .lock), (false, .invoke .dequeue)] := by
    decide +kernel
  obtain ⟨⟨s, tr⟩, hreplayed, htr⟩ := Option.map_eq_some_iff.mp hreplay
  have hrun : Run LockBasedQueue.Step LockBasedQueue.State.new tr s :=
    Run.of_replay (fun _ m _ _ h => ⟨m, h⟩) hreplayed
  exact ⟨tr, s, htr, hrun, lockBasedQueue_waits hrun⟩

end SmallTrial.Queue
