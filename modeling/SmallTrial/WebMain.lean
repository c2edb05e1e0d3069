import SmallTrial.PoolParallel
import SmallTrial.WebConnection

/-! The `main` of the web server: it takes two connections from the listener, each with a job of its own in
a pool of five workers, and drops the pool at its end or when it unwinds from a failed `accept`. -/

namespace SmallTrial.Web.Main

open Text Transition Pool

/-- A connection that is accepted; `ok` says that its read, its write and its flush return no error. -/
structure Connection where
  socket : Socket
  stream : Bytes
  ok : Bool

/-- The job of a connection; there is no result if it panics. -/
def Connection.handle (readToString : String → Option Bytes) (c : Connection) : Option Handled :=
  if c.ok then handleConnection readToString c.socket c.stream else none

/-- How the process ends: with the return of `main`, with its panic, or with a panic while it unwinds. -/
inductive Outcome where
  | returned
  | panicked
  | aborted
  deriving DecidableEq

/-- Where `main` stands. -/
inductive MainPc where
  /-- at the head of the loop, with `taken` connections taken -/
  | incoming (taken : Nat)
  /-- at `threads.execute` -/
  | execute (taken : Nat)
  /-- in the drop of `threads` -/
  | leaving (panicking : Bool)
  | exited (o : Outcome)
  deriving DecidableEq

structure State where
  pool : Pool.State 5
  pc : MainPc

inductive Event where
  | accept (connection : Nat)
  | acceptError
  /-- `println!("Exiting!")` -/
  | exiting
  | pool (e : Pool.Event 5)
  | exit (o : Outcome)
  deriving DecidableEq

/-- Who takes the next step; `ok` says whether `accept` returns a connection. -/
inductive Party where
  | main (ok : Bool)
  | worker (id : Fin 5)

/-- `ThreadPool::new(5)` -/
def State.start : State := { pool := (ThreadPool.new 5).get rfl, pc := .incoming 0 }

variable (steps : Nat → Nat) (readToString : String → Option Bytes) (conn : Nat → Connection)

/-- The job of a connection panics. -/
def panics (job : Nat) : Bool := ((conn job).handle readToString).isNone

namespace State

/-- The next step of `main`. -/
def main (s : State) (ok : Bool) : Option (State × Event) :=
  match s.pc with
  | .incoming taken =>
      if taken < 2 then
        if ok then some ({ s with pc := .execute taken }, .accept taken)
        else some ({ s with pc := .leaving true }, .acceptError)
      else some ({ s with pc := .leaving false }, .exiting)
  | .execute taken =>
      match s.pool.execute with
      | some (pool, .executePanic) => some (⟨pool, .leaving true⟩, .pool .executePanic)
      | some (pool, e) => some (⟨pool, .incoming (taken + 1)⟩, .pool e)
      | none => none
  | .leaving panicking =>
      match s.pool.phase with
      | .returned =>
          let o := if panicking then .panicked else .returned
          some ({ s with pc := .exited o }, .exit o)
      | .panicked =>
          let o := if panicking then .aborted else .panicked
          some ({ s with pc := .exited o }, .exit o)
      | _ => s.pool.drop.map fun r => (⟨r.1, s.pc⟩, .pool r.2)
  | .exited _ => none

/-- The next step of a worker, as long as the process runs. -/
def work (s : State) (id : Fin 5) : Option (State × Event) :=
  match s.pc with
  | .exited _ => none
  | _ => (s.pool.work steps (panics readToString conn) id).map fun r => (⟨r.1, s.pc⟩, .pool r.2)

def next (s : State) : Party → Option (State × Event)
  | .main ok => s.main ok
  | .worker id => s.work steps readToString conn id

end State

def Step (s : State) (e : Event) (t : State) : Prop :=
  ∃ p, s.next steps readToString conn p = some (t, e)

/-- The steps of the pool. -/
def poolEvents (tr : List Event) : List (Pool.Event 5) :=
  tr.filterMap fun
    | .pool e => some e
    | _ => none

/-- What the clients were sent by the jobs that have finished, each with the number of its connection. -/
def answers (tr : List Event) : List (Nat × Option Handled) :=
  tr.filterMap fun
    | .pool (.finish _ job) => some (job, (conn job).handle readToString)
    | _ => none

variable {steps readToString conn} {s t : State} {e : Event} {tr : List Event}

/-! ### Steps -/

/-- What a step can do. -/
inductive Effect (steps : Nat → Nat) (readToString : String → Option Bytes) (conn : Nat → Connection)
    (s : State) : Event → State → Prop where
  | accept {taken : Nat} : s.pc = .incoming taken → taken < 2 →
      Effect steps readToString conn s (.accept taken) { s with pc := .execute taken }
  | acceptError {taken : Nat} : s.pc = .incoming taken → taken < 2 →
      Effect steps readToString conn s .acceptError { s with pc := .leaving true }
  | exiting {taken : Nat} : s.pc = .incoming taken → ¬ taken < 2 →
      Effect steps readToString conn s .exiting { s with pc := .leaving false }
  | execute {taken : Nat} {pool : Pool.State 5} {pe : Pool.Event 5} : s.pc = .execute taken →
      s.pool.execute = some (pool, pe) → pe ≠ .executePanic →
      Effect steps readToString conn s (.pool pe) ⟨pool, .incoming (taken + 1)⟩
  | executePanic {taken : Nat} {pool : Pool.State 5} : s.pc = .execute taken →
      s.pool.execute = some (pool, .executePanic) →
      Effect steps readToString conn s (.pool .executePanic) ⟨pool, .leaving true⟩
  | drop {panicking : Bool} {pool : Pool.State 5} {pe : Pool.Event 5} : s.pc = .leaving panicking →
      s.pool.drop = some (pool, pe) → Effect steps readToString conn s (.pool pe) ⟨pool, s.pc⟩
  | exit {panicking : Bool} {o : Outcome} : s.pc = .leaving panicking →
      (s.pool.phase = .returned ∧ o = if panicking then .panicked else .returned) ∨
        (s.pool.phase = .panicked ∧ o = if panicking then .aborted else .panicked) →
      Effect steps readToString conn s (.exit o) { s with pc := .exited o }
  | work {id : Fin 5} {pool : Pool.State 5} {pe : Pool.Event 5} : (∀ o, s.pc ≠ .exited o) →
      s.pool.work steps (panics readToString conn) id = some (pool, pe) →
      Effect steps readToString conn s (.pool pe) ⟨pool, s.pc⟩

theorem effect_of_main {ok : Bool} (h : s.main ok = some (t, e)) :
    Effect steps readToString conn s e t := by
  unfold State.main at h
  cases hpc : s.pc with
  | incoming taken =>
      simp only [hpc] at h
      by_cases htaken : taken < 2
      · rw [if_pos htaken] at h
        cases ok with
        | true =>
            cases h
            exact .accept hpc htaken
        | false =>
            cases h
            exact .acceptError hpc htaken
      · rw [if_neg htaken] at h
        cases h
        exact .exiting hpc htaken
  | execute taken =>
      simp only [hpc] at h
      split at h
      · rename_i pool hexecute
        cases h
        exact .executePanic hpc hexecute
      · rename_i pool pe hne hexecute
        cases h
        exact .execute hpc hexecute hne
      · cases h
  | leaving panicking =>
      simp only [hpc] at h
      split at h
      · rename_i hphase
        cases h
        exact .exit hpc (.inl ⟨hphase, rfl⟩)
      · rename_i hphase
        cases h
        exact .exit hpc (.inr ⟨hphase, rfl⟩)
      · obtain ⟨⟨pool, pe⟩, hdrop, heq⟩ := Option.map_eq_some_iff.mp h
        cases heq
        rw [← hpc]
        exact .drop hpc hdrop
  | exited o =>
      simp only [hpc] at h
      cases h

theorem effect_of_work {id : Fin 5} (h : s.work steps readToString conn id = some (t, e)) :
    Effect steps readToString conn s e t := by
  unfold State.work at h
  split at h
  · cases h
  · rename_i hpc
    obtain ⟨⟨pool, pe⟩, hwork, heq⟩ := Option.map_eq_some_iff.mp h
    cases heq
    exact .work hpc hwork

theorem effect_of_step (h : Step steps readToString conn s e t) : Effect steps readToString conn s e t := by
  obtain ⟨p, hp⟩ := h
  cases p with
  | main ok => exact effect_of_main hp
  | worker id => exact effect_of_work hp

/-! ### The pool of the server -/

theorem new_start : ThreadPool.new 5 = some State.start.pool := (Option.some_get rfl).symm

theorem poolEvents_append (tr tr' : List Event) :
    poolEvents (tr ++ tr') = poolEvents tr ++ poolEvents tr' := List.filterMap_append

/-- The pool of the server runs like a pool. -/
theorem pool_step (h : Effect steps readToString conn s e t) :
    Run (Pool.Step steps (panics readToString conn)) s.pool (poolEvents [e]) t.pool := by
  cases h with
  | accept | acceptError | exiting | exit => exact .nil
  | execute _ hexecute => exact Run.single ⟨.execute, hexecute⟩
  | executePanic _ hexecute => exact Run.single ⟨.execute, hexecute⟩
  | drop _ hdrop => exact Run.single ⟨.drop, hdrop⟩
  | @work id _ _ _ hwork => exact Run.single ⟨.worker id, hwork⟩

theorem pool_run (h : Run (Step steps readToString conn) .start tr s) :
    Run (Pool.Step steps (panics readToString conn)) State.start.pool (poolEvents tr) s.pool := by
  induction h with
  | nil => exact .nil
  | snoc _ hlast ih =>
      rw [poolEvents_append]
      exact ih.append (pool_step (effect_of_step hlast))

theorem execute_eq {p p' : Pool.State 5} {pe : Pool.Event 5} (h : p.execute = some (p', pe))
    (hne : pe ≠ .executePanic) : pe = .execute p.accepted ∧
      p' = { p with channel := p.channel ++ [.newJob p.accepted], accepted := p.accepted + 1 } := by
  rw [Pool.State.execute] at h
  split at h
  · split at h
    · cases h
      exact absurd rfl hne
    · cases h
      exact ⟨rfl, rfl⟩
  · cases h

theorem executePanic_inv {p p' : Pool.State 5} (h : p.execute = some (p', .executePanic)) :
    p.disconnected ∧ p' = p := by
  have howner := execute_cases h
  exact ⟨howner.2.1, howner.2.2⟩

theorem drop_accepted {p p' : Pool.State 5} {pe : Pool.Event 5} (h : p.drop = some (p', pe)) :
    p'.accepted = p.accepted := by
  unfold Pool.State.drop at h
  repeat' split at h
  all_goals first | cases h; rfl | cases h

/-- Fewer jobs than workers cannot end all of them. -/
theorem not_disconnected (h : Run (Step steps readToString conn) .start tr s)
    (hserving : s.pool.phase = .serving) (hfew : s.pool.accepted < 5) : ¬ s.pool.disconnected := by
  intro hgone
  obtain ⟨id, hid⟩ := exists_not_occupied new_start (pool_run h) hfew
  obtain ⟨k, H⟩ := coherent new_start (pool_run h)
  rw [panicked_of_disconnected H hserving hgone id] at hid
  cases hid

/-- How the position of `main`, the phase of the pool and what `accept` has returned fit together. -/
def Tracks (tr : List Event) (s : State) : Prop :=
  match s.pc with
  | .incoming taken =>
      s.pool.phase = .serving ∧ s.pool.accepted = taken ∧ taken ≤ 2 ∧ .acceptError ∉ tr
  | .execute taken =>
      s.pool.phase = .serving ∧ s.pool.accepted = taken ∧ taken < 2 ∧ .acceptError ∉ tr
  | .leaving panicking => s.pool.accepted ≤ 2 ∧ (panicking = true ↔ .acceptError ∈ tr) ∧
      (panicking = false → s.pool.accepted = 2)
  | .exited o => s.pool.accepted ≤ 2 ∧ (.acceptError ∉ tr → s.pool.accepted = 2) ∧
      ((s.pool.phase = .returned ∧ o = if .acceptError ∈ tr then .panicked else .returned) ∨
        (s.pool.phase = .panicked ∧ o = if .acceptError ∈ tr then .aborted else .panicked))

/-- A step of the pool that leaves `main` where it is. -/
theorem Tracks.pool {pe : Pool.Event 5} {pool : Pool.State 5} (H : Tracks tr s)
    (hphase : s.pool.phase = pool.phase ∨ ∃ b, s.pc = .leaving b) (haccepted : pool.accepted = s.pool.accepted)
    (hrunning : ∀ o, s.pc ≠ .exited o) : Tracks (tr ++ [.pool pe]) ⟨pool, s.pc⟩ := by
  have hmem : Event.acceptError ∈ tr ++ [.pool pe] ↔ .acceptError ∈ tr := by simp
  unfold Tracks at H ⊢
  dsimp only
  cases hpc : s.pc with
  | incoming taken | execute taken =>
      rw [hpc] at H
      rcases hphase with hphase | ⟨b, hb⟩
      · simp only [hmem, haccepted, ← hphase]
        exact H
      · rw [hpc] at hb
        cases hb
  | leaving panicking =>
      rw [hpc] at H
      simp only [hmem, haccepted]
      exact H
  | exited o => exact absurd hpc (hrunning o)

theorem tracks_step (hrun : Run (Step steps readToString conn) .start tr s) (H : Tracks tr s)
    (heffect : Effect steps readToString conn s e t) : Tracks (tr ++ [e]) t := by
  cases heffect with
  | accept hpc htaken =>
      unfold Tracks at H ⊢
      rw [hpc] at H
      obtain ⟨hphase, haccepted, -, herror⟩ := H
      exact ⟨hphase, haccepted, htaken, by simp [herror]⟩
  | acceptError hpc htaken =>
      unfold Tracks at H ⊢
      rw [hpc] at H
      obtain ⟨-, haccepted, hle, -⟩ := H
      exact ⟨haccepted ▸ hle, by simp, fun h => by cases h⟩
  | exiting hpc htaken =>
      unfold Tracks at H ⊢
      rw [hpc] at H
      obtain ⟨-, haccepted, hle, herror⟩ := H
      have htwo : s.pool.accepted = 2 := by omega
      exact ⟨Nat.le_of_eq htwo, by simp [herror], fun _ => htwo⟩
  | execute hpc hexecute hne =>
      unfold Tracks at H ⊢
      rw [hpc] at H
      obtain ⟨hphase, haccepted, htaken, herror⟩ := H
      obtain ⟨rfl, rfl⟩ := execute_eq hexecute hne
      exact ⟨hphase, congrArg (· + 1) haccepted, htaken, by simp [herror]⟩
  | executePanic hpc hexecute =>
      unfold Tracks at H
      rw [hpc] at H
      obtain ⟨hphase, haccepted, htaken, -⟩ := H
      exact absurd (executePanic_inv hexecute).1 (not_disconnected hrun hphase (by omega))
  | drop hpc hdrop =>
      exact H.pool (.inr ⟨_, hpc⟩) (drop_accepted hdrop) fun o ho => by rw [hpc] at ho; cases ho
  | work hrunning hwork =>
      obtain ⟨-, -, hphase, haccepted, -⟩ := work_cases hwork
      exact H.pool (.inl hphase.symm) haccepted hrunning
  | @exit panicking o hpc hexit =>
      unfold Tracks at H ⊢
      rw [hpc] at H
      obtain ⟨hle, herror, hall⟩ := H
      have hmem : Event.acceptError ∈ tr ++ [.exit o] ↔ panicking = true := by simp [herror]
      dsimp only
      refine ⟨hle, fun h => hall (Bool.eq_false_of_not_eq_true (mt hmem.mpr h)), ?_⟩
      simp only [hmem]
      exact hexit

theorem tracks (h : Run (Step steps readToString conn) .start tr s) : Tracks tr s := by
  have hinit : Tracks [] State.start := ⟨rfl, rfl, Nat.zero_le 2, List.not_mem_nil⟩
  exact h.invariant Tracks hinit fun _ _ _ _ hrun H hstep => tracks_step hrun H (effect_of_step hstep)

theorem accepted_le (H : Tracks tr s) : s.pool.accepted ≤ 2 := by
  unfold Tracks at H
  cases hpc : s.pc with
  | incoming taken =>
      rw [hpc] at H
      obtain ⟨-, haccepted, htaken, -⟩ := H
      exact haccepted ▸ htaken
  | execute taken =>
      rw [hpc] at H
      obtain ⟨-, haccepted, htaken, -⟩ := H
      exact haccepted ▸ Nat.le_of_lt htaken
  | leaving panicking | exited o =>
      rw [hpc] at H
      exact H.1

/-! ### Progress -/

/-- What the connections cost that are still to be taken. -/
def future (steps : Nat → Nat) : Nat → Nat
  | 0 => (steps 0 + 7) + (steps 1 + 7)
  | 1 => steps 1 + 7
  | _ => 0

def MainPc.weight (steps : Nat → Nat) : MainPc → Nat
  | .incoming taken => future steps taken + 2
  | .execute taken => (steps taken + 6) + future steps (taken + 1) + 2
  | .leaving _ => 1
  | .exited _ => 0

/-- A bound for the steps that are left. -/
def State.remaining (steps : Nat → Nat) (s : State) : Nat := s.pool.remaining steps + s.pc.weight steps

theorem future_eq {taken : Nat} (h : taken < 2) :
    future steps taken = (steps taken + 7) + future steps (taken + 1) := by
  match taken, h with
  | 0, _ => rfl
  | 1, _ => rfl

theorem drop_remaining_lt {p p' : Pool.State 5} {pe : Pool.Event 5} (h : p.drop = some (p', pe)) :
    p'.remaining steps < p.remaining steps := by
  by_cases hserving : p.phase = .serving
  · rw [Pool.State.drop, hserving] at h
    cases h
    simp only [Pool.State.remaining, hserving, Phase.weight]
    omega
  · have hstep : Pool.Step steps (fun _ => false) p pe p' := ⟨.drop, h⟩
    exact remaining_lt hstep hserving

/-- Every step of the process brings its end nearer. -/
theorem remaining_lt_of_effect (H : Tracks tr s) (heffect : Effect steps readToString conn s e t) :
    t.remaining steps < s.remaining steps := by
  cases heffect with
  | @accept taken hpc htaken =>
      simp only [State.remaining, hpc, MainPc.weight, future_eq htaken]
      omega
  | acceptError hpc | exiting hpc =>
      simp only [State.remaining, hpc, MainPc.weight]
      omega
  | @execute taken pool pe hpc hexecute hne =>
      unfold Tracks at H
      rw [hpc] at H
      obtain ⟨-, haccepted, -⟩ := H
      obtain ⟨rfl, rfl⟩ := execute_eq hexecute hne
      simp only [State.remaining, Pool.State.remaining, hpc, MainPc.weight, List.map_append, List.sum_append,
        List.map_singleton, List.sum_singleton, Message.weight, haccepted]
      omega
  | executePanic hpc hexecute =>
      obtain ⟨-, rfl⟩ := executePanic_inv hexecute
      simp only [State.remaining, hpc, MainPc.weight]
      omega
  | drop hpc hdrop => exact Nat.add_lt_add_right (drop_remaining_lt hdrop) _
  | work hrunning hwork =>
      obtain ⟨-, hshares, hphase, -, pc', hworker, hmove⟩ := work_cases hwork
      exact Nat.add_lt_add_right (remaining_lt_of_moves hshares hphase hworker hmove) _
  | exit hpc hexit =>
      simp only [State.remaining, hpc, MainPc.weight]
      omega

theorem length_add_remaining_le (h : Run (Step steps readToString conn) .start tr s) :
    tr.length + s.remaining steps ≤ State.start.remaining steps := by
  refine h.invariant (fun tr s => tr.length + s.remaining steps ≤ State.start.remaining steps) ?_ ?_
  · simp
  · intro tr a e b hrun hle hstep
    have hlt := remaining_lt_of_effect (tracks hrun) (effect_of_step hstep)
    rw [List.length_append, List.length_singleton]
    omega

theorem remaining_start : State.start.remaining steps = steps 0 + steps 1 + 49 := by
  have hweight : State.start.remaining steps =
      (4 * 5 + 3 + 0 + ∑ _ : Fin 5, 2) + ((steps 0 + 7) + (steps 1 + 7) + 2) := rfl
  rw [hweight, Finset.sum_const, Finset.card_univ, Fintype.card_fin, smul_eq_mul]
  omega

/-- The process goes on until `main` has ended. -/
theorem next_isSome (h : Run (Step steps readToString conn) .start tr s) (hrunning : ∀ o, s.pc ≠ .exited o) :
    ∃ p r, s.next steps readToString conn p = some r := by
  have H := tracks h
  unfold Tracks at H
  have hworker : ∀ id r, s.pool.work steps (panics readToString conn) id = some r →
      ∃ p r, s.next steps readToString conn p = some r := by
    intro id r hwork
    refine ⟨.worker id, (⟨r.1, s.pc⟩, .pool r.2), ?_⟩
    rw [State.next, State.work]
    cases hpc : s.pc with
    | exited o => exact absurd hpc (hrunning o)
    | _ =>
        simp only [hwork]
        rfl
  cases hpc : s.pc with
  | incoming taken =>
      refine ⟨.main true, ?_⟩
      rw [State.next, State.main, hpc]
      dsimp only
      split <;> exact ⟨_, rfl⟩
  | execute taken =>
      rw [hpc] at H
      obtain ⟨hphase, -⟩ := H
      have hexecute : s.pool.execute ≠ none := by
        rw [Pool.State.execute, hphase]
        dsimp only
        split <;> exact Option.some_ne_none _
      refine ⟨.main true, ?_⟩
      rw [State.next, State.main, hpc]
      dsimp only
      split
      · exact ⟨_, rfl⟩
      · exact ⟨_, rfl⟩
      · rename_i hnone
        exact absurd hnone hexecute
  | leaving panicking =>
      obtain ⟨k, Hpool⟩ := coherent new_start (pool_run h)
      have hdrop : ∀ r, s.pool.drop = some r → ∃ p r, s.next steps readToString conn p = some r := by
        intro r hdrop
        refine ⟨.main true, ?_⟩
        rw [State.next, State.main, hpc]
        dsimp only
        split
        · exact ⟨_, rfl⟩
        · exact ⟨_, rfl⟩
        · rw [hdrop]
          exact ⟨_, rfl⟩
      have hmain (hphase : s.pool.phase = .returned ∨ s.pool.phase = .panicked) :
          ∃ p r, s.next steps readToString conn p = some r := by
        refine ⟨.main true, ?_⟩
        rcases hphase with hphase | hphase <;> rw [State.next, State.main, hpc, hphase] <;> exact ⟨_, rfl⟩
      by_cases hserving : s.pool.phase = .serving
      · exact hdrop ({ s.pool with phase := .sending 0 }, .dropStart) (by rw [Pool.State.drop, hserving])
      by_cases hret : s.pool.phase = .returned
      · exact hmain (.inl hret)
      by_cases hpanic : s.pool.phase = .panicked
      · exact hmain (.inr hpanic)
      rcases drop_progress Hpool hserving hret hpanic with ⟨r, hr⟩ | ⟨id, r, hr⟩
      · exact hdrop r hr
      · exact hworker id r hr
  | exited o => exact absurd hpc (hrunning o)

theorem next_eq_none {o : Outcome} (hpc : s.pc = .exited o) (p : Party) :
    s.next steps readToString conn p = none := by
  cases p with
  | main ok => rw [State.next, State.main, hpc]
  | worker id => rw [State.next, State.work, hpc]

/-! ### The end -/

/-- The jobs that have finished, in the order in which they did. -/
def finished (tr : List (Pool.Event 5)) : List Nat :=
  tr.filterMap fun
    | .finish _ job => some job
    | _ => none

theorem count_finished (job : Nat) (tr : List (Pool.Event 5)) :
    (finished tr).count job = total (Pool.Event.finishes job) tr := by
  induction tr with
  | nil => rfl
  | cons e tr ih =>
      rw [total, List.map_cons, List.sum_cons, ← total, ← ih]
      cases e with
      | finish id job' =>
          have hcons : finished (.finish id job' :: tr) = job' :: finished tr := rfl
          rw [hcons, List.count_cons, Pool.Event.finishes, Nat.add_comm]
          simp only [beq_iff_eq]
      | _ => exact (Nat.zero_add _).symm

theorem answers_eq (tr : List Event) : answers readToString conn tr =
    (finished (poolEvents tr)).map fun job => (job, (conn job).handle readToString) := by
  induction tr with
  | nil => rfl
  | cons e tr ih =>
      cases e with
      | pool pe =>
          cases pe with
          | finish id job => exact congrArg (_ :: ·) ih
          | _ => exact ih
      | _ => exact ih

section Ended

variable {pool : Pool.State 5} {ptr : List (Pool.Event 5)}

/-- When the pool is dropped without a panic, no job has panicked. -/
theorem panics_eq_zero (h : Run (Pool.Step steps (panics readToString conn)) State.start.pool ptr pool)
    (hret : pool.phase = .returned) : ∀ e ∈ ptr, Pool.Event.panics e = 0 := by
  obtain ⟨k, H⟩ := coherent new_start h
  have hphase := H.phase
  rw [PhaseOk, hret] at hphase
  obtain ⟨-, hexited⟩ := hphase
  have hnone : ∑ id, (pool.worker id).hasPanicked = 0 :=
    Finset.sum_eq_zero fun id _ => by rw [hexited id]; rfl
  have htotal := panicked_workers new_start h
  rw [hnone, total, List.sum_eq_zero_iff, List.forall_mem_map] at htotal
  exact htotal

/-- When the pool is dropped without a panic, every job has finished, once. -/
theorem finishes_eq_one (h : Run (Pool.Step steps (panics readToString conn)) State.start.pool ptr pool)
    (hret : pool.phase = .returned) {job : Nat} (hjob : job < pool.accepted) :
    total (Pool.Event.finishes job) ptr = 1 := by
  obtain ⟨k, H⟩ := coherent new_start h
  have hphase := H.phase
  rw [PhaseOk, hret] at hphase
  obtain ⟨hk, hexited⟩ := hphase
  have hended : ∀ id, (pool.worker id).ended = true := fun id => by rw [hexited id]; rfl
  have hreceived : (received ptr).count (.newJob job) = 1 := by
    have hsent := H.channel_eq
    rw [H.channel_of_exited (by decide) hk hexited, List.append_nil] at hsent
    rw [← hsent, H.count_newJob, if_pos hjob]
  have hone := ended_of_received new_start h hended job hreceived
  have hadd := total_add (Pool.Event.finishes job) (Pool.Event.jobPanics job) ptr
  have hzero : total (Pool.Event.jobPanics job) ptr = 0 := total_eq_zero fun e he => by
    have hpanics := panics_eq_zero h hret e he
    cases e <;> first | rfl | cases hpanics
  omega

/-- A job that was not accepted does not finish. -/
theorem finishes_eq_zero (h : Run (Pool.Step steps (panics readToString conn)) State.start.pool ptr pool)
    {job : Nat} (hjob : ¬ job < pool.accepted) : total (Pool.Event.finishes job) ptr = 0 := by
  obtain ⟨k, H⟩ := coherent new_start h
  have hsent := H.count_newJob job
  rw [if_neg hjob, H.channel_eq, List.count_append, received_job new_start h, started_job new_start h,
    total_add] at hsent
  omega

/-- A job that panics does not finish. -/
theorem not_panics_of_finish (h : Run (Pool.Step steps (panics readToString conn)) State.start.pool ptr pool)
    {id : Fin 5} {job : Nat} (hmem : .finish id job ∈ ptr) : panics readToString conn job = false := by
  have hall : ∀ e ∈ ptr, ∀ id job, e = .finish id job → panics readToString conn job = false := by
    refine h.forall_mem fun _ _ _ _ _ hstep => ?_
    rintro id job rfl
    rcases step_cases hstep with ⟨hnone, -⟩ | ⟨_, _, -, -, -, -, -, hmove⟩
    · cases hnone
    · generalize hpc : State.worker _ _ = pc at hmove
      cases hmove
      assumption
  exact hall _ hmem id job rfl

theorem isSome_handle (h : Run (Pool.Step steps (panics readToString conn)) State.start.pool ptr pool)
    (hret : pool.phase = .returned) {job : Nat} (hjob : job < pool.accepted) :
    ((conn job).handle readToString).isSome = true := by
  have hpos : 0 < (finished ptr).count job := by
    rw [count_finished, finishes_eq_one h hret hjob]
    exact Nat.one_pos
  obtain ⟨e, he, heq⟩ := List.mem_filterMap.mp (List.count_pos_iff.mp hpos)
  cases e with
  | finish id job' =>
      cases heq
      have hpanics := not_panics_of_finish h he
      rwa [panics, Option.isNone_eq_false_iff] at hpanics
  | _ => cases heq

/-- When the drop of the pool panics, a job has. -/
theorem exists_jobPanic (h : Run (Pool.Step steps (panics readToString conn)) State.start.pool ptr pool)
    (hpanic : pool.phase = .panicked) :
    ∃ id job, .jobPanic id job ∈ ptr ∧ panics readToString conn job = true := by
  obtain ⟨k, H⟩ := coherent new_start h
  have hphase := H.phase
  rw [PhaseOk, hpanic] at hphase
  obtain ⟨-, id, hid⟩ := hphase
  have hle := le_sum WorkerPc.hasPanicked pool.worker id
  rw [← panicked_workers new_start h, hid] at hle
  by_contra hnone
  have hzero : total Pool.Event.panics ptr = 0 := total_eq_zero fun e he => by
    by_contra hne
    obtain ⟨id, job, rfl, hjob⟩ := panics_of_mem new_start h e he hne
    exact hnone ⟨id, job, he, hjob⟩
  rw [hzero] at hle
  exact absurd hle (by decide)

end Ended

/-- When the pool is dropped without a panic, each connection has its own answer, once. -/
theorem answers_perm (h : Run (Step steps readToString conn) .start tr s)
    (hret : s.pool.phase = .returned) : (answers readToString conn tr).Perm
      ((List.range s.pool.accepted).map fun job => (job, (conn job).handle readToString)) := by
  rw [answers_eq]
  refine List.Perm.map _ (List.perm_iff_count.mpr fun job => ?_)
  rw [count_finished]
  by_cases hjob : job < s.pool.accepted
  · rw [finishes_eq_one (pool_run h) hret hjob,
      List.count_eq_one_of_mem List.nodup_range (List.mem_range.mpr hjob)]
  · rw [finishes_eq_zero (pool_run h) hjob, List.count_eq_zero.mpr (mt List.mem_range.mp hjob)]

/-- The end of the process, and what the clients have been sent. -/
structure Ended (readToString : String → Option Bytes) (conn : Nat → Connection) (tr : List Event)
    (s : State) (o : Outcome) : Prop where
  accepted : if .acceptError ∈ tr then s.pool.accepted ≤ 2 else s.pool.accepted = 2
  outcome :
    ((∀ job < s.pool.accepted, ((conn job).handle readToString).isSome = true) ∧
      (answers readToString conn tr).Perm
        ((List.range s.pool.accepted).map fun job => (job, (conn job).handle readToString)) ∧
      o = if .acceptError ∈ tr then .panicked else .returned) ∨
    ((∃ id job, .pool (.jobPanic id job) ∈ tr ∧ (conn job).handle readToString = none) ∧
      o = if .acceptError ∈ tr then .aborted else .panicked)

theorem ended_of_exited (h : Run (Step steps readToString conn) .start tr s) {o : Outcome}
    (hpc : s.pc = .exited o) : Ended readToString conn tr s o := by
  have H := tracks h
  unfold Tracks at H
  rw [hpc] at H
  obtain ⟨hle, htwo, hout⟩ := H
  refine ⟨?_, ?_⟩
  · split
    · exact hle
    · exact htwo ‹_›
  · rcases hout with ⟨hret, ho⟩ | ⟨hpanic, ho⟩
    · exact .inl ⟨fun job hjob => isSome_handle (pool_run h) hret hjob, answers_perm h hret, ho⟩
    · refine .inr ⟨?_, ho⟩
      obtain ⟨id, job, hmem, hjob⟩ := exists_jobPanic (pool_run h) hpanic
      obtain ⟨e, he, heq⟩ := List.mem_filterMap.mp hmem
      cases e with
      | pool pe =>
          cases heq
          exact ⟨id, job, he, Option.isNone_iff_eq_none.mp hjob⟩
      | _ => cases heq

theorem executePanic_notMem (h : Run (Step steps readToString conn) .start tr s) :
    .pool .executePanic ∉ tr := by
  intro hmem
  refine h.forall_mem (P := (· ≠ .pool .executePanic)) (fun tr a e b hrun hstep => ?_) _ hmem rfl
  rintro rfl
  have H := tracks hrun
  have hgone : a.pool.phase = .serving → a.pool.accepted < 5 → ¬ a.pool.disconnected := not_disconnected hrun
  generalize he : Event.pool .executePanic = e at hstep
  have heffect := effect_of_step hstep
  cases heffect with
  | execute hpc hexecute hne =>
      cases he
      exact hne rfl
  | executePanic hpc hexecute =>
      unfold Tracks at H
      rw [hpc] at H
      obtain ⟨hphase, haccepted, htaken, -⟩ := H
      exact hgone hphase (by omega) (executePanic_inv hexecute).1
  | drop hpc hdrop =>
      cases he
      unfold Tracks at H
      rw [hpc] at H
      obtain ⟨hphase, hdisconnected, -⟩ := drop_cases hdrop
      exact hgone hphase (by omega) hdisconnected
  | work hrunning hwork =>
      cases he
      obtain ⟨hworker, -⟩ := work_cases hwork
      cases hworker
  | accept | acceptError | exiting | exit => cases he

/-- **What the server does.** Whatever the order of the steps, the process comes to its end after so many
steps, and only the end stops it. `execute` never panics. At the end each of the connections that were
accepted has been sent its own answer, once, also when a later `accept` fails; or else one of their jobs has
panicked, and `main` panics with it. -/
theorem main_serves (h : Run (Step steps readToString conn) .start tr s) :
    tr.length ≤ steps 0 + steps 1 + 49 ∧
    ((∀ p, s.next steps readToString conn p = none) ↔ ∃ o, s.pc = .exited o) ∧
    .pool .executePanic ∉ tr ∧
    ∀ o, s.pc = .exited o → Ended readToString conn tr s o := by
  refine ⟨?_, ⟨fun hstuck => ?_, ?_⟩, executePanic_notMem h, fun o hpc => ended_of_exited h hpc⟩
  · have hle := length_add_remaining_le h
    rw [remaining_start] at hle
    exact Nat.le_trans (Nat.le_add_right _ _) hle
  · by_contra hrunning
    obtain ⟨p, r, hr⟩ := next_isSome h fun o ho => hrunning ⟨o, ho⟩
    rw [hstuck p] at hr
    cases hr
  · rintro ⟨o, hpc⟩ p
    exact next_eq_none hpc p

/-- Two connections, the second of which closes before it has sent a request. -/
def sampleConn (job : Nat) : Connection := ⟨upTo 1 Nat.one_pos, if job = 0 then get else [], true⟩

/-- Both connections are accepted, one job after the other runs, and the pool is dropped. -/
def sampleParties : List Party :=
  List.replicate 4 (.main true) ++ List.replicate 6 (.worker 0) ++ List.replicate 6 (.worker 1) ++
    List.replicate 8 (.main true) ++ (List.finRange 5).flatMap (fun id => List.replicate 4 (.worker id)) ++
    List.replicate 7 (.main true)

theorem main_serves_sample : ∃ tr s,
    Run (Step (fun _ => 1) samplePages sampleConn) .start tr s ∧ s.pc = .exited .returned ∧
      .pool .executePanic ∉ tr ∧ Ended samplePages sampleConn tr s .returned := by
  have hreplay : (replay (State.next (fun _ => 1) samplePages sampleConn) State.start sampleParties).map
      (fun r => r.1.pc) = some (.exited .returned) := by decide +kernel
  obtain ⟨⟨s, tr⟩, hreplayed, hpc⟩ := Option.map_eq_some_iff.mp hreplay
  have hrun : Run (Step (fun _ => 1) samplePages sampleConn) .start tr s :=
    Run.of_replay (fun _ p _ _ h => ⟨p, h⟩) hreplayed
  obtain ⟨-, -, hexecute, hend⟩ := main_serves hrun
  exact ⟨tr, s, hrun, hpc, hexecute, hend _ hpc⟩

/-! ### Side by side -/

theorem work_of_internal {p p' : Pool.State 5} {pe : Pool.Event 5}
    (h : Internal steps (panics readToString conn) p pe p') :
    ∃ id, p.work steps (panics readToString conn) id = some (p', pe) := by
  obtain ⟨⟨party, hparty⟩, hinternal⟩ := h
  cases party with
  | execute =>
      have howner := execute_cases hparty
      cases pe with
      | acquire | recv | release | start | exit => exact howner.elim
      | _ => cases hinternal
  | drop =>
      have howner := drop_cases hparty
      cases pe with
      | acquire | recv | release | start | exit => exact howner.elim
      | _ => cases hinternal
  | worker id => exact ⟨id, hparty⟩

/-- The workers take their steps while `main` stands where it is. -/
theorem run_of_internal (hrunning : ∀ o, s.pc ≠ .exited o) {tr' : List (Pool.Event 5)} {pool : Pool.State 5}
    (h : Run (Internal steps (panics readToString conn)) s.pool tr' pool) :
    Run (Step steps readToString conn) s (tr'.map .pool) ⟨pool, s.pc⟩ ∧ pool.accepted = s.pool.accepted := by
  induction h with
  | nil => exact ⟨.nil, rfl⟩
  | @snoc tr' pe p p' _ hlast ih =>
      obtain ⟨hrun, haccepted⟩ := ih
      obtain ⟨id, hwork⟩ := work_of_internal hlast
      obtain ⟨-, -, -, hsame, -⟩ := work_cases hwork
      have hstep : Step steps readToString conn ⟨p, s.pc⟩ (.pool pe) ⟨p', s.pc⟩ := by
        refine ⟨.worker id, ?_⟩
        rw [State.next, State.work]
        split
        · rename_i o hpc
          exact absurd hpc (hrunning o)
        · simp only [hwork]
          rfl
      rw [List.map_append, List.map_singleton]
      exact ⟨hrun.snoc hstep, hsame.trans haccepted⟩

/-- **No connection waits for another.** In every reachable state in which the process runs, a bounded number
of steps of the workers between their jobs starts the jobs of all the connections that `main` has handed to
the pool, without a step of a job, as of one that sleeps. -/
theorem main_parallel (h : Run (Step steps readToString conn) .start tr s) (hrunning : ∀ o, s.pc ≠ .exited o) :
    ∃ tr' t, Run (Step steps readToString conn) s (tr'.map .pool) t ∧ t.pc = s.pc ∧
      (∀ e ∈ tr', e.internal = true) ∧ tr'.length ≤ s.pool.overhead ∧
      ∀ job < s.pool.accepted, total (Pool.Event.starts job) (poolEvents tr ++ tr') = 1 := by
  obtain ⟨tr', pool, hinternal, hsettled⟩ : ∃ tr' pool,
      Run (Internal steps (panics readToString conn)) s.pool tr' pool ∧
        Settled steps (panics readToString conn) pool := exists_settled s.pool
  obtain ⟨hrun, haccepted⟩ := run_of_internal hrunning hinternal
  have hall := (pool_run h).append hinternal.of_restrict
  obtain ⟨k, H⟩ := coherent new_start hall
  have hstarted : ∀ job < pool.accepted, total (Pool.Event.starts job) (poolEvents tr ++ tr') = 1 := by
    refine (H.started_or_occupied new_start hall hsettled).resolve_right fun hoccupied => ?_
    have htwo := accepted_le (tracks h)
    obtain ⟨id, hid⟩ := exists_not_occupied new_start hall (by omega)
    rw [hoccupied id] at hid
    cases hid
  have hinner : ∀ e ∈ tr', e.internal = true :=
    hinternal.forall_mem fun _ _ _ _ _ hstep => hstep.2
  exact ⟨tr', _, hrun, rfl, hinner, length_le_overhead hinternal, haccepted ▸ hstarted⟩

/-- Two connections have been accepted, and no worker has taken a step yet. -/
theorem main_parallel_sample : ∃ tr s tr' t,
    Run (Step (fun _ => 100) samplePages sampleConn) .start tr s ∧ s.pool.accepted = 2 ∧
      Run (Step (fun _ => 100) samplePages sampleConn) s (tr'.map .pool) t ∧
      ∀ job < 2, total (Pool.Event.starts job) (poolEvents tr ++ tr') = 1 := by
  have hreplay : (replay (State.next (fun _ => 100) samplePages sampleConn) State.start
      (List.replicate 4 (.main true))).map (fun r => (r.1.pc, r.1.pool.accepted)) =
        some (.incoming 2, 2) := by decide +kernel
  obtain ⟨⟨s, tr⟩, hreplayed, heq⟩ := Option.map_eq_some_iff.mp hreplay
  obtain ⟨hpc, haccepted⟩ := Prod.mk.inj heq
  have hrun : Run (Step (fun _ => 100) samplePages sampleConn) .start tr s :=
    Run.of_replay (fun _ p _ _ h => ⟨p, h⟩) hreplayed
  obtain ⟨tr', t, hrun', -, -, -, hstarted⟩ := main_parallel hrun fun o ho => by
    rw [hpc] at ho
    cases ho
  exact ⟨tr, s, tr', t, hrun, haccepted, hrun', haccepted ▸ hstarted⟩

end SmallTrial.Web.Main
