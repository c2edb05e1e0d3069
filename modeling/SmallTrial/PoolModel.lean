import SmallTrial.TransitionRun

/-! `ThreadPool` of the `WebServerDemoInRust` crate: the thread that owns the pool, the workers, the
mutex around the receiver and the channel between them. The owner calls `execute` any number of times
and then drops the pool. Job `j` is the closure of the call that put message `j` into the channel; it
takes `steps j` steps and then ends, or panics if `panics j`. A panic ends the thread it happens in,
and poisons the mutex if that thread holds it. -/

namespace SmallTrial.Pool

open Transition

inductive Message where
  | newJob (job : Nat)
  | terminate
  deriving DecidableEq

/-- Where the thread of a worker stands in its loop. -/
inductive WorkerPc where
  -- at `receiver.lock()`
  | lock
  -- at `.recv()`, holding the mutex
  | recv
  -- `message` is bound and the guard is about to be dropped
  | release (m : Message)
  -- at `match message`
  | got (m : Message)
  -- inside `job()`, with `left` steps to go
  | run (job left : Nat)
  -- the loop was left by `break`
  | exited
  | panicked
  deriving DecidableEq

/-- Where the owner stands: before the drop, in the loop that sends `k` terminate messages, in the loop
that joins the workers, after `drop`, or unwinding from a panic in it. -/
inductive Phase where
  | serving
  | sending (k : Nat)
  | joining (id : Nat)
  | returned
  | panicked
  deriving DecidableEq

structure State (size : Nat) where
  worker : Fin size → WorkerPc
  channel : List Message
  -- the worker that holds the mutex around the receiver
  guard : Option (Fin size)
  poisoned : Bool
  -- the number of jobs `execute` has sent
  accepted : Nat
  phase : Phase

inductive Event (size : Nat) where
  | execute (job : Nat)
  | executePanic
  | dropStart
  | sendTerminate
  | joinStart
  | join (id : Fin size)
  | dropReturn
  | dropPanic
  | acquire (id : Fin size)
  | recv (id : Fin size) (m : Message)
  | release (id : Fin size)
  | start (id : Fin size) (job : Nat)
  | jobStep (id : Fin size) (job : Nat)
  | finish (id : Fin size) (job : Nat)
  | jobPanic (id : Fin size) (job : Nat)
  | exit (id : Fin size)
  | lockPanic (id : Fin size)
  | recvPanic (id : Fin size)
  deriving DecidableEq

variable {size : Nat}

/-- `ThreadPool::new`: the workers are at the start of their loops. -/
def ThreadPool.new (size : Nat) : Option (State size) :=
  if size > 0 then
    some { worker := fun _ => .lock, channel := [], guard := none, poisoned := false, accepted := 0,
           phase := .serving }
  else none

/-- The thread has ended, and with it its handle of the receiver. -/
def WorkerPc.ended : WorkerPc → Bool
  | .exited | .panicked => true
  | _ => false

namespace State

/-- The receiver is gone, so `send` returns an error. -/
def disconnected (s : State size) : Prop := ∀ id, (s.worker id).ended = true

instance (s : State size) : Decidable s.disconnected := inferInstanceAs (Decidable (∀ _, _))

/-- The sender is gone, so `recv` on an empty channel returns an error. -/
def senderGone (s : State size) : Bool := s.phase = .returned ∨ s.phase = .panicked

def setWorker (s : State size) (id : Fin size) (pc : WorkerPc) : State size :=
  { s with worker := Function.update s.worker id pc }

/-- `execute`: `self.sender.send(Message::NewJob(job)).unwrap()` -/
def execute (s : State size) : Option (State size × Event size) :=
  match s.phase with
  | .serving =>
      if s.disconnected then some (s, .executePanic)
      else some ({ s with channel := s.channel ++ [.newJob s.accepted], accepted := s.accepted + 1 },
        .execute s.accepted)
  | _ => none

/-- The next step of `drop`. -/
def drop (s : State size) : Option (State size × Event size) :=
  match s.phase with
  | .serving => some ({ s with phase := .sending 0 }, .dropStart)
  | .sending k =>
      if k < size then
        if s.disconnected then some ({ s with phase := .panicked }, .dropPanic)
        else some ({ s with channel := s.channel ++ [.terminate], phase := .sending (k + 1) },
          .sendTerminate)
      else some ({ s with phase := .joining 0 }, .joinStart)
  | .joining id =>
      if h : id < size then
        match s.worker ⟨id, h⟩ with
        | .exited => some ({ s with phase := .joining (id + 1) }, .join ⟨id, h⟩)
        | .panicked => some ({ s with phase := .panicked }, .dropPanic)
        | _ => none
      else some ({ s with phase := .returned }, .dropReturn)
  | .returned | .panicked => none

/-- The next step of a worker. -/
def work (steps : Nat → Nat) (panics : Nat → Bool) (s : State size) (id : Fin size) :
    Option (State size × Event size) :=
  match s.worker id with
  | .lock =>
      match s.guard with
      | some _ => none
      | none =>
          if s.poisoned then some (s.setWorker id .panicked, .lockPanic id)
          else some ({ s with guard := some id }.setWorker id .recv, .acquire id)
  | .recv =>
      match s.channel with
      | m :: rest => some ({ s with channel := rest }.setWorker id (.release m), .recv id m)
      | [] =>
          if s.senderGone then
            some ({ s with guard := none, poisoned := true }.setWorker id .panicked, .recvPanic id)
          else none
  | .release m => some ({ s with guard := none }.setWorker id (.got m), .release id)
  | .got (.newJob job) => some (s.setWorker id (.run job (steps job)), .start id job)
  | .got .terminate => some (s.setWorker id .exited, .exit id)
  | .run job (left + 1) => some (s.setWorker id (.run job left), .jobStep id job)
  | .run job 0 =>
      if panics job then some (s.setWorker id .panicked, .jobPanic id job)
      else some (s.setWorker id .lock, .finish id job)
  | .exited | .panicked => none

end State

/-- Who takes the next step. -/
inductive Party (size : Nat) where
  | execute
  | drop
  | worker (id : Fin size)

variable (steps : Nat → Nat) (panics : Nat → Bool)

def State.next (s : State size) : Party size → Option (State size × Event size)
  | .execute => s.execute
  | .drop => s.drop
  | .worker id => s.work steps panics id

/-- Any party may take the next step. -/
def Step (s : State size) (e : Event size) (s' : State size) : Prop :=
  ∃ p, s.next steps panics p = some (s', e)

end SmallTrial.Pool
