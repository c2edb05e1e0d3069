import SmallTrial.TextBuffer
import SmallTrial.TransitionObject

/-! The server of the `my_redis` crate: the loop of `main` that accepts connections, and for each of them a
task that runs `process`. The tasks share a map under a mutex. A panic ends the task it happens in, and
poisons the mutex if that task holds it. `fromFrame` stands for `Command::from_frame` of the `mini_redis`
crate, and each result of `read_frame` and `write_frame` is a choice. -/

namespace SmallTrial.Redis

open Text Transition

/-- A command that the server carries out: `Set` or `Get`. -/
inductive Op where
  | set (key : String) (value : Bytes)
  | get (key : String)
  deriving DecidableEq

/-- `mini_redis::Command` -/
inductive Command where
  | access (op : Op)
  | other

/-- `Frame::Simple`, `Frame::Bulk` or `Frame::Null` -/
inductive Response where
  | simple (text : String)
  | bulk (value : Bytes)
  | null
  deriving DecidableEq

/-- The result of `read_frame`: `Ok(Some(frame))`, `Ok(None)` or an error. -/
inductive ReadFrame (F : Type*) where
  | frame (f : F)
  | done
  | error

abbrev Db := String → Option Bytes

/-- Where the task of a connection stands in `process`. -/
inductive Task (F : Type*) where
  -- the connection has not been accepted
  | absent
  -- at `connection.read_frame().await`
  | reading
  -- at `Command::from_frame(frame).unwrap()`
  | parsing (f : F)
  -- at `db.lock().unwrap()`
  | locking (op : Op)
  -- the guard is bound
  | locked (op : Op)
  -- the guard is about to be dropped
  | unlocking (response : Response)
  -- at `connection.write_frame(&response).await`
  | writing (response : Response)
  -- the loop was left
  | returned
  -- ended by a panic, maybe that of a response that could not be written
  | panicked (unsent : Option Response)

structure State (ι F : Type*) where
  task : ι → Task F
  db : Db
  -- the task that holds the mutex
  guard : Option ι
  poisoned : Bool
  -- `main` is in its loop
  accepting : Bool

inductive Event (ι : Type*) where
  | accept (c : ι)
  | acceptPanic
  | read (c : ι)
  | leave (c : ι)
  | command (c : ι) (op : Op)
  | lock (c : ι) (op : Op)
  | apply (c : ι) (op : Op) (response : Response)
  | unlock (c : ι)
  | write (c : ι) (response : Response)
  | writePanic (c : ι)
  -- a read error, or a command that is malformed or not supported
  | panic (c : ι)
  deriving DecidableEq

/-- `main` accepts a connection or fails to, a read or a write returns, or a task does its next step. -/
inductive Choice (ι F : Type*) where
  | accept (c : ι)
  | acceptError
  | read (c : ι) (result : ReadFrame F)
  | write (c : ι) (ok : Bool)
  | run (c : ι)

/-- `insert`, or `get`, with the response. -/
def Op.run : Op → Db → Response × Db
  | .set key value, db => (.simple "OK", Function.update db key (some value))
  | .get key, db =>
      match db key with
      | some value => (.bulk value, db)
      | none => (.null, db)

namespace State

variable {ι F : Type*} [DecidableEq ι]

/-- Nothing is accepted yet, and the map is empty. -/
def start : State ι F :=
  { task := fun _ => .absent, db := fun _ => none, guard := none, poisoned := false, accepting := true }

def goto (s : State ι F) (c : ι) (x : Task F) : State ι F :=
  { s with task := Function.update s.task c x }

/-- The task of a connection panics, and drops the guard if it holds it. -/
def panic (s : State ι F) (c : ι) (unsent : Option Response) : State ι F :=
  { s.goto c (.panicked unsent) with
    guard := if s.guard = some c then none else s.guard
    poisoned := s.poisoned || decide (s.guard = some c) }

/-- `main` accepts a connection and spawns its task. -/
def accept (s : State ι F) (c : ι) : Option (State ι F × Event ι) :=
  match s.accepting, s.task c with
  | true, .absent => some (s.goto c .reading, .accept c)
  | _, _ => none

/-- `connection.read_frame().await.unwrap()` -/
def read (s : State ι F) (c : ι) (result : ReadFrame F) : Option (State ι F × Event ι) :=
  match s.task c with
  | .reading =>
      match result with
      | .frame f => some (s.goto c (.parsing f), .read c)
      | .done => some (s.goto c .returned, .leave c)
      | .error => some (s.panic c none, .panic c)
  | _ => none

/-- A step of `process` between a read and a write. -/
def run (fromFrame : F → Option Command) (s : State ι F) (c : ι) : Option (State ι F × Event ι) :=
  match s.task c with
  | .parsing f =>
      match fromFrame f with
      | some (.access op) => some (s.goto c (.locking op), .command c op)
      | some .other | none => some (s.panic c none, .panic c)
  | .locking op =>
      match s.guard with
      | some _ => none
      | none =>
          if s.poisoned then some (s.panic c none, .panic c)
          else some ({ s.goto c (.locked op) with guard := some c }, .lock c op)
  | .locked op =>
      some ({ s.goto c (.unlocking (op.run s.db).1) with db := (op.run s.db).2 },
        .apply c op (op.run s.db).1)
  | .unlocking response => some ({ s.goto c (.writing response) with guard := none }, .unlock c)
  | _ => none

/-- `connection.write_frame(&response).await.unwrap()` -/
def write (s : State ι F) (c : ι) (ok : Bool) : Option (State ι F × Event ι) :=
  match s.task c with
  | .writing response =>
      if ok then some (s.goto c .reading, .write c response)
      else some (s.panic c (some response), .writePanic c)
  | _ => none

def next (fromFrame : F → Option Command) (s : State ι F) :
    Choice ι F → Option (State ι F × Event ι)
  | .accept c => s.accept c
  | .acceptError => if s.accepting then some ({ s with accepting := false }, .acceptPanic) else none
  | .read c result => s.read c result
  | .write c ok => s.write c ok
  | .run c => s.run fromFrame c

end State

variable {ι F : Type*} [DecidableEq ι]

def Step (fromFrame : F → Option Command) (s : State ι F) (e : Event ι) (s' : State ι F) : Prop :=
  ∃ x, s.next fromFrame x = some (s', e)

end SmallTrial.Redis
