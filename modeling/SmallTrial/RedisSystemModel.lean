import SmallTrial.RedisClientModel

/-! The programs of the `my_redis` crate together: any number of client processes, each with a connection to
the one server. What a client writes is read by the task of its connection in the same order, and so is what
that task writes. Every read and write, on either side, may fail; a connection on which a call has failed
answers no later call. -/

namespace SmallTrial.Redis

open Text Transition

/-- What the two sides of the `mini_redis` crate make of a command and of the response to it. -/
structure MiniRedis (F : Type*) where
  toFrame : Op → F
  fromFrame : F → Option Command
  decode : Op → Response → Option Reply
  fromFrame_toFrame : ∀ op, fromFrame (toFrame op) = some (.access op)
  decode_set : ∀ key value, decode (.set key value) (.simple "OK") = some .unit
  decode_bulk : ∀ key value, decode (.get key) (.bulk value) = some (.value (some value))
  decode_null : ∀ key, decode (.get key) .null = some (.value none)

/-- A command is its own frame. -/
def MiniRedis.direct : MiniRedis Op where
  toFrame op := op
  fromFrame op := some (.access op)
  decode
    | .set _ _, r => if r = .simple "OK" then some .unit else none
    | .get _, .bulk value => some (.value (some value))
    | .get _, .null => some (.value none)
    | .get _, .simple _ => none
  fromFrame_toFrame := fun _ => rfl
  decode_set := fun _ _ => if_pos rfl
  decode_bulk := fun _ _ => rfl
  decode_null := fun _ => rfl

structure System (κ ι F : Type*) where
  client : κ → Client ι
  server : State κ F
  -- what has been written and not read, on each connection
  toServer : κ → List F
  toClient : κ → List Response
  -- a call has failed on the connection
  broken : κ → Bool

inductive SystemEvent (κ ι : Type*) where
  | client (k : κ) (e : ClientEvent ι)
  | server (e : Event κ)
  deriving DecidableEq

/-- Who goes on, and what a `connect`, a read or a write returns. -/
inductive SystemChoice (κ ι : Type*) where
  | connect (k : κ) (ok : Bool)
  | task (k : κ) (i : ι)
  | main (k : κ)
  | manager (k : κ) (written : Bool)
  | receive (k : κ)
  | fail (k : κ)
  | accept (k : κ)
  | acceptError
  | readFrame (k : κ)
  | readEnd (k : κ)
  | readError (k : κ)
  | run (k : κ)
  | write (k : κ) (ok : Bool)

namespace System

variable {κ ι F : Type*} [DecidableEq κ] [DecidableEq ι] [Fintype ι]

/-- Each client process awaits its tasks in the order of `handles`. -/
def start (handles : List ι) : System κ ι F :=
  { client := fun _ => Client.start handles, server := State.start, toServer := fun _ => [],
    toClient := fun _ => [], broken := fun _ => false }

/-- A client moves. -/
def ofClient (s : System κ ι F) (k : κ) (x : Option (Client ι × ClientEvent ι)) :
    Option (System κ ι F × SystemEvent κ ι) :=
  x.map fun x => ({ s with client := Function.update s.client k x.1 }, .client k x.2)

/-- The server moves. -/
def ofServer (s : System κ ι F) (x : Option (State κ F × Event κ)) :
    Option (System κ ι F × SystemEvent κ ι) :=
  x.map fun x => ({ s with server := x.1 }, .server x.2)

/-- A step of the manager. A call writes its frame, unless the connection is broken or breaks. -/
def runManager (m : MiniRedis F) (command : κ → ι → Op) (s : System κ ι F) (k : κ) (written : Bool) :
    Option (System κ ι F × SystemEvent κ ι) :=
  match (s.client k).manager with
  | .calling i =>
      if s.broken k then s.ofClient k (s.client k).runManager
      else if written then
        ({ s with toServer := Function.update s.toServer k (s.toServer k ++ [m.toFrame (command k i)]) }).ofClient
          k (s.client k).runManager
      else ({ s with broken := Function.update s.broken k true }).ofClient k (s.client k).runManager
  | _ => s.ofClient k (s.client k).runManager

/-- The call of the manager reads a response and returns. -/
def receive (m : MiniRedis F) (command : κ → ι → Op) (s : System κ ι F) (k : κ) :
    Option (System κ ι F × SystemEvent κ ι) :=
  match s.broken k, s.toClient k, (s.client k).manager with
  | false, r :: rest, .awaiting i =>
      ({ s with toClient := Function.update s.toClient k rest }).ofClient k
        ((s.client k).reply (m.decode (command k i) r))
  | _, _, _ => none

/-- The call of the manager returns an error. -/
def fail (s : System κ ι F) (k : κ) : Option (System κ ι F × SystemEvent κ ι) :=
  ({ s with broken := Function.update s.broken k true }).ofClient k ((s.client k).reply none)

/-- The task of a connection reads a frame. -/
def readFrame (s : System κ ι F) (k : κ) : Option (System κ ι F × SystemEvent κ ι) :=
  match s.toServer k with
  | f :: rest => ({ s with toServer := Function.update s.toServer k rest }).ofServer (s.server.read k (.frame f))
  | [] => none

/-- The task of a connection writes its response. -/
def write (s : System κ ι F) (k : κ) (ok : Bool) : Option (System κ ι F × SystemEvent κ ι) :=
  match s.server.task k, ok with
  | .writing r, true =>
      ({ s with toClient := Function.update s.toClient k (s.toClient k ++ [r]) }).ofServer (s.server.write k true)
  | _, _ => s.ofServer (s.server.write k ok)

def next (m : MiniRedis F) (command : κ → ι → Op) (s : System κ ι F) :
    SystemChoice κ ι → Option (System κ ι F × SystemEvent κ ι)
  | .connect k ok => s.ofClient k ((s.client k).connect ok)
  | .task k i => s.ofClient k ((s.client k).runTask i)
  | .main k => s.ofClient k (s.client k).runMain
  | .manager k written => s.runManager m command k written
  | .receive k => s.receive m command k
  | .fail k => s.fail k
  | .accept k => s.ofServer (s.server.accept k)
  | .acceptError => s.ofServer (s.server.next m.fromFrame .acceptError)
  | .readFrame k => s.readFrame k
  | .readEnd k => s.ofServer (s.server.read k .done)
  | .readError k => s.ofServer (s.server.read k .error)
  | .run k => s.ofServer (s.server.run m.fromFrame k)
  | .write k ok => s.write k ok

def Step (m : MiniRedis F) (command : κ → ι → Op) (s : System κ ι F) (e : SystemEvent κ ι)
    (s' : System κ ι F) : Prop := ∃ x, s.next m command x = some (s', e)

end System

/-- What can be seen of the tasks: the commands that they send, and the results that they print. -/
def SystemEvent.observe {κ ι : Type*} (command : κ → ι → Op) :
    SystemEvent κ ι → Option ((κ × ι) × HistoryEvent Op Reply)
  | .client k (.send i) => some ((k, i), .invoke (command k i))
  | .client k (.got i (some (some reply))) => some ((k, i), .respond reply)
  | _ => none

/-- The map that the tasks use. -/
def Op.apply : Op → Db → Reply × Db
  | .set key value, db => (.unit, Function.update db key (some value))
  | .get key, db => (.value (db key), db)

/-- The server and the client together carry out a command on the map. -/
theorem MiniRedis.decode_run {F : Type*} (m : MiniRedis F) (op : Op) (db : Db) :
    m.decode op (op.run db).1 = some (op.apply db).1 ∧ (op.run db).2 = (op.apply db).2 := by
  cases op with
  | set key value => exact ⟨m.decode_set key value, rfl⟩
  | get key =>
      cases hvalue : db key with
      | none => simp [Op.run, Op.apply, hvalue, m.decode_null]
      | some value => simp [Op.run, Op.apply, hvalue, m.decode_bulk]

end SmallTrial.Redis
