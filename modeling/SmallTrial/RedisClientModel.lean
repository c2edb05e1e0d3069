import Mathlib.Data.Fintype.Basic
import SmallTrial.RedisModel

/-! The client of the `my_redis` crate: each task of `main` sends a command through a channel to the manager
task, which owns the connection, and awaits the result in a `oneshot` channel of its own. What `connect`,
`get` and `set` of the `mini_redis` crate return is a choice. When `main` has panicked the tasks are dropped:
the model lets them go on, or not. -/

namespace SmallTrial.Redis

open Text Transition

/-- The value in the `Ok` of `client.get` or `client.set` -/
inductive Reply where
  | value (v : Option Bytes)
  | unit
  deriving DecidableEq

/-- The `oneshot` channel of a task; `none` is the `Err` of a call. -/
inductive Oneshot where
  | empty
  | sent (res : Option Reply)
  -- the sender was dropped
  | closed
  deriving DecidableEq

/-- Where a task `t1`, `t2` stands. -/
inductive Requester where
  -- at `tx.send(cmd).await.unwrap()`
  | sending
  -- at `resp_rx.await`
  | waiting
  -- it has printed `Ok(res)`, or `Err(RecvError)`
  | ended (got : Option (Option Reply))
  | panicked
  deriving DecidableEq

/-- Where the manager task stands. -/
inductive Manager (ι : Type*) where
  -- at `client::connect(..).await.unwrap()`
  | connecting
  -- at `rx.recv().await`
  | receiving
  -- at the call of `client.get` or `client.set`
  | calling (i : ι)
  -- at its `.await`
  | awaiting (i : ι)
  -- at `resp.send(res)`
  | responding (i : ι) (res : Option Reply)
  | returned
  | panicked
  deriving DecidableEq

/-- Where `main` stands: at the `.await` of the first of the tasks, or of the manager if there is none. -/
inductive Main (ι : Type*) where
  | joining (handles : List ι)
  | returned
  | panicked
  deriving DecidableEq

structure Client (ι : Type*) where
  task : ι → Requester
  oneshot : ι → Oneshot
  -- the commands sent and not received, by their tasks
  channel : List ι
  manager : Manager ι
  main : Main ι

inductive ClientEvent (ι : Type*) where
  | connect
  | connectPanic
  | send (i : ι)
  | sendPanic (i : ι)
  | recv (i : ι)
  | recvNone
  | call (i : ι)
  | reply (i : ι) (res : Option Reply)
  | resp (i : ι) (res : Option Reply)
  | got (i : ι) (got : Option (Option Reply))
  | join (i : ι)
  | joinManager
  | joinPanic
  deriving DecidableEq

/-- `connect` or a call returns, or a task does its next step. -/
inductive ClientChoice (ι : Type*) where
  | connect (ok : Bool)
  | reply (res : Option Reply)
  | task (i : ι)
  | manager
  | main

/-- A task drops its `tx` when it ends. -/
def Requester.ends : Requester → Bool
  | .ended _ | .panicked => true
  | .sending | .waiting => false

/-- The manager drops `rx` when it ends. -/
def Manager.ends {ι : Type*} : Manager ι → Bool
  | .returned | .panicked => true
  | _ => false

/-- `mpsc::channel(32)` -/
def capacity : Nat := 32

namespace Client

variable {ι : Type*} [DecidableEq ι]

/-- `main` has spawned the tasks; it awaits their `handles` in this order. -/
def start (handles : List ι) : Client ι :=
  { task := fun _ => .sending, oneshot := fun _ => .empty, channel := [], manager := .connecting,
    main := .joining handles }

def goto (s : Client ι) (i : ι) (x : Requester) : Client ι := { s with task := Function.update s.task i x }

@[simp, grind =] theorem goto_task (s : Client ι) (i j : ι) (x : Requester) :
    (s.goto i x).task j = if j = i then x else s.task j := Function.update_apply ..

@[simp, grind =] theorem goto_oneshot (s : Client ι) (i j : ι) (x : Requester) :
    (s.goto i x).oneshot j = s.oneshot j := rfl

@[simp, grind =] theorem goto_channel (s : Client ι) (i : ι) (x : Requester) :
    (s.goto i x).channel = s.channel := rfl

@[simp, grind =] theorem goto_manager (s : Client ι) (i : ι) (x : Requester) :
    (s.goto i x).manager = s.manager := rfl

@[simp, grind =] theorem goto_main (s : Client ι) (i : ι) (x : Requester) : (s.goto i x).main = s.main := rfl

/-- The manager panics; with `rx` the commands in the channel are dropped, and with them the senders of their
`oneshot` channels. -/
def panic (s : Client ι) : Client ι :=
  { s with
    manager := .panicked
    channel := []
    oneshot := fun i => if i ∈ s.channel then .closed else s.oneshot i }

def connect (s : Client ι) (ok : Bool) : Option (Client ι × ClientEvent ι) :=
  match s.manager with
  | .connecting => if ok then some ({ s with manager := .receiving }, .connect) else some (s.panic, .connectPanic)
  | _ => none

/-- The `.await` of the call returns. -/
def reply (s : Client ι) (res : Option Reply) : Option (Client ι × ClientEvent ι) :=
  match s.manager with
  | .awaiting i => some ({ s with manager := .responding i res }, .reply i res)
  | _ => none

def runTask (s : Client ι) (i : ι) : Option (Client ι × ClientEvent ι) :=
  match s.task i with
  | .sending =>
      if s.manager.ends then some (s.goto i .panicked, .sendPanic i)
      else if s.channel.length < capacity then
        some ({ s.goto i .waiting with channel := s.channel ++ [i] }, .send i)
      else none
  | .waiting =>
      match s.oneshot i with
      | .empty => none
      | .sent res => some (s.goto i (.ended (some res)), .got i (some res))
      | .closed => some (s.goto i (.ended none), .got i none)
  | .ended _ | .panicked => none

def runManager [Fintype ι] (s : Client ι) : Option (Client ι × ClientEvent ι) :=
  match s.manager with
  | .receiving =>
      match s.channel with
      | i :: rest => some ({ s with manager := .calling i, channel := rest }, .recv i)
      | [] => if ∀ i, (s.task i).ends then some ({ s with manager := .returned }, .recvNone) else none
  | .calling i => some ({ s with manager := .awaiting i }, .call i)
  | .responding i res =>
      some ({ s with manager := .receiving, oneshot := Function.update s.oneshot i (.sent res) }, .resp i res)
  | .connecting | .awaiting _ | .returned | .panicked => none

def runMain (s : Client ι) : Option (Client ι × ClientEvent ι) :=
  match s.main with
  | .joining (i :: handles) =>
      match s.task i with
      | .ended _ => some ({ s with main := .joining handles }, .join i)
      | .panicked => some ({ s with main := .panicked }, .joinPanic)
      | .sending | .waiting => none
  | .joining [] =>
      match s.manager with
      | .returned => some ({ s with main := .returned }, .joinManager)
      | .panicked => some ({ s with main := .panicked }, .joinPanic)
      | _ => none
  | .returned | .panicked => none

def next [Fintype ι] (s : Client ι) : ClientChoice ι → Option (Client ι × ClientEvent ι)
  | .connect ok => s.connect ok
  | .reply res => s.reply res
  | .task i => s.runTask i
  | .manager => s.runManager
  | .main => s.runMain

def Step [Fintype ι] (s : Client ι) (e : ClientEvent ι) (s' : Client ι) : Prop :=
  ∃ x, s.next x = some (s', e)

end Client

end SmallTrial.Redis
