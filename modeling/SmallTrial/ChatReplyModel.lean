import SmallTrial.TransitionRun

/-! The clients of the `CSocket` chat on one host. Each client process has a connection to the server, a
helper thread that moves replies from the connection to the System V message queue, and a main thread
that sends a request and then takes the first message of its type from the queue. The queue is one for
all processes: they all open the key `ftok("c", 12)`. Packets carry the client and the call they answer,
which the code does not look at. -/

namespace SmallTrial.Chat

open Transition

/-- `enum msgType` -/
inductive MsgType where
  | connect
  | disconnect
  | getTime
  | getName
  | getClientList
  | sendMsg
  | repost
  deriving DecidableEq

/-- The types a client waits for a reply to. -/
def MsgType.isRequest : MsgType → Bool
  | .getTime | .getName | .getClientList | .sendMsg => true
  | _ => false

namespace Reply

variable {ι : Type*}

/-- A `Message` from the server, with the call it answers; `dest` is `none` for a message left in the
queue by earlier processes. -/
structure Packet (ι : Type*) where
  type : MsgType
  dest : Option ι
  call : Nat
  deriving DecidableEq

/-- The main thread of a client. -/
inductive MainPc where
  | absent
  -- in the loop of the constructor
  | draining
  | menu
  -- in `msgrcv` of the call with this number
  | waiting (type : MsgType) (call : Nat)
  deriving DecidableEq

structure Client (ι : Type*) where
  main : MainPc
  connected : Bool
  toServer : List (MsgType × Nat)
  fromServer : List (Packet ι)
  -- what the helper has received and not passed on
  helper : Option (Packet ι)
  deriving DecidableEq

/-- A socket that is not connected holds nothing. -/
def Client.offline (main : MainPc) : Client ι := ⟨main, false, [], [], none⟩

structure State (ι : Type*) where
  client : ι → Client ι
  queue : List (Packet ι)
  calls : Nat

inductive Event (ι : Type*) where
  | start (c : ι)
  | drain (c : ι) (p : Packet ι)
  | ready (c : ι)
  | connect (c : ι)
  | disconnect (c : ι)
  | exit (c : ι)
  | request (c : ι) (type : MsgType) (call : Nat)
  | serve (c : ι) (type : MsgType) (call : Nat)
  | helperRecv (c : ι)
  | helperPrint (c : ι)
  | helperSend (c : ι) (p : Packet ι)
  | receive (c : ι) (call : Nat) (p : Packet ι)
  deriving DecidableEq

/-- What may happen next at a client; `serve` names the client a `SEND_MSG` is forwarded to. -/
inductive Action (ι : Type*) where
  | start
  | drain
  | connect
  | disconnect
  | exit
  | request (type : MsgType)
  | serve (target : Option ι)
  | helperRecv
  | helperSend
  | receive

/-- No process has been started; the queue may hold old messages. -/
def State.new (leftover : List (MsgType × Nat)) : State ι where
  client := fun _ => .offline .absent
  queue := leftover.map fun m => ⟨m.1, none, m.2⟩
  calls := 0

/-- `msgrcv(msgID, &msg, MAX_SIZE, type, 0)`: the first message of the type. -/
def msgrcv (type : MsgType) (queue : List (Packet ι)) : Option (Packet ι × List (Packet ι)) :=
  (queue.find? (·.type = type)).map fun p => (p, queue.eraseP (·.type = type))

namespace State

variable [DecidableEq ι]

def set (s : State ι) (c : ι) (client : Client ι) : State ι :=
  { s with client := Function.update s.client c client }

/-- The server passes the content of a `SEND_MSG` on to the target, if it is connected. -/
def repost (s : State ι) (type : MsgType) (call : Nat) : Option ι → State ι
  | some d =>
      if type = .sendMsg ∧ (s.client d).connected then
        s.set d { s.client d with
          fromServer := (s.client d).fromServer ++ [⟨.repost, some d, call⟩] }
      else s
  | none => s

def next (s : State ι) : ι × Action ι → Option (State ι × Event ι)
  | (c, .start) =>
      match (s.client c).main with
      | .absent => some (s.set c (.offline .draining), .start c)
      | _ => none
  | (c, .drain) =>
      match (s.client c).main, s.queue with
      | .draining, p :: queue => some ({ s with queue }, .drain c p)
      | .draining, [] => some (s.set c { s.client c with main := .menu }, .ready c)
      | _, _ => none
  | (c, .connect) =>
      match (s.client c).main, (s.client c).connected with
      | .menu, false => some (s.set c { s.client c with connected := true }, .connect c)
      | _, _ => none
  | (c, .disconnect) =>
      match (s.client c).main, (s.client c).connected with
      | .menu, true => some (s.set c (.offline .menu), .disconnect c)
      | _, _ => none
  | (c, .exit) =>
      match (s.client c).main with
      | .menu => some (s.set c (.offline .absent), .exit c)
      | _ => none
  | (c, .request type) =>
      match (s.client c).main, (s.client c).connected, type.isRequest with
      | .menu, true, true =>
          some ({ s with calls := s.calls + 1 }.set c { s.client c with
              main := .waiting type s.calls
              toServer := (s.client c).toServer ++ [(type, s.calls)] },
            .request c type s.calls)
      | _, _, _ => none
  | (c, .serve target) =>
      match (s.client c).toServer with
      | (type, call) :: rest =>
          let s := s.repost type call target
          some (s.set c { s.client c with
              toServer := rest
              fromServer := (s.client c).fromServer ++ [⟨type, some c, call⟩] },
            .serve c type call)
      | [] => none
  | (c, .helperRecv) =>
      match (s.client c).fromServer, (s.client c).helper with
      | p :: rest, none =>
          some (s.set c { s.client c with fromServer := rest, helper := some p }, .helperRecv c)
      | _, _ => none
  | (c, .helperSend) =>
      match (s.client c).helper with
      | some p =>
          if p.type = .repost then
            some (s.set c { s.client c with helper := none }, .helperPrint c)
          else
            some ({ s with queue := s.queue ++ [p] }.set c { s.client c with helper := none },
              .helperSend c p)
      | none => none
  | (c, .receive) =>
      match (s.client c).main with
      | .waiting type call =>
          (msgrcv type s.queue).map fun r =>
            ({ s with queue := r.2 }.set c { s.client c with main := .menu }, .receive c call r.1)
      | _ => none

end State

/-- Any client, helper or connection may take the next step. -/
def Step [DecidableEq ι] (s : State ι) (e : Event ι) (s' : State ι) : Prop :=
  ∃ k, s.next k = some (s', e)

end Reply

end SmallTrial.Chat
