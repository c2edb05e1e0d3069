import SmallTrial.ChatReplyModel
import SmallTrial.TextBuffer

/-! The `CSocket` server: the list of clients, one handler for each accepted connection, and what a
handler does with a message while it holds the mutex. A connection has a number of its own, because the
system gives the descriptor of a closed one to a later one. `accept`, `push_back`, `pthread_create` and the
read with which the new thread gets its descriptor are one step, so that each handler starts with its own.
Sends succeed, so that no `SIGPIPE` ends the server, and what is printed is left out. -/

namespace SmallTrial.Chat.Server

open Transition Text

/-! ### Messages -/

/-- The values of `enum msgType` -/
def MsgType.ofLong : Int → Option MsgType
  | 1 => some .connect
  | 2 => some .disconnect
  | 3 => some .getTime
  | 4 => some .getName
  | 5 => some .getClientList
  | 6 => some .sendMsg
  | 7 => some .repost
  | _ => none

/-- `MAX_SIZE - 2` -/
abbrev dataSize : Nat := 254

/-- `sizeof(Message)`, with two bytes of padding at the end. -/
abbrev messageSize : Nat := 264

/-- A `Message` in the memory of the server. -/
abbrev MesRec := Buffer messageSize

/-- The field `long type`: eight bytes, the lowest first. -/
def MesRec.long (mes : MesRec) : Int :=
  (BitVec.ofNat 64 ((mes.bytes.take 8).foldr (fun b v => b.toNat + 256 * v) 0)).toInt

def MesRec.type (mes : MesRec) : Option MsgType := MsgType.ofLong mes.long

def MesRec.data (mes : MesRec) : Buffer dataSize :=
  ⟨(mes.bytes.drop 8).take dataSize, by
    rw [List.length_take, List.length_drop, mes.length_eq]
    rfl⟩

/-- A `Message` the server sends. -/
structure Message where
  type : MsgType
  data : Buffer dataSize
  deriving DecidableEq

/-! ### The cases of the switch -/

/-- `struct sock_addr_port` -/
structure Entry where
  sock : Nat
  addr : Bytes
  port : Int
  deriving DecidableEq

/-- What a handler finds outside the server, and the bytes its uninitialised variables `mes` and
`mes_fwd` hold. -/
structure Env where
  time : BitVec 64
  hostname : Bytes
  mes : Buffer dataSize
  mesFwd : Buffer dataSize
  -- `HOST_NAME_MAX`
  hostname_le : hostname.length ≤ 64

/-- What a case does: the new list, the messages sent and their descriptors, and whether it ends with
`close(conn_fd)` and `flag = 1`. -/
structure Effect where
  clients : List Entry
  sends : List (Nat × Message)
  closes : Bool
  deriving DecidableEq

/-- `case DISCONNECT` -/
def disconnect (clients : List Entry) (connFd : Nat) : Effect where
  clients := match clients.findIdx? (·.sock = connFd) with
    | some i => clients.eraseIdx i
    | none => clients
  sends := []
  closes := true

/-- Sends one message back. -/
def reply (clients : List Entry) (connFd : Nat) (type : MsgType) (data : Buffer dataSize) : Effect :=
  ⟨clients, [(connFd, ⟨type, data⟩)], false⟩

/-- `case GET_TIME` -/
def getTime (clients : List Entry) (connFd : Nat) (env : Env) : Option Effect := do
  let data ← env.mes.strcpy (decimal env.time.toInt)
  return reply clients connFd .getTime data

/-- `case GET_NAME` -/
def getName (clients : List Entry) (connFd : Nat) (env : Env) : Option Effect := do
  let data ← env.mes.strcpy env.hostname
  return reply clients connFd .getName data

/-- The line of an entry in the client list. -/
def Entry.line (e : Entry) : Bytes :=
  ascii "handler " ++ decimal e.sock ++ ascii " ip:host " ++ e.addr ++ ascii ":" ++ decimal e.port

/-- The loop of `GET_CLIENT_LIST`: each line goes to `mes.data + strlen(mes.data)`, without a
terminator. -/
def appendLines : List Entry → Buffer dataSize → Option (Buffer dataSize)
  | [], data => some data
  | e :: es, data => do
      let tmp ← (Buffer.zero 256).strcpy e.line
      let i ← data.strlen
      let data ← data.write i (tmp.bytes.take e.line.length)
      appendLines es data

/-- `case GET_CLIENT_LIST` -/
def getClientList (clients : List Entry) (connFd : Nat) (env : Env) : Option Effect := do
  let data ← appendLines clients env.mes
  return reply clients connFd .getClientList data

/-- Splits `ip:port:content`; undefined if `stoi` throws. -/
def parse (data : Bytes) : Option (Bytes × Int × Bytes) := do
  let ip := before 58 data
  let data := after 58 data
  let port ← stoi (before 58 data)
  return (ip, port, after 58 data)

/-- The entry is for this address and port. -/
def Entry.isAt (e : Entry) (ip : Bytes) (port : Int) : Bool :=
  decide (e.addr = ip) && decide (e.port = port)

theorem Entry.isAt_iff {e : Entry} {ip : Bytes} {port : Int} :
    e.isAt ip port ↔ e.addr = ip ∧ e.port = port := by
  rw [Entry.isAt, Bool.and_eq_true, decide_eq_true_eq, decide_eq_true_eq]

/-- `case SEND_MSG` -/
def sendMsg (clients : List Entry) (connFd : Nat) (data : Buffer dataSize) (env : Env) :
    Option Effect := do
  let (ip, port, content) ← parse (← data.string)
  match clients.findIdx? (·.isAt ip port) with
  | none =>
      let mes ← env.mes.strcpy (ascii "no such client")
      return reply clients connFd .sendMsg mes
  | some target =>
      let mes ← env.mes.strcpy (ascii "forward success")
      let fwd ← env.mesFwd.strcpy content
      let e ← clients[target]?
      return ⟨clients, [(e.sock, ⟨.repost, fwd⟩), (connFd, ⟨.sendMsg, mes⟩)], false⟩

/-- `switch (mes_rec.type)`. There is no result if the handler throws an exception or reads or writes
outside a buffer. -/
def dispatch (clients : List Entry) (connFd : Nat) (mesRec : MesRec) (env : Env) : Option Effect :=
  match mesRec.type with
  | some .disconnect => some (disconnect clients connFd)
  | some .getTime => getTime clients connFd env
  | some .getName => getName clients connFd env
  | some .getClientList => getClientList clients connFd env
  | some .sendMsg => sendMsg clients connFd mesRec.data env
  | _ => some ⟨clients, [], false⟩

/-! ### Runs of the server -/

inductive HandlerPc where
  -- in `recv`
  | receiving
  -- between `mtx.lock()` and `mtx.unlock()`
  | dispatching
  -- out of the loop
  | finished
  deriving DecidableEq

structure Handler where
  connFd : Nat
  mesRec : MesRec
  pc : HandlerPc

inductive Peer where
  | present
  -- the peer has closed the connection or crashed
  | gone
  -- `recv` has returned 0
  | ended
  deriving DecidableEq

structure State where
  clients : List Entry
  handler : Nat → Option Handler
  -- the connection an open descriptor stands for
  files : Nat → Option Nat
  peer : Nat → Peer
  -- the messages sent on each connection
  sent : Nat → List Message
  -- an exception or undefined behaviour has ended the server
  aborted : Bool

def State.new : State where
  clients := []
  handler := fun _ => none
  files := fun _ => none
  peer := fun _ => .present
  sent := fun _ => []
  aborted := false

inductive Event where
  | register (c : Nat) (e : Entry)
  | leave (c : Nat)
  | recv (c : Nat) (result : Option Bytes)
  | dispatch (c : Nat) (env : Env) (type : Option MsgType) (sends : List (Nat × Message))
  | abort (c : Nat) (env : Env)

/-- Messages arrive on the connections their descriptors stand for. -/
def deliver (files : Nat → Option Nat) (sends : List (Nat × Message)) (c : Nat) : List Message :=
  (sends.filter fun p => files p.1 = some c).map Prod.snd

def State.setHandler (s : State) (c : Nat) (h : Handler) : State :=
  { s with handler := Function.update s.handler c (some h) }

/-- `main` accepts connection `c`; its handler starts with any bytes in `mes_rec`. -/
def State.register (s : State) (c : Nat) (e : Entry) (mesRec : MesRec) : State :=
  { s.setHandler c ⟨e.sock, mesRec, .receiving⟩ with
    clients := s.clients ++ [e]
    files := Function.update s.files e.sock (some c) }

/-- The end of a dispatch: `mes_rec` is cleared. -/
def State.served (s : State) (c : Nat) (h : Handler) (effect : Effect) : State :=
  { s.setHandler c ⟨h.connFd, .zero messageSize, if effect.closes then .finished else .receiving⟩ with
    clients := effect.clients
    files := if effect.closes then Function.update s.files h.connFd none else s.files
    sent := fun c => s.sent c ++ deliver s.files effect.sends c }

/-- A step of `main`, of a peer, or of the handler of connection `c`. What a handler does while it holds
the mutex is one step. -/
inductive Step (s : State) : Event → State → Prop where
  /-- `accept` returns a descriptor that is not open. -/
  | register {c : Nat} {e : Entry} {mesRec : MesRec} : s.aborted = false → s.handler c = none →
      s.files e.sock = none → Step s (.register c e) (s.register c e mesRec)
  | leave {c : Nat} {h : Handler} : s.aborted = false → s.handler c = some h →
      s.peer c = .present → Step s (.leave c) { s with peer := Function.update s.peer c .gone }
  /-- `recv` fails, and the loop continues. -/
  | recvError {c : Nat} {h : Handler} : s.aborted = false → s.handler c = some h →
      h.pc = .receiving → Step s (.recv c none) s
  /-- `recv` returns 0, which leaves `mes_rec` as it is. -/
  | recvEnd {c : Nat} {h : Handler} : s.aborted = false → s.handler c = some h →
      h.pc = .receiving → s.peer c ≠ .present →
      Step s (.recv c (some []))
        { s.setHandler c { h with pc := .dispatching } with peer := Function.update s.peer c .ended }
  /-- `recv` stores the bytes of a message or of a part of one. -/
  | recvBytes {c : Nat} {h : Handler} {bytes : Bytes} {mesRec : MesRec} : s.aborted = false →
      s.handler c = some h → h.pc = .receiving → s.peer c ≠ .ended → bytes ≠ [] →
      h.mesRec.write 0 bytes = some mesRec →
      Step s (.recv c (some bytes)) (s.setHandler c ⟨h.connFd, mesRec, .dispatching⟩)
  | dispatch {c : Nat} {h : Handler} {env : Env} {effect : Effect} : s.aborted = false →
      s.handler c = some h → h.pc = .dispatching →
      dispatch s.clients h.connFd h.mesRec env = some effect →
      Step s (.dispatch c env h.mesRec.type effect.sends) (s.served c h effect)
  | abort {c : Nat} {h : Handler} {env : Env} : s.aborted = false → s.handler c = some h →
      h.pc = .dispatching → dispatch s.clients h.connFd h.mesRec env = none →
      Step s (.abort c env) { s with aborted := true }

end SmallTrial.Chat.Server
