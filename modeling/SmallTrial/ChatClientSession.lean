import SmallTrial.ChatRequestDecoding

/-! The session of a client: `Client::run` carries out one operation of the menu after another, and each of
them tests `sockfd` only. The main thread alone changes the session, so an operation is one step. What the
system calls return is part of the step. -/

namespace SmallTrial.Chat.Client

open Transition
open Server (Request DataText DisconnectLast)

/-! ### The client -/

/-- A thread that runs `helper_thread`, and what `sockfd` was when it was created. -/
structure Helper where
  fd : Int
  cancelled : Bool
  deriving DecidableEq

structure Session where
  sockfd : Int
  -- the helper that `thread` stands for, if `pthread_create` has set it
  thread : Option Nat
  -- the open sockets, and whether `connect` has succeeded on them
  files : Int → Option Bool
  -- in the order of their creation
  helpers : List Helper
  exited : Bool

/-- `Client::Client` -/
def Session.new : Session where
  sockfd := -1
  thread := none
  files := fun _ => none
  helpers := []
  exited := false

/-- What the system calls of an operation return, and what the user enters for `sendToOtherClient` as
`ip:port:content`. -/
structure Answers where
  socket : Int
  connect : Int
  pthreadCreate : Int
  send : Int
  msgrcv : Int
  text : DataText

/-- The start of a line that an operation prints. -/
inductive Report where
  | error (text : String)
  | info (text : String)
  deriving DecidableEq

/-- What an operation does: the session after it, what it prints, and what it sends on which descriptor. -/
structure Result where
  session : Session
  reports : List Report
  sends : List (Int × Request)

/-! ### System calls -/

/-- `sockfd = socket(AF_INET, SOCK_STREAM, 0)` -/
def Session.socket (s : Session) (fd : Int) : Session :=
  { s with
    sockfd := fd
    files := if fd < 0 then s.files else Function.update s.files fd (some false) }

/-- `connect(sockfd, ..)` succeeds. -/
def Session.connect (s : Session) : Session :=
  { s with files := Function.update s.files s.sockfd (some true) }

/-- `pthread_create(&thread, NULL, helper_thread, &sockfd)` succeeds. -/
def Session.createThread (s : Session) : Session :=
  { s with
    helpers := s.helpers ++ [⟨s.sockfd, false⟩]
    thread := some s.helpers.length }

/-- `pthread_cancel(thread)`, undefined if `pthread_create` has not set `thread`. -/
def Session.cancelThread (s : Session) : Option Session :=
  s.thread.map fun i => { s with helpers := s.helpers.modify i fun h => { h with cancelled := true } }

/-- `close(sockfd)`, and `sockfd = -1` -/
def Session.close (s : Session) : Session :=
  { s with
    sockfd := -1
    files := Function.update s.files s.sockfd none }

/-! ### The operations -/

def connectServer (s : Session) (a : Answers) : Result :=
  if s.sockfd ≠ -1 then ⟨s, [.error "Reconnected!"], []⟩
  else
    let s := s.socket a.socket
    if a.socket < 0 then ⟨s, [.error "Create socket fail, error: "], []⟩
    else if a.connect < 0 then ⟨s, [.error "Connect fail, error: "], []⟩
    else
      let s := s.connect
      -- a failure is reported, but not returned
      if a.pthreadCreate ≠ 0 then
        ⟨{ s with thread := none }, [.error "Create thread fails!", .info "Connected!"], []⟩
      else ⟨s.createThread, [.info "Connected!"], []⟩

def disconnectServer (s : Session) (a : Answers) : Option Result :=
  if s.sockfd = -1 then some ⟨s, [.error "No connect detected!"], []⟩
  else do
    let failed := if a.send < 0 then [.error "Disconnect send fail, error: "] else []
    let cancelled ← s.cancelThread
    return ⟨cancelled.close, failed ++ [.info "Connection closed!"], [(s.sockfd, .byte .disconnect)]⟩

/-- Sends a request and waits for its reply. -/
def request (name shown : String) (r : Request) (s : Session) (a : Answers) : Result :=
  if s.sockfd = -1 then ⟨s, [.error "No connection detected!"], []⟩
  else if a.send < 0 then ⟨s, [.error (name ++ " send fail, error: ")], [(s.sockfd, r)]⟩
  else if a.msgrcv < 0 then ⟨s, [.error (name ++ " recv fail, error: ")], [(s.sockfd, r)]⟩
  else ⟨s, [.info shown], [(s.sockfd, r)]⟩

def getServerTime : Session → Answers → Result :=
  request "getServerTime" "Time: " (.byte .getTime)

def getServerName : Session → Answers → Result :=
  request "getServerName" "Server Name: " (.byte .getName)

def getClientList : Session → Answers → Result :=
  request "getClientList" "Client list: " (.byte .getClientList)

def sendToOtherClient (s : Session) (a : Answers) : Result :=
  request "sendToOtherClient" "Server Response: " (.message a.text) s a

/-- `done`, which ends the process. -/
def done (s : Session) : Result :=
  if s.sockfd ≠ -1 then ⟨{ s.close with exited := true }, [], [(s.sockfd, .byte .disconnect)]⟩
  else ⟨{ s with exited := true }, [], []⟩

/-- The `switch` of `Client::run` -/
def operate (op : Int) (s : Session) (a : Answers) : Option Result :=
  match op with
  | 1 => some (connectServer s a)
  | 2 => disconnectServer s a
  | 3 => some (getServerTime s a)
  | 4 => some (getServerName s a)
  | 5 => some (getClientList s a)
  | 6 => some (sendToOtherClient s a)
  | 7 => some (done s)
  | _ => some ⟨s, [.error "Invalid Op!"], []⟩

structure Event where
  op : Int
  answers : Answers
  reports : List Report
  sends : List (Int × Request)

/-- One turn of the loop of `Client::run`. `socket` returns -1 or a descriptor that is not open. -/
inductive Step (s : Session) : Event → Session → Prop where
  | operate {op : Int} {a : Answers} {r : Result} : s.exited = false →
      a.socket = -1 ∨ 0 ≤ a.socket ∧ s.files a.socket = none → operate op s a = some r →
      Step s ⟨op, a, r.reports, r.sends⟩ r.session

/-! ### What a session should be -/

/-- The helpers of a descriptor that have not been cancelled. -/
def Session.helpersOf (s : Session) (fd : Int) : List Helper :=
  s.helpers.filter fun h => h.fd = fd ∧ h.cancelled = false

/-- There is no connection, or `sockfd` is connected and has one helper. -/
def Session.Ok (s : Session) : Prop :=
  s.sockfd = -1 ∨ s.files s.sockfd = some true ∧ (s.helpersOf s.sockfd).length = 1

/-- An attempt to connect that reports an error leaves no socket. -/
def Atomic (x : Stage Session Event) : Prop :=
  x.event.op = 1 → x.before.sockfd = -1 → (∃ text, .error text ∈ x.event.reports) →
    x.after.sockfd = -1 ∧ ∀ fd, x.after.files fd = none

/-- Nothing is sent on a socket that is not connected. -/
def OnConnection (x : Stage Session Event) : Prop :=
  ∀ p ∈ x.event.sends, x.before.files p.1 = some true

def Meets (x : Stage Session Event) : Prop := x.after.Ok ∧ Atomic x ∧ OnConnection x

/-- Where `socket` succeeds, `connect` and `pthread_create` do. -/
def Establishes (x : Stage Session Event) : Prop :=
  x.event.op = 1 → x.before.sockfd = -1 → 0 ≤ x.event.answers.socket →
    0 ≤ x.event.answers.connect ∧ x.event.answers.pthreadCreate = 0

/-! ### The connection that a session stands for -/

inductive Link where
  | closed
  | established (fd : Int)
  -- the process has ended
  | ended

/-- What an operation does to the connection. -/
def Link.next (l : Link) (op : Int) (a : Answers) : Link :=
  match op, l with
  | 1, .closed => if a.socket < 0 then .closed else .established a.socket
  | 2, .established _ => .closed
  | 7, _ => .ended
  | _, l => l

/-- The session has the sockets and the helpers of a connection, and no others. -/
inductive Represents (s : Session) : Link → Prop where
  | closed : s.exited = false → s.sockfd = -1 → (∀ fd, s.files fd = none) →
      (∀ h ∈ s.helpers, h.cancelled = true) → Represents s .closed
  | established {fd : Int} {old : List Helper} : s.exited = false → 0 ≤ fd → s.sockfd = fd →
      s.files = Function.update (fun _ => none) fd (some true) → s.helpers = old ++ [⟨fd, false⟩] →
      (∀ h ∈ old, h.cancelled = true) → s.thread = some old.length → Represents s (.established fd)
  | ended : s.exited = true → s.sockfd = -1 → Represents s .ended

theorem represents_new : Represents .new .closed :=
  .closed rfl rfl (fun _ => rfl) (List.forall_mem_nil _)

theorem Represents.ok {s : Session} {l : Link} (h : Represents s l) : s.Ok := by
  cases h with
  | closed _ hsockfd _ _ => exact .inl hsockfd
  | @established fd old _ _ hsockfd hfiles hhelpers hold _ =>
      refine .inr ⟨?_, ?_⟩
      · rw [hsockfd, hfiles, Function.update_self]
      · have hnone : old.filter (fun h => h.fd = fd ∧ h.cancelled = false) = [] := by
          rw [List.filter_eq_nil_iff]
          intro h hmem
          simp [hold h hmem]
        rw [hsockfd, Session.helpersOf, hhelpers, List.filter_append, hnone]
        simp
  | ended _ hsockfd => exact .inl hsockfd

/-- The session while it runs: `sockfd` says whether there is a connection. -/
theorem Represents.sockfd {s : Session} {l : Link} (h : Represents s l) (hexited : s.exited = false) :
    (s.sockfd = -1 ∧ l = .closed) ∨ (s.sockfd ≠ -1 ∧ l = .established s.sockfd) := by
  cases h with
  | closed _ hsockfd _ _ => exact .inl ⟨hsockfd, rfl⟩
  | established _ hpos hsockfd _ _ _ _ => exact .inr ⟨by omega, by rw [hsockfd]⟩
  | ended h _ =>
      rw [hexited] at h
      cases h

/-! ### Operations -/

/-- The four ways in which an attempt to connect ends. -/
theorem connectServer_cases {s : Session} (a : Answers) (hsockfd : s.sockfd = -1) :
    (a.socket < 0 ∧ connectServer s a = ⟨s.socket a.socket, [.error "Create socket fail, error: "], []⟩) ∨
    (0 ≤ a.socket ∧ a.connect < 0 ∧
      connectServer s a = ⟨s.socket a.socket, [.error "Connect fail, error: "], []⟩) ∨
    (0 ≤ a.socket ∧ 0 ≤ a.connect ∧ a.pthreadCreate ≠ 0 ∧
      connectServer s a = ⟨{ (s.socket a.socket).connect with thread := none },
        [.error "Create thread fails!", .info "Connected!"], []⟩) ∨
    (0 ≤ a.socket ∧ 0 ≤ a.connect ∧ a.pthreadCreate = 0 ∧
      connectServer s a = ⟨(s.socket a.socket).connect.createThread, [.info "Connected!"], []⟩) := by
  have hidle : ¬ s.sockfd ≠ -1 := not_not_intro hsockfd
  by_cases hsocket : a.socket < 0
  · refine .inl ⟨hsocket, ?_⟩
    simp only [connectServer, if_neg hidle, if_pos hsocket]
  · right
    by_cases hconnect : a.connect < 0
    · refine .inl ⟨by omega, hconnect, ?_⟩
      simp only [connectServer, if_neg hidle, if_neg hsocket, if_pos hconnect]
    · right
      by_cases hcreate : a.pthreadCreate = 0
      · refine .inr ⟨by omega, by omega, hcreate, ?_⟩
        simp only [connectServer, if_neg hidle, if_neg hsocket, if_neg hconnect,
          if_neg (not_not_intro hcreate)]
      · refine .inl ⟨by omega, by omega, hcreate, ?_⟩
        simp only [connectServer, if_neg hidle, if_neg hsocket, if_neg hconnect, if_pos hcreate]

theorem connectServer_represents {s : Session} {l : Link} {a : Answers} (h : Represents s l)
    (hexited : s.exited = false) (hsocket : a.socket < 0 → a.socket = -1)
    (hestablishes : s.sockfd = -1 → 0 ≤ a.socket → 0 ≤ a.connect ∧ a.pthreadCreate = 0) :
    Represents (connectServer s a).session (l.next 1 a) := by
  rcases h.sockfd hexited with ⟨hsockfd, rfl⟩ | ⟨hsockfd, rfl⟩
  · obtain ⟨hfiles, hhelpers⟩ : (∀ fd, s.files fd = none) ∧ ∀ h ∈ s.helpers, h.cancelled = true := by
      cases h with
      | closed _ _ hfiles hhelpers => exact ⟨hfiles, hhelpers⟩
    rcases connectServer_cases a hsockfd with ⟨hneg, heq⟩ | ⟨hpos, hconnect, -⟩ | ⟨hpos, -, hcreate, -⟩ |
      ⟨hpos, -, -, heq⟩
    · rw [heq, Link.next, if_pos hneg]
      refine .closed hexited (hsocket hneg) (fun fd => ?_) hhelpers
      rw [Session.socket, if_pos hneg]
      exact hfiles fd
    · exact absurd (hestablishes hsockfd hpos).1 (by omega)
    · exact absurd (hestablishes hsockfd hpos).2 hcreate
    · have hneg : ¬ a.socket < 0 := by omega
      have hempty : s.files = fun _ => none := funext hfiles
      rw [heq, Link.next, if_neg hneg]
      refine .established hexited hpos rfl ?_ rfl hhelpers rfl
      simp only [Session.createThread, Session.connect, Session.socket, if_neg hneg, hempty,
        Function.update_idem]
  · have hnext : (Link.established s.sockfd).next 1 a = .established s.sockfd := rfl
    rw [connectServer, if_pos hsockfd, hnext]
    exact h

theorem disconnectServer_represents {s : Session} {l : Link} {a : Answers} {r : Result}
    (h : Represents s l) (hexited : s.exited = false) (hr : disconnectServer s a = some r) :
    Represents r.session (l.next 2 a) := by
  rcases h.sockfd hexited with ⟨hsockfd, rfl⟩ | ⟨hsockfd, rfl⟩
  · rw [disconnectServer, if_pos hsockfd] at hr
    obtain rfl := Option.some.inj hr
    exact h
  · rw [disconnectServer, if_neg hsockfd] at hr
    obtain ⟨cancelled, hcancel, heq⟩ := Option.bind_eq_some_iff.mp hr
    obtain rfl := Option.some.inj heq
    cases h with
    | @established fd old _ _ _ hfiles hhelpers hold hthread =>
        rw [Session.cancelThread, hthread, Option.map_some] at hcancel
        obtain rfl := Option.some.inj hcancel
        refine .closed hexited rfl (fun fd => ?_) (fun h hmem => ?_)
        · simp only [Session.close]
          by_cases hfd : fd = s.sockfd
          · rw [hfd, Function.update_self]
          · rw [Function.update_of_ne hfd, hfiles, Function.update_of_ne hfd]
        · simp only [Session.close, hhelpers, List.modify_eq_take_drop, List.take_left,
            List.drop_left] at hmem
          rcases List.mem_append.mp hmem with hmem | hmem
          · exact hold h hmem
          · rw [List.mem_singleton.mp hmem]

theorem request_represents {s : Session} {l : Link} {name shown : String} {q : Request} (h : Represents s l)
    (a : Answers) : Represents (request name shown q s a).session l := by
  rw [request]
  split
  · exact h
  · split
    · exact h
    · split <;> exact h

theorem done_represents {s : Session} : Represents (done s).session .ended := by
  rw [done]
  split
  · exact .ended rfl rfl
  · rename_i hsockfd
    exact .ended rfl (not_not.mp hsockfd)

/-- An operation keeps what the session stands for, if it establishes the connection it opens. -/
theorem operate_represents {op : Int} {s : Session} {l : Link} {a : Answers} {r : Result}
    (h : Represents s l) (hexited : s.exited = false) (hsocket : a.socket < 0 → a.socket = -1)
    (hestablishes : op = 1 → s.sockfd = -1 → 0 ≤ a.socket → 0 ≤ a.connect ∧ a.pthreadCreate = 0)
    (hr : operate op s a = some r) : Represents r.session (l.next op a) := by
  unfold operate at hr
  split at hr
  · obtain rfl := Option.some.inj hr
    exact connectServer_represents h hexited hsocket (hestablishes rfl)
  · exact disconnectServer_represents h hexited hr
  · obtain rfl := Option.some.inj hr
    exact request_represents h a
  · obtain rfl := Option.some.inj hr
    exact request_represents h a
  · obtain rfl := Option.some.inj hr
    exact request_represents h a
  · obtain rfl := Option.some.inj hr
    exact request_represents h a
  · obtain rfl := Option.some.inj hr
    exact done_represents
  · rename_i h1 h2 _ _ _ _ h7
    obtain rfl := Option.some.inj hr
    have hnext : l.next op a = l := by
      unfold Link.next
      split
      · exact absurd rfl h1
      · exact absurd rfl h2
      · exact absurd rfl h7
      · rfl
    rw [hnext]
    exact h

/-- What an operation sends, and what becomes of `sockfd`, apart from an attempt to connect. -/
inductive Transmits (s : Session) (r : Result) : Prop where
  | nothing : r.sends = [] → r.session.sockfd = s.sockfd → Transmits s r
  | request {q : Request} : s.sockfd ≠ -1 → r.sends = [(s.sockfd, q)] → q ≠ .byte .disconnect →
      r.session.sockfd = s.sockfd → Transmits s r
  | disconnect : s.sockfd ≠ -1 → r.sends = [(s.sockfd, .byte .disconnect)] → r.session.sockfd = -1 →
      Transmits s r

theorem request_transmits {name shown : String} {q : Request} (s : Session) (a : Answers)
    (hq : q ≠ .byte .disconnect) : Transmits s (request name shown q s a) := by
  rw [request]
  split
  · exact .nothing rfl rfl
  · rename_i hsockfd
    split
    · exact .request hsockfd rfl hq rfl
    · split <;> exact .request hsockfd rfl hq rfl

theorem operate_transmits {op : Int} {s : Session} {a : Answers} {r : Result}
    (hr : operate op s a = some r) (hop : op = 1 → s.sockfd ≠ -1) : Transmits s r := by
  unfold operate at hr
  split at hr
  · obtain rfl := Option.some.inj hr
    rw [connectServer, if_pos (hop rfl)]
    exact .nothing rfl rfl
  · rw [disconnectServer] at hr
    split at hr
    · obtain rfl := Option.some.inj hr
      exact .nothing rfl rfl
    · obtain ⟨cancelled, -, heq⟩ := Option.bind_eq_some_iff.mp hr
      obtain rfl := Option.some.inj heq
      exact .disconnect ‹_› rfl rfl
  · obtain rfl := Option.some.inj hr
    exact request_transmits s a fun h => by cases h
  · obtain rfl := Option.some.inj hr
    exact request_transmits s a fun h => by cases h
  · obtain rfl := Option.some.inj hr
    exact request_transmits s a fun h => by cases h
  · obtain rfl := Option.some.inj hr
    exact request_transmits s a fun h => by cases h
  · obtain rfl := Option.some.inj hr
    rw [done]
    split
    · exact .disconnect ‹_› rfl rfl
    · exact .nothing rfl rfl
  · obtain rfl := Option.some.inj hr
    exact .nothing rfl rfl

theorem connectServer_sends {s : Session} (a : Answers) (hsockfd : s.sockfd = -1) :
    (connectServer s a).sends = [] := by
  rcases connectServer_cases a hsockfd with ⟨-, heq⟩ | ⟨-, -, heq⟩ | ⟨-, -, -, heq⟩ | ⟨-, -, -, heq⟩ <;>
    rw [heq]

/-- What an operation sends goes to `sockfd`. -/
theorem operate_sends {op : Int} {s : Session} {a : Answers} {r : Result} (hr : operate op s a = some r) :
    ∀ p ∈ r.sends, s.sockfd ≠ -1 ∧ p.1 = s.sockfd := by
  by_cases hop : op = 1 → s.sockfd ≠ -1
  · cases operate_transmits hr hop with
    | nothing hsends _ =>
        rw [hsends]
        exact List.forall_mem_nil _
    | request hsockfd hsends _ _ | disconnect hsockfd hsends _ =>
        rw [hsends]
        exact List.forall_mem_singleton.mpr ⟨hsockfd, rfl⟩
  · obtain ⟨rfl, hsockfd⟩ := Classical.not_imp.mp hop
    obtain rfl := Option.some.inj hr
    rw [connectServer_sends a (not_not.mp hsockfd)]
    exact List.forall_mem_nil _

/-! ### The requests on a connection -/

/-- The requests on the sockets that are closed, and on the socket that `sockfd` stands for. -/
structure Connections where
  closed : List (List Request)
  current : List Request

/-- A new socket starts a new list. -/
def Connections.record (k : Connections) (x : Stage Session Event) : Connections :=
  if x.event.op = 1 ∧ x.before.sockfd = -1 then ⟨k.closed ++ [k.current], []⟩
  else { k with current := k.current ++ x.event.sends.map Prod.snd }

def connections (tr : List (Stage Session Event)) : Connections := tr.foldl Connections.record ⟨[], []⟩

/-- Nothing follows `DISCONNECT`, which leaves no socket. -/
structure ConnectionsOk (k : Connections) (s : Session) : Prop where
  closed : ∀ rs ∈ k.closed, DisconnectLast rs
  current : DisconnectLast k.current
  unfinished : s.sockfd ≠ -1 → .byte .disconnect ∉ k.current

theorem disconnectLast_concat {rs : List Request} {q : Request} (h : .byte .disconnect ∉ rs) :
    DisconnectLast (rs ++ [q]) := by
  intro r hr hdisconnect
  rw [List.dropLast_concat, hdisconnect] at hr
  exact h hr

theorem ConnectionsOk.step {k : Connections} {x : Stage Session Event} (H : ConnectionsOk k x.before)
    (h : Step x.before x.event x.after) : ConnectionsOk (k.record x) x.after := by
  obtain ⟨s, e, t⟩ := x
  cases h with
  | @operate op a r hexited hsocket hr =>
      rw [Connections.record]
      split
      · refine ⟨fun rs hrs => ?_, List.forall_mem_nil _, fun _ => List.not_mem_nil⟩
        rcases List.mem_append.mp hrs with hrs | hrs
        · exact H.closed rs hrs
        · rw [List.mem_singleton.mp hrs]
          exact H.current
      · rename_i hop
        cases operate_transmits hr fun hone hsockfd => hop ⟨hone, hsockfd⟩ with
        | nothing hsends hkeep =>
            dsimp only at hsends ⊢
            rw [hsends, List.map_nil, List.append_nil]
            exact ⟨H.closed, H.current, fun hsockfd => H.unfinished fun h => hsockfd (hkeep.trans h)⟩
        | request hsockfd hsends hq hkeep =>
            dsimp only at hsends ⊢
            rw [hsends, List.map_singleton]
            refine ⟨H.closed, disconnectLast_concat (H.unfinished hsockfd), fun _ hmem => ?_⟩
            rcases List.mem_append.mp hmem with hmem | hmem
            · exact H.unfinished hsockfd hmem
            · exact hq (List.mem_singleton.mp hmem).symm
        | disconnect hsockfd hsends hunset =>
            dsimp only at hsends ⊢
            rw [hsends, List.map_singleton]
            exact ⟨H.closed, disconnectLast_concat (H.unfinished hsockfd), fun h => absurd hunset h⟩

/-- **Requests on a connection.** In every run of a client, whatever fails, nothing follows `DISCONNECT` on
a socket. -/
theorem disconnect_last {tr : List (Stage Session Event)} {s : Session}
    (h : Run (Recorded Step) .new tr s) : ConnectionsOk (connections tr) s := by
  induction h with
  | nil => exact ⟨List.forall_mem_nil _, List.forall_mem_nil _, fun _ => List.not_mem_nil⟩
  | @snoc tr x s t _ hlast ih =>
      obtain ⟨rfl, hstep, rfl⟩ := hlast
      rw [connections, List.foldl_append]
      exact ih.step hstep

/-! ### Results -/

/-- An attempt to connect that reports an error leaves no socket, if there is no failure behind `socket`. -/
theorem connectServer_error {s : Session} {a : Answers} (h : Represents s .closed) (hsockfd : s.sockfd = -1)
    (hsocket : a.socket < 0 → a.socket = -1)
    (hestablishes : 0 ≤ a.socket → 0 ≤ a.connect ∧ a.pthreadCreate = 0)
    {text : String} (htext : .error text ∈ (connectServer s a).reports) :
    (connectServer s a).session.sockfd = -1 ∧ ∀ fd, (connectServer s a).session.files fd = none := by
  rcases connectServer_cases a hsockfd with ⟨hneg, heq⟩ | ⟨hpos, hconnect, -⟩ | ⟨hpos, -, hcreate, -⟩ |
    ⟨-, -, -, heq⟩
  · rw [heq, Session.socket, if_pos hneg]
    cases h with
    | closed _ _ hfiles _ => exact ⟨hsocket hneg, hfiles⟩
  · exact absurd (hestablishes hpos).1 (by omega)
  · exact absurd (hestablishes hpos).2 hcreate
  · rw [heq] at htext
    cases List.mem_singleton.mp htext

/-- A failure behind `socket` is reported, and leaves `sockfd` set. -/
theorem connectServer_failure {s : Session} {a : Answers} (hsockfd : s.sockfd = -1) (hpos : 0 ≤ a.socket)
    (hfail : ¬ (0 ≤ a.connect ∧ a.pthreadCreate = 0)) :
    (connectServer s a).session.sockfd = a.socket ∧ ∃ text, .error text ∈ (connectServer s a).reports := by
  rcases connectServer_cases a hsockfd with ⟨hneg, -⟩ | ⟨-, -, heq⟩ | ⟨-, -, -, heq⟩ |
    ⟨-, hconnect, hcreate, -⟩
  · omega
  · rw [heq]
    exact ⟨rfl, _, List.mem_singleton_self _⟩
  · rw [heq]
    exact ⟨rfl, _, List.mem_cons_self⟩
  · exact absurd ⟨hconnect, hcreate⟩ hfail

theorem Represents.meets {x : Stage Session Event} {l : Link} (h : Represents x.before l)
    (hstep : Step x.before x.event x.after) (hestablishes : Establishes x) :
    Meets x ∧ ∃ l', Represents x.after l' := by
  obtain ⟨s, e, t⟩ := x
  cases hstep with
  | @operate op a r hexited hsocket hr =>
      have hneg : a.socket < 0 → a.socket = -1 := by
        rcases hsocket with hsocket | ⟨hsocket, -⟩ <;> omega
      have hafter := operate_represents h hexited hneg hestablishes hr
      refine ⟨⟨hafter.ok, ?_, ?_⟩, _, hafter⟩
      · rintro rfl hsockfd ⟨text, htext⟩
        obtain ⟨-, rfl⟩ := (h.sockfd hexited).resolve_right fun hne => hne.1 hsockfd
        have hr' : connectServer s a = r := Option.some.inj hr
        dsimp only at htext ⊢
        rw [← hr'] at htext ⊢
        exact connectServer_error h hsockfd hneg (hestablishes rfl hsockfd) htext
      · intro p hp
        obtain ⟨hsockfd, hfd⟩ := operate_sends hr p hp
        rw [hfd]
        exact (h.ok.resolve_left hsockfd).1

theorem Meets.establishes {x : Stage Session Event} (hmeets : Meets x)
    (hstep : Step x.before x.event x.after) : Establishes x := by
  obtain ⟨s, e, t⟩ := x
  cases hstep with
  | @operate op a r hexited hsocket hr =>
      rintro rfl hsockfd hpos
      have hr' : connectServer s a = r := Option.some.inj hr
      by_contra hfail
      obtain ⟨hset, herror⟩ := connectServer_failure hsockfd hpos hfail
      rw [hr'] at hset herror
      have hunset : r.session.sockfd = -1 := (hmeets.2.1 rfl hsockfd herror).1
      have hneg : a.socket = -1 := hset.symm.trans hunset
      rw [hneg] at hpos
      exact absurd hpos (by decide)

theorem meets_of_establishes {tr : List (Stage Session Event)} {s : Session}
    (h : Run (Recorded Step) .new tr s) (hestablishes : ∀ x ∈ tr, Establishes x) :
    (∃ l, Represents s l) ∧ ∀ x ∈ tr, Meets x := by
  induction h with
  | nil => exact ⟨⟨_, represents_new⟩, List.forall_mem_nil _⟩
  | @snoc tr x s t _ hlast ih =>
      obtain ⟨⟨l, hl⟩, hall⟩ := ih fun y hy => hestablishes y (List.mem_append_left _ hy)
      obtain ⟨rfl, hstep, rfl⟩ := hlast
      have hx := hestablishes x (List.mem_append_right _ (List.mem_singleton_self x))
      obtain ⟨hmeets, hafter⟩ := hl.meets hstep hx
      refine ⟨hafter, fun y hy => ?_⟩
      rcases List.mem_append.mp hy with hy | hy
      · exact hall y hy
      · rw [List.mem_singleton.mp hy]
        exact hmeets

/-- **The session of a client.** A run keeps to what a session should be if and only if, in each attempt to
connect, `connect` and `pthread_create` succeed where `socket` does. -/
theorem session_iff {tr : List (Stage Session Event)} {s : Session} (h : Run (Recorded Step) .new tr s) :
    (∀ x ∈ tr, Meets x) ↔ ∀ x ∈ tr, Establishes x := by
  obtain ⟨-, hsteps⟩ := h.forall_stage (fun _ => True) trivial fun _ _ _ _ _ => trivial
  constructor
  · intro hmeets x hx
    exact (hmeets x hx).establishes (hsteps x hx).2
  · intro hestablishes
    exact (meets_of_establishes h hestablishes).2

/-- A connection is made, and a request is sent on it. -/
theorem session_iff_connected : ∃ x y : Stage Session Event, (∃ s, Run (Recorded Step) .new [x, y] s) ∧
    x.event.reports = [.info "Connected!"] ∧ y.event.sends = [(3, .byte .getTime)] ∧
      ∀ z ∈ [x, y], Meets z := by
  let a : Answers := ⟨3, 0, 0, 0, 0, ⟨[], by decide⟩⟩
  let b : Answers := ⟨-1, 0, 0, 0, 0, ⟨[], by decide⟩⟩
  let s := (connectServer .new a).session
  let x : Stage Session Event := ⟨.new, ⟨1, a, [.info "Connected!"], []⟩, s⟩
  let y : Stage Session Event := ⟨s, ⟨3, b, [.info "Time: "], [(3, .byte .getTime)]⟩, s⟩
  have hx : Step .new x.event s := .operate (r := connectServer .new a) rfl (.inr ⟨by decide, rfl⟩) rfl
  have hy : Step s y.event s := .operate (r := getServerTime s b) rfl (.inl rfl) rfl
  have hrun : Run (Recorded Step) .new [x, y] s := (Run.single ⟨rfl, hx, rfl⟩).snoc ⟨rfl, hy, rfl⟩
  refine ⟨x, y, ⟨s, hrun⟩, rfl, rfl, (session_iff hrun).mpr (List.forall_mem_cons.mpr ⟨?_, ?_⟩)⟩
  · exact fun _ _ _ => ⟨by decide, rfl⟩
  · exact List.forall_mem_singleton.mpr fun hop => absurd hop (by decide)

/-- After a failure of `connect` the next attempt is refused and a request is sent all the same; after one of
`pthread_create` there is no helper. -/
theorem session_broken :
    (∃ x y z : Stage Session Event, (∃ s, Run (Recorded Step) .new [x, y, z] s) ∧ ¬ x.after.Ok ∧ ¬ Atomic x ∧
      y.event.reports = [.error "Reconnected!"] ∧ ¬ OnConnection z) ∧
    ∃ x : Stage Session Event, (∃ s, Run (Recorded Step) .new [x] s) ∧ ¬ x.after.Ok ∧
      x.after.files x.after.sockfd = some true ∧ x.after.helpers = [] := by
  let b : Answers := ⟨-1, 0, 0, 0, 0, ⟨[], by decide⟩⟩
  constructor
  · let a : Answers := ⟨3, -1, 0, 0, 0, ⟨[], by decide⟩⟩
    let c : Answers := ⟨-1, 0, 0, -1, 0, ⟨[], by decide⟩⟩
    let s := (connectServer .new a).session
    have hx : Step .new ⟨1, a, [.error "Connect fail, error: "], []⟩ s :=
      .operate (r := connectServer .new a) rfl (.inr ⟨by decide, rfl⟩) rfl
    have hy : Step s ⟨1, b, [.error "Reconnected!"], []⟩ s :=
      .operate (r := connectServer s b) rfl (.inl rfl) rfl
    have hz : Step s ⟨3, c, [.error "getServerTime send fail, error: "], [(3, .byte .getTime)]⟩ s :=
      .operate (r := getServerTime s c) rfl (.inl rfl) rfl
    refine ⟨⟨.new, _, s⟩, ⟨s, _, s⟩, ⟨s, _, s⟩,
      ⟨s, ((Run.single ⟨rfl, hx, rfl⟩).snoc ⟨rfl, hy, rfl⟩).snoc ⟨rfl, hz, rfl⟩⟩, ?_, ?_, rfl, ?_⟩
    · rintro (h | ⟨h, -⟩)
      · exact absurd h (by decide)
      · cases h
    · intro h
      exact absurd (h rfl rfl ⟨_, List.mem_singleton_self _⟩).1 (by decide)
    · intro h
      cases h _ (List.mem_singleton_self _)
  · let a : Answers := ⟨3, 0, 11, 0, 0, ⟨[], by decide⟩⟩
    let s := (connectServer .new a).session
    have hx : Step .new ⟨1, a, [.error "Create thread fails!", .info "Connected!"], []⟩ s :=
      .operate (r := connectServer .new a) rfl (.inr ⟨by decide, rfl⟩) rfl
    refine ⟨⟨.new, _, s⟩, ⟨s, Run.single ⟨rfl, hx, rfl⟩⟩, ?_, rfl, rfl⟩
    rintro (h | ⟨-, h⟩)
    · exact absurd h (by decide)
    · exact absurd h (by decide)

end SmallTrial.Chat.Client
