import SmallTrial.ChatRequestDecoding
import SmallTrial.ChatServerRouting
import SmallTrial.TextDecimal

/-! What the `CSocket` server is for: a room whose members join, ask and leave. Members are told apart by
their connections and addressed by `ip:port`; nothing here knows of descriptors, threads or buffers. The
server refines the room. -/

namespace SmallTrial.Chat.Room

open Transition Text Server

/-! ### Related lists -/

variable {α β : Type*} {R : α → β → Prop}

theorem forall₂_find? {p : α → Bool} {q : β → Bool} (hpq : ∀ a b, R a b → p a = q b) {l : List α}
    {l' : List β} (h : List.Forall₂ R l l') :
    (l.find? p = none ∧ l'.find? q = none) ∨
      ∃ a b, l.find? p = some a ∧ l'.find? q = some b ∧ R a b := by
  induction h with
  | nil => exact .inl ⟨rfl, rfl⟩
  | @cons a b l l' hab _ ih =>
      have hsame := hpq a b hab
      cases hp : p a with
      | true =>
          rw [List.find?_cons_of_pos hp, List.find?_cons_of_pos (hsame ▸ hp)]
          exact .inr ⟨a, b, rfl, rfl, hab⟩
      | false =>
          rw [List.find?_cons_of_neg (by rw [hp]; exact Bool.false_ne_true),
            List.find?_cons_of_neg (by rw [← hsame, hp]; exact Bool.false_ne_true)]
          exact ih

theorem forall₂_filter {p : α → Bool} {q : β → Bool} (hpq : ∀ a b, R a b → p a = q b) {l : List α}
    {l' : List β} (h : List.Forall₂ R l l') : List.Forall₂ R (l.filter p) (l'.filter q) := by
  refine List.rel_filter (fun a b hab => ?_) h
  show p a = true ↔ q b = true
  rw [hpq a b hab]

/-! ### The room -/

structure Member where
  conn : Nat
  addr : Bytes
  port : Int
  deriving DecidableEq

def Member.isAt (m : Member) (ip : Bytes) (port : Int) : Bool :=
  decide (m.addr = ip) && decide (m.port = port)

/-- What a member asks for. -/
inductive Ask where
  | leave
  | time
  | name
  | list
  | say (ip : Bytes) (port : Int) (content : Bytes)
  deriving DecidableEq

inductive Action where
  | join (m : Member)
  | ask (conn : Nat) (a : Ask)
  deriving DecidableEq

/-- What a member gets. -/
inductive Delivery where
  | time
  | name
  | list
  | said
  | nobody
  | text (content : Bytes)
  deriving DecidableEq

def next (room : List Member) : Action → List Member
  | .join m => room ++ [m]
  | .ask c .leave => room.filter (·.conn ≠ c)
  | .ask _ _ => room

/-- What an action delivers, and to whom. A text goes to the member that was the first to join from the
address and port. -/
def answers (room : List Member) : Action → List (Nat × Delivery)
  | .join _ | .ask _ .leave => []
  | .ask c .time => [(c, .time)]
  | .ask c .name => [(c, .name)]
  | .ask c .list => [(c, .list)]
  | .ask c (.say ip port content) =>
      match room.find? (·.isAt ip port) with
      | some m => [(m.conn, .text content), (c, .said)]
      | none => [(c, .nobody)]

def members (room : List Member) (acts : List Action) : List Member := acts.foldl next room

def deliveries : List Member → List Action → List (Nat × Delivery)
  | _, [] => []
  | room, a :: acts => answers room a ++ deliveries (next room a) acts

/-- What is delivered to one member. -/
def inbox (c : Nat) (ds : List (Nat × Delivery)) : List Delivery := (ds.filter (·.1 = c)).map Prod.snd

/-- What one member asks for. -/
def asks (c : Nat) (acts : List Action) : List Ask :=
  acts.filterMap fun
    | .join _ => none
    | .ask c' a => if c' = c then some a else none

theorem deliveries_append (room : List Member) (acts acts' : List Action) :
    deliveries room (acts ++ acts') = deliveries room acts ++ deliveries (members room acts) acts' := by
  induction acts generalizing room with
  | nil => rfl
  | cons a acts ih =>
      rw [List.cons_append, deliveries, deliveries, ih, List.append_assoc]
      rfl

theorem members_append (room : List Member) (acts acts' : List Action) :
    members room (acts ++ acts') = members (members room acts) acts' := List.foldl_append

theorem inbox_append (c : Nat) (ds ds' : List (Nat × Delivery)) :
    inbox c (ds ++ ds') = inbox c ds ++ inbox c ds' := by
  rw [inbox, List.filter_append, List.map_append, inbox, inbox]

theorem inbox_cons (c : Nat) (d : Nat × Delivery) (ds : List (Nat × Delivery)) :
    inbox c (d :: ds) = (if d.1 = c then [d.2] else []) ++ inbox c ds := by
  rw [inbox, List.filter_cons]
  split <;> simp_all [inbox]

/-! ### What the server does in terms of the room -/

/-- What a request asks for. A `SEND_MSG` that is not of the form `ip:port:content` is no request. -/
def Ask.of : Received → Option Ask
  | .byte .disconnect => some .leave
  | .byte .getTime => some .time
  | .byte .getName => some .name
  | .byte .getClientList => some .list
  | .message text => (text.bind parse).map fun p => .say p.1 p.2.1 p.2.2

/-- What a step does to the room. -/
def actionsOf (x : Stage State Event) : List Action :=
  match x.event with
  | .register c e => [.join ⟨c, e.addr, e.port⟩]
  | .dispatch c _ _ _ => ((switchOf c x).filterMap Ask.of).map (.ask c)
  | _ => []

def log (tr : List (Stage State Event)) : List Action := tr.flatMap actionsOf

/-- The entry `e` is for the member `m`. -/
def Stands (files : Nat → Option Nat) (e : Entry) (m : Member) : Prop :=
  files e.sock = some m.conn ∧ m.addr = e.addr ∧ m.port = e.port

/-- The list of clients says who is in the room, in the order in which they joined. -/
def Represents (s : State) (room : List Member) : Prop :=
  List.Forall₂ (Stands s.files) s.clients room

/-- The message that a delivery is. -/
def Delivery.Is (d : Delivery) (message : Message) : Prop :=
  match d with
  | .time => message.type = .getTime ∧ ∃ t : BitVec 64, message.data.string = some (decimal t.toInt)
  | .name => message.type = .getName
  | .list => message.type = .getClientList
  | .said => message.type = .sendMsg ∧ message.data.string = some (ascii "forward success")
  | .nobody => message.type = .sendMsg ∧ message.data.string = some (ascii "no such client")
  | .text content => message.type = .repost ∧ message.data.string = some content

/-! ### Requests -/

/-- What the message in the buffer of a handler asks for. -/
def asked (c : Nat) (mesRec : MesRec) : List Action :=
  (mesRec.received.toList.filterMap Ask.of).map (.ask c)

theorem asked_of {c : Nat} {mesRec : MesRec} {r : Received} {a : Ask} (hr : mesRec.received = some r)
    (ha : Ask.of r = some a) : asked c mesRec = [.ask c a] := by
  rw [asked, hr, Option.toList_some, List.filterMap_cons_some ha, List.filterMap_nil, List.map_singleton]

theorem asked_command {c : Nat} {mesRec : MesRec} {k : Command} {a : Ask}
    (htype : mesRec.type = some k.type) (ha : Ask.of (.byte k) = some a) :
    asked c mesRec = [.ask c a] := asked_of (received_byte.mpr htype) ha

theorem asked_say {c : Nat} {mesRec : MesRec} {text ip content : Bytes} {port : Int}
    (htype : mesRec.type = some .sendMsg) (hdata : mesRec.data.string = some text)
    (hparse : parse text = some (ip, port, content)) :
    asked c mesRec = [.ask c (.say ip port content)] := by
  refine asked_of (received_message.mpr ⟨htype, hdata⟩) ?_
  rw [Ask.of, Option.bind_some, hparse]
  rfl

theorem asked_ignored {c : Nat} {mesRec : MesRec}
    (h : ∀ type, mesRec.type = some type → type.isRequest = false ∧ type ≠ .disconnect) :
    asked c mesRec = [] := by
  have hnone : mesRec.received = none := by
    cases hr : mesRec.received with
    | none => rfl
    | some r =>
        cases r with
        | byte cmd =>
            obtain ⟨hrequest, hne⟩ := h _ (received_byte.mp hr)
            cases cmd with
            | disconnect => exact absurd rfl hne
            | getTime | getName | getClientList => cases hrequest
        | message text =>
            obtain ⟨hrequest, -⟩ := h _ (received_message.mp hr).1
            cases hrequest
  rw [asked, hnone]
  rfl

/-- The answer to `GET_TIME` is the time in decimal. -/
theorem time_of_dispatch {clients : List Entry} {connFd : Nat} {mesRec : MesRec} {env : Env}
    {effect : Effect} (h : dispatch clients connFd mesRec env = some effect)
    (htype : mesRec.type = some .getTime) {p : Nat × Message} (hp : p ∈ effect.sends) :
    ∃ t : BitVec 64, p.2.data.string = some (decimal t.toInt) := by
  rw [dispatch, htype] at h
  obtain ⟨data, hdata, heq⟩ := Option.bind_eq_some_iff.mp h
  cases heq
  rw [List.mem_singleton.mp hp]
  exact ⟨env.time, Buffer.string_strcpy hdata (not_mem_decimal (by decide) (by decide) _)⟩

/-! ### Answers -/

variable {files : Nat → Option Nat} {clients : List Entry} {room : List Member}

theorem delivered_cons {fd c c' : Nat} {d : Delivery} {message : Message} {ds : List (Nat × Delivery)}
    {sends : List (Nat × Message)} (hfd : files fd = some c) (his : d.Is message)
    (hrest : List.Forall₂ Delivery.Is (inbox c' ds) (deliver files sends c')) :
    List.Forall₂ Delivery.Is (inbox c' ((c, d) :: ds)) (deliver files ((fd, message) :: sends) c') := by
  rw [inbox_cons, deliver_cons, hfd]
  by_cases hc : c = c'
  · rw [if_pos hc, if_pos (by rw [hc])]
    exact .cons his hrest
  · rw [if_neg hc, if_neg fun heq => hc (Option.some.inj heq)]
    exact hrest

theorem delivered_one {fd c c' : Nat} {d : Delivery} {message : Message} (hfd : files fd = some c)
    (his : d.Is message) :
    List.Forall₂ Delivery.Is (inbox c' [(c, d)]) (deliver files [(fd, message)] c') :=
  delivered_cons hfd his .nil

theorem deliveries_one (room : List Member) (a : Action) : deliveries room [a] = answers room a := by
  rw [deliveries, deliveries, List.append_nil]

/-- A dispatch sends what the room delivers. -/
theorem answered {connFd c : Nat} {mesRec : MesRec} {env : Env} {effect : Effect}
    (hclients : List.Forall₂ (Stands files) clients room)
    (howner : files connFd = some c) (h : dispatch clients connFd mesRec env = some effect) (c' : Nat) :
    List.Forall₂ Delivery.Is (inbox c' (deliveries room (asked c mesRec)))
      (deliver files effect.sends c') := by
  have hat (ip : Bytes) (port : Int) := forall₂_find? (p := (·.isAt ip port)) (q := (·.isAt ip port))
    (fun e m hem => by rw [Entry.isAt, Member.isAt, hem.2.1, hem.2.2]) hclients
  have htime := time_of_dispatch h
  cases Served.of_dispatch h with
  | disconnect htype =>
      rw [asked_command (k := .disconnect) htype rfl]
      exact .nil
  | @reply type data htype hrequest hne =>
      have hreply {d : Delivery} (his : d.Is ⟨type, data⟩) :
          List.Forall₂ Delivery.Is (inbox c' [(c, d)]) (deliver files [(connFd, ⟨type, data⟩)] c') :=
        delivered_one howner his
      cases type with
      | getTime =>
          rw [asked_command (k := .getTime) htype rfl, deliveries_one]
          exact hreply ⟨rfl, htime htype List.mem_cons_self⟩
      | getName =>
          rw [asked_command (k := .getName) htype rfl, deliveries_one]
          exact hreply rfl
      | getClientList =>
          rw [asked_command (k := .getClientList) htype rfl, deliveries_one]
          exact hreply rfl
      | sendMsg => exact absurd rfl hne
      | connect | disconnect | repost => cases hrequest
  | @missed text ip content port mes htype hdata hparse hfind hmes =>
      rw [asked_say htype hdata hparse, deliveries_one, answers]
      obtain ⟨-, hnone⟩ | ⟨e, m, hsome, -⟩ := hat ip port
      · rw [hnone]
        exact delivered_one howner ⟨rfl, hmes⟩
      · rw [hfind] at hsome
        cases hsome
  | @forwarded text ip content port mes fwd e htype hdata hparse hfind hmes hfwd =>
      rw [asked_say htype hdata hparse, deliveries_one, answers]
      obtain ⟨hnone, -⟩ | ⟨e', m, hsome, hm, hfile, -⟩ := hat ip port
      · rw [hfind] at hnone
        cases hnone
      · rw [hfind] at hsome
        cases hsome
        rw [hm]
        exact delivered_cons hfile ⟨rfl, hfwd⟩ (delivered_one howner ⟨rfl, hmes⟩)
  | ignored hother =>
      rw [asked_ignored hother]
      exact .nil

/-! ### Steps -/

/-- `DISCONNECT` takes out the member of the connection, and closes no other descriptor. -/
theorem represents_leave {tr : List Event} {s : State} (H : Registered tr s) (hrep : Represents s room)
    {fd c : Nat} (hfd : s.files fd = some c) :
    List.Forall₂ (Stands (Function.update s.files fd none))
      (s.clients.eraseP (·.sock = fd)) (room.filter (·.conn ≠ c)) := by
  obtain ⟨l₁, e, l₂, hsplit, herase, hsock, -, hne⟩ := H.erase_own hfd
  have hfilter : s.clients.eraseP (·.sock = fd) = s.clients.filter (·.sock ≠ fd) := by
    have hall := List.filter_eq_self.mpr fun x hx => decide_eq_true (hne x hx)
    rw [List.filter_append] at hall
    rw [herase, hsplit, List.filter_append, List.filter_cons_of_neg (by simp [hsock]), hall]
  have hsame : ∀ e m, Stands s.files e m → decide (e.sock ≠ fd) = decide (m.conn ≠ c) := by
    rintro e m ⟨hfile, -⟩
    have hiff : e.sock = fd ↔ m.conn = c := by
      constructor
      · rintro rfl
        exact Option.some.inj (hfile.symm.trans hfd)
      · rintro rfl
        exact Option.some.inj (((H.files_iff _ _).mp hfile).symm.trans ((H.files_iff _ _).mp hfd))
    exact decide_eq_decide.mpr (not_congr hiff)
  have hleft := forall₂_filter hsame hrep
  rw [← hfilter] at hleft
  have hother : ∀ x ∈ s.clients.eraseP (·.sock = fd), x.sock ≠ fd := by
    rw [herase]
    exact hne
  refine ((List.forall₂_and_left (p := fun x => x.sock ≠ fd) _ _).mpr ⟨hother, hleft⟩).imp ?_
  rintro x m ⟨hx, hfile, hat⟩
  exact ⟨(Function.update_of_ne hx _ _).trans hfile, hat⟩

/-- Actions other than `leave` keep the members. -/
theorem members_asked {c : Nat} {mesRec : MesRec} (h : mesRec.type ≠ some .disconnect) :
    members room (asked c mesRec) = room := by
  rw [asked]
  cases hr : mesRec.received with
  | none => rfl
  | some r =>
      cases ha : Ask.of r with
      | none => rw [Option.toList_some, List.filterMap_cons_none ha, List.filterMap_nil]; rfl
      | some a =>
          rw [Option.toList_some, List.filterMap_cons_some ha, List.filterMap_nil]
          cases a with
          | leave =>
              cases r with
              | byte cmd =>
                  cases cmd with
                  | disconnect => exact absurd (received_byte.mp hr) h
                  | getTime | getName | getClientList => cases ha
              | message text =>
                  obtain ⟨_, _, heq⟩ := Option.map_eq_some_iff.mp ha
                  cases heq
          | _ => rfl

/-- A step of the server is what the room does, and sends what the room delivers. -/
structure Refines (s : State) (room : List Member) (x : Stage State Event) (s' : State) : Prop where
  represents : Represents s' (members room (actionsOf x))
  sent : ∀ c, ∃ messages, s'.sent c = s.sent c ++ messages ∧
    List.Forall₂ Delivery.Is (inbox c (deliveries room (actionsOf x))) messages

theorem refines_quiet {s s' : State} {x : Stage State Event} (hrep : Represents s room)
    (hactions : actionsOf x = []) (hclients : s'.clients = s.clients) (hfiles : s'.files = s.files)
    (hsent : s'.sent = s.sent) : Refines s room x s' := by
  refine ⟨?_, fun c => ⟨[], ?_, ?_⟩⟩
  · rw [hactions, members, List.foldl_nil, Represents, hclients, hfiles]
    exact hrep
  · rw [hsent, List.append_nil]
  · rw [hactions]
    exact .nil

theorem refines_step {tr : List Event} {s s' : State} {e : Event} (H : Registered tr s)
    (hrep : Represents s room) (h : Step s e s') : Refines s room ⟨s, e, s'⟩ s' := by
  cases h with
  | @register c e mesRec _ _ hfd =>
      refine ⟨?_, fun c' => ⟨[], (List.append_nil _).symm, .nil⟩⟩
      refine List.rel_append (hrep.imp ?_) (.cons ⟨Function.update_self _ _ _, rfl, rfl⟩ .nil)
      rintro x m ⟨hfile, hat⟩
      have hne : x.sock ≠ e.sock := by
        intro heq
        rw [heq, hfd] at hfile
        cases hfile
      exact ⟨(Function.update_of_ne hne _ _).trans hfile, hat⟩
  | leave => exact refines_quiet hrep rfl rfl rfl rfl
  | recvError => exact refines_quiet hrep rfl rfl rfl rfl
  | recvEnd => exact refines_quiet hrep rfl rfl rfl rfl
  | recvBytes => exact refines_quiet hrep rfl rfl rfl rfl
  | abort => exact refines_quiet hrep rfl rfl rfl rfl
  | @dispatch c h env effect _ hs hpc hdispatch =>
      have howner := H.owner hs (by rw [hpc]; exact nofun)
      have hactions : actionsOf ⟨s, .dispatch c env h.mesRec.type effect.sends, s.served c h effect⟩ =
          asked c h.mesRec := by
        rw [asked, ← switchOf_dispatch hs]
        rfl
      refine ⟨?_, fun c' => ⟨deliver s.files effect.sends c', rfl, ?_⟩⟩
      · rw [hactions]
        by_cases htype : h.mesRec.type = some .disconnect
        · rw [dispatch_of_disconnect env htype, Option.some.injEq] at hdispatch
          subst hdispatch
          rw [asked_command (k := .disconnect) htype rfl]
          have hleave := represents_leave H hrep howner
          rw [← disconnect_clients] at hleave
          exact hleave
        · obtain ⟨hclients, hcloses⟩ := (Served.of_dispatch hdispatch).keeps htype
          rw [members_asked htype, Represents, State.served, hclients, hcloses]
          exact hrep
      · rw [hactions]
        exact answered hrep howner hdispatch c'

/-! ### Runs -/

theorem log_snoc (tr : List (Stage State Event)) (x : Stage State Event) :
    log (tr ++ [x]) = log tr ++ actionsOf x := by
  rw [log, List.flatMap_append, List.flatMap_singleton, log]

theorem refines_of_run {tr : List (Stage State Event)} {s : State} (h : Run (Recorded Step) .new tr s) :
    Represents s (members [] (log tr)) ∧
      ∀ c, List.Forall₂ Delivery.Is (inbox c (deliveries [] (log tr))) (s.sent c) := by
  induction h with
  | nil => exact ⟨.nil, fun _ => .nil⟩
  | @snoc tr x s t hrun hlast ih =>
      obtain ⟨before, e, after⟩ := x
      obtain ⟨rfl, hstep, rfl⟩ := hlast
      obtain ⟨hrep, hsent⟩ := ih
      have hrefines := refines_step (registered_of_run hrun.events) hrep hstep
      rw [log_snoc, members_append, deliveries_append]
      refine ⟨hrefines.represents, fun c => ?_⟩
      obtain ⟨messages, heq, his⟩ := hrefines.sent c
      rw [heq, inbox_append]
      exact List.rel_append (hsent c) his

/-- **The server refines the room.** Where each handler starts with its own descriptor, because `accept` and the
first read of the new thread are one step, and sends succeed: whatever the order of the other steps of the
threads and whichever descriptors the system gives out again, the list of clients says who is in the room after
the actions so far, and each client has been sent what the room delivers to its member, in that order. -/
theorem server_refines_room {tr : List (Stage State Event)} {s : State}
    (h : Run (Recorded Step) .new tr s) : Represents s (members [] (log tr)) ∧
      ∀ c, List.Forall₂ Delivery.Is (inbox c (deliveries [] (log tr))) (s.sent c) :=
  refines_of_run h

/-! ### A run -/

/-- The first of two clients sends a text to the second. -/
def hello : DataText := ⟨ascii "10.0.0.2:6000:hi", by decide⟩

def helloRoom : List Action :=
  [.join ⟨0, ascii "10.0.0.1", 5000⟩, .join ⟨1, ascii "10.0.0.2", 6000⟩,
    .ask 0 (.say (ascii "10.0.0.2") 6000 (ascii "hi"))]

theorem hello_run : ∃ tr s, Run (Recorded Step) .new tr s ∧ log tr = helloRoom ∧
    ∀ c, tr.flatMap (recvOf c) = if 0 = c then [(Request.message hello).cleared] else [] := by
  have hencodes := cleared_encodes (.message hello)
  obtain ⟨mesRec, hmes⟩ : ∃ mesRec, mesRec = MesRec.recv (.zero messageSize)
    (Request.message hello).cleared := ⟨_, rfl⟩
  have hle : 0 + (Request.message hello).cleared.length ≤ messageSize := by
    rw [hencodes.2, Nat.zero_add]
  have hwrite : (Buffer.zero messageSize).write 0 (Request.message hello).cleared = some mesRec := by
    rw [hmes, MesRec.recv, Buffer.write, dif_pos hle, Option.getD_some]
  have hreceived : mesRec.received = some (Request.message hello).received := by
    refine received_iff.mpr ?_
    rw [hmes, recv_bytes _ (Nat.le_of_eq hencodes.2)]
    exact hencodes.1.trans (List.prefix_append _ _)
  obtain ⟨htype, hdata⟩ := received_message.mp hreceived
  have hparse : parse hello.1 = some (ascii "10.0.0.2", 6000, ascii "hi") := by decide +kernel
  obtain ⟨effect, hsend⟩ := sendMsg_isSome [firstEntry, secondEntry] 4 zeroEnv hdata hparse
  have hdispatch : dispatch [firstEntry, secondEntry] 4 mesRec zeroEnv = some effect := by
    rw [dispatch, htype]
    exact hsend
  let s₁ := State.new.register 0 firstEntry (.zero _)
  let s₂ := s₁.register 1 secondEntry (.zero _)
  let s₃ := s₂.setHandler 0 ⟨4, mesRec, .dispatching⟩
  let s₄ := s₃.served 0 ⟨4, mesRec, .dispatching⟩ effect
  have hs₂ : s₂.handler 0 = some ⟨4, .zero _, .receiving⟩ := rfl
  have hs₃ : s₃.handler 0 = some ⟨4, mesRec, .dispatching⟩ := rfl
  have hne : (Request.message hello).cleared ≠ [] := fun h => by
    rw [h] at hencodes
    exact absurd hencodes.2 (by decide)
  have hfirst : Step .new (.register 0 firstEntry) s₁ := .register rfl rfl rfl
  have hsecond : Step s₁ (.register 1 secondEntry) s₂ := .register rfl rfl rfl
  have hrecv : Step s₂ (.recv 0 (some (Request.message hello).cleared)) s₃ :=
    .recvBytes rfl hs₂ rfl Peer.noConfusion hne hwrite
  have hserve : Step s₃ (.dispatch 0 zeroEnv mesRec.type effect.sends) s₄ :=
    .dispatch (h := ⟨4, mesRec, .dispatching⟩) rfl hs₃ rfl hdispatch
  have hrun₂ : Run (Recorded Step) .new
      [⟨.new, .register 0 firstEntry, s₁⟩, ⟨s₁, .register 1 secondEntry, s₂⟩] s₂ :=
    .snoc (.single ⟨rfl, hfirst, rfl⟩) ⟨rfl, hsecond, rfl⟩
  have hrun₃ := hrun₂.snoc (e := ⟨s₂, .recv 0 _, s₃⟩) ⟨rfl, hrecv, rfl⟩
  have hrun := hrun₃.snoc (e := ⟨s₃, .dispatch 0 zeroEnv _ _, s₄⟩) ⟨rfl, hserve, rfl⟩
  refine ⟨_, _, hrun, ?_, fun c => ?_⟩
  · have hask : actionsOf ⟨s₃, .dispatch 0 zeroEnv mesRec.type effect.sends, s₄⟩ =
        [.ask 0 (.say (ascii "10.0.0.2") 6000 (ascii "hi"))] := by
      rw [← asked_say htype hdata hparse, asked, ← switchOf_dispatch hs₃]
      rfl
    rw [log_snoc, hask]
    rfl
  · by_cases hc : 0 = c <;> simp [recvOf, hc]

theorem server_refines_room_hello : ∃ tr s, Run (Recorded Step) .new tr s ∧
    ∃ message, s.sent 1 = [message] ∧ message.type = .repost ∧
      message.data.string = some (ascii "hi") := by
  obtain ⟨tr, s, hrun, hlog, -⟩ := hello_run
  obtain ⟨-, hsent⟩ := server_refines_room hrun
  have hinbox : inbox 1 (deliveries [] helloRoom) = [.text (ascii "hi")] := by decide
  have hone := hsent 1
  rw [hlog, hinbox] at hone
  obtain ⟨message, _, his, hnil, hmessages⟩ := List.forall₂_cons_left_iff.mp hone
  rw [List.forall₂_nil_left_iff.mp hnil] at hmessages
  exact ⟨tr, s, hrun, message, hmessages, his⟩

end SmallTrial.Chat.Room
