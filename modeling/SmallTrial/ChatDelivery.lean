import SmallTrial.ChatClientStream
import SmallTrial.ChatRoom

/-! The chat from end to end: what the clients write to their sockets, the server in between, and what their
helpers do with what they read. Where the pieces in which the streams arrive are ones that both sides
decode, the helpers show what the room delivers. -/

namespace SmallTrial.Chat.Room

open Transition Text Server Helper

/-! ### Towards the server -/

/-- The requests of a client and the pieces in which they arrive at the server. -/
structure Sender where
  requests : List Request
  disconnect_last : DisconnectLast requests
  bytes : List Bytes
  encodes : List.Forall₂ Request.Encodes requests bytes
  segs : List Bytes
  arrives : segs.flatten = bytes.flatten
  decodes : Server.Decodes requests (segs.map List.length)
  cleared : ∀ mes, RestCleared mes requests (segs.map List.length)
  -- how often `recv` returns 0 behind them
  ends : Nat
  ends_eq : segs = [] → ends = 0

def Sender.stream (client : Sender) : List Bytes := client.segs ++ List.replicate client.ends []

/-- What a client asks for. -/
def Sender.asks (client : Sender) : List Ask := client.requests.filterMap fun r => Ask.of r.received

theorem handled_zero_append {connFd : Nat} {ps : List Bytes} (h : ∀ p ∈ ps, Server.read p = none)
    (segs : List Bytes) (views : List View) : handled connFd (.zero messageSize) (segs ++ ps) views =
      handled connFd (.zero messageSize) segs views := by
  induction segs generalizing views with
  | nil =>
      have hunread := @handled_unread connFd ps [] views h
      rwa [List.append_nil, handled_nil] at hunread
  | cons seg segs ih =>
      cases views with
      | nil => rw [handled_nil_right, handled_nil_right]
      | cons view views => rw [List.cons_append, handled, handled, ih]

/-- Where something has arrived, nothing is found in what the end of the connection leaves in the buffer. -/
theorem handled_append {connFd : Nat} {mes : MesRec} {segs ps : List Bytes} (hsegs : segs ≠ [])
    (h : ∀ p ∈ ps, Server.read p = none) (views : List View) :
    handled connFd mes (segs ++ ps) views = handled connFd mes segs views := by
  cases segs with
  | nil => exact absurd rfl hsegs
  | cons seg segs =>
      cases views with
      | nil => rw [handled_nil_right, handled_nil_right]
      | cons view views => rw [List.cons_append, handled, handled, handled_zero_append h]

theorem Sender.handled_first (client : Sender) (connFd : Nat) (mes : MesRec) (views : List View) :
    handled connFd mes client.stream views <+: client.requests.map Request.received := by
  have hfirst : handled connFd mes client.segs views <+: client.requests.map Request.received :=
    Server.handled_first client.decodes (client.cleared mes) client.encodes client.arrives rfl views
  rw [Sender.stream]
  by_cases hsegs : client.segs = []
  · rwa [client.ends_eq hsegs, List.replicate_zero, List.append_nil]
  · rwa [handled_append hsegs fun p hp => by
      rw [List.eq_of_mem_replicate hp]
      exact Server.read_nil]

/-- A handler that has taken the first pieces of a client has found the first of its requests. -/
theorem Sender.found_first (client : Sender) {s : State} {c : Nat} {segs : List Bytes} {views : List View}
    {found : List Received} (h : Tracked s c segs views found) (hsegs : segs <+: client.stream) :
    found <+: client.requests.map Request.received := by
  obtain ⟨more, hmore⟩ := hsegs
  rw [Tracked] at h
  cases hs : s.handler c with
  | none =>
      rw [hs] at h
      rw [h.2.2]
      exact List.nil_prefix
  | some handler =>
      rw [hs] at h
      obtain ⟨mes, hfollows⟩ := h
      refine List.IsPrefix.trans ?_ (client.handled_first handler.connFd mes (views ++ []))
      rw [← hmore]
      unfold Follows at hfollows
      split at hfollows
      · rw [hfollows more []]
        exact List.prefix_append _ _
      · obtain ⟨_, _, -, hall⟩ := hfollows
        rw [hall more []]
        exact List.prefix_append _ _
      · rw [hfollows more []]

theorem asks_append (c : Nat) (acts acts' : List Action) :
    asks c (acts ++ acts') = asks c acts ++ asks c acts' := List.filterMap_append

theorem asks_map (c c' : Nat) (as : List Ask) : asks c (as.map (.ask c')) = if c' = c then as else [] := by
  induction as with
  | nil => exact (ite_self _).symm
  | cons a as ih =>
      rw [List.map_cons, asks, List.filterMap_cons, ← asks, ih]
      by_cases hc : c' = c <;> simp [hc]

theorem asks_actionsOf (c : Nat) (x : Stage State Event) :
    asks c (actionsOf x) = (switchOf c x).filterMap Ask.of := by
  obtain ⟨before, e, after⟩ := x
  cases e with
  | register | leave | recv | abort => rfl
  | dispatch c' env type sends =>
      rw [actionsOf, asks_map]
      by_cases hc : c' = c
      · rw [if_pos hc, hc]
      · have hconn : c ≠ (Event.dispatch c' env type sends).conn := Ne.symm hc
        rw [if_neg hc, (of_conn_ne (x := ⟨before, _, after⟩) hconn).2.2, List.filterMap_nil]

/-- What a member asks for is what the `switch` of its handler finds. -/
theorem asks_log (c : Nat) (tr : List (Stage State Event)) :
    asks c (log tr) = (tr.flatMap (switchOf c)).filterMap Ask.of := by
  induction tr with
  | nil => rfl
  | cons x tr ih =>
      rw [log, List.flatMap_cons, asks_append, asks_actionsOf, List.flatMap_cons, List.filterMap_append,
        ← ih, log]

/-! ### Towards the client -/

/-- The bytes of a message on the wire, with two bytes of padding. -/
def Wire (message : Message) (bytes : Bytes) : Prop :=
  ∃ padding, padding.length = 2 ∧ bytes = longOf message.type ++ message.data.bytes ++ padding

/-- The messages that the server sends to a client and the pieces in which they arrive at its helper. -/
structure Receiver (messages : List Message) where
  sent : List Sent
  is : List.Forall₂ Sent.Is sent messages
  bytes : List Bytes
  wire : List.Forall₂ Wire messages bytes
  greeting : Bytes
  segs : List Bytes
  arrives : greeting ++ segs.flatten = strHello ++ bytes.flatten
  decodes : Helper.Decodes sent greeting.length (segs.map List.length)

/-- What the helper does with a delivery: it prints a text and puts everything else on the queue. -/
def Delivery.Shows : Delivery → Output → Prop
  | .text content, o => o = .print (some content)
  | d, o => ∃ message, d.Is message ∧ o = .queue (code message.type).toNat message.data

theorem shows_of_is {d : Delivery} {message : Message} {m : Sent} (hd : d.Is message) (hm : m.Is message) :
    d.Shows m.output := by
  obtain ⟨htype, hpayload⟩ := hm
  cases m with
  | reply type data =>
      have hdata : data = message.data := by
        have hbytes := hpayload.eq_of_length (data.length_eq.trans message.data.length_eq.symm)
        cases data
        cases hmessage : message.data
        rw [hmessage] at hbytes
        cases hbytes
        rfl
      have hqueue : Sent.output (.reply type data) = .queue (code message.type).toNat message.data := by
        rw [Sent.output, htype, hdata]
        rfl
      cases d with
      | text content =>
          have hrequest := type.2
          rw [show type.1 = .repost from htype.symm.trans hd.1] at hrequest
          cases hrequest
      | time | name | list | said | nobody => exact ⟨message, hd, hqueue⟩
  | repost text =>
      have hstring : message.data.string = some text.1 := (string_eq_some text.2.1).mpr hpayload
      cases d with
      | text content => exact congrArg Output.print (hstring.symm.trans hd.2)
      | time | said | nobody => cases htype.symm.trans hd.1
      | name | list => cases htype.symm.trans hd

theorem encodes_of_wire {sent : List Sent} {messages : List Message} {bytes : List Bytes}
    (his : List.Forall₂ Sent.Is sent messages) (hwire : List.Forall₂ Wire messages bytes) :
    List.Forall₂ Sent.Encodes sent bytes := by
  induction his generalizing bytes with
  | nil =>
      rw [List.forall₂_nil_left_iff.mp hwire]
      exact .nil
  | cons hm _ ih =>
      obtain ⟨b, bs, ⟨padding, hpadding, rfl⟩, hrest, rfl⟩ := List.forall₂_cons_left_iff.mp hwire
      exact .cons (hm.encodes hpadding) (ih hrest)

theorem forall₂_shows {ds : List Delivery} {messages : List Message} {sent : List Sent}
    (hds : List.Forall₂ Delivery.Is ds messages) (hsent : List.Forall₂ Sent.Is sent messages) :
    List.Forall₂ Delivery.Shows ds (sent.map Sent.output) := by
  induction hds generalizing sent with
  | nil =>
      rw [List.forall₂_nil_right_iff.mp hsent]
      exact .nil
  | cons hd _ ih =>
      obtain ⟨m, ms, hm, hrest, rfl⟩ := List.forall₂_cons_right_iff.mp hsent
      exact .cons (shows_of_is hd hm) (ih hrest)

/-! ### Results -/

/-- **Delivery.** In every run of the server in which the pieces of each connection come from the requests of
its client, what a member has asked for in the room are the first requests of its client, in their order; and
each helper whose pieces come from what the server has sent to it shows what the room delivers to its member,
in that order and nothing else. -/
theorem chat_delivers {tr : List (Stage State Event)} {s : State} (h : Run (Recorded Step) .new tr s)
    (clients : Nat → Sender) (hrecv : ∀ c, tr.flatMap (recvOf c) <+: (clients c).stream) :
    (∀ c, asks c (log tr) <+: (clients c).asks) ∧
      ∀ c (r : Receiver (s.sent c)), List.Forall₂ Delivery.Shows (inbox c (deliveries [] (log tr)))
        (helperThread ((r.greeting :: r.segs).map some)) := by
  constructor
  · intro c
    have hfound := (clients c).found_first (handler_tracked h c) (hrecv c)
    have hasks : (clients c).asks = ((clients c).requests.map Request.received).filterMap Ask.of := by
      rw [List.filterMap_map]
      rfl
    rw [asks_log, hasks]
    exact hfound.filterMap _
  · intro c r
    have hshows := Helper.meets_of_decodes r.decodes r.bytes r.greeting r.segs
      (encodes_of_wire r.is r.wire) r.arrives rfl rfl
    rw [hshows]
    exact forall₂_shows ((refines_of_run h).2 c) r.is

def silentSender : Sender where
  requests := []
  disconnect_last := List.forall_mem_nil _
  bytes := []
  encodes := .nil
  segs := []
  arrives := rfl
  decodes := .nil
  cleared := fun _ => trivial
  ends := 0
  ends_eq := fun _ => rfl

def helloSender : Sender where
  requests := [.message hello]
  disconnect_last := List.forall_mem_nil _
  bytes := [(Request.message hello).cleared]
  encodes := .cons (cleared_encodes _) .nil
  segs := [(Request.message hello).cleared]
  arrives := rfl
  decodes := by
    rw [List.map_singleton, (cleared_encodes (.message hello)).2]
    have hlater : (Request.message hello).Later messageSize [] := rfl
    have hfirst : (Request.message hello).First messageSize :=
      ⟨by decide, Nat.le_refl _, .inr (by decide)⟩
    exact .cons hfirst hlater .nil
  cleared := by
    rw [List.map_singleton, (cleared_encodes (.message hello)).2]
    intro mes i hle hlt
    have hkey := Server.key_length_le (.message hello)
    have hsize : messageSize = 264 := rfl
    omega
  ends := 0
  ends_eq := fun _ => rfl

/-- A `REPOST` that arrives in one piece behind the greeting. -/
theorem receiver_of_repost {message : Message} (htype : message.type = .repost)
    (hdata : message.data.string = some (ascii "hi")) : Nonempty (Receiver [message]) := by
  have his : Sent.Is (.repost ⟨ascii "hi", by decide⟩) message :=
    ⟨htype, (string_eq_some (by decide)).mp hdata⟩
  have hpadding : ([0, 0] : Bytes).length = 2 := rfl
  have hencodes := his.encodes hpadding
  have hle := Helper.key_length_le (.repost ⟨ascii "hi", by decide⟩)
  refine ⟨⟨_, .cons his .nil, [_], .cons ⟨[0, 0], rfl, rfl⟩ .nil, strHello, [_], rfl, .inl ⟨by decide, ?_⟩⟩⟩
  rw [List.map_singleton, hencodes.2]
  have hlater : (Sent.repost ⟨ascii "hi", by decide⟩).Later messageSize [] := rfl
  refine .cons ⟨by decide, ?_⟩ hlater .nil
  rw [List.drop_eq_nil_of_le (Nat.le_trans hle (by decide))]
  rfl

theorem chat_delivers_hello : ∃ tr s, Run (Recorded Step) .new tr s ∧ ∃ r : Receiver (s.sent 1),
    helperThread ((r.greeting :: r.segs).map some) = [.print (some (ascii "hi"))] := by
  obtain ⟨tr, s, hrun, hlog, hrecv⟩ := hello_run
  have hinbox : inbox 1 (deliveries [] helloRoom) = [.text (ascii "hi")] := by decide
  have hsent := (refines_of_run hrun).2 1
  rw [hlog, hinbox] at hsent
  obtain ⟨message, _, ⟨htype, hdata⟩, hnil, hmessages⟩ := List.forall₂_cons_left_iff.mp hsent
  rw [List.forall₂_nil_left_iff.mp hnil] at hmessages
  obtain ⟨r⟩ : Nonempty (Receiver (s.sent 1)) := by
    rw [hmessages]
    exact receiver_of_repost htype hdata
  obtain ⟨-, hshows⟩ := chat_delivers hrun (fun c => if 0 = c then helloSender else silentSender)
    fun c => by
      rw [hrecv]
      by_cases hc : 0 = c
      · rw [if_pos hc, if_pos hc]
        exact List.prefix_rfl
      · rw [if_neg hc]
        exact List.nil_prefix
  have hone := hshows 1 r
  rw [hlog, hinbox] at hone
  obtain ⟨o, _, ho, hrest, houtputs⟩ := List.forall₂_cons_left_iff.mp hone
  rw [List.forall₂_nil_left_iff.mp hrest] at houtputs
  exact ⟨tr, s, hrun, r, houtputs.trans (congrArg (fun o => [o]) ho)⟩

end SmallTrial.Chat.Room
