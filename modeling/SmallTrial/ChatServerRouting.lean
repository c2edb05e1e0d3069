import SmallTrial.ChatServerInvariant

/-! Replies and routing of the `CSocket` server: each request gets one reply of its type, and the content
of a `SEND_MSG` goes to the first client at the address and port it names. -/

namespace SmallTrial.Chat.Server

open Transition Text

/-- `data` holds `ip:port:content`, with the port in decimal. -/
def IsRequest (data : Buffer dataSize) (ip : Bytes) (port : Nat) (content : Bytes) : Prop :=
  ∃ digits, data.string = some (ip ++ 58 :: (digits ++ 58 :: content)) ∧ 58 ∉ ip ∧ digits ≠ [] ∧
    (∀ d ∈ digits, isDigit d) ∧ ofDigits digits = port ∧ port < 2 ^ 31

/-- A `SEND_MSG` is dispatched with data of the form `ip:port:content`, and a client list fits its
buffer. -/
def WellFormed (s : State) : Event → Prop
  | .dispatch c env _ _ | .abort c env => ∀ h, s.handler c = some h →
      (h.mesRec.type = some .sendMsg → ∃ ip port content, IsRequest h.mesRec.data ip port content) ∧
        (h.mesRec.type = some .getClientList → ∃ data, appendLines s.clients env.mes = some data)
  | _ => True

/-- What is sent for a `SEND_MSG` to `ip` and `port`. -/
inductive Forwards (clients : List Entry) (connFd : Nat) (ip : Bytes) (port : Nat) (content : Bytes) :
    List (Nat × Message) → Prop where
  | missed {mes : Buffer dataSize} : (∀ x ∈ clients, ¬(x.addr = ip ∧ x.port = port)) →
      mes.string = some (ascii "no such client") →
      Forwards clients connFd ip port content [(connFd, ⟨.sendMsg, mes⟩)]
  | forwarded {l₁ l₂ : List Entry} {x : Entry} {mes fwd : Buffer dataSize} :
      clients = l₁ ++ x :: l₂ → (∀ y ∈ l₁, ¬(y.addr = ip ∧ y.port = port)) →
      x.addr = ip → x.port = port → fwd.string = some content →
      mes.string = some (ascii "forward success") →
      Forwards clients connFd ip port content
        [(x.sock, ⟨.repost, fwd⟩), (connFd, ⟨.sendMsg, mes⟩)]

def Event.sends : Event → List (Nat × Message)
  | .dispatch _ _ _ sends => sends
  | _ => []

/-- What a step sends, and what it does to the list of clients. -/
structure Routed (tr : List Event) (s : State) (e : Event) (s' : State) : Prop where
  sent_eq : ∀ c, s'.sent c = s.sent c ++ deliver s.files e.sends c
  repost : ∀ p ∈ e.sends, p.2.type = .repost → ∃ c env, e = .dispatch c env (some .sendMsg) e.sends
  forwards : ∀ c env sends, e = .dispatch c env (some .sendMsg) sends →
    ∀ h ip port content, s.handler c = some h → IsRequest h.mesRec.data ip port content →
      Forwards s.clients h.connFd ip port content sends
  removed : ∀ c env sends, e = .dispatch c env (some .disconnect) sends →
    ∃ l₁ x l₂, s.clients = l₁ ++ x :: l₂ ∧ s'.clients = l₁ ++ l₂ ∧ .register c x ∈ tr
  kept : (∀ c env sends, e ≠ .dispatch c env (some .disconnect) sends) → s.clients <+: s'.clients

/-- The event dispatches a request of this type for connection `c`. -/
def Event.dispatches (c : Nat) (type : MsgType) : Event → Bool
  | .dispatch c' _ type' _ => c' = c && type' = some type
  | _ => false

def requests (tr : List Event) (c : Nat) (type : MsgType) : Nat := tr.countP (Event.dispatches c type)

def replies (s : State) (c : Nat) (type : MsgType) : Nat := (s.sent c).countP (·.type = type)

/-! ### Well-formed requests -/

theorem parse_of_isRequest {data : Buffer dataSize} {ip content : Bytes} {port : Nat}
    (h : IsRequest data ip port content) :
    ∃ text, data.string = some text ∧ parse text = some (ip, (port : Int), content) := by
  obtain ⟨digits, hdata, hip, hne, hdigit, hport, hlt⟩ := h
  have hcolon : 58 ∉ digits := fun hmem => absurd (hdigit _ hmem) (by decide)
  refine ⟨_, hdata, ?_⟩
  rw [parse, before_append_cons hip, after_append_cons hip, before_append_cons hcolon,
    after_append_cons hcolon, stoi_of_digits hne hdigit (hport ▸ hlt), hport]
  rfl

theorem getTime_isSome (clients : List Entry) (connFd : Nat) (env : Env) :
    ∃ effect, getTime clients connFd env = some effect := by
  have habs : env.time.toInt.natAbs < 10 ^ 19 := by
    have hlow := BitVec.le_toInt env.time
    have hhigh := BitVec.toInt_lt (x := env.time)
    omega
  have hlen := length_decimal_le (by decide) habs
  obtain ⟨data, hdata⟩ := env.mes.strcpy_isSome (t := decimal env.time.toInt)
    (Nat.lt_of_le_of_lt hlen (by decide))
  exact ⟨_, by rw [getTime, hdata]; rfl⟩

theorem sendMsg_isSome {data : Buffer dataSize} {text : Bytes} {p : Bytes × Int × Bytes}
    (clients : List Entry) (connFd : Nat) (env : Env) (hdata : data.string = some text)
    (hparse : parse text = some p) : ∃ effect, sendMsg clients connFd data env = some effect := by
  obtain ⟨ip, port, content⟩ := p
  cases hidx : clients.findIdx? (·.isAt ip port) with
  | none =>
      obtain ⟨mes, hmes⟩ := env.mes.strcpy_isSome (t := ascii "no such client") (by decide)
      refine ⟨reply clients connFd .sendMsg mes, ?_⟩
      simp [sendMsg, hdata, hparse, hidx, hmes]
  | some target =>
      obtain ⟨mes, hmes⟩ := env.mes.strcpy_isSome (t := ascii "forward success") (by decide)
      have hlt : content.length < dataSize :=
        Nat.lt_of_le_of_lt (parse_content hparse).2 (Buffer.of_string_eq hdata).2
      obtain ⟨fwd, hfwd⟩ := env.mesFwd.strcpy_isSome hlt
      obtain ⟨hi, -⟩ := List.findIdx?_eq_some_iff_getElem.mp hidx
      refine ⟨⟨clients, [(clients[target].sock, ⟨.repost, fwd⟩), (connFd, ⟨.sendMsg, mes⟩)], false⟩, ?_⟩
      simp [sendMsg, hdata, hparse, hidx, hmes, hfwd, List.getElem?_eq_getElem hi]

theorem getName_isSome (clients : List Entry) (connFd : Nat) (env : Env) :
    ∃ effect, getName clients connFd env = some effect := by
  obtain ⟨data, hdata⟩ := env.mes.strcpy_isSome (t := env.hostname)
    (Nat.lt_of_le_of_lt env.hostname_le (by decide))
  exact ⟨_, by rw [getName, hdata]; rfl⟩

theorem sendMsg_isSome_iff {clients : List Entry} {connFd : Nat} {data : Buffer dataSize} {env : Env} :
    (sendMsg clients connFd data env).isSome ↔
      ∃ text, data.string = some text ∧ (parse text).isSome := by
  constructor
  · intro hsome
    rw [sendMsg] at hsome
    cases htext : data.string with
    | none =>
        rw [htext] at hsome
        cases hsome
    | some text =>
        refine ⟨text, rfl, ?_⟩
        by_contra hparse
        rw [Option.not_isSome_iff_eq_none] at hparse
        rw [htext, Option.bind_eq_bind, Option.bind_some, hparse] at hsome
        cases hsome
  · rintro ⟨text, htext, hparse⟩
    obtain ⟨p, hp⟩ := Option.isSome_iff_exists.mp hparse
    obtain ⟨effect, heffect⟩ := sendMsg_isSome clients connFd env htext hp
    rw [heffect]
    rfl

/-- A well-formed request does not end the server. -/
theorem not_abort {s s' : State} {c : Nat} {env : Env} (h : Step s (.abort c env) s') :
    ¬WellFormed s (.abort c env) := by
  intro hwell
  cases h with
  | @abort _ h _ _ hs _ hnone =>
      obtain ⟨hsend, hlist⟩ := hwell h hs
      obtain ⟨effect, heffect⟩ : ∃ effect, dispatch s.clients h.connFd h.mesRec env = some effect := by
        unfold dispatch
        split
        · exact ⟨_, rfl⟩
        · exact getTime_isSome _ _ _
        · exact getName_isSome _ _ _
        · obtain ⟨data, hdata⟩ := hlist ‹_›
          exact ⟨_, by rw [getClientList, hdata]; rfl⟩
        · obtain ⟨ip, port, content, hrequest⟩ := hsend ‹_›
          obtain ⟨text, hdata, hparse⟩ := parse_of_isRequest hrequest
          exact sendMsg_isSome _ _ _ hdata hparse
        · exact ⟨_, rfl⟩
      rw [hnone] at heffect
      cases heffect

/-! ### What is sent -/

theorem deliver_cons (files : Nat → Option Nat) (p : Nat × Message) (sends : List (Nat × Message))
    (c : Nat) : deliver files (p :: sends) c =
      (if files p.1 = some c then [p.2] else []) ++ deliver files sends c := by
  rw [deliver, List.filter_cons]
  split <;> simp_all [deliver]

theorem deliver_nil (files : Nat → Option Nat) (c : Nat) : deliver files [] c = [] := rfl

theorem countP_deliver_cons (files : Nat → Option Nat) (p : Nat × Message)
    (sends : List (Nat × Message)) (c : Nat) (type : MsgType) :
    (deliver files (p :: sends) c).countP (·.type = type) =
      (if files p.1 = some c ∧ p.2.type = type then 1 else 0) +
        (deliver files sends c).countP (·.type = type) := by
  rw [deliver_cons, List.countP_append]
  by_cases hc : files p.1 = some c <;> simp [hc, List.countP_singleton]

/-- A dispatch sends one reply, of the type of the request, to the connection it came on. -/
theorem replies_of_served {files : Nat → Option Nat} {clients : List Entry} {connFd c : Nat}
    {mesRec : MesRec} {effect : Effect} (h : Served clients connFd mesRec effect)
    (hfd : files connFd = some c) {type : MsgType} (htype : type.isRequest) (c' : Nat) :
    (deliver files effect.sends c').countP (·.type = type) =
      if c = c' ∧ mesRec.type = some type then 1 else 0 := by
  cases h with
  | disconnect hdisconnect =>
      rw [show (disconnect clients connFd).sends = [] from rfl, deliver_nil, hdisconnect, if_neg]
      · rfl
      · rintro ⟨-, ⟨⟩⟩
        cases htype
  | reply hreply _ _ =>
      rw [reply, countP_deliver_cons, deliver_nil, hreply, hfd]
      simp
  | missed hsend _ _ _ _ =>
      rw [reply, countP_deliver_cons, deliver_nil, hsend, hfd]
      simp
  | forwarded hsend _ _ _ _ _ =>
      rw [countP_deliver_cons, countP_deliver_cons, deliver_nil, hsend, hfd, if_neg]
      · simp
      · rintro ⟨-, ⟨⟩⟩
        cases htype
  | ignored hother =>
      rw [deliver_nil, if_neg]
      · rfl
      · rintro ⟨-, hrequest⟩
        rw [(hother type hrequest).1] at htype
        cases htype

theorem Served.forwards {clients : List Entry} {connFd : Nat} {mesRec : MesRec} {effect : Effect}
    (h : Served clients connFd mesRec effect) (htype : mesRec.type = some .sendMsg) {ip content : Bytes}
    {port : Nat} (hrequest : IsRequest mesRec.data ip port content) :
    Forwards clients connFd ip port content effect.sends := by
  obtain ⟨text, hdata, hparse⟩ := parse_of_isRequest hrequest
  cases h with
  | disconnect hother => cases hother.symm.trans htype
  | reply hreply _ hne => exact absurd (Option.some.inj (hreply.symm.trans htype)) hne
  | missed _ hdata' hparse' hfind hmes =>
      cases hdata.symm.trans hdata'
      cases hparse.symm.trans hparse'
      refine .missed (fun x hx hat => ?_) hmes
      exact List.find?_eq_none.mp hfind x hx (Entry.isAt_iff.mpr hat)
  | forwarded _ hdata' hparse' hfind hmes hfwd =>
      cases hdata.symm.trans hdata'
      cases hparse.symm.trans hparse'
      obtain ⟨hat, l₁, l₂, hsplit, hfirst⟩ := List.find?_eq_some_iff_append.mp hfind
      obtain ⟨haddr, hport⟩ := Entry.isAt_iff.mp hat
      refine .forwarded hsplit (fun y hy hat' => ?_) haddr hport hfwd hmes
      have hnot := hfirst y hy
      rw [Entry.isAt_iff.mpr hat'] at hnot
      cases hnot
  | ignored hother => cases (hother _ htype).1

/-- A `REPOST` is sent for a `SEND_MSG`, to the descriptor of an entry. -/
theorem Served.repost {clients : List Entry} {connFd : Nat} {mesRec : MesRec} {effect : Effect}
    (h : Served clients connFd mesRec effect) {p : Nat × Message} (hp : p ∈ effect.sends)
    (htype : p.2.type = .repost) : mesRec.type = some .sendMsg ∧ ∃ x ∈ clients, x.sock = p.1 := by
  cases h with
  | disconnect _ => cases hp
  | reply _ hrequest _ =>
      rw [List.mem_singleton.mp hp] at htype
      cases htype
      cases hrequest
  | missed _ _ _ _ _ =>
      rw [List.mem_singleton.mp hp] at htype
      cases htype
  | forwarded hsend _ _ hfind _ _ =>
      rcases List.mem_cons.mp hp with rfl | hp
      · exact ⟨hsend, _, List.mem_of_find?_eq_some hfind, rfl⟩
      · rw [List.mem_singleton.mp hp] at htype
        cases htype
  | ignored _ => cases hp

theorem routed_of_step {tr : List Event} {s s' : State} {e : Event} (H : Registered tr s)
    (h : Step s e s') : Routed tr s e s' := by
  have hquiet : ∀ {e : Event} {s' : State}, s'.sent = s.sent → s.clients <+: s'.clients →
      (∀ c env type sends, e ≠ .dispatch c env type sends) → Routed tr s e s' := by
    intro e s' hsent hclients hne
    have hsends : e.sends = [] := by
      cases e with
      | dispatch c env type sends => exact absurd rfl (hne c env type sends)
      | _ => rfl
    refine ⟨fun c => ?_, fun p hp => ?_, fun c env sends he => absurd he (hne _ _ _ _),
      fun c env sends he => absurd he (hne _ _ _ _), fun _ => hclients⟩
    · rw [hsends, deliver_nil, List.append_nil, hsent]
    · rw [hsends] at hp
      cases hp
  cases h with
  | register _ _ _ => exact hquiet rfl (List.prefix_append _ _) nofun
  | leave _ _ _ => exact hquiet rfl (List.prefix_refl _) nofun
  | recvError _ _ _ => exact hquiet rfl (List.prefix_refl _) nofun
  | recvEnd _ _ _ _ => exact hquiet rfl (List.prefix_refl _) nofun
  | recvBytes _ _ _ _ _ _ => exact hquiet rfl (List.prefix_refl _) nofun
  | abort _ _ _ _ => exact hquiet rfl (List.prefix_refl _) nofun
  | @dispatch c h env effect _ hs hpc hdispatch =>
      have hserved := Served.of_dispatch hdispatch
      have howner := H.owner hs (by rw [hpc]; exact nofun)
      refine ⟨fun _ => rfl, fun p hp htype => ?_, ?_, ?_, ?_⟩
      · exact ⟨c, env, by rw [(hserved.repost hp htype).1]; rfl⟩
      · rintro _ _ _ heq h' ip port content hs' hrequest
        injection heq with hc _ htype hsends
        subst hc
        cases hs.symm.trans hs'
        exact hsends ▸ hserved.forwards htype hrequest
      · rintro _ _ _ heq
        injection heq with hc _ htype _
        subst hc
        rw [dispatch_of_disconnect env htype, Option.some.injEq] at hdispatch
        obtain ⟨l₁, x, l₂, hsplit, herase, -, hreg, -⟩ := H.erase_own howner
        refine ⟨l₁, x, l₂, hsplit, ?_, hreg⟩
        rw [← herase, ← disconnect_clients, hdispatch]
        rfl
      · intro hne
        have htype : h.mesRec.type ≠ some .disconnect := fun htype =>
          hne c env effect.sends (by rw [htype])
        exact (hserved.keeps htype).1 ▸ List.prefix_refl _

/-! ### Runs -/

theorem requests_snoc (tr : List Event) (e : Event) (c : Nat) (type : MsgType) :
    requests (tr ++ [e]) c type = requests tr c type + if e.dispatches c type then 1 else 0 := by
  rw [requests, List.countP_append, List.countP_singleton, requests]

theorem replies_step {tr : List Event} {s s' : State} {e : Event} (H : Registered tr s)
    (h : Step s e s') {c : Nat} {type : MsgType} (htype : type.isRequest)
    (heq : replies s c type = requests tr c type) :
    replies s' c type = requests (tr ++ [e]) c type := by
  rw [requests_snoc, ← heq]
  cases h with
  | @dispatch c' h env effect _ hs hpc hdispatch =>
      have howner := H.owner hs (by rw [hpc]; exact nofun)
      have hcount := replies_of_served (Served.of_dispatch hdispatch) howner htype c
      rw [replies, State.served, List.countP_append, hcount]
      simp [Event.dispatches, replies]
  | _ => rfl

/-- **Replies and routing.** In every run with well-formed requests the server keeps going, each
connection has one reply for each request dispatched for it, the descriptors in the list are distinct and
stand for the connections registered under them, and each step sends and removes what `Routed` says. -/
theorem server_routes {tr : List Event} {s : State} (h : Run (Restrict Step WellFormed) .new tr s) :
    (∀ c type, type.isRequest → replies s c type = requests tr c type) ∧
      (∀ c env, .abort c env ∉ tr) ∧ (s.clients.map Entry.sock).Nodup ∧
      (∀ x ∈ s.clients, ∃ c, s.files x.sock = some c ∧ .register c x ∈ tr) ∧
      ∀ e s', Restrict Step WellFormed s e s' → Routed tr s e s' := by
  have H := registered_of_run h.of_restrict
  refine ⟨fun c type htype => ?_, fun c env hmem => ?_, H.nodup, H.entry,
    fun e s' hstep => routed_of_step H hstep.1⟩
  · refine h.invariant (fun tr s => replies s c type = requests tr c type) rfl
      fun tr a e b hrun heq hstep => ?_
    exact replies_step (registered_of_run hrun.of_restrict) hstep.1 htype heq
  · refine h.forall_mem (P := fun e => e ≠ .abort c env) (fun _ _ _ _ _ hstep heq => ?_) _ hmem rfl
    subst heq
    exact not_abort hstep.1 hstep.2

/-- The entries of two clients. -/
def firstEntry : Entry := ⟨4, ascii "10.0.0.1", 5000⟩

def secondEntry : Entry := ⟨5, ascii "10.0.0.2", 6000⟩

/-- The bytes of a `SEND_MSG` to the second client. -/
def greeting : Bytes := [6, 0, 0, 0, 0, 0, 0, 0] ++ ascii "10.0.0.2:6000:hi" ++ [0]

def zeroEnv : Env := ⟨0, [], .zero _, .zero _, Nat.zero_le _⟩

theorem greeting_message : ∃ mesRec : MesRec, (Buffer.zero messageSize).write 0 greeting = some mesRec ∧
    mesRec.type = some .sendMsg ∧ IsRequest mesRec.data (ascii "10.0.0.2") 6000 (ascii "hi") := by
  have hgreeting : ((Buffer.zero messageSize).write 0 greeting).map
      (fun m => (MesRec.type m, (MesRec.data m).string)) =
        some (some .sendMsg, some (ascii "10.0.0.2:6000:hi")) := by decide +kernel
  obtain ⟨mesRec, hwrite, hmes⟩ := Option.map_eq_some_iff.mp hgreeting
  obtain ⟨htype, hdata⟩ := Prod.mk.inj hmes
  have hdigit : ∀ d ∈ ascii "6000", isDigit d := List.all_eq_true.mp (by decide)
  exact ⟨mesRec, hwrite, htype, ascii "6000", hdata, by decide, by decide, hdigit, by decide,
    by decide⟩

theorem greeting_forwarded {mesRec : MesRec} (htype : mesRec.type = some .sendMsg)
    (hrequest : IsRequest mesRec.data (ascii "10.0.0.2") 6000 (ascii "hi")) :
    ∃ effect, dispatch [firstEntry, secondEntry] 4 mesRec zeroEnv = some effect ∧
      ∃ p ∈ effect.sends, p.1 = secondEntry.sock ∧ p.2.type = .repost := by
  obtain ⟨text, hdata, hparse⟩ := parse_of_isRequest hrequest
  obtain ⟨effect, hsend⟩ := sendMsg_isSome [firstEntry, secondEntry] 4 zeroEnv hdata hparse
  have hdispatch : dispatch [firstEntry, secondEntry] 4 mesRec zeroEnv = some effect := by
    rw [dispatch, htype]
    exact hsend
  refine ⟨effect, hdispatch, ?_⟩
  have hforwards := (Served.of_dispatch hdispatch).forwards htype hrequest
  generalize effect.sends = sends at hforwards
  cases hforwards with
  | missed hnone _ => exact absurd ⟨rfl, rfl⟩ (hnone secondEntry (by decide))
  | @forwarded l₁ l₂ x _ _ hsplit _ haddr _ _ _ =>
      refine ⟨_, List.mem_cons_self, ?_, rfl⟩
      have hmem : x ∈ [firstEntry, secondEntry] := hsplit ▸ List.mem_append_right _ List.mem_cons_self
      rcases List.mem_cons.mp hmem with rfl | hsecond
      · exact absurd haddr (by decide)
      · rw [List.mem_singleton.mp hsecond]

theorem server_routes_greeting : ∃ tr s, Run (Restrict Step WellFormed) .new tr s ∧
    replies s 0 .sendMsg = 1 ∧ (s.clients.map Entry.sock).Nodup := by
  obtain ⟨mesRec, hwrite, htype, hrequest⟩ := greeting_message
  obtain ⟨effect, hdispatch, -⟩ := greeting_forwarded htype hrequest
  let s₁ := State.new.register 0 firstEntry (.zero _)
  let s₂ := s₁.register 1 secondEntry (.zero _)
  let s₃ := s₂.setHandler 0 ⟨4, mesRec, .dispatching⟩
  have hfirst : Step .new (.register 0 firstEntry) s₁ := .register rfl rfl rfl
  have hsecond : Step s₁ (.register 1 secondEntry) s₂ := .register rfl rfl rfl
  have hrecv : Step s₂ (.recv 0 (some greeting)) s₃ := by
    have hs : s₂.handler 0 = some ⟨4, .zero _, .receiving⟩ := rfl
    exact .recvBytes rfl hs rfl nofun (List.cons_ne_nil _ _) hwrite
  have hserve : Step s₃ (.dispatch 0 zeroEnv mesRec.type effect.sends)
      (s₃.served 0 ⟨4, mesRec, .dispatching⟩ effect) := by
    have hs : s₃.handler 0 = some ⟨4, mesRec, .dispatching⟩ := rfl
    exact .dispatch (h := ⟨4, mesRec, .dispatching⟩) rfl hs rfl hdispatch
  have hwell : WellFormed s₃ (.dispatch 0 zeroEnv mesRec.type effect.sends) := by
    rintro h ⟨⟩
    exact ⟨fun _ => ⟨_, _, _, hrequest⟩, fun hlist => nomatch htype.symm.trans hlist⟩
  have hrun₂ : Run (Restrict Step WellFormed) .new
      [.register 0 firstEntry, .register 1 secondEntry] s₂ :=
    .snoc (.single ⟨hfirst, trivial⟩) ⟨hsecond, trivial⟩
  have hrun := (hrun₂.snoc ⟨hrecv, trivial⟩).snoc ⟨hserve, hwell⟩
  obtain ⟨hreplies, -, hnodup, -⟩ := server_routes hrun
  refine ⟨_, _, hrun, (hreplies 0 .sendMsg rfl).trans ?_, hnodup⟩
  rw [htype]
  rfl

end SmallTrial.Chat.Server
