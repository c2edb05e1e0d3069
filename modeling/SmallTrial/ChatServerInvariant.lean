import Mathlib.Data.List.Nodup
import SmallTrial.ChatServerModel

/-! What the list of clients and the table of descriptors say about the connections in every run of the
server: an open descriptor belongs to one handler and has one entry. -/

namespace SmallTrial.Chat.Server

open Transition Text

/-! ### The cases of a dispatch -/

/-- What a dispatch of the message `mesRec` does. -/
inductive Served (clients : List Entry) (connFd : Nat) (mesRec : MesRec) : Effect → Prop where
  | disconnect : mesRec.type = some .disconnect →
      Served clients connFd mesRec (disconnect clients connFd)
  | reply {type : MsgType} {data : Buffer dataSize} : mesRec.type = some type → type.isRequest →
      type ≠ .sendMsg → Served clients connFd mesRec (reply clients connFd type data)
  | missed {text ip content : Bytes} {port : Int} {mes : Buffer dataSize} :
      mesRec.type = some .sendMsg → mesRec.data.string = some text →
      parse text = some (ip, port, content) → clients.find? (·.isAt ip port) = none →
      mes.string = some (ascii "no such client") →
      Served clients connFd mesRec (reply clients connFd .sendMsg mes)
  | forwarded {text ip content : Bytes} {port : Int} {mes fwd : Buffer dataSize} {e : Entry} :
      mesRec.type = some .sendMsg → mesRec.data.string = some text →
      parse text = some (ip, port, content) → clients.find? (·.isAt ip port) = some e →
      mes.string = some (ascii "forward success") → fwd.string = some content →
      Served clients connFd mesRec
        ⟨clients, [(e.sock, ⟨.repost, fwd⟩), (connFd, ⟨.sendMsg, mes⟩)], false⟩
  | ignored : (∀ type, mesRec.type = some type → type.isRequest = false ∧ type ≠ .disconnect) →
      Served clients connFd mesRec ⟨clients, [], false⟩

theorem parse_content {text ip content : Bytes} {port : Int}
    (h : parse text = some (ip, port, content)) : content ⊆ text ∧ content.length ≤ text.length := by
  obtain ⟨_, _, heq⟩ := Option.bind_eq_some_iff.mp h
  cases heq
  exact ⟨List.Subset.trans (subset_after _ _) (subset_after _ _),
    (length_after_le _ _).trans (length_after_le _ _)⟩

theorem Served.of_sendMsg {clients : List Entry} {connFd : Nat} {mesRec : MesRec} {env : Env}
    {effect : Effect} (h : sendMsg clients connFd mesRec.data env = some effect)
    (htype : mesRec.type = some .sendMsg) : Served clients connFd mesRec effect := by
  obtain ⟨text, htext, h⟩ := Option.bind_eq_some_iff.mp h
  obtain ⟨⟨ip, port, content⟩, hparse, h⟩ := Option.bind_eq_some_iff.mp h
  dsimp only at h
  split at h
  · rename_i hidx
    obtain ⟨mes, hmes, heq⟩ := Option.bind_eq_some_iff.mp h
    cases heq
    have hfind : clients.find? (·.isAt ip port) = none := by
      rw [List.find?_eq_none]
      intro e he
      simpa using List.findIdx?_eq_none_iff.mp hidx e he
    exact .missed htype htext hparse hfind (Buffer.string_strcpy hmes (by decide))
  · rename_i target hidx
    obtain ⟨mes, hmes, h⟩ := Option.bind_eq_some_iff.mp h
    obtain ⟨fwd, hfwd, h⟩ := Option.bind_eq_some_iff.mp h
    obtain ⟨e, he, heq⟩ := Option.bind_eq_some_iff.mp h
    cases heq
    have hfind : clients.find? (·.isAt ip port) = some e := by
      rw [List.find?_eq_bind_findIdx?_getElem?, hidx]
      exact he
    have hcontent : 0 ∉ content := fun hmem =>
      (Buffer.of_string_eq htext).1 ((parse_content hparse).1 hmem)
    exact .forwarded htype htext hparse hfind (Buffer.string_strcpy hmes (by decide))
      (Buffer.string_strcpy hfwd hcontent)

theorem Served.of_dispatch {clients : List Entry} {connFd : Nat} {mesRec : MesRec} {env : Env}
    {effect : Effect} (h : dispatch clients connFd mesRec env = some effect) :
    Served clients connFd mesRec effect := by
  rw [dispatch] at h
  split at h
  · cases h
    exact .disconnect ‹_›
  · obtain ⟨data, _, heq⟩ := Option.bind_eq_some_iff.mp h
    cases heq
    exact .reply ‹_› rfl nofun
  · obtain ⟨data, _, heq⟩ := Option.bind_eq_some_iff.mp h
    cases heq
    exact .reply ‹_› rfl nofun
  · obtain ⟨data, _, heq⟩ := Option.bind_eq_some_iff.mp h
    cases heq
    exact .reply ‹_› rfl nofun
  · exact .of_sendMsg h ‹_›
  · cases h
    refine .ignored fun type htype => ?_
    cases type <;> first | contradiction | exact ⟨rfl, nofun⟩

/-- Only `DISCONNECT` changes the list or leaves the loop. -/
theorem Served.keeps {clients : List Entry} {connFd : Nat} {mesRec : MesRec} {effect : Effect}
    (h : Served clients connFd mesRec effect) (htype : mesRec.type ≠ some .disconnect) :
    effect.clients = clients ∧ effect.closes = false := by
  cases h with
  | disconnect hdisconnect => exact absurd hdisconnect htype
  | _ => exact ⟨rfl, rfl⟩

theorem dispatch_of_disconnect {clients : List Entry} {connFd : Nat} {mesRec : MesRec} (env : Env)
    (htype : mesRec.type = some .disconnect) :
    dispatch clients connFd mesRec env = some (disconnect clients connFd) := by
  rw [dispatch, htype]

theorem disconnect_clients (clients : List Entry) (connFd : Nat) :
    (disconnect clients connFd).clients = clients.eraseP (·.sock = connFd) := by
  rw [List.eraseP_eq_eraseIdx, disconnect]
  cases clients.findIdx? (·.sock = connFd) <;> rfl

/-! ### The connection of a step -/

def Event.conn : Event → Nat
  | .register c _ | .leave c | .recv c _ | .dispatch c _ _ _ | .abort c _ => c

/-- A step changes the handler and the peer of its own connection only. -/
theorem Step.frame {s s' : State} {e : Event} (h : Step s e s') {c : Nat} (hc : c ≠ e.conn) :
    s'.handler c = s.handler c ∧ s'.peer c = s.peer c := by
  cases h with
  | register _ _ _ => exact ⟨Function.update_of_ne hc _ _, rfl⟩
  | leave _ _ _ => exact ⟨rfl, Function.update_of_ne hc _ _⟩
  | recvError _ _ _ => exact ⟨rfl, rfl⟩
  | recvEnd _ _ _ _ => exact ⟨Function.update_of_ne hc _ _, Function.update_of_ne hc _ _⟩
  | recvBytes _ _ _ _ _ _ => exact ⟨Function.update_of_ne hc _ _, rfl⟩
  | dispatch _ _ _ _ => exact ⟨Function.update_of_ne hc _ _, rfl⟩
  | abort _ _ _ _ => exact ⟨rfl, rfl⟩

/-! ### Open descriptors -/

/-- The descriptor a handler in its loop holds. -/
def Handler.openFd (h : Handler) : Option Nat := if h.pc = .finished then none else some h.connFd

theorem Handler.openFd_of_ne {h : Handler} (hpc : h.pc ≠ .finished) : h.openFd = some h.connFd :=
  if_neg hpc

def State.openFd (s : State) (c : Nat) : Option Nat := (s.handler c).bind Handler.openFd

/-- Connection `c` has the entry `e`. -/
structure Registered (tr : List Event) (s : State) : Prop where
  files_iff : ∀ fd c, s.files fd = some c ↔ s.openFd c = some fd
  entry : ∀ e ∈ s.clients, ∃ c, s.files e.sock = some c ∧ .register c e ∈ tr
  listed : ∀ fd c, s.files fd = some c → ∃ e ∈ s.clients, e.sock = fd
  nodup : (s.clients.map Entry.sock).Nodup

namespace Registered

variable {tr : List Event} {s s' : State}

theorem init : Registered [] .new := ⟨fun _ _ => iff_of_false nofun nofun, nofun, nofun, .nil⟩

/-- The descriptor of a handler in its loop stands for the connection of the handler. -/
theorem owner (H : Registered tr s) {c : Nat} {h : Handler} (hs : s.handler c = some h)
    (hpc : h.pc ≠ .finished) : s.files h.connFd = some c := by
  rw [H.files_iff, State.openFd, hs]
  exact Handler.openFd_of_ne hpc

/-- Steps that neither open nor close a descriptor. -/
theorem keep (H : Registered tr s) (e : Event) (hclients : s'.clients = s.clients)
    (hfiles : s'.files = s.files) (hopen : s'.openFd = s.openFd) : Registered (tr ++ [e]) s' := by
  refine ⟨?_, ?_, ?_, hclients ▸ H.nodup⟩
  · rw [hfiles, hopen]
    exact H.files_iff
  · rw [hclients, hfiles]
    intro x hx
    obtain ⟨c, hc, hmem⟩ := H.entry x hx
    exact ⟨c, hc, List.mem_append_left _ hmem⟩
  · rw [hclients, hfiles]
    exact H.listed

theorem openFd_setHandler (s : State) (c : Nat) (h : Handler) :
    (s.setHandler c h).openFd = Function.update s.openFd c h.openFd := by
  exact Function.comp_update (·.bind Handler.openFd) s.handler c (some h)

theorem openFd_setHandler_of_eq {c : Nat} {h h' : Handler} (hs : s.handler c = some h)
    (hopen : h'.openFd = h.openFd) : (s.setHandler c h').openFd = s.openFd := by
  rw [openFd_setHandler, hopen, Function.update_eq_self_iff, State.openFd, hs]
  rfl

theorem step_register (H : Registered tr s) {c : Nat} {e : Entry} {mesRec : MesRec}
    (hc : s.handler c = none) (hfd : s.files e.sock = none) :
    Registered (tr ++ [.register c e]) (s.register c e mesRec) := by
  have hnew : s.openFd c = none := by rw [State.openFd, hc]; rfl
  have hopen : (s.register c e mesRec).openFd = Function.update s.openFd c (some e.sock) :=
    openFd_setHandler s c ⟨e.sock, mesRec, .receiving⟩
  have hother : ∀ x ∈ s.clients, x.sock ≠ e.sock := by
    intro x hx heq
    obtain ⟨c', hc', -⟩ := H.entry x hx
    rw [heq, hfd] at hc'
    cases hc'
  constructor
  case files_iff =>
      intro fd c'
      rw [hopen]
      show Function.update s.files e.sock (some c) fd = some c' ↔ _
      by_cases hf : fd = e.sock <;> by_cases hcc : c' = c
      · rw [hf, hcc, Function.update_self, Function.update_self]
        exact iff_of_true rfl rfl
      · rw [hf, Function.update_self, Function.update_of_ne hcc, ← H.files_iff, hfd]
        exact iff_of_false (fun h => hcc (Option.some.inj h).symm) nofun
      · rw [hcc, Function.update_of_ne hf, Function.update_self, H.files_iff, hnew]
        exact iff_of_false nofun fun h => hf (Option.some.inj h).symm
      · rw [Function.update_of_ne hf, Function.update_of_ne hcc, H.files_iff]
  case entry =>
      intro x hx
      show ∃ c', Function.update s.files e.sock (some c) x.sock = some c' ∧ _
      rcases List.mem_append.mp hx with hold | hnew
      · obtain ⟨c', hc', hmem⟩ := H.entry x hold
        rw [Function.update_of_ne (hother x hold)]
        exact ⟨c', hc', List.mem_append_left _ hmem⟩
      · rw [List.mem_singleton.mp hnew, Function.update_self]
        exact ⟨c, rfl, List.mem_append_right _ (List.mem_singleton.mpr rfl)⟩
  case listed =>
      intro fd c' hc'
      by_cases hf : fd = e.sock
      · exact ⟨e, List.mem_append_right _ (List.mem_singleton.mpr rfl), hf.symm⟩
      · have hold : s.files fd = some c' := (Function.update_of_ne hf _ s.files).symm.trans hc'
        obtain ⟨x, hx, heq⟩ := H.listed fd c' hold
        exact ⟨x, List.mem_append_left _ hx, heq⟩
  case nodup =>
      show ((s.clients ++ [e]).map Entry.sock).Nodup
      rw [List.map_append, List.map_singleton, List.nodup_append]
      refine ⟨H.nodup, List.nodup_singleton _, fun fd hfd' fd' hnew heq => ?_⟩
      obtain ⟨x, hx, rfl⟩ := List.mem_map.mp hfd'
      exact hother x hx (heq.trans (List.mem_singleton.mp hnew))

/-- The search for the descriptor of a handler finds the entry of its connection, and no other entry has
this descriptor. -/
theorem erase_own (H : Registered tr s) {fd c : Nat} (hfd : s.files fd = some c) :
    ∃ l₁ e l₂, s.clients = l₁ ++ e :: l₂ ∧ s.clients.eraseP (·.sock = fd) = l₁ ++ l₂ ∧ e.sock = fd ∧
      .register c e ∈ tr ∧ ∀ x ∈ l₁ ++ l₂, x.sock ≠ fd := by
  obtain ⟨x, hx, hsock⟩ := H.listed fd c hfd
  obtain ⟨e, l₁, l₂, -, he, hsplit, herase⟩ :=
    List.exists_of_eraseP (p := fun e => e.sock = fd) hx (decide_eq_true hsock)
  have hfd' : e.sock = fd := of_decide_eq_true he
  have hmem : e ∈ s.clients := hsplit ▸ List.mem_append_right _ List.mem_cons_self
  obtain ⟨c', hc', hreg⟩ := H.entry e hmem
  rw [hfd', hfd, Option.some.injEq] at hc'
  refine ⟨l₁, e, l₂, hsplit, herase, hfd', hc' ▸ hreg, fun y hy heq => ?_⟩
  have hnodup := H.nodup
  rw [hsplit, List.map_append, List.map_cons, List.nodup_middle, List.nodup_cons, ← List.map_append]
    at hnodup
  exact hnodup.1 (List.mem_map.mpr ⟨y, hy, heq.trans hfd'.symm⟩)

theorem step_close (H : Registered tr s) {c : Nat} {h : Handler} {effect : Effect} (ev : Event)
    (hs : s.handler c = some h) (hpc : h.pc ≠ .finished)
    (hclients : effect.clients = s.clients.eraseP (·.sock = h.connFd)) (hcloses : effect.closes) :
    Registered (tr ++ [ev]) (s.served c h effect) := by
  have howner := H.owner hs hpc
  have hold : s.openFd c = some h.connFd := (H.files_iff _ _).mp howner
  have hopen : (s.served c h effect).openFd = Function.update s.openFd c none := by
    refine (openFd_setHandler s c _).trans ?_
    rw [hcloses]
    rfl
  have hfiles : (s.served c h effect).files = Function.update s.files h.connFd none := by
    rw [State.served, hcloses]
    rfl
  obtain ⟨l₁, e, l₂, hsplit, herase, hfd, -, hne⟩ := H.erase_own howner
  have hmem : ∀ x, x ∈ effect.clients ↔ x ∈ s.clients ∧ x.sock ≠ h.connFd := by
    intro x
    rw [hclients, herase, hsplit, List.mem_append, List.mem_append, List.mem_cons]
    refine ⟨fun hx => ⟨?_, hne x (List.mem_append.mpr hx)⟩, fun ⟨hx, hx'⟩ => ?_⟩
    · exact hx.imp_right .inr
    · rcases hx with h | rfl | h
      · exact .inl h
      · exact absurd hfd hx'
      · exact .inr h
  constructor
  case files_iff =>
      intro fd c'
      rw [hopen, hfiles]
      by_cases hf : fd = h.connFd <;> by_cases hcc : c' = c
      · rw [hf, hcc, Function.update_self, Function.update_self]
        exact iff_of_false nofun nofun
      · rw [hf, Function.update_self, Function.update_of_ne hcc, ← H.files_iff,
          howner]
        exact iff_of_false nofun fun h => hcc (Option.some.inj h).symm
      · rw [hcc, Function.update_of_ne hf, Function.update_self, H.files_iff, hold]
        exact iff_of_false (fun h => hf (Option.some.inj h).symm) nofun
      · rw [Function.update_of_ne hf, Function.update_of_ne hcc, H.files_iff]
  case entry =>
      intro x hx
      rw [hfiles]
      obtain ⟨hx, hne⟩ := (hmem x).mp hx
      obtain ⟨c', hc', hreg⟩ := H.entry x hx
      rw [Function.update_of_ne hne]
      exact ⟨c', hc', List.mem_append_left _ hreg⟩
  case listed =>
      intro fd c' hc'
      rw [hfiles] at hc'
      have hf : fd ≠ h.connFd := by
        rintro rfl
        rw [Function.update_self] at hc'
        cases hc'
      rw [Function.update_of_ne hf] at hc'
      obtain ⟨x, hx, rfl⟩ := H.listed fd c' hc'
      exact ⟨x, (hmem x).mpr ⟨hx, hf⟩, rfl⟩
  case nodup =>
      show (effect.clients.map Entry.sock).Nodup
      rw [hclients]
      exact H.nodup.sublist (List.eraseP_sublist.map _)

theorem step {e : Event} (H : Registered tr s) (h : Step s e s') : Registered (tr ++ [e]) s' := by
  cases h with
  | register _ hc hfd => exact H.step_register hc hfd
  | leave _ hs _ => exact H.keep _ rfl rfl rfl
  | recvError _ hs hpc => exact H.keep _ rfl rfl rfl
  | recvEnd _ hs hpc _ =>
      refine H.keep _ rfl rfl (openFd_setHandler_of_eq hs ?_)
      rw [Handler.openFd_of_ne HandlerPc.noConfusion, Handler.openFd_of_ne (by rw [hpc]; exact nofun)]
  | recvBytes _ hs hpc _ _ _ =>
      refine H.keep _ rfl rfl (openFd_setHandler_of_eq hs ?_)
      rw [Handler.openFd_of_ne HandlerPc.noConfusion, Handler.openFd_of_ne (by rw [hpc]; exact nofun)]
  | @dispatch c h env effect _ hs hpc hdispatch =>
      by_cases htype : h.mesRec.type = some .disconnect
      · rw [dispatch_of_disconnect env htype, Option.some.injEq] at hdispatch
        subst hdispatch
        exact H.step_close _ hs (by rw [hpc]; exact nofun) (disconnect_clients _ _) rfl
      · obtain ⟨hclients, hcloses⟩ := (Served.of_dispatch hdispatch).keeps htype
        refine H.keep _ hclients (by rw [State.served, hcloses]; rfl) ?_
        refine openFd_setHandler_of_eq hs ?_
        rw [hcloses, Handler.openFd_of_ne HandlerPc.noConfusion,
          Handler.openFd_of_ne (by rw [hpc]; exact nofun)]
  | abort _ _ _ _ => exact H.keep _ rfl rfl rfl

end Registered

theorem registered_of_run {tr : List Event} {s : State} (h : Run Step .new tr s) : Registered tr s :=
  h.invariant Registered .init fun _ _ _ _ _ H hstep => H.step hstep

end SmallTrial.Chat.Server
