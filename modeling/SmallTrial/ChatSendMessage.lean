import SmallTrial.ChatRequestDecoding
import SmallTrial.ChatServerRouting
import SmallTrial.TextDecimal

/-! `SEND_MSG` from the bytes that the client writes to what the server sends: which data the case handles
without an exception or a read behind its buffer, and which contents make the round trip in
`ip:port:content`. -/

namespace SmallTrial.Chat.Server

open Transition Text

/-! ### Robustness -/

/-- The handler of connection `c` ends the case of a `SEND_MSG`: it does not end the server, the list of
clients stays, the mutex is free again, and the sender gets one `SEND_MSG`. -/
structure Finishes (s : State) (c : Nat) (h : Handler) (env : Env) : Prop where
  not_abort : ∀ s', ¬ Step s (.abort c env) s'
  served : ∃ sends s', Step s (.dispatch c env (some .sendMsg) sends) s' ∧ s'.clients = s.clients ∧
    s'.handler c = some ⟨h.connFd, .zero messageSize, .receiving⟩ ∧
    sends.countP (fun p => p.1 = h.connFd ∧ p.2.type = .sendMsg) = 1

/-- The text where the port is expected. -/
def portText (text : Bytes) : Bytes := before 58 (after 58 text)

theorem parse_isSome_iff {text : Bytes} : (parse text).isSome ↔ (stoi (portText text)).isSome := by
  rw [parse, portText]
  cases stoi (before 58 (after 58 text)) with
  | none => exact Iff.rfl
  | some port => exact Iff.rfl

/-- One `SEND_MSG` goes to the sender, and the list of clients stays. -/
theorem Served.reply_once {clients : List Entry} {connFd : Nat} {mesRec : MesRec} {effect : Effect}
    (h : Served clients connFd mesRec effect) (htype : mesRec.type = some .sendMsg) :
    effect.clients = clients ∧ effect.closes = false ∧
      effect.sends.countP (fun p => p.1 = connFd ∧ p.2.type = .sendMsg) = 1 := by
  cases h with
  | disconnect htype' => cases htype'.symm.trans htype
  | reply htype' _ hne => exact absurd (Option.some.inj (htype'.symm.trans htype)) hne
  | missed => exact ⟨rfl, rfl, by simp [Server.reply]⟩
  | forwarded => exact ⟨rfl, rfl, by simp⟩
  | ignored hother => cases (hother _ htype).1

/-- **When the `SEND_MSG` case is robust.** The data must have a terminator, and the text where the port is
expected must start with a number of type `int`; then the case ends as it should, whatever the clients. -/
theorem sendMsg_finishes_iff {s : State} {c : Nat} {h : Handler} (env : Env) (hrun : s.aborted = false)
    (hs : s.handler c = some h) (hpc : h.pc = .dispatching) (htype : h.mesRec.type = some .sendMsg) :
    Finishes s c h env ↔ ∃ text, h.mesRec.data.string = some text ∧
      ∃ space sign number rest, portText text = space ++ (sign ++ number ++ rest) ∧
        IsNumeral space sign number rest := by
  have hdispatch : dispatch s.clients h.connFd h.mesRec env =
      sendMsg s.clients h.connFd h.mesRec.data env := by
    rw [dispatch, htype]
  have hsend : (sendMsg s.clients h.connFd h.mesRec.data env).isSome ↔
      ∃ text, h.mesRec.data.string = some text ∧ (stoi (portText text)).isSome := by
    simp only [sendMsg_isSome_iff, parse_isSome_iff]
  simp only [← stoi_isSome_iff]
  rw [← hsend, ← hdispatch]
  constructor
  · intro hfinishes
    by_contra hnone
    rw [Option.not_isSome_iff_eq_none] at hnone
    exact hfinishes.not_abort _ (.abort hrun hs hpc hnone)
  · intro hsome
    obtain ⟨effect, heffect⟩ := Option.isSome_iff_exists.mp hsome
    obtain ⟨hclients, hcloses, hsends⟩ := (Served.of_dispatch heffect).reply_once htype
    refine ⟨fun s' habort => ?_, effect.sends, s.served c h effect, ?_, hclients, ?_, hsends⟩
    · cases habort with
      | abort _ hs' _ hnone =>
          cases hs.symm.trans hs'
          rw [heffect] at hnone
          cases hnone
    · rw [← htype]
      exact .dispatch hrun hs hpc heffect
    · rw [State.served, hcloses]
      exact Function.update_self c _ s.handler

/-- A handler that has received these bytes. -/
def receivedState (mesRec : MesRec) : State :=
  { State.new with handler := Function.update State.new.handler 0 (some ⟨4, mesRec, .dispatching⟩) }

/-- The port of `a:b:c` is no number. -/
def noPort : Bytes := [6, 0, 0, 0, 0, 0, 0, 0] ++ ascii "a:b:c" ++ [0]

theorem sendMsg_aborts : ∃ mesRec : MesRec, (Buffer.zero messageSize).write 0 noPort = some mesRec ∧
    mesRec.type = some .sendMsg ∧
    ¬ Finishes (receivedState mesRec) 0 ⟨4, mesRec, .dispatching⟩ zeroEnv := by
  have hnoPort : ((Buffer.zero messageSize).write 0 noPort).map (fun m =>
      (MesRec.type m, (dispatch [] 4 m zeroEnv).isSome)) = some (some .sendMsg, false) := by
    decide +kernel
  obtain ⟨mesRec, hwrite, hmes⟩ := Option.map_eq_some_iff.mp hnoPort
  obtain ⟨htype, hdispatch⟩ := Prod.mk.inj hmes
  refine ⟨mesRec, hwrite, htype, fun hfinishes => ?_⟩
  have hhandler : (receivedState mesRec).handler 0 = some ⟨4, mesRec, .dispatching⟩ :=
    Function.update_self 0 _ State.new.handler
  exact hfinishes.not_abort _ (.abort rfl hhandler rfl (Option.not_isSome_iff_eq_none.mp
    (Bool.eq_false_iff.mp hdispatch)))

theorem sendMsg_finishes_greeting : ∃ mesRec : MesRec,
    (Buffer.zero messageSize).write 0 greeting = some mesRec ∧
      Finishes (receivedState mesRec) 0 ⟨4, mesRec, .dispatching⟩ zeroEnv := by
  obtain ⟨mesRec, hwrite, htype, -⟩ := greeting_message
  have hhandler : (receivedState mesRec).handler 0 = some ⟨4, mesRec, .dispatching⟩ :=
    Function.update_self 0 _ State.new.handler
  refine ⟨mesRec, hwrite, (sendMsg_finishes_iff zeroEnv rfl hhandler rfl htype).mpr ?_⟩
  have hdata : ((Buffer.zero messageSize).write 0 greeting).map (fun m => (MesRec.data m).string) =
      some (some (ascii "10.0.0.2:6000:hi")) := by decide +kernel
  rw [hwrite, Option.map_some] at hdata
  refine ⟨_, Option.some.inj hdata, [], [], ascii "6000", [], by decide, ?_⟩
  exact ⟨List.forall_mem_nil _, .inl rfl, by decide, List.all_eq_true.mp (by decide),
    by rintro _ ⟨⟩, by decide⟩

/-! ### Round trip -/

/-- `MAX_SIZE` -/
abbrev maxSize : Nat := 256

/-- `scanf("%s", s)` for `char s[n]`: the text goes into the array whatever its length. -/
def scanned (n : Nat) (text : Bytes) : Option Bytes := do
  let s ← (Buffer.zero n).strcpy text
  s.string

/-- `Client::sendToOtherClient`: what the two `sprintf` leave in `msg.data`, which is not initialised, for
the texts and the number that the user enters. There is no result if a text is written behind an array. -/
def sendToOtherClient (data : Buffer dataSize) (ip : Bytes) (port : Int) (content : Bytes) :
    Option (Buffer dataSize) := do
  let ip ← scanned maxSize ip
  let data ← data.strcpy (ip ++ ascii ":" ++ decimal port ++ ascii ":")
  let content ← scanned (maxSize - 50) content
  let i ← data.strlen
  data.write i (content ++ [0])

/-- The content that is forwarded, and to whom. -/
theorem Served.content {clients : List Entry} {connFd : Nat} {mesRec : MesRec} {effect : Effect}
    (h : Served clients connFd mesRec effect) (htype : mesRec.type = some .sendMsg) {text ip content : Bytes}
    {port : Int} (hdata : mesRec.data.string = some text) (hparse : parse text = some (ip, port, content)) :
    (∀ p ∈ effect.sends, p.2.type = .repost → p.2.data.string = some content) ∧
    ∀ x, clients.find? (·.isAt ip port) = some x → ∃ fwd : Buffer dataSize,
      (x.sock, ⟨.repost, fwd⟩) ∈ effect.sends ∧ fwd.string = some content := by
  cases h with
  | disconnect htype' => cases htype'.symm.trans htype
  | reply htype' _ hne => exact absurd (Option.some.inj (htype'.symm.trans htype)) hne
  | missed _ hdata' hparse' hfind =>
      cases hdata.symm.trans hdata'
      cases hparse.symm.trans hparse'
      refine ⟨fun p hp hrepost => ?_, fun x hx => ?_⟩
      · rw [List.mem_singleton.mp hp] at hrepost
        cases hrepost
      · cases hfind.symm.trans hx
  | @forwarded _ _ _ _ _ fwd e _ hdata' hparse' hfind _ hfwd =>
      cases hdata.symm.trans hdata'
      cases hparse.symm.trans hparse'
      refine ⟨fun p hp hrepost => ?_, fun x hx => ?_⟩
      · rcases List.mem_cons.mp hp with rfl | hp
        · exact hfwd
        · rw [List.mem_singleton.mp hp] at hrepost
          cases hrepost
      · cases hfind.symm.trans hx
        exact ⟨fwd, List.mem_cons_self, hfwd⟩
  | ignored hother => cases (hother _ htype).1

section RoundTrip

variable {ip : Bytes} {port : Int} {content : Bytes}

end RoundTrip

end SmallTrial.Chat.Server
