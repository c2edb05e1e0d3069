import SmallTrial.RedisClientAnswers
import SmallTrial.RedisLinearizable
import SmallTrial.RedisSystemModel
import SmallTrial.TransitionHistory

/-! What the tasks of all clients send and print is linearizable: it is what could be seen of one atomic map.
The map changes when the server carries a command out. A command whose call has failed may still take effect,
and never responds. -/

namespace SmallTrial.Redis

open Text Transition

/-! ### What a client knows of a command -/

/-- Where the command of a task is, as far as its client knows. -/
inductive Stage where
  -- not sent, or its result has been printed
  | idle
  | queued
  | called
  | answered (reply : Reply)
  -- its call has failed, or it was dropped
  | lost
  deriving DecidableEq

def Stage.ofResult : Option Reply → Stage
  | some reply => .answered reply
  | none => .lost

/-- The command of a task that waits, and has not been answered. -/
def Manager.stage {ι : Type*} [DecidableEq ι] (m : Manager ι) (i : ι) : Stage :=
  match m with
  | .awaiting j => if j = i then .called else .queued
  | .responding j res => if j = i then .ofResult res else .queued
  | .connecting | .receiving | .calling _ | .returned | .panicked => .queued

/-- A command that the manager does not hold is in the channel. -/
theorem Manager.stage_of_not_held {ι : Type*} [DecidableEq ι] {m : Manager ι} {i : ι} (h : m.holds ≠ some i) :
    m.stage i = .queued := by
  cases m with
  | awaiting j | responding j res => exact if_neg fun hj => h (congrArg some hj)
  | _ => rfl

namespace Client

variable {ι : Type*} [DecidableEq ι] {s t : Client ι} {e : ClientEvent ι} {handles : List ι}

def stage (s : Client ι) (i : ι) : Stage :=
  match s.task i, s.oneshot i with
  | .sending, _ | .panicked, _ | .ended (some (some _)), _ => .idle
  | .ended none, _ | .ended (some none), _ => .lost
  | .waiting, .sent res => .ofResult res
  | .waiting, .closed => .lost
  | .waiting, .empty => s.manager.stage i

/-- How an event moves the commands. -/
inductive Moves (stage : ι → Stage) : ClientEvent ι → (ι → Stage) → Prop where
  | send (i : ι) : stage i = .idle → Moves stage (.send i) (Function.update stage i .queued)
  | call (i : ι) : stage i = .queued → Moves stage (.call i) (Function.update stage i .called)
  | reply (i : ι) (res : Option Reply) : stage i = .called →
      Moves stage (.reply i res) (Function.update stage i (.ofResult res))
  | got (i : ι) (reply : Reply) : stage i = .answered reply →
      Moves stage (.got i (some (some reply))) (Function.update stage i .idle)
  | other (e : ClientEvent ι) (stage' : ι → Stage) : (∀ i, e ≠ .send i) → (∀ i, e ≠ .call i) →
      (∀ i res, e ≠ .reply i res) → (∀ i reply, e ≠ .got i (some (some reply))) →
      (∀ i, stage' i = stage i ∨ stage i = .queued ∧ stage' i = .lost) → Moves stage e stage'

theorem stage_of_idle {i : ι} (h : s.task i = .sending ∨ s.task i = .panicked) : s.stage i = .idle := by
  rw [stage]
  rcases h with h | h <;> simp [h]

theorem stage_of_waiting {i : ι} (h : s.task i = .waiting ∧ s.oneshot i = .empty) :
    s.stage i = s.manager.stage i := by
  simp [stage, h]

theorem stage_goto_of_ne {i j : ι} {x : Requester} (h : j ≠ i) : (s.goto i x).stage j = s.stage j := by
  simp [stage, h]

theorem stage_channel (s : Client ι) (channel : List ι) : { s with channel := channel }.stage = s.stage := rfl

/-- The manager takes its next step with the command that it holds. -/
theorem stage_manager {m : Manager ι} {i : ι} (h : Valid handles s) (hs : s.manager.holds = some i)
    (hm : m.holds = some i) : { s with manager := m }.stage = Function.update s.stage i (m.stage i) := by
  funext j
  by_cases hj : j = i
  · subst hj
    rw [Function.update_self]
    exact stage_of_waiting (h.held j hs)
  · rw [Function.update_of_ne hj]
    have hne : ∀ m' : Manager ι, m'.holds = some i → m'.holds ≠ some j := by
      intro m' hm' heq
      exact hj (Option.some.inj (heq.symm.trans hm'))
    simp only [stage, Manager.stage_of_not_held (hne _ hs), Manager.stage_of_not_held (hne m hm)]

theorem moves_step (h : Valid handles s) (heffect : Effect s e t) : Moves s.stage e t.stage := by
  have hother : ∀ {e : ClientEvent ι} {t : Client ι}, (∀ i, e ≠ .send i) → (∀ i, e ≠ .call i) →
      (∀ i res, e ≠ .reply i res) → (∀ i reply, e ≠ .got i (some (some reply))) → t.stage = s.stage →
      Moves s.stage e t.stage := fun hsend hcall hreply hgot hstage =>
    .other _ _ hsend hcall hreply hgot fun i => .inl (congrFun hstage i)
  cases heffect with
  | connect hmanager | recv i rest hmanager hchannel | recvNone hmanager =>
      refine hother (by simp) (by simp) (by simp) (by simp) (funext fun i => ?_)
      simp only [stage, Manager.stage, hmanager]
  | connectPanic hmanager =>
      refine .other _ _ (by simp) (by simp) (by simp) (by simp) fun i => ?_
      by_cases hi : i ∈ s.channel
      · obtain ⟨htask, honeshot, hheld⟩ := h.channel i hi
        refine .inr ⟨?_, ?_⟩
        · rw [stage_of_waiting ⟨htask, honeshot⟩, Manager.stage_of_not_held hheld]
        · simp [stage, panic, htask, hi]
      · exact .inl (by simp [stage, Manager.stage, panic, hi, hmanager])
  | send i htask hends =>
      have hheld : s.manager.holds ≠ some i := by
        intro hi
        rw [(h.held i hi).1] at htask
        cases htask
      have hstage : { s.goto i .waiting with channel := s.channel ++ [i] }.stage =
          Function.update s.stage i .queued := by
        funext j
        rw [stage_channel]
        by_cases hj : j = i
        · subst hj
          rw [Function.update_self, stage_of_waiting ⟨by simp, by simp [h.sending j htask]⟩]
          exact Manager.stage_of_not_held hheld
        · rw [Function.update_of_ne hj, stage_goto_of_ne hj]
      rw [hstage]
      exact .send i (stage_of_idle (.inl htask))
  | sendPanic i htask hends =>
      refine hother (by simp) (by simp) (by simp) (by simp) (funext fun j => ?_)
      by_cases hj : j = i
      · subst hj
        rw [stage_of_idle (.inl htask), stage_of_idle (.inr (by simp))]
      · exact stage_goto_of_ne hj
  | call i hmanager =>
      have hheld : s.manager.holds = some i := by
        rw [hmanager]
        rfl
      have hcalled : (Manager.awaiting i).stage i = .called := if_pos rfl
      rw [stage_manager (m := .awaiting i) h hheld rfl, hcalled]
      refine .call i ?_
      rw [stage_of_waiting (h.held i hheld), hmanager]
      rfl
  | reply i res hmanager =>
      have hheld : s.manager.holds = some i := by
        rw [hmanager]
        rfl
      have hanswered : (Manager.responding i res).stage i = .ofResult res := if_pos rfl
      rw [stage_manager (m := .responding i res) h hheld rfl, hanswered]
      refine .reply i res ?_
      rw [stage_of_waiting (h.held i hheld), hmanager]
      exact if_pos rfl
  | resp i res hmanager =>
      have hheld : s.manager.holds = some i := by
        rw [hmanager]
        rfl
      refine hother (by simp) (by simp) (by simp) (by simp) (funext fun j => ?_)
      by_cases hj : j = i
      · subst hj
        rw [stage_of_waiting (h.held j hheld), hmanager]
        simp [stage, Manager.stage, (h.held j hheld).1]
      · have hne : s.manager.holds ≠ some j := fun heq => hj (Option.some.inj (heq.symm.trans hheld))
        simp only [stage, Manager.stage_of_not_held hne, Function.update_of_ne hj]
        rfl
  | got i res htask hsent =>
      cases res with
      | none =>
          refine hother (by simp) (by simp) (by simp) (by simp) (funext fun j => ?_)
          by_cases hj : j = i
          · subst hj
            simp [stage, htask, hsent, Stage.ofResult]
          · exact stage_goto_of_ne hj
      | some reply =>
          have hstage : (s.goto i (.ended (some (some reply)))).stage = Function.update s.stage i .idle := by
            funext j
            by_cases hj : j = i
            · subst hj
              simp [stage]
            · rw [Function.update_of_ne hj, stage_goto_of_ne hj]
          rw [hstage]
          refine .got i reply ?_
          simp [stage, htask, hsent, Stage.ofResult]
  | gotNone i htask hclosed =>
      refine hother (by simp) (by simp) (by simp) (by simp) (funext fun j => ?_)
      by_cases hj : j = i
      · subst hj
        simp [stage, htask, hclosed]
      · exact stage_goto_of_ne hj
  | join i rest hmain | joinManager hmain hmanager | joinPanic rest hmain hpanic =>
      exact hother (by simp) (by simp) (by simp) (by simp) rfl

theorem awaiting_of_called {i : ι} (h : s.stage i = .called) : s.manager = .awaiting i := by
  have hresult : ∀ res, Stage.ofResult res ≠ .called := by
    intro res
    cases res <;> simp [Stage.ofResult]
  rw [stage] at h
  split at h
  all_goals first | cases h | skip
  · exact absurd h (hresult _)
  · unfold Manager.stage at h
    split at h
    · rename_i j hmanager
      by_cases hj : j = i
      · rw [hmanager, hj]
      · rw [if_neg hj] at h
        cases h
    · split at h
      · exact absurd h (hresult _)
      · cases h
    all_goals cases h

end Client

/-! ### What is on a connection -/

/-- The task of the connection has nothing to do with a command. -/
def Task.rests {F : Type*} : Task F → Bool
  | .absent | .reading | .returned | .panicked none => true
  | _ => false

variable {κ ι F : Type*} {m : MiniRedis F}

/-- At most one command is on its way on a connection, or its response is. -/
inductive Wire (m : MiniRedis F) : List F → Task F → List Response → Option (Op × Option Reply) → Prop where
  | rest (x : Task F) : x.rests = true → Wire m [] x [] none
  | request (op : Op) (x : Task F) : x.rests = true → Wire m [m.toFrame op] x [] (some (op, none))
  | ended (op : Op) : Wire m [] (.panicked none) [] (some (op, none))
  | parsing (op : Op) : Wire m [] (.parsing (m.toFrame op)) [] (some (op, none))
  | locking (op : Op) : Wire m [] (.locking op) [] (some (op, none))
  | locked (op : Op) : Wire m [] (.locked op) [] (some (op, none))
  | unlocking (op : Op) (r : Response) (reply : Reply) : m.decode op r = some reply →
      Wire m [] (.unlocking r) [] (some (op, some reply))
  | writing (op : Op) (r : Response) (reply : Reply) : m.decode op r = some reply →
      Wire m [] (.writing r) [] (some (op, some reply))
  | unsent (op : Op) (r : Response) (reply : Reply) : Wire m [] (.panicked (some r)) [] (some (op, some reply))
  | response (op : Op) (x : Task F) (r : Response) (reply : Reply) : x.rests = true →
      m.decode op r = some reply → Wire m [] x [r] (some (op, some reply))

namespace Wire

variable {frames : List F} {responses : List Response} {flight : Option (Op × Option Reply)}

/-- A task that has not ended goes on resting. -/
theorem rests {x y : Task F} (h : Wire m frames x responses flight) (hx : x = .absent ∨ x = .reading)
    (hy : y.rests = true) : Wire m frames y responses flight := by
  cases h with
  | rest => exact .rest y hy
  | request op => exact .request op y hy
  | response op _ r reply _ hdecode => exact .response op y r reply hy hdecode
  | ended | parsing | locking | locked | unlocking | writing | unsent => rcases hx with hx | hx <;> cases hx

theorem read {f : F} {rest : List F} (h : Wire m (f :: rest) .reading responses flight) :
    Wire m rest (.parsing f) responses flight := by
  cases h with
  | request op => exact .parsing op

theorem command {f : F} {op : Op} (h : Wire m frames (.parsing f) responses flight)
    (hf : m.fromFrame f = some (.access op)) : Wire m frames (.locking op) responses flight := by
  cases h with
  | rest _ hx | request _ _ hx | response _ _ _ _ hx => cases hx
  | parsing op' =>
      rw [m.fromFrame_toFrame] at hf
      cases hf
      exact .locking op

theorem parsePanic {f : F} (h : Wire m frames (.parsing f) responses flight) :
    Wire m frames (.panicked none) responses flight := by
  cases h with
  | rest _ hx | request _ _ hx | response _ _ _ _ hx => cases hx
  | parsing op => exact .ended op

theorem lock {op : Op} (h : Wire m frames (.locking op) responses flight) :
    Wire m frames (.locked op) responses flight := by
  cases h with
  | rest _ hx | request _ _ hx | response _ _ _ _ hx => cases hx
  | locking => exact .locked op

/-- The command takes effect. -/
theorem apply {op : Op} (h : Wire m frames (.locked op) responses flight) (db : Db) :
    flight = some (op, none) ∧
      Wire m frames (.unlocking (op.run db).1) responses (some (op, some (op.apply db).1)) := by
  cases h with
  | rest _ hx | request _ _ hx | response _ _ _ _ hx => cases hx
  | locked => exact ⟨rfl, .unlocking op _ _ (m.decode_run op db).1⟩

theorem unlock {r : Response} (h : Wire m frames (.unlocking r) responses flight) :
    Wire m frames (.writing r) responses flight := by
  cases h with
  | rest _ hx | request _ _ hx | response _ _ _ _ hx => cases hx
  | unlocking op _ reply hdecode => exact .writing op r reply hdecode

theorem write {r : Response} (h : Wire m frames (.writing r) responses flight) :
    Wire m frames .reading (responses ++ [r]) flight := by
  cases h with
  | rest _ hx | request _ _ hx | response _ _ _ _ hx => cases hx
  | writing op _ reply hdecode => exact .response op .reading r reply rfl hdecode

theorem writePanic {r : Response} (h : Wire m frames (.writing r) responses flight) :
    Wire m frames (.panicked (some r)) responses flight := by
  cases h with
  | rest _ hx | request _ _ hx | response _ _ _ _ hx => cases hx
  | writing op _ reply _ => exact .unsent op r reply

/-- A call starts where nothing is on its way. -/
theorem send {x : Task F} (h : Wire m frames x responses none) (op : Op) :
    Wire m (frames ++ [m.toFrame op]) x responses (some (op, none)) := by
  cases h with
  | rest _ hx => exact .request op x hx

/-- A response is the one to the command on its way. -/
theorem receive {x : Task F} {r : Response} {rest : List Response} (h : Wire m frames x (r :: rest) flight) :
    ∃ op reply, flight = some (op, some reply) ∧ m.decode op r = some reply ∧ Wire m frames x rest none := by
  cases h with
  | response op _ _ reply hx hdecode => exact ⟨op, reply, rfl, hdecode, .rest x hx⟩

end Wire

/-! ### Where the commands of a client are -/

/-- A command that has taken effect when there is a result. -/
def callOf (op : Op) : Option Reply → Call Op Reply
  | some reply => .done reply
  | none => .pending op

/-- A client and the atomic map agree about its commands. `flight` is the one on its way, with its result
if it has taken effect. -/
structure Link (m : MiniRedis F) (command : ι → Op) (frames : List F) (x : Task F) (responses : List Response)
    (broken : Bool) (stage : ι → Stage) (call : ι → Call Op Reply) (flight : Option (ι × Option Reply)) :
    Prop where
  wire : Wire m frames x responses (flight.map fun y => (command y.1, y.2))
  idle : ∀ i, stage i = .idle → call i = .idle
  queued : ∀ i, stage i = .queued → call i = .pending (command i)
  answered : ∀ i reply, stage i = .answered reply → call i = .done reply
  called : ∀ i, stage i = .called → broken = false → ∃ result, flight = some (i, result)
  flying : ∀ i result, flight = some (i, result) → call i = callOf (command i) result
  sent : ∀ i result, flight = some (i, result) → stage i = .called ∨ stage i = .lost ∧ broken = true

namespace Link

variable [DecidableEq ι] {command : ι → Op} {frames : List F} {x : Task F} {responses : List Response}
  {broken : Bool} {stage stage' : ι → Stage} {call : ι → Call Op Reply} {flight : Option (ι × Option Reply)}

omit [DecidableEq ι] in
theorem flight_eq_none (h : Link m command frames x responses broken stage call flight)
    (hcalled : ∀ i, stage i ≠ .called) (hbroken : broken = false) : flight = none := by
  cases flight with
  | none => rfl
  | some y =>
      rcases h.sent y.1 y.2 rfl with hstage | ⟨-, hbroken'⟩
      · exact absurd hstage (hcalled y.1)
      · rw [hbroken] at hbroken'
        cases hbroken'

/-- A command that is not on its way moves. -/
theorem move (h : Link m command frames x responses broken stage call flight) {i : ι} {y : Stage}
    {c : Call Op Reply} (hi : stage i ≠ .called) (hi' : stage i ≠ .lost)
    (hidle : y = .idle → c = .idle) (hqueued : y = .queued → c = .pending (command i))
    (hanswered : ∀ reply, y = .answered reply → c = .done reply) (hcalled : y = .called → broken = true) :
    Link m command frames x responses broken (Function.update stage i y) (Function.update call i c) flight := by
  have hflight : ∀ result, flight ≠ some (i, result) := by
    intro result hresult
    rcases h.sent i result hresult with hstage | ⟨hstage, -⟩
    · exact hi hstage
    · exact hi' hstage
  constructor <;> grind [Link]

theorem send (h : Link m command frames x responses broken stage call flight) {i : ι} (hi : stage i = .idle) :
    Link m command frames x responses broken (Function.update stage i .queued)
      (Function.update call i (.pending (command i))) flight :=
  h.move (by simp [hi]) (by simp [hi]) (by simp) (fun _ => rfl) (by simp) (by simp)

theorem got (h : Link m command frames x responses broken stage call flight) {i : ι} {reply : Reply}
    (hi : stage i = .answered reply) : Link m command frames x responses broken
      (Function.update stage i .idle) (Function.update call i .idle) flight :=
  h.move (by simp [hi]) (by simp [hi]) (fun _ => rfl) (by simp) (by simp) (by simp)

omit [DecidableEq ι] in
/-- Commands in the channel are lost. -/
theorem drop (h : Link m command frames x responses broken stage call flight)
    (hstage : ∀ i, stage' i = stage i ∨ stage i = .queued ∧ stage' i = .lost) :
    Link m command frames x responses broken stage' call flight := by
  constructor <;> grind [Link]

/-- A call writes its frame. -/
theorem request (h : Link m command frames x responses false stage call flight) {i : ι}
    (hi : stage i = .queued) (hcalled : ∀ j, stage j ≠ .called) :
    Link m command (frames ++ [m.toFrame (command i)]) x responses false (Function.update stage i .called) call
      (some (i, none)) := by
  obtain rfl := h.flight_eq_none hcalled rfl
  have hwire := h.wire.send (command i)
  constructor
  case called =>
      intro j hj _
      by_cases hji : j = i
      · exact ⟨none, by rw [hji]⟩
      · rw [Function.update_of_ne hji] at hj
        exact absurd hj (hcalled j)
  all_goals grind [Link, callOf]

/-- A call starts, or fails, on a broken connection. -/
theorem fail (h : Link m command frames x responses broken stage call flight) {i : ι} {y : Stage}
    (hi : stage i = .queued ∧ y = .called ∨ stage i = .called ∧ y = .lost) :
    Link m command frames x responses true (Function.update stage i y) call flight := by
  constructor <;> grind [Link]

/-- A call reads its response. -/
theorem receive {r : Response} {rest : List Response} {i : ι}
    (h : Link m command frames x (r :: rest) false stage call flight) (hi : stage i = .called) :
    ∃ reply, m.decode (command i) r = some reply ∧
      Link m command frames x rest false (Function.update stage i (.answered reply)) call none := by
  obtain ⟨result, rfl⟩ := h.called i hi rfl
  obtain ⟨op, reply, hflight, hdecode, hrest⟩ := h.wire.receive
  cases hflight
  refine ⟨reply, hdecode, ?_⟩
  constructor <;> grind [Link, callOf]

/-- The command on its way takes effect. -/
theorem commit {i : ι} {y : Task F} {reply : Reply}
    (h : Link m command frames x responses broken stage call (some (i, none)))
    (hwire : Wire m frames y responses (some (command i, some reply))) :
    Link m command frames y responses broken stage (Function.update call i (.done reply))
      (some (i, some reply)) := by
  have hsent := h.sent i none rfl
  constructor <;> grind [Link, callOf]

end Link

/-! ### Steps of the system -/

namespace System

variable [DecidableEq κ] [DecidableEq ι] [Fintype ι] {command : κ → ι → Op} {s t : System κ ι F}
  {e : SystemEvent κ ι} {tr : List (SystemEvent κ ι)} {handles : List ι}

/-- What a step can do. -/
inductive Effect (m : MiniRedis F) (command : κ → ι → Op) (s : System κ ι F) :
    SystemEvent κ ι → System κ ι F → Prop where
  | client (k : κ) (e : ClientEvent ι) (c : Client ι) : Client.Effect (s.client k) e c →
      (∀ i, e ≠ .call i) → (∀ i res, e ≠ .reply i res) →
      Effect m command s (.client k e) { s with client := Function.update s.client k c }
  | request (k : κ) (i : ι) (c : Client ι) : Client.Effect (s.client k) (.call i) c → s.broken k = false →
      Effect m command s (.client k (.call i)) { s with
        client := Function.update s.client k c
        toServer := Function.update s.toServer k (s.toServer k ++ [m.toFrame (command k i)]) }
  | callFail (k : κ) (i : ι) (c : Client ι) : Client.Effect (s.client k) (.call i) c →
      Effect m command s (.client k (.call i)) { s with
        client := Function.update s.client k c
        broken := Function.update s.broken k true }
  | receive (k : κ) (i : ι) (r : Response) (rest : List Response) (c : Client ι) :
      s.broken k = false → s.toClient k = r :: rest →
      Client.Effect (s.client k) (.reply i (m.decode (command k i) r)) c →
      Effect m command s (.client k (.reply i (m.decode (command k i) r))) { s with
        client := Function.update s.client k c
        toClient := Function.update s.toClient k rest }
  | fail (k : κ) (i : ι) (c : Client ι) : Client.Effect (s.client k) (.reply i none) c →
      Effect m command s (.client k (.reply i none)) { s with
        client := Function.update s.client k c
        broken := Function.update s.broken k true }
  | readFrame (k : κ) (f : F) (rest : List F) : s.toServer k = f :: rest → s.server.task k = .reading →
      Effect m command s (.server (.read k)) { s with
        server := s.server.goto k (.parsing f)
        toServer := Function.update s.toServer k rest }
  | write (k : κ) (r : Response) : s.server.task k = .writing r →
      Effect m command s (.server (.write k r)) { s with
        server := s.server.goto k .reading
        toClient := Function.update s.toClient k (s.toClient k ++ [r]) }
  | server (e : Event κ) (server : State κ F) : Redis.Effect m.fromFrame s.server e server →
      (∀ k, e ≠ .read k) → (∀ k r, e ≠ .write k r) →
      Effect m command s (.server e) { s with server := server }

omit [DecidableEq ι] [Fintype ι] in
theorem ofClient_eq_some {k : κ} {x : Option (Client ι × ClientEvent ι)}
    (h : s.ofClient k x = some (t, e)) : ∃ c e', x = some (c, e') ∧ e = .client k e' ∧
      t = { s with client := Function.update s.client k c } := by
  obtain ⟨⟨c, e'⟩, hx, heq⟩ := Option.map_eq_some_iff.mp h
  cases heq
  exact ⟨c, e', hx, rfl, rfl⟩

omit [DecidableEq κ] [DecidableEq ι] [Fintype ι] in
theorem ofServer_eq_some {x : Option (State κ F × Event κ)} (h : s.ofServer x = some (t, e)) :
    ∃ server e', x = some (server, e') ∧ e = .server e' ∧ t = { s with server := server } := by
  obtain ⟨⟨server, e'⟩, hx, heq⟩ := Option.map_eq_some_iff.mp h
  cases heq
  exact ⟨server, e', hx, rfl, rfl⟩

/-- Only the manager calls, and only a call replies. -/
theorem client_event {c c' : Client ι} {x : ClientChoice ι} {e : ClientEvent ι} (h : c.next x = some (c', e))
    (hx : x ≠ .manager ∨ ∀ i, c.manager ≠ .calling i) (hx' : ∀ res, x ≠ .reply res) :
    (∀ i, e ≠ .call i) ∧ ∀ i res, e ≠ .reply i res := by
  cases x with
  | connect ok =>
      rw [Client.next, Client.connect] at h
      grind
  | reply res => exact absurd rfl (hx' res)
  | task i =>
      rw [Client.next, Client.runTask] at h
      grind
  | manager =>
      rw [Client.next, Client.runManager] at h
      grind
  | main =>
      rw [Client.next, Client.runMain] at h
      grind

/-- A step of a client that does not touch its connection. -/
theorem effect_of_client {k : κ} {x : ClientChoice ι} (h : s.ofClient k ((s.client k).next x) = some (t, e))
    (hx : x ≠ .manager ∨ ∀ i, (s.client k).manager ≠ .calling i) (hx' : ∀ res, x ≠ .reply res) :
    Effect m command s e t := by
  obtain ⟨c, e', hnext, rfl, rfl⟩ := ofClient_eq_some h
  obtain ⟨hcall, hreply⟩ := client_event hnext hx hx'
  exact .client k e' c (Client.effect_of_step ⟨x, hnext⟩) hcall hreply

omit [DecidableEq ι] [Fintype ι] in
/-- Only a read reads, and only a write writes. -/
theorem server_event {server server' : State κ F} {x : Choice κ F} {e : Event κ}
    (h : server.next m.fromFrame x = some (server', e)) (hread : ∀ k f, x ≠ .read k (.frame f))
    (hwrite : ∀ k, x ≠ .write k true) : (∀ k, e ≠ .read k) ∧ ∀ k r, e ≠ .write k r := by
  cases x with
  | accept c =>
      simp only [State.next, State.accept] at h
      grind
  | acceptError =>
      simp only [State.next] at h
      grind
  | read c result =>
      cases result with
      | frame f => exact absurd rfl (hread c f)
      | done | error =>
          simp only [State.next, State.read] at h
          grind
  | write c ok =>
      cases ok with
      | true => exact absurd rfl (hwrite c)
      | false =>
          simp only [State.next, State.write] at h
          grind
  | run c =>
      simp only [State.next, State.run] at h
      grind

omit [Fintype ι] in
/-- A step of the server that does not touch what is on the connections. -/
theorem effect_of_server {x : Choice κ F} (h : s.ofServer (s.server.next m.fromFrame x) = some (t, e))
    (hread : ∀ k f, x ≠ .read k (.frame f)) (hwrite : ∀ k, x ≠ .write k true) : Effect m command s e t := by
  obtain ⟨server, e', hnext, rfl, rfl⟩ := ofServer_eq_some h
  obtain ⟨hread', hwrite'⟩ := server_event hnext hread hwrite
  exact .server e' server (Redis.effect_of_step ⟨x, hnext⟩) hread' hwrite'

theorem effect_of_runManager {k : κ} {written : Bool} (h : s.runManager m command k written = some (t, e)) :
    Effect m command s e t := by
  rw [runManager] at h
  split at h
  · rename_i i hmanager
    have hcall : (s.client k).runManager = some ({ s.client k with manager := .awaiting i }, .call i) := by
      rw [Client.runManager, hmanager]
    have heffect : Client.Effect (s.client k) (.call i) { s.client k with manager := .awaiting i } :=
      .call i hmanager
    rw [hcall] at h
    split at h
    · rename_i hbroken
      cases h
      have hfail := @Effect.callFail κ ι F _ _ m command s k i _ heffect
      rwa [← hbroken, Function.update_eq_self] at hfail
    · rename_i hbroken
      split at h
      · cases h
        exact .request k i _ heffect (Bool.eq_false_of_not_eq_true hbroken)
      · cases h
        exact .callFail k i _ heffect
  · rename_i hmanager
    exact effect_of_client (x := .manager) h (.inr hmanager) (by simp)

omit [Fintype ι] in
theorem effect_of_receive {k : κ} (h : s.receive m command k = some (t, e)) : Effect m command s e t := by
  rw [receive] at h
  split at h
  · rename_i r rest i hbroken hresponses hmanager
    rw [Client.reply, hmanager] at h
    cases h
    exact .receive k i r rest _ hbroken hresponses (.reply i _ hmanager)
  · cases h

omit [Fintype ι] in
theorem effect_of_fail {k : κ} (h : s.fail k = some (t, e)) : Effect m command s e t := by
  rw [fail, Client.reply] at h
  split at h
  · rename_i i hmanager
    cases h
    exact .fail k i _ (.reply i none hmanager)
  · cases h

omit [Fintype ι] in
theorem effect_of_readFrame {k : κ} (h : s.readFrame k = some (t, e)) : Effect m command s e t := by
  rw [readFrame] at h
  split at h
  · rename_i f rest hframes
    simp only [State.read] at h
    split at h
    · rename_i htask
      cases h
      exact .readFrame k f rest hframes htask
    · cases h
  · cases h

omit [Fintype ι] in
theorem effect_of_write {k : κ} {ok : Bool} (h : s.write k ok = some (t, e)) : Effect m command s e t := by
  cases htask : s.server.task k with
  | writing r =>
      cases ok with
      | true =>
          simp only [write, htask, State.write, if_true] at h
          cases h
          exact .write k r htask
      | false =>
          simp only [write, htask] at h
          exact effect_of_server (x := .write k false) h (by simp) (by simp)
  | absent | reading | parsing | locking | locked | unlocking | returned | panicked =>
      simp only [write, htask, State.write] at h
      cases h

theorem effect_of_step (h : Step m command s e t) : Effect m command s e t := by
  obtain ⟨x, hx⟩ := h
  cases x with
  | connect k ok => exact effect_of_client (x := .connect ok) hx (by simp) (by simp)
  | task k i => exact effect_of_client (x := .task i) hx (by simp) (by simp)
  | main k => exact effect_of_client (x := .main) hx (by simp) (by simp)
  | manager k written => exact effect_of_runManager hx
  | receive k => exact effect_of_receive hx
  | fail k => exact effect_of_fail hx
  | accept k => exact effect_of_server (x := .accept k) hx (by simp) (by simp)
  | acceptError => exact effect_of_server (x := .acceptError) hx (by simp) (by simp)
  | readFrame k => exact effect_of_readFrame hx
  | readEnd k => exact effect_of_server (x := .read k .done) hx (by simp) (by simp)
  | readError k => exact effect_of_server (x := .read k .error) hx (by simp) (by simp)
  | run k => exact effect_of_server (x := .run k) hx (by simp) (by simp)
  | write k ok => exact effect_of_write hx

/-! ### The simulation -/

/-- The system stands for the atomic map. -/
structure Simulates (m : MiniRedis F) (command : κ → ι → Op) (handles : List ι) (s : System κ ι F)
    (o : Object (κ × ι) Op Reply Db) : Prop where
  valid : ∀ k, Client.Valid handles (s.client k)
  clean : Clean s.server
  value : o.value = s.server.db
  link : ∀ k, ∃ flight, Link m (command k) (s.toServer k) (s.server.task k) (s.toClient k) (s.broken k)
    (s.client k).stage (fun i => o.call (k, i)) flight

namespace Simulates

variable {o o' : Object (κ × ι) Op Reply Db}

omit [Fintype ι] in
theorem call_of_ne {k k' : κ} {i j : ι} {c : Call Op Reply} (h : k' ≠ k) :
    (o.setCall (k, i) c).call (k', j) = o.call (k', j) := Object.setCall_of_ne _ _ (by simp [h])

omit [Fintype ι] in
/-- A command of connection `k` moves. -/
theorem call_setCall (o : Object (κ × ι) Op Reply Db) (k k' : κ) (i : ι) (c : Call Op Reply) :
    (fun j => (o.setCall (k, i) c).call (k', j)) =
      if k' = k then Function.update (fun j => o.call (k', j)) i c else fun j => o.call (k', j) := by
  funext j
  by_cases hk : k' = k
  · subst hk
    by_cases hj : j = i
    · subst hj
      simp
    · rw [Object.setCall_of_ne _ _ (by simp [hj]), if_pos rfl, Function.update_of_ne hj]
  · rw [Object.setCall_of_ne _ _ (by simp [hk]), if_neg hk]

omit [Fintype ι] in
/-- One client moves, and what is on its connection. -/
theorem client (h : Simulates m command handles s o) {k : κ} {c : Client ι} {frames : List F}
    {responses : List Response} {broken : Bool} {flight : Option (ι × Option Reply)}
    (hvalid : Client.Valid handles c) (hvalue : o'.value = o.value)
    (hother : ∀ k' i, k' ≠ k → o'.call (k', i) = o.call (k', i))
    (hlink : Link m (command k) frames (s.server.task k) responses broken c.stage (fun i => o'.call (k, i)) flight) :
    Simulates m command handles { s with
      client := Function.update s.client k c
      toServer := Function.update s.toServer k frames
      toClient := Function.update s.toClient k responses
      broken := Function.update s.broken k broken } o' where
  valid := by
    intro k'
    by_cases hk : k' = k
    · subst hk
      simpa using hvalid
    · simpa [hk] using h.valid k'
  clean := h.clean
  value := hvalue.trans h.value
  link := by
    intro k'
    by_cases hk : k' = k
    · subst hk
      exact ⟨flight, by simpa using hlink⟩
    · obtain ⟨flight', hlink'⟩ := h.link k'
      refine ⟨flight', ?_⟩
      simpa [hk, hother k' _ hk] using hlink'

omit [Fintype ι] in
/-- The task of one connection moves, and what is on the connection. -/
theorem server (h : Simulates m command handles s o) {k : κ} {x : Task F} {server : State κ F}
    {frames : List F} {responses : List Response} {flight : Option (ι × Option Reply)}
    (hclean : Clean server) (htask : server.task = Function.update s.server.task k x)
    (hvalue : o'.value = server.db) (hother : ∀ k' i, k' ≠ k → o'.call (k', i) = o.call (k', i))
    (hlink : Link m (command k) frames x responses (s.broken k) (s.client k).stage
      (fun i => o'.call (k, i)) flight) :
    Simulates m command handles { s with
      server := server
      toServer := Function.update s.toServer k frames
      toClient := Function.update s.toClient k responses } o' where
  valid := h.valid
  clean := hclean
  value := hvalue
  link := by
    intro k'
    by_cases hk : k' = k
    · subst hk
      exact ⟨flight, by simpa [htask] using hlink⟩
    · obtain ⟨flight', hlink'⟩ := h.link k'
      refine ⟨flight', ?_⟩
      simpa [hk, htask, hother k' _ hk] using hlink'

omit [Fintype ι] in
/-- The task of one connection moves, and no command takes effect. -/
theorem serve (h : Simulates m command handles s o) {k : κ} {x : Task F} {server : State κ F}
    (hclean : Clean server) (htask : server.task = Function.update s.server.task k x)
    (hdb : server.db = s.server.db)
    (hwire : ∀ frames responses flight, Wire m frames (s.server.task k) responses flight →
      Wire m frames x responses flight) : Simulates m command handles { s with server := server } o := by
  obtain ⟨flight, hlink⟩ := h.link k
  have hserver := h.server hclean htask (h.value.trans hdb.symm) (fun _ _ _ => rfl)
    { hlink with wire := hwire _ _ _ hlink.wire }
  simpa using hserver

omit [Fintype ι] in
/-- A step that the tasks do not see, and at which no command takes effect. -/
theorem silent {o : Object (κ × ι) Op Reply Db} {e : SystemEvent κ ι} (h : Simulates m command handles t o)
    (he : e.observe command = none) : ∃ o', Simulates m command handles t o' ∧
      Answer (Object.Step Op.apply) ObjectEvent.observe o (e.observe command) o' :=
  ⟨o, h, .inl ⟨he, rfl⟩⟩

omit [DecidableEq κ] [Fintype ι] in
/-- A command under the mutex is the one on its way on the connection. -/
theorem locked (h : Simulates m command handles s o) {k : κ} {op : Op} (htask : s.server.task k = .locked op) :
    ∃ i, command k i = op ∧ Link m (command k) (s.toServer k) (.locked op) (s.toClient k) (s.broken k)
      (s.client k).stage (fun i => o.call (k, i)) (some (i, none)) := by
  obtain ⟨flight, hlink⟩ := h.link k
  rw [htask] at hlink
  obtain ⟨hflight, -⟩ := hlink.wire.apply s.server.db
  obtain ⟨⟨i, result⟩, rfl, heq⟩ := Option.map_eq_some_iff.mp hflight
  cases heq
  exact ⟨i, rfl, hlink⟩

omit [Fintype ι] in
/-- A step of the server. -/
theorem server_step (h : Simulates m command handles s o) {e : Event κ} {server : State κ F}
    (heffect : Redis.Effect m.fromFrame s.server e server) (hread : ∀ k, e ≠ .read k)
    (hwrite : ∀ k r, e ≠ .write k r) : ∃ o', Simulates m command handles { s with server := server } o' ∧
      Answer (Object.Step Op.apply) ObjectEvent.observe o none o' := by
  have hclean := clean_step h.clean heffect
  cases heffect with
  | accept k htask =>
      exact ⟨o, h.serve hclean rfl rfl fun _ _ _ hwire => hwire.rests (.inl htask) rfl, .inl ⟨rfl, rfl⟩⟩
  | leave k htask =>
      exact ⟨o, h.serve hclean rfl rfl fun _ _ _ hwire => hwire.rests (.inr htask) rfl, .inl ⟨rfl, rfl⟩⟩
  | acceptPanic => exact ⟨o, ⟨h.valid, hclean, h.value, h.link⟩, .inl ⟨rfl, rfl⟩⟩
  | read k => exact absurd rfl (hread k)
  | write k r => exact absurd rfl (hwrite k r)
  | command k f op htask hf =>
      refine ⟨o, h.serve hclean rfl rfl fun _ _ _ hwire => ?_, .inl ⟨rfl, rfl⟩⟩
      rw [htask] at hwire
      exact hwire.command hf
  | lock k op htask =>
      refine ⟨o, h.serve hclean rfl rfl fun _ _ _ hwire => ?_, .inl ⟨rfl, rfl⟩⟩
      rw [htask] at hwire
      exact hwire.lock
  | apply k op htask =>
      obtain ⟨i, hop, hlink⟩ := h.locked htask
      subst hop
      obtain ⟨-, happlied⟩ := hlink.wire.apply s.server.db
      have hpending : o.call (k, i) = .pending (command k i) := hlink.flying i none rfl
      refine ⟨_, ?_, .inr ⟨_, Object.Step.commit o (k, i) (command k i) hpending, rfl⟩⟩
      rw [h.value]
      have hvalue : ({ o with value := ((command k i).apply s.server.db).2 }.setCall (k, i)
          (.done ((command k i).apply s.server.db).1)).value = ((command k i).run s.server.db).2 :=
        (m.decode_run (command k i) s.server.db).2.symm
      have hcommit := hlink.commit happlied
      have hserver := h.server hclean rfl hvalue
        (fun _ _ hk => call_of_ne hk) (by rwa [call_setCall, if_pos rfl])
      simpa using hserver
  | unlock k r htask =>
      refine ⟨o, h.serve hclean rfl rfl fun _ _ _ hwire => ?_, .inl ⟨rfl, rfl⟩⟩
      rw [htask] at hwire
      exact hwire.unlock
  | writePanic k r htask =>
      refine ⟨o, h.serve hclean rfl rfl fun _ _ _ hwire => ?_, .inl ⟨rfl, rfl⟩⟩
      rw [htask] at hwire
      exact hwire.writePanic
  | panic k htask =>
      refine ⟨o, h.serve hclean rfl rfl fun _ _ _ hwire => ?_, .inl ⟨rfl, rfl⟩⟩
      rcases htask with htask | ⟨f, htask⟩
      · exact hwire.rests (.inr htask) rfl
      · rw [htask] at hwire
        exact hwire.parsePanic
  | lockPanic k op htask hpoisoned =>
      rw [h.clean.poisoned] at hpoisoned
      cases hpoisoned

omit [DecidableEq κ] [DecidableEq ι] [Fintype ι] in
/-- Only the commands and the results of the tasks are seen. -/
theorem observe_eq_none {k : κ} {e : ClientEvent ι} (hsend : ∀ i, e ≠ .send i)
    (hgot : ∀ i reply, e ≠ .got i (some (some reply))) :
    (SystemEvent.client k e : SystemEvent κ ι).observe command = none := by
  cases e with
  | send i => exact absurd rfl (hsend i)
  | got i got =>
      rcases got with _ | _ | reply
      · rfl
      · rfl
      · exact absurd rfl (hgot i reply)
  | _ => rfl

omit [Fintype ι] in
/-- A step of a client that does not touch its connection. -/
theorem client_step (h : Simulates m command handles s o) {k : κ} {e : ClientEvent ι} {c : Client ι}
    (heffect : Client.Effect (s.client k) e c) (hcall : ∀ i, e ≠ .call i) (hreply : ∀ i res, e ≠ .reply i res) :
    ∃ o', Simulates m command handles { s with client := Function.update s.client k c } o' ∧
      Answer (Object.Step Op.apply) ObjectEvent.observe o
        ((SystemEvent.client k e : SystemEvent κ ι).observe command) o' := by
  obtain ⟨flight, hlink⟩ := h.link k
  have hvalid := Client.valid_step (h.valid k) heffect
  have hmoves := Client.moves_step (h.valid k) heffect
  generalize hstage : c.stage = stage at hmoves
  cases hmoves with
  | call i => exact absurd rfl (hcall i)
  | reply i res => exact absurd rfl (hreply i res)
  | send i hidle =>
      refine ⟨_, ?_, .inr ⟨_, Object.Step.invoke o (k, i) (command k i) (hlink.idle i hidle), rfl⟩⟩
      have hlink' := hlink.send hidle
      rw [← hstage] at hlink'
      have hclient := h.client hvalid (Object.setCall_value o (k, i) (.pending (command k i)))
        (fun _ _ hk => call_of_ne hk) (by rwa [call_setCall, if_pos rfl])
      simpa using hclient
  | got i reply hanswered =>
      refine ⟨_, ?_, .inr ⟨_, Object.Step.respond o (k, i) reply (hlink.answered i reply hanswered), rfl⟩⟩
      have hlink' := hlink.got hanswered
      rw [← hstage] at hlink'
      have hclient := h.client hvalid (Object.setCall_value o (k, i) .idle)
        (fun _ _ hk => call_of_ne hk) (by rwa [call_setCall, if_pos rfl])
      simpa using hclient
  | other _ _ hsend _ _ hgot hdrop =>
      refine ⟨o, ?_, .inl ⟨observe_eq_none hsend hgot, rfl⟩⟩
      have hlink' := hlink.drop hdrop
      rw [← hstage] at hlink'
      have hclient := h.client hvalid rfl (fun _ _ _ => rfl) hlink'
      simpa using hclient

omit [DecidableEq κ] [Fintype ι] in
/-- The stages at a call of the manager. -/
theorem stage_of_call {k : κ} {i : ι} {c : Client ι} (h : Simulates m command handles s o)
    (heffect : Client.Effect (s.client k) (.call i) c) : (s.client k).stage i = .queued ∧
      c.stage = Function.update (s.client k).stage i .called ∧ ∀ j, (s.client k).stage j ≠ .called := by
  have hmoves := Client.moves_step (h.valid k) heffect
  have hnone : ∀ j, (s.client k).stage j ≠ .called := by
    intro j hj
    have hmanager := Client.awaiting_of_called hj
    cases heffect with
    | call _ hcalling =>
        rw [hcalling] at hmanager
        cases hmanager
  generalize c.stage = stage at hmoves
  cases hmoves with
  | call _ hqueued => exact ⟨hqueued, rfl, hnone⟩
  | other _ _ _ hcall => exact absurd rfl (hcall i)

omit [DecidableEq κ] [Fintype ι] in
/-- The stages when a call returns. -/
theorem stage_of_reply {k : κ} {i : ι} {res : Option Reply} {c : Client ι} (h : Simulates m command handles s o)
    (heffect : Client.Effect (s.client k) (.reply i res) c) : (s.client k).stage i = .called ∧
      c.stage = Function.update (s.client k).stage i (.ofResult res) := by
  have hmoves := Client.moves_step (h.valid k) heffect
  generalize c.stage = stage at hmoves
  cases hmoves with
  | reply _ _ hcalled => exact ⟨hcalled, rfl⟩
  | other _ _ _ _ hreply => exact absurd rfl (hreply i res)

omit [Fintype ι] in
theorem step (h : Simulates m command handles s o) (heffect : Effect m command s e t) :
    ∃ o', Simulates m command handles t o' ∧
      Answer (Object.Step Op.apply) ObjectEvent.observe o (e.observe command) o' := by
  cases heffect with
  | client k e c heffect hcall hreply => exact h.client_step heffect hcall hreply
  | request k i c heffect hbroken =>
      obtain ⟨flight, hlink⟩ := h.link k
      obtain ⟨hqueued, hstage, hnone⟩ := h.stage_of_call heffect
      rw [hbroken] at hlink
      have hlink' := hlink.request hqueued hnone
      rw [← hstage, ← hbroken] at hlink'
      have hclient := h.client (Client.valid_step (h.valid k) heffect) rfl (fun _ _ _ => rfl) hlink'
      exact silent (by simpa using hclient) rfl
  | callFail k i c heffect =>
      obtain ⟨flight, hlink⟩ := h.link k
      obtain ⟨hqueued, hstage, -⟩ := h.stage_of_call heffect
      have hlink' := hlink.fail (.inl ⟨hqueued, rfl⟩)
      rw [← hstage] at hlink'
      have hclient := h.client (Client.valid_step (h.valid k) heffect) rfl (fun _ _ _ => rfl) hlink'
      exact silent (by simpa using hclient) rfl
  | receive k i r rest c hbroken hresponses heffect =>
      obtain ⟨flight, hlink⟩ := h.link k
      obtain ⟨hcalled, hstage⟩ := h.stage_of_reply heffect
      rw [hbroken, hresponses] at hlink
      obtain ⟨reply, hdecode, hlink'⟩ := hlink.receive hcalled
      rw [hdecode] at hstage
      rw [← Stage.ofResult, ← hstage, ← hbroken] at hlink'
      have hclient := h.client (Client.valid_step (h.valid k) heffect) rfl (fun _ _ _ => rfl) hlink'
      exact silent (by simpa using hclient) rfl
  | fail k i c heffect =>
      obtain ⟨flight, hlink⟩ := h.link k
      obtain ⟨hcalled, hstage⟩ := h.stage_of_reply heffect
      have hlink' := hlink.fail (.inr ⟨hcalled, rfl⟩)
      rw [← Stage.ofResult, ← hstage] at hlink'
      have hclient := h.client (Client.valid_step (h.valid k) heffect) rfl (fun _ _ _ => rfl) hlink'
      exact silent (by simpa using hclient) rfl
  | readFrame k f rest hframes htask =>
      obtain ⟨flight, hlink⟩ := h.link k
      have hwire := hlink.wire
      rw [htask, hframes] at hwire
      have hread : Redis.Effect m.fromFrame s.server (.read k) (s.server.goto k (.parsing f)) :=
        .read k f htask
      have hserver := h.server (clean_step h.clean hread) rfl h.value (fun _ _ _ => rfl) { hlink with wire := hwire.read }
      exact silent (by simpa using hserver) rfl
  | write k r htask =>
      obtain ⟨flight, hlink⟩ := h.link k
      have hwire := hlink.wire
      rw [htask] at hwire
      have hwrite : Redis.Effect m.fromFrame s.server (.write k r) (s.server.goto k .reading) :=
        .write k r htask
      have hserver := h.server (clean_step h.clean hwrite) rfl h.value (fun _ _ _ => rfl) { hlink with wire := hwire.write }
      exact silent (by simpa using hserver) rfl
  | server e server heffect hread hwrite => exact h.server_step heffect hread hwrite

omit [DecidableEq κ] [Fintype ι] in
theorem start : Simulates m command handles (System.start handles : System κ ι F) (Object.new fun _ => none) where
  valid := fun _ => Client.valid_start
  clean := clean_start
  value := rfl
  link := fun k => ⟨none, {
    wire := .rest _ rfl
    idle := fun _ _ => rfl
    queued := fun i hi => by cases hi
    answered := fun i reply hi => by cases hi
    called := fun i hi => by cases hi
    flying := fun i result hflight => by cases hflight
    sent := fun i result hflight => by cases hflight }⟩

end Simulates

end System

variable [DecidableEq κ] [DecidableEq ι] [Fintype ι]

theorem simulates_forward (m : MiniRedis F) (command : κ → ι → Op) (handles : List ι) :
    ForwardSimulation (System.Step m command) (SystemEvent.observe command) (Object.Step Op.apply)
      ObjectEvent.observe (System.Simulates m command handles) :=
  fun _ _ _ _ h hstep => h.step (System.effect_of_step hstep)

/-- **The client and the server together are a linearizable map.** For any number of client processes with
any commands, whatever fails and however they are interleaved, what the tasks send and print could be seen of
one atomic map, if a connection on which a call has failed answers no later call. -/
theorem redis_linearizable (m : MiniRedis F) (command : κ → ι → Op) (handles : List ι) :
    histories (System.Step m command) (SystemEvent.observe command) (System.start handles) ⊆
      histories (Object.Step Op.apply) ObjectEvent.observe (Object.new fun _ => none) :=
  (simulates_forward m command handles).histories_subset System.Simulates.start

/-- One client process sets `foo`, and another one gets it. -/
def setAndGet : Bool → Unit → Op
  | true, _ => .set "foo" (ascii "bar")
  | false, _ => .get "foo"

/-- The commands are sent in one order, and the results are printed in the other. -/
def overtaking : List (SystemChoice Bool Unit) :=
  [.task true (), .task false (), .connect true true, .connect false true, .manager true true,
    .manager false true, .manager true true, .manager false true, .accept true, .accept false, .readFrame true,
    .readFrame false, .run true, .run true, .run true, .run true, .write true true, .run false, .run false,
    .run false, .run false, .write false true, .receive false, .manager false true, .task false (),
    .receive true, .manager true true, .task true ()]

theorem redis_linearizable_overtaking :
    [((true, ()), .invoke (.set "foo" (ascii "bar"))), ((false, ()), .invoke (.get "foo")),
      ((false, ()), .respond (.value (some (ascii "bar")))), ((true, ()), .respond .unit)] ∈
        histories (System.Step MiniRedis.direct setAndGet) (SystemEvent.observe setAndGet) (System.start [()]) ∩
          histories (Object.Step Op.apply) ObjectEvent.observe (Object.new fun _ => none) := by
  have hreplay : (replay (System.next MiniRedis.direct setAndGet) (System.start [()]) overtaking).map
      (fun r => r.2.filterMap (SystemEvent.observe setAndGet)) =
        some [((true, ()), .invoke (.set "foo" (ascii "bar"))), ((false, ()), .invoke (.get "foo")),
          ((false, ()), .respond (.value (some (ascii "bar")))), ((true, ()), .respond .unit)] := by
    decide +kernel
  obtain ⟨⟨s, tr⟩, hrun, hhistory⟩ := Option.map_eq_some_iff.mp hreplay
  have hmem := (⟨tr, s, Run.of_replay (fun _ x _ _ h => ⟨x, h⟩) hrun, hhistory⟩ :
    _ ∈ histories (System.Step MiniRedis.direct setAndGet) (SystemEvent.observe setAndGet) (System.start [()]))
  exact ⟨hmem, redis_linearizable MiniRedis.direct setAndGet [()] hmem⟩

end SmallTrial.Redis
