import SmallTrial.RedisClientModel
import SmallTrial.TransitionFamily

/-! The tasks of the client get the answers to their own commands. The manager carries the commands out one
at a time, in the order in which they were sent; only a client that could not connect leaves a task without
a result, and `main` always comes to its end. -/

namespace SmallTrial.Redis

open Text Transition

/-- The command that the manager has received and not answered. -/
def Manager.holds {ι : Type*} : Manager ι → Option ι
  | .calling i | .awaiting i | .responding i _ => some i
  | .connecting | .receiving | .returned | .panicked => none

/-- The command that has been received and not called yet. -/
def Manager.received {ι : Type*} : Manager ι → List ι
  | .calling i => [i]
  | .connecting | .receiving | .awaiting _ | .responding _ _ | .returned | .panicked => []

/-- The call that has not returned. -/
def Manager.awaited {ι : Type*} : Manager ι → List ι
  | .awaiting i => [i]
  | .connecting | .receiving | .calling _ | .responding _ _ | .returned | .panicked => []

namespace Client

variable {ι : Type*} [DecidableEq ι] [Fintype ι] {s t : Client ι} {e : ClientEvent ι}
  {tr : List (ClientEvent ι)} {handles : List ι}

/-! ### Steps -/

/-- What a step can do. -/
inductive Effect (s : Client ι) : ClientEvent ι → Client ι → Prop where
  | connect : s.manager = .connecting → Effect s .connect { s with manager := .receiving }
  | connectPanic : s.manager = .connecting → Effect s .connectPanic s.panic
  | send (i : ι) : s.task i = .sending → s.manager.ends = false → s.channel.length < capacity →
      Effect s (.send i) { s.goto i .waiting with channel := s.channel ++ [i] }
  | sendPanic (i : ι) : s.task i = .sending → s.manager.ends = true →
      Effect s (.sendPanic i) (s.goto i .panicked)
  | recv (i : ι) (rest : List ι) : s.manager = .receiving → s.channel = i :: rest →
      Effect s (.recv i) { s with manager := .calling i, channel := rest }
  | recvNone : s.manager = .receiving → s.channel = [] → (∀ i, (s.task i).ends = true) →
      Effect s .recvNone { s with manager := .returned }
  | call (i : ι) : s.manager = .calling i → Effect s (.call i) { s with manager := .awaiting i }
  | reply (i : ι) (res : Option Reply) : s.manager = .awaiting i →
      Effect s (.reply i res) { s with manager := .responding i res }
  | resp (i : ι) (res : Option Reply) : s.manager = .responding i res →
      Effect s (.resp i res)
        { s with manager := .receiving, oneshot := Function.update s.oneshot i (.sent res) }
  | got (i : ι) (res : Option Reply) : s.task i = .waiting → s.oneshot i = .sent res →
      Effect s (.got i (some res)) (s.goto i (.ended (some res)))
  | gotNone (i : ι) : s.task i = .waiting → s.oneshot i = .closed →
      Effect s (.got i none) (s.goto i (.ended none))
  | join (i : ι) (rest : List ι) : s.main = .joining (i :: rest) → (s.task i).ends = true →
      s.task i ≠ .panicked → Effect s (.join i) { s with main := .joining rest }
  | joinManager : s.main = .joining [] → s.manager = .returned →
      Effect s .joinManager { s with main := .returned }
  | joinPanic (rest : List ι) : s.main = .joining rest →
      ((∃ i, s.task i = .panicked) ∨ s.manager = .panicked) →
      Effect s .joinPanic { s with main := .panicked }

omit [Fintype ι] in
theorem effect_of_connect {ok : Bool} (h : s.connect ok = some (t, e)) : Effect s e t := by
  rw [connect] at h
  split at h
  · rename_i hmanager
    cases ok <;> cases h
    · exact .connectPanic hmanager
    · exact .connect hmanager
  · cases h

omit [Fintype ι] in
theorem effect_of_reply {res : Option Reply} (h : s.reply res = some (t, e)) : Effect s e t := by
  rw [reply] at h
  split at h
  · rename_i i hmanager
    cases h
    exact .reply i res hmanager
  · cases h

omit [Fintype ι] in
theorem effect_of_runTask {i : ι} (h : s.runTask i = some (t, e)) : Effect s e t := by
  rw [runTask] at h
  split at h
  · rename_i htask
    split at h
    · cases h
      exact .sendPanic i htask ‹_›
    · rename_i hmanager
      split at h
      · cases h
        exact .send i htask (Bool.eq_false_of_not_eq_true hmanager) ‹_›
      · cases h
  · rename_i htask
    split at h
    · cases h
    · cases h
      exact .got i _ htask ‹_›
    · cases h
      exact .gotNone i htask ‹_›
  · cases h
  · cases h

theorem effect_of_runManager (h : s.runManager = some (t, e)) : Effect s e t := by
  rw [runManager] at h
  split at h
  · rename_i hmanager
    split at h
    · cases h
      exact .recv _ _ hmanager ‹_›
    · split at h
      · cases h
        exact .recvNone hmanager ‹_› ‹_›
      · cases h
  · cases h
    exact .call _ ‹_›
  · cases h
    exact .resp _ _ ‹_›
  all_goals cases h

omit [Fintype ι] in
theorem effect_of_runMain (h : s.runMain = some (t, e)) : Effect s e t := by
  rw [runMain] at h
  split at h
  · rename_i i rest hmain
    cases htask : s.task i <;> simp only [htask] at h <;> cases h
    · exact .join i rest hmain (by rw [htask]; rfl) (by simp [htask])
    · exact .joinPanic _ hmain (.inl ⟨i, htask⟩)
  · rename_i hmain
    split at h <;> cases h
    · exact .joinManager hmain ‹_›
    · exact .joinPanic _ hmain (.inr ‹_›)
  · cases h
  · cases h

theorem effect_of_step (h : Step s e t) : Effect s e t := by
  obtain ⟨x, hx⟩ := h
  cases x with
  | connect ok => exact effect_of_connect hx
  | reply res => exact effect_of_reply hx
  | task i => exact effect_of_runTask hx
  | manager => exact effect_of_runManager hx
  | main => exact effect_of_runMain hx

/-! ### Where the commands are -/

/-- A command is in the channel, or with the manager, while its task waits for it. -/
structure Valid (handles : List ι) (s : Client ι) : Prop where
  nodup : s.channel.Nodup
  channel : ∀ i ∈ s.channel, s.task i = .waiting ∧ s.oneshot i = .empty ∧ s.manager.holds ≠ some i
  held : ∀ i, s.manager.holds = some i → s.task i = .waiting ∧ s.oneshot i = .empty
  sending : ∀ i, s.task i = .sending → s.oneshot i = .empty
  waiting : ∀ i, s.task i = .waiting → s.oneshot i = .empty → i ∈ s.channel ∨ s.manager.holds = some i
  closed : ∀ i, s.oneshot i = .closed → s.manager = .panicked
  failed : ∀ i, s.task i = .ended none ∨ s.task i = .panicked → s.manager = .panicked
  dropped : s.manager.ends = true → s.channel = []
  returned : s.manager = .returned → ∀ i, (s.task i).ends = true
  joined : ∀ rest, s.main = .joining rest → ∀ i ∈ handles, i ∈ rest ∨ (s.task i).ends = true
  main_returned : s.main = .returned → s.manager = .returned
  main_panicked : s.main = .panicked → s.manager = .panicked

omit [DecidableEq ι] [Fintype ι] in
theorem valid_start : Valid handles (start handles) where
  nodup := List.nodup_nil
  channel := by simp [start]
  held := by simp [start, Manager.holds]
  sending := fun _ _ => rfl
  waiting := by simp [start]
  closed := by simp [start]
  failed := by simp [start]
  dropped := fun _ => rfl
  returned := by simp [start]
  joined := by
    intro rest hmain i hi
    cases hmain
    exact .inl hi
  main_returned := by simp [start]
  main_panicked := by simp [start]

namespace Valid

omit [Fintype ι] in
/-- The manager goes on with the command it holds, if any. -/
theorem manager {m : Manager ι} (h : Valid handles s) (hends : s.manager.ends = false) (hm : m.ends = false)
    (hholds : m.holds = s.manager.holds) : Valid handles { s with manager := m } := by
  constructor <;> grind [Valid, Manager.ends]

omit [Fintype ι] in
theorem panic (h : Valid handles s) (hmanager : s.manager = .connecting) : Valid handles s.panic := by
  constructor <;> grind [Valid, Client.panic, Manager.holds]

omit [Fintype ι] in
theorem send {i : ι} (h : Valid handles s) (htask : s.task i = .sending) (hends : s.manager.ends = false) :
    Valid handles { s.goto i .waiting with channel := s.channel ++ [i] } := by
  have hfresh : i ∉ s.channel := by
    intro hi
    rw [(h.channel i hi).1] at htask
    cases htask
  constructor <;> grind [Valid, Manager.ends, Requester.ends]

omit [Fintype ι] in
/-- A task ends, with a result unless the manager has panicked. -/
theorem ends {i : ι} {x : Requester} (h : Valid handles s) (hx : x.ends = true)
    (hfailed : x = .ended none ∨ x = .panicked → s.manager = .panicked)
    (htask : s.task i = .sending ∧ s.manager.ends = true ∨ s.task i = .waiting ∧ s.oneshot i ≠ .empty) :
    Valid handles (s.goto i x) := by
  constructor <;> grind [Valid, Manager.ends, Manager.holds, Requester.ends]

omit [Fintype ι] in
theorem recv {i : ι} {rest : List ι} (h : Valid handles s) (hmanager : s.manager = .receiving)
    (hchannel : s.channel = i :: rest) : Valid handles { s with manager := .calling i, channel := rest } := by
  constructor <;> grind [Valid, Manager.ends, Manager.holds]

omit [Fintype ι] in
theorem resp {i : ι} {res : Option Reply} (h : Valid handles s) (hmanager : s.manager = .responding i res) :
    Valid handles { s with manager := .receiving, oneshot := Function.update s.oneshot i (.sent res) } := by
  constructor <;> grind [Valid, Manager.ends, Manager.holds]

omit [DecidableEq ι] [Fintype ι] in
theorem recvNone (h : Valid handles s) (hmanager : s.manager = .receiving) (hchannel : s.channel = [])
    (hends : ∀ i, (s.task i).ends = true) : Valid handles { s with manager := .returned } := by
  constructor <;> grind [Valid, Manager.ends, Manager.holds, Requester.ends]

omit [DecidableEq ι] [Fintype ι] in
theorem main {m : Main ι} (h : Valid handles s)
    (hjoined : ∀ rest, m = .joining rest → ∀ i ∈ handles, i ∈ rest ∨ (s.task i).ends = true)
    (hreturned : m = .returned → s.manager = .returned) (hpanicked : m = .panicked → s.manager = .panicked) :
    Valid handles { s with main := m } :=
  { h with joined := hjoined, main_returned := hreturned, main_panicked := hpanicked }

end Valid

omit [Fintype ι] in
theorem valid_step (h : Valid handles s) (heffect : Effect s e t) : Valid handles t := by
  cases heffect with
  | connect hmanager => exact h.manager (by rw [hmanager]; rfl) rfl (by rw [hmanager]; rfl)
  | connectPanic hmanager => exact h.panic hmanager
  | send i htask hends => exact h.send htask hends
  | sendPanic i htask hends =>
      refine h.ends rfl (fun _ => ?_) (.inl ⟨htask, hends⟩)
      cases hmanager : s.manager with
      | panicked => rfl
      | returned =>
          have hall := h.returned hmanager i
          rw [htask] at hall
          cases hall
      | connecting | receiving | calling | awaiting | responding =>
          rw [hmanager] at hends
          cases hends
  | recv i rest hmanager hchannel => exact h.recv hmanager hchannel
  | recvNone hmanager hchannel hends => exact h.recvNone hmanager hchannel hends
  | call i hmanager | reply i res hmanager =>
      exact h.manager (by rw [hmanager]; rfl) rfl (by rw [hmanager]; rfl)
  | resp i res hmanager => exact h.resp hmanager
  | got i res htask hsent => exact h.ends rfl (by simp) (.inr ⟨htask, by simp [hsent]⟩)
  | gotNone i htask hclosed =>
      exact h.ends rfl (fun _ => h.closed i hclosed) (.inr ⟨htask, by simp [hclosed]⟩)
  | join i rest hmain hends hpanic =>
      refine h.main (fun rest' hrest j hj => ?_) (by simp) (by simp)
      cases hrest
      rcases h.joined _ hmain j hj with hmem | hended
      · rcases List.mem_cons.mp hmem with rfl | hmem
        · exact .inr hends
        · exact .inl hmem
      · exact .inr hended
  | joinManager hmain hmanager => exact h.main (by simp) (fun _ => hmanager) (by simp)
  | joinPanic rest hmain hpanic =>
      refine h.main (by simp) (by simp) fun _ => ?_
      rcases hpanic with ⟨i, htask⟩ | hmanager
      · exact h.failed i (.inr htask)
      · exact hmanager

theorem valid_run (h : Run Step (start handles) tr s) : Valid handles s :=
  h.stateInvariant (Valid handles) valid_start fun _ _ _ hvalid hstep => valid_step hvalid (effect_of_step hstep)

/-! ### What has been sent, called and answered -/

/-- The tasks that have sent their commands, in this order. -/
def sends (tr : List (ClientEvent ι)) : List ι :=
  tr.filterMap fun
    | .send i => some i
    | _ => none

/-- The calls of the manager. -/
def calls (tr : List (ClientEvent ι)) : List ι :=
  tr.filterMap fun
    | .call i => some i
    | _ => none

/-- The calls that have returned, with their results. -/
def replies (tr : List (ClientEvent ι)) : List (ι × Option Reply) :=
  tr.filterMap fun
    | .reply i res => some (i, res)
    | _ => none

omit [DecidableEq ι] [Fintype ι] in
theorem sends_snoc (tr : List (ClientEvent ι)) (e : ClientEvent ι) : sends (tr ++ [e]) = sends tr ++ sends [e] :=
  List.filterMap_append

omit [DecidableEq ι] [Fintype ι] in
theorem calls_snoc (tr : List (ClientEvent ι)) (e : ClientEvent ι) : calls (tr ++ [e]) = calls tr ++ calls [e] :=
  List.filterMap_append

omit [DecidableEq ι] [Fintype ι] in
theorem replies_snoc (tr : List (ClientEvent ι)) (e : ClientEvent ι) :
    replies (tr ++ [e]) = replies tr ++ replies [e] := List.filterMap_append

/-- The call has returned `res`, and whoever has it has it from there. -/
def Has (s : Client ι) (i : ι) (res : Option Reply) : Prop :=
  s.manager = .responding i res ∨ s.oneshot i = .sent res ∨ s.task i = .ended (some res)

/-- What the events say about the state. -/
structure Logged (tr : List (ClientEvent ι)) (s : Client ι) : Prop where
  sends : s.manager ≠ .panicked → sends tr = calls tr ++ (s.manager.received ++ s.channel)
  calls : calls tr = (replies tr).map Prod.fst ++ s.manager.awaited
  fresh : ∀ i ∈ Client.sends tr, s.task i ≠ .sending
  nodup : (Client.sends tr).Nodup
  own : ∀ i res, s.Has i res → (i, res) ∈ replies tr
  uncalled : s.manager = .connecting ∨ s.manager = .panicked → Client.calls tr = []
  panicked : ClientEvent.connectPanic ∈ tr ↔ s.manager = .panicked

omit [DecidableEq ι] [Fintype ι] in
theorem logged_start : Logged [] (start handles) := by
  constructor <;> simp [start, sends, calls, replies, Has, Manager.received, Manager.awaited]

namespace Logged

omit [DecidableEq ι] [Fintype ι] in
/-- A step that nobody logs moves a command or a result on. -/
theorem quiet (h : Logged tr s) (hsends : Client.sends [e] = []) (hcalls : Client.calls [e] = [])
    (hreplies : replies [e] = []) (he : e ≠ .connectPanic)
    (hpending : t.manager.received ++ t.channel = s.manager.received ++ s.channel)
    (hawaited : t.manager.awaited = s.manager.awaited)
    (hfresh : ∀ i, t.task i = .sending → s.task i = .sending) (hown : ∀ i res, t.Has i res → s.Has i res)
    (hconnecting : t.manager = .connecting → s.manager = .connecting)
    (hpanicked : t.manager = .panicked ↔ s.manager = .panicked) : Logged (tr ++ [e]) t where
  sends := by
    rw [sends_snoc, calls_snoc, hsends, hcalls, List.append_nil, List.append_nil, hpending, Ne, hpanicked]
    exact h.sends
  calls := by
    rw [calls_snoc, replies_snoc, hcalls, hreplies, List.append_nil, List.append_nil, hawaited]
    exact h.calls
  fresh := by
    rw [sends_snoc, hsends, List.append_nil]
    exact fun i hi htask => h.fresh i hi (hfresh i htask)
  nodup := by
    rw [sends_snoc, hsends, List.append_nil]
    exact h.nodup
  own := by
    rw [replies_snoc, hreplies, List.append_nil]
    exact fun i res hres => h.own i res (hown i res hres)
  uncalled := by
    rw [calls_snoc, hcalls, List.append_nil, hpanicked]
    exact fun hmanager => h.uncalled (hmanager.imp_left hconnecting)
  panicked := by
    rw [List.mem_append, List.mem_singleton, hpanicked, ← h.panicked]
    exact or_iff_left fun heq => he heq.symm

end Logged

omit [Fintype ι] in
theorem logged_step (h : Logged tr s) (heffect : Effect s e t) : Logged (tr ++ [e]) t := by
  cases heffect with
  | connect | sendPanic | recv | recvNone | resp | got | gotNone | join | joinManager | joinPanic =>
      apply h.quiet <;> first | rfl | grind [Has, Manager.received, Manager.awaited]
  | connectPanic hmanager =>
      have hsends : sends (tr ++ [.connectPanic]) = sends tr := (sends_snoc ..).trans (List.append_nil _)
      have hcalls : calls (tr ++ [.connectPanic]) = calls tr := (calls_snoc ..).trans (List.append_nil _)
      have hreplies : replies (tr ++ [.connectPanic]) = replies tr :=
        (replies_snoc ..).trans (List.append_nil _)
      constructor <;> grind [Logged, Has, Manager.received, Manager.awaited, panic]
  | send i htask hends =>
      have hsends : sends (tr ++ [.send i]) = sends tr ++ [i] := sends_snoc ..
      have hcalls : calls (tr ++ [.send i]) = calls tr := (calls_snoc ..).trans (List.append_nil _)
      have hreplies : replies (tr ++ [.send i]) = replies tr := (replies_snoc ..).trans (List.append_nil _)
      constructor <;> grind [Logged, Has, Manager.received, Manager.awaited]
  | call i hmanager =>
      have hsends : sends (tr ++ [.call i]) = sends tr := (sends_snoc ..).trans (List.append_nil _)
      have hcalls : calls (tr ++ [.call i]) = calls tr ++ [i] := calls_snoc ..
      have hreplies : replies (tr ++ [.call i]) = replies tr := (replies_snoc ..).trans (List.append_nil _)
      constructor <;> grind [Logged, Has, Manager.received, Manager.awaited]
  | reply i res hmanager =>
      have hsends : sends (tr ++ [.reply i res]) = sends tr := (sends_snoc ..).trans (List.append_nil _)
      have hcalls : calls (tr ++ [.reply i res]) = calls tr := (calls_snoc ..).trans (List.append_nil _)
      have hreplies : replies (tr ++ [.reply i res]) = replies tr ++ [(i, res)] := replies_snoc ..
      constructor <;> grind [Logged, Has, Manager.received, Manager.awaited]

theorem logged_run (h : Run Step (start handles) tr s) : Logged tr s :=
  h.invariant Logged logged_start fun _ _ _ _ _ hlogged hstep => logged_step hlogged (effect_of_step hstep)

/-! ### Progress -/

/-- Where there is a command to carry out, the manager goes on, or `connect` or a call returns. -/
theorem manager_next (hends : s.manager.ends = false) (hwork : s.manager = .receiving → s.channel ≠ []) :
    ∃ x, (s.next x).isSome = true := by
  cases hmanager : s.manager with
  | connecting => exact ⟨.connect true, by simp [next, connect, hmanager]⟩
  | receiving =>
      obtain ⟨i, rest, hchannel⟩ := List.exists_cons_of_ne_nil (hwork hmanager)
      exact ⟨.manager, by simp [next, runManager, hmanager, hchannel]⟩
  | calling i => exact ⟨.manager, by simp [next, runManager, hmanager]⟩
  | awaiting i => exact ⟨.reply none, by simp [next, reply, hmanager]⟩
  | responding i res => exact ⟨.manager, by simp [next, runManager, hmanager]⟩
  | returned | panicked =>
      rw [hmanager] at hends
      cases hends

/-- A task that has not ended goes on, or waits for the manager, which does. -/
theorem task_next (h : Valid handles s) {i : ι} (htask : (s.task i).ends = false) :
    ∃ x, (s.next x).isSome = true := by
  cases hpc : s.task i with
  | sending =>
      cases hends : s.manager.ends with
      | true => exact ⟨.task i, by simp [next, runTask, hpc, hends]⟩
      | false =>
          by_cases hlength : s.channel.length < capacity
          · exact ⟨.task i, by simp [next, runTask, hpc, hends, hlength]⟩
          · exact manager_next hends fun _ hnil => hlength (by simp [hnil, capacity])
  | waiting =>
      cases honeshot : s.oneshot i with
      | sent res => exact ⟨.task i, by simp [next, runTask, hpc, honeshot]⟩
      | closed => exact ⟨.task i, by simp [next, runTask, hpc, honeshot]⟩
      | empty =>
          have hplace := h.waiting i hpc honeshot
          refine manager_next ?_ ?_
          · by_contra hends
            rw [Bool.not_eq_false] at hends
            rw [h.dropped hends] at hplace
            cases hmanager : s.manager <;> simp [hmanager, Manager.ends, Manager.holds] at hends hplace
          · intro hmanager hnil
            simp [hmanager, hnil, Manager.holds] at hplace
  | ended | panicked =>
      rw [hpc] at htask
      cases htask

theorem main_next (h : Valid handles s) (hall : ∀ i, i ∈ handles) {rest : List ι}
    (hmain : s.main = .joining rest) : ∃ x, (s.next x).isSome = true := by
  cases rest with
  | cons i rest =>
      cases htask : s.task i with
      | ended | panicked => exact ⟨.main, by simp [next, runMain, hmain, htask]⟩
      | sending | waiting => exact task_next h (i := i) (by rw [htask]; rfl)
  | nil =>
      have hended : ∀ i, (s.task i).ends = true := fun i =>
        (h.joined [] hmain i (hall i)).resolve_left List.not_mem_nil
      cases hends : s.manager.ends with
      | false =>
          by_cases hreceiving : s.manager = .receiving ∧ s.channel = []
          · exact ⟨.manager, by simp [next, runManager, hreceiving.1, hreceiving.2, hended]⟩
          · exact manager_next hends fun hmanager hnil => hreceiving ⟨hmanager, hnil⟩
      | true =>
          cases hmanager : s.manager with
          | returned | panicked => exact ⟨.main, by simp [next, runMain, hmain, hmanager]⟩
          | connecting | receiving | calling | awaiting | responding =>
              rw [hmanager] at hends
              cases hends

end Client

/-! ### The end -/

/-- The steps that a task has before it, with those for its command. -/
def Requester.remaining : Requester → Nat
  | .sending => 6
  | .waiting => 1
  | .ended _ | .panicked => 0

def Manager.remaining {ι : Type*} : Manager ι → Nat
  | .connecting => 2
  | .receiving => 1
  | .calling _ => 4
  | .awaiting _ => 3
  | .responding _ _ => 2
  | .returned | .panicked => 0

def Main.remaining {ι : Type*} : Main ι → Nat
  | .joining handles => handles.length + 1
  | .returned | .panicked => 0

namespace Client

variable {ι : Type*} [DecidableEq ι] [Fintype ι] {s t : Client ι} {e : ClientEvent ι}
  {tr : List (ClientEvent ι)} {handles : List ι}

def remaining (s : Client ι) : Nat :=
  ∑ i, (s.task i).remaining + 4 * s.channel.length + s.manager.remaining + s.main.remaining

/-- A task moves. -/
theorem sum_goto (s : Client ι) (i : ι) (x : Requester) :
    ∑ j, ((s.goto i x).task j).remaining + (s.task i).remaining =
      ∑ j, (s.task j).remaining + x.remaining := sum_update Requester.remaining s.task i x

theorem remaining_step (heffect : Effect s e t) : t.remaining < s.remaining := by
  unfold remaining
  cases heffect with
  | connect hmanager | recvNone hmanager | call i hmanager | reply i res hmanager | resp i res hmanager =>
      simp only [hmanager, Manager.remaining]
      omega
  | connectPanic hmanager =>
      simp only [panic, hmanager, Manager.remaining, List.length_nil]
      omega
  | send i htask =>
      have hsum := sum_goto s i .waiting
      rw [htask, Requester.remaining, Requester.remaining] at hsum
      simp only [goto_manager, goto_main, List.length_append, List.length_singleton]
      omega
  | sendPanic i htask =>
      have hsum := sum_goto s i .panicked
      rw [htask, Requester.remaining, Requester.remaining] at hsum
      simp only [goto_manager, goto_main, goto_channel]
      omega
  | recv i rest hmanager hchannel =>
      simp only [hmanager, hchannel, Manager.remaining, List.length_cons]
      omega
  | got i res htask =>
      have hsum := sum_goto s i (.ended (some res))
      rw [htask, Requester.remaining, Requester.remaining] at hsum
      simp only [goto_manager, goto_main, goto_channel]
      omega
  | gotNone i htask =>
      have hsum := sum_goto s i (.ended none)
      rw [htask, Requester.remaining, Requester.remaining] at hsum
      simp only [goto_manager, goto_main, goto_channel]
      omega
  | join i rest hmain =>
      simp only [hmain, Main.remaining, List.length_cons]
      omega
  | joinManager hmain =>
      simp only [hmain, Main.remaining]
      omega
  | joinPanic rest hmain =>
      simp only [hmain, Main.remaining]
      omega

/-- What a run of the client promises. -/
structure Answers (handles : List ι) (tr : List (ClientEvent ι)) (s : Client ι) : Prop where
  /-- the commands are called in the order in which they were sent, each at most once -/
  order : calls tr <+: sends tr
  once : (sends tr).Nodup
  /-- and one at a time -/
  one_at_a_time : calls tr = (replies tr).map Prod.fst ++ s.manager.awaited
  /-- a task ends with the result of its own command, unless the client could not connect -/
  own : ∀ i got, s.task i = .ended got →
    (∃ res, got = some res ∧ (i, res) ∈ replies tr) ∨ (got = none ∧ .connectPanic ∈ tr)
  refused : ∀ i, s.task i = .panicked → .connectPanic ∈ tr
  unconnected : .connectPanic ∈ tr → calls tr = []
  returned : s.main = .returned → .connectPanic ∉ tr ∧ ∀ i, ∃ res, s.task i = .ended (some res)
  panicked : s.main = .panicked → .connectPanic ∈ tr
  /-- nothing waits for ever -/
  goes_on : ∀ rest, s.main = .joining rest → ∃ x, (s.next x).isSome = true
  ends : tr.length ≤ 6 * Fintype.card ι + handles.length + 3

omit [DecidableEq ι] in
theorem remaining_start (handles : List ι) :
    (start handles).remaining = 6 * Fintype.card ι + handles.length + 3 := by
  have hsum : ∑ i : ι, ((start handles).task i).remaining = ∑ _i : ι, 6 := rfl
  rw [remaining, hsum, Finset.sum_const, Finset.card_univ, smul_eq_mul]
  simp only [start, Manager.remaining, Main.remaining, List.length_nil]
  omega

/-- **The tasks get the answers to their own commands.** Whatever `connect` and the calls return and however
the tasks are interleaved, `main` comes to its end: it returns where the client is connected, and then every
task has printed what its own call returned. -/
theorem main_answers (hall : ∀ i, i ∈ handles) (h : Run Step (start handles) tr s) :
    Answers handles tr s := by
  have hvalid := valid_run h
  have hlogged := logged_run h
  have hlength := h.length_add_le remaining (fun _ => True) trivial (fun _ _ _ _ _ => trivial)
    fun _ _ _ _ hstep => remaining_step (effect_of_step hstep)
  rw [remaining_start] at hlength
  exact {
    order := by
      by_cases hpanicked : s.manager = .panicked
      · rw [hlogged.uncalled (.inr hpanicked)]
        exact List.nil_prefix
      · rw [hlogged.sends hpanicked]
        exact List.prefix_append ..
    once := hlogged.nodup
    one_at_a_time := hlogged.calls
    own := by
      intro i got htask
      cases got with
      | none => exact .inr ⟨rfl, hlogged.panicked.mpr (hvalid.failed i (.inl htask))⟩
      | some res => exact .inl ⟨res, rfl, hlogged.own i res (.inr (.inr htask))⟩
    refused := fun i htask => hlogged.panicked.mpr (hvalid.failed i (.inr htask))
    unconnected := fun hpanic => hlogged.uncalled (.inr (hlogged.panicked.mp hpanic))
    returned := by
      intro hmain
      have hmanager := hvalid.main_returned hmain
      have hconnected : s.manager ≠ .panicked := by simp [hmanager]
      refine ⟨fun hpanic => hconnected (hlogged.panicked.mp hpanic), fun i => ?_⟩
      have hends := hvalid.returned hmanager i
      cases htask : s.task i with
      | sending | waiting =>
          rw [htask] at hends
          cases hends
      | panicked => exact absurd (hvalid.failed i (.inr htask)) hconnected
      | ended got =>
          cases got with
          | none => exact absurd (hvalid.failed i (.inl htask)) hconnected
          | some res => exact ⟨res, rfl⟩
    panicked := fun hmain => hlogged.panicked.mpr (hvalid.main_panicked hmain)
    goes_on := fun rest hmain => main_next hvalid hall hmain
    ends := (Nat.le_add_right ..).trans hlength }

/-- The second task is the first to send its command; its call fails. -/
def overtaken : List (ClientChoice Bool) :=
  [.task false, .connect true, .manager, .task true, .manager, .reply none, .manager, .task false, .manager,
    .manager, .reply (some (.value none)), .manager, .task true, .main, .main, .manager, .main]

theorem main_answers_overtaken : ∃ (tr : List (ClientEvent Bool)) (s : Client Bool),
    Answers [true, false] tr s ∧ calls tr = [false, true] ∧ s.main = .returned ∧
      s.task true = .ended (some (some (.value none))) ∧ s.task false = .ended (some none) := by
  have hreplay : (replay next (start [true, false]) overtaken).map (fun r =>
      (calls r.2, r.1.main, r.1.task true, r.1.task false)) =
        some ([false, true], .returned, .ended (some (some (.value none))), .ended (some none)) := by
    decide +kernel
  obtain ⟨⟨s, tr⟩, hreplayed, hfacts⟩ := Option.map_eq_some_iff.mp hreplay
  simp only [Prod.mk.injEq] at hfacts
  have hrun : Run Step (start [true, false]) tr s := Run.of_replay (fun _ x _ _ h => ⟨x, h⟩) hreplayed
  exact ⟨tr, s, main_answers (by decide) hrun, hfacts⟩

end Client

end SmallTrial.Redis
