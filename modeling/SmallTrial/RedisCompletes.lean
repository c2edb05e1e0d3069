import SmallTrial.RedisEndToEnd

/-! Where no connect, read or write fails, the client processes come to their ends: nothing waits for ever
between the tasks, the manager, the connection and the mutex of the server, and every task prints the result
of its command. -/

namespace SmallTrial.Redis

open Text Transition

/-! ### Nothing fails -/

/-- An error, the end of a stream or a panic -/
def SystemEvent.isFault {κ ι : Type*} : SystemEvent κ ι → Bool
  | .client _ .connectPanic | .client _ (.reply _ none) => true
  | .server .acceptPanic | .server (.leave _) | .server (.panic _) | .server (.writePanic _) => true
  | _ => false

/-- A step at which nothing fails. -/
def System.Smooth {κ ι F : Type*} [DecidableEq κ] [DecidableEq ι] [Fintype ι] (m : MiniRedis F)
    (command : κ → ι → Op) (s : System κ ι F) (e : SystemEvent κ ι) (t : System κ ι F) : Prop :=
  System.Step m command s e t ∧ e.isFault = false ∧ ∀ k, t.broken k = false

/-- The task has not ended. -/
def Task.serves {F : Type*} : Task F → Bool
  | .returned | .panicked _ => false
  | _ => true

/-- The steps of the server that a task has before it. -/
def Task.remaining {F : Type*} : Task F → Nat
  | .absent => 1
  | .parsing _ => 5
  | .locking _ => 4
  | .locked _ => 3
  | .unlocking _ => 2
  | .writing _ => 1
  | .reading | .returned | .panicked _ => 0

namespace Client

variable {ι : Type*} [DecidableEq ι] {s t : Client ι} {e : ClientEvent ι} {handles : List ι}

/-- No call has failed, and the client is connected or will be. -/
structure Sane (s : Client ι) : Prop where
  manager : s.manager ≠ .panicked
  result : ∀ i, ¬ s.Has i none

theorem sane_step (h : Sane s) (heffect : Effect s e t) (hconnect : e ≠ .connectPanic)
    (hreply : ∀ i, e ≠ .reply i none) : Sane t := by
  have hmanager := h.manager
  have hresponding : ∀ i, s.manager ≠ .responding i none := fun i heq => h.result i (.inl heq)
  have hsent : ∀ i, s.oneshot i ≠ .sent none := fun i heq => h.result i (.inr (.inl heq))
  have hended : ∀ i, s.task i ≠ .ended (some none) := fun i heq => h.result i (.inr (.inr heq))
  cases heffect <;> constructor <;> grind [Has]

omit [DecidableEq ι] in
/-- What the tasks have printed when `main` returns. -/
theorem ended_of_returned (h : Valid handles s) (hsane : Sane s) (hmain : ∀ rest, s.main ≠ .joining rest) :
    s.main = .returned ∧ ∀ i, ∃ reply, s.task i = .ended (some (some reply)) := by
  have hreturned : s.main = .returned := by
    cases hm : s.main with
    | joining rest => exact absurd hm (hmain rest)
    | returned => rfl
    | panicked => exact absurd (h.main_panicked hm) hsane.manager
  refine ⟨hreturned, fun i => ?_⟩
  have hends := h.returned (h.main_returned hreturned) i
  cases htask : s.task i with
  | sending | waiting =>
      rw [htask] at hends
      cases hends
  | panicked => exact absurd (h.failed i (.inr htask)) hsane.manager
  | ended got =>
      rcases got with _ | _ | reply
      · exact absurd (h.failed i (.inl htask)) hsane.manager
      · exact absurd (.inr (.inr htask)) (hsane.result i)
      · exact ⟨reply, rfl⟩

end Client

namespace System

variable {κ ι F : Type*} [DecidableEq κ] [DecidableEq ι] [Fintype ι] {m : MiniRedis F} {command : κ → ι → Op}
  {s t : System κ ι F} {e : SystemEvent κ ι} {tr : List (SystemEvent κ ι)} {handles : List ι}

/-- Nothing has failed so far. -/
structure Sane (m : MiniRedis F) (command : κ → ι → Op) (handles : List ι) (s : System κ ι F) : Prop where
  simulates : ∃ o, Simulates m command handles s o
  client : ∀ k, Client.Sane (s.client k)
  broken : ∀ k, s.broken k = false
  accepting : s.server.accepting = true
  task : ∀ k, (s.server.task k).serves = true

omit [DecidableEq κ] [Fintype ι] in
theorem sane_start : Sane m command handles (start handles : System κ ι F) where
  simulates := ⟨_, Simulates.start⟩
  client := fun k => ⟨by simp [start, Client.start], by simp [start, Client.start, Client.Has]⟩
  broken := fun _ => rfl
  accepting := rfl
  task := fun _ => rfl

omit [Fintype ι] in
/-- A client moves, and nothing fails. -/
theorem client_sane (h : ∀ k, Client.Sane (s.client k)) {k : κ} {e : ClientEvent ι} {c : Client ι}
    (heffect : Client.Effect (s.client k) e c) (he : (SystemEvent.client k e : SystemEvent κ ι).isFault = false) :
    ∀ k', Client.Sane (Function.update s.client k c k') := by
  intro k'
  by_cases hk : k' = k
  · subst hk
    rw [Function.update_self]
    refine Client.sane_step (h k') heffect ?_ ?_
    · rintro rfl
      cases he
    · rintro i rfl
      cases he
  · rw [Function.update_of_ne hk]
    exact h k'

omit [DecidableEq ι] [Fintype ι] in
/-- A task of the server moves, and does not end. -/
theorem task_sane (h : ∀ k, (s.server.task k).serves = true) {k : κ} {x : Task F} (hx : x.serves = true) :
    ∀ k', (Function.update s.server.task k x k').serves = true := by
  intro k'
  by_cases hk : k' = k
  · rw [hk, Function.update_self, hx]
  · rw [Function.update_of_ne hk, h k']

omit [Fintype ι] in
theorem server_sane (h : Sane m command handles s) {e : Event κ} {server : State κ F}
    (heffect : Redis.Effect m.fromFrame s.server e server)
    (he : (SystemEvent.server e : SystemEvent κ ι).isFault = false) :
    server.accepting = true ∧ ∀ k, (server.task k).serves = true := by
  cases heffect with
  | acceptPanic | leave | writePanic | panic | lockPanic => cases he
  | accept | read | command | lock | apply | unlock | write => exact ⟨h.accepting, task_sane h.task rfl⟩

theorem sane_step (h : Sane m command handles s) (hstep : Smooth m command s e t) :
    Sane m command handles t := by
  obtain ⟨hstep, he, hbroken⟩ := hstep
  obtain ⟨o, hsimulates⟩ := h.simulates
  have heffect := effect_of_step hstep
  obtain ⟨o', hsimulates', -⟩ := hsimulates.step heffect
  cases heffect with
  | client k e c heffect | request k i c heffect | callFail k i c heffect | receive k i r rest c _ _ heffect
  | fail k i c heffect =>
      exact ⟨⟨o', hsimulates'⟩, client_sane h.client heffect he, hbroken, h.accepting, h.task⟩
  | readFrame | write => exact ⟨⟨o', hsimulates'⟩, h.client, hbroken, h.accepting, task_sane h.task rfl⟩
  | server e server heffect =>
      obtain ⟨haccepting, htask⟩ := server_sane h heffect he
      exact ⟨⟨o', hsimulates'⟩, h.client, hbroken, haccepting, htask⟩

/-! ### Nothing waits for ever -/

theorem run_next (h : Sane m command handles s) {k : κ} {server : State κ F} {e : Event κ}
    (hrun : s.server.run m.fromFrame k = some (server, e))
    (he : (SystemEvent.server e : SystemEvent κ ι).isFault = false) : ∃ e t, Smooth m command s e t :=
  ⟨.server e, { s with server := server }, ⟨.run k, by rw [next, hrun]; rfl⟩, he, h.broken⟩

/-- A task that is about to do something under the mutex does it. -/
theorem holder_next (h : Sane m command handles s) {k : κ} (hholds : (s.server.task k).holds = true) :
    ∃ e t, Smooth m command s e t := by
  cases htask : s.server.task k with
  | locked op => exact run_next h (k := k) (by rw [State.run, htask]) rfl
  | unlocking r => exact run_next h (k := k) (by rw [State.run, htask]) rfl
  | absent | reading | parsing | locking | writing | returned | panicked =>
      rw [htask] at hholds
      cases hholds

/-- A task at the mutex gets it, or the one that holds it goes on. -/
theorem locking_next (h : Sane m command handles s) {k : κ} {op : Op} (htask : s.server.task k = .locking op) :
    ∃ e t, Smooth m command s e t := by
  obtain ⟨o, hsimulates⟩ := h.simulates
  cases hguard : s.server.guard with
  | some k' => exact holder_next h ((hsimulates.clean.guard k').mp hguard)
  | none =>
      have hrun : s.server.run m.fromFrame k =
          some ({ s.server.goto k (.locked op) with guard := some k }, .lock k op) := by
        rw [State.run, htask, hguard, hsimulates.clean.poisoned]
        rfl
      exact run_next h hrun rfl

/-- A frame on its way is read. -/
theorem request_next (h : Sane m command handles s) {k : κ} {f : F} {rest : List F}
    (hframes : s.toServer k = f :: rest) (hrests : (s.server.task k).rests = true) :
    ∃ e t, Smooth m command s e t := by
  have hserves := h.task k
  cases htask : s.server.task k with
  | absent =>
      have hnext : s.next m command (.accept k) =
          some ({ s with server := s.server.goto k .reading }, .server (.accept k)) := by
        rw [next, State.accept, htask, h.accepting]
        rfl
      exact ⟨_, _, ⟨_, hnext⟩, rfl, h.broken⟩
  | reading =>
      have hnext : s.next m command (.readFrame k) = some ({ s with
          server := s.server.goto k (.parsing f)
          toServer := Function.update s.toServer k rest }, .server (.read k)) := by
        simp only [next, readFrame, hframes, State.read, htask]
        rfl
      exact ⟨_, _, ⟨_, hnext⟩, rfl, h.broken⟩
  | returned | panicked =>
      rw [htask] at hserves
      cases hserves
  | parsing | locking | locked | unlocking | writing =>
      rw [htask] at hrests
      cases hrests

/-- The call of a manager returns, or its command moves on. -/
theorem awaiting_next (h : Sane m command handles s) {k : κ} {i : ι}
    (hmanager : (s.client k).manager = .awaiting i) : ∃ e t, Smooth m command s e t := by
  obtain ⟨o, hsimulates⟩ := h.simulates
  obtain ⟨flight, hlink⟩ := hsimulates.link k
  have hcalled : (s.client k).stage i = .called := by
    rw [Client.stage_of_waiting ((hsimulates.valid k).held i (by rw [hmanager]; rfl)), hmanager]
    exact if_pos rfl
  obtain ⟨result, rfl⟩ := hlink.called i hcalled (h.broken k)
  have hserves := h.task k
  have hwire := hlink.wire
  generalize hframes : s.toServer k = frames at hwire
  generalize htask : s.server.task k = x at hwire hserves
  generalize hresponses : s.toClient k = responses at hwire
  cases hwire with
  | request _ _ hrests => exact request_next h hframes (by rw [htask, hrests])
  | ended | unsent => cases hserves
  | parsing =>
      have hrun : s.server.run m.fromFrame k =
          some (s.server.goto k (.locking (command k i)), .command k (command k i)) := by
        simp only [State.run, htask, m.fromFrame_toFrame]
      exact run_next h hrun rfl
  | locking => exact locking_next h htask
  | locked | unlocking => exact holder_next h (k := k) (by rw [htask]; rfl)
  | writing _ r =>
      have hnext : s.next m command (.write k true) = some ({ s with
          server := s.server.goto k .reading
          toClient := Function.update s.toClient k (s.toClient k ++ [r]) }, .server (.write k r)) := by
        simp only [next, write, htask, State.write]
        rfl
      exact ⟨_, _, ⟨_, hnext⟩, rfl, h.broken⟩
  | response _ _ r reply _ hdecode =>
      have hnext : s.next m command (.receive k) = some ({ s with
          client := Function.update s.client k { s.client k with manager := .responding i (some reply) }
          toClient := Function.update s.toClient k [] }, .client k (.reply i (some reply))) := by
        simp only [next, receive, h.broken k, hresponses, hmanager, Client.reply, hdecode]
        rfl
      exact ⟨_, _, ⟨_, hnext⟩, rfl, h.broken⟩

/-- A step of a client that does not touch its connection. -/
theorem client_next (h : Sane m command handles s) {k : κ} {x : SystemChoice κ ι} {c : Client ι}
    {e : ClientEvent ι} (hnext : s.next m command x = s.ofClient k (some (c, e)))
    (he : (SystemEvent.client k e : SystemEvent κ ι).isFault = false) : ∃ e t, Smooth m command s e t :=
  ⟨.client k e, { s with client := Function.update s.client k c }, ⟨x, hnext⟩, he, h.broken⟩

omit [DecidableEq κ] in
/-- Only `connect` and a call can fail. -/
theorem isFault_eq_false {k : κ} {c c' : Client ι} {x : ClientChoice ι} {e : ClientEvent ι}
    (h : c.next x = some (c', e)) (hconnect : ∀ ok, x ≠ .connect ok) (hreply : ∀ res, x ≠ .reply res) :
    (SystemEvent.client k e : SystemEvent κ ι).isFault = false := by
  have hevent : e ≠ .connectPanic ∧ ∀ i res, e ≠ .reply i res := by
    cases x with
    | connect ok => exact absurd rfl (hconnect ok)
    | reply res => exact absurd rfl (hreply res)
    | task i =>
        rw [Client.next, Client.runTask] at h
        grind
    | manager =>
        rw [Client.next, Client.runManager] at h
        grind
    | main =>
        rw [Client.next, Client.runMain] at h
        grind
  cases e with
  | connectPanic => exact absurd rfl hevent.1
  | reply i res => exact absurd rfl (hevent.2 i res)
  | _ => rfl

/-- A manager that can go on does. -/
theorem manager_next (h : Sane m command handles s) {k : κ} {c : Client ι} {e : ClientEvent ι}
    (hrun : (s.client k).next .manager = some (c, e)) : ∃ e t, Smooth m command s e t := by
  have he := isFault_eq_false (k := k) hrun (by simp) (by simp)
  rw [Client.next] at hrun
  cases hmanager : (s.client k).manager with
  | calling i =>
      have hnext : s.next m command (.manager k true) = some ({ s with
          client := Function.update s.client k c
          toServer := Function.update s.toServer k (s.toServer k ++ [m.toFrame (command k i)]) }, .client k e) := by
        simp only [next, runManager, hmanager, h.broken k, hrun]
        rfl
      exact ⟨_, _, ⟨_, hnext⟩, he, h.broken⟩
  | connecting | receiving | awaiting | responding | returned | panicked =>
      have hnext : s.next m command (.manager k true) = s.ofClient k (some (c, e)) := by
        simp only [next, runManager, hmanager, hrun]
      exact client_next h hnext he

/-- Where `main` has not come to its end, something goes on. -/
theorem exists_smooth (h : Sane m command handles s) (hall : ∀ i, i ∈ handles) {k : κ} {rest : List ι}
    (hmain : (s.client k).main = .joining rest) : ∃ e t, Smooth m command s e t := by
  obtain ⟨o, hsimulates⟩ := h.simulates
  obtain ⟨x, hx⟩ := Client.main_next (hsimulates.valid k) hall hmain
  obtain ⟨⟨c, e⟩, hnext⟩ := Option.isSome_iff_exists.mp hx
  cases x with
  | connect ok =>
      rw [Client.next, Client.connect] at hnext
      split at hnext
      · rename_i hmanager
        have hconnect : s.next m command (.connect k true) =
            s.ofClient k (some ({ s.client k with manager := .receiving }, .connect)) := by
          rw [next, Client.connect, hmanager]
          rfl
        exact client_next h hconnect rfl
      · cases hnext
  | reply res =>
      rw [Client.next, Client.reply] at hnext
      split at hnext
      · exact awaiting_next h ‹_›
      · cases hnext
  | task i =>
      have htask : s.next m command (.task k i) = s.ofClient k (some (c, e)) := congrArg (s.ofClient k) hnext
      exact client_next h htask (isFault_eq_false hnext (by simp) (by simp))
  | manager => exact manager_next h hnext
  | main =>
      have hrun : s.next m command (.main k) = s.ofClient k (some (c, e)) := congrArg (s.ofClient k) hnext
      exact client_next h hrun (isFault_eq_false hnext (by simp) (by simp))

/-! ### Everything ends -/

/-- The steps that the two sides of a connection have before them. -/
def remainingOf (s : System κ ι F) (k : κ) : Nat :=
  7 * (s.client k).remaining + 6 * (s.toServer k).length + (s.server.task k).remaining

omit [DecidableEq ι] in
/-- The task of one connection moves. -/
theorem remainingOf_server {server : State κ F} {k : κ} {x : Task F}
    (htask : server.task = Function.update s.server.task k x)
    (hlt : x.remaining < (s.server.task k).remaining) : ∃ k,
      { s with server := server }.remainingOf k < s.remainingOf k ∧
        ∀ k', k' ≠ k → { s with server := server }.remainingOf k' = s.remainingOf k' := by
  refine ⟨k, ?_, fun k' hk => ?_⟩
  · simp only [remainingOf, htask, Function.update_self]
    omega
  · simp only [remainingOf, htask, Function.update_of_ne hk]

/-- A step at which nothing fails brings one connection nearer to its end. -/
theorem remaining_step (hstep : Smooth m command s e t) :
    ∃ k, t.remainingOf k < s.remainingOf k ∧ ∀ k', k' ≠ k → t.remainingOf k' = s.remainingOf k' := by
  obtain ⟨hstep, he, hbroken⟩ := hstep
  cases effect_of_step hstep with
  | client k e c heffect =>
      have hlt := Client.remaining_step heffect
      refine ⟨k, ?_, fun k' hk => ?_⟩
      · simp only [remainingOf, Function.update_self]
        omega
      · simp only [remainingOf, Function.update_of_ne hk]
  | request k i c heffect =>
      have hlt := Client.remaining_step heffect
      refine ⟨k, ?_, fun k' hk => ?_⟩
      · simp only [remainingOf, Function.update_self, List.length_append, List.length_singleton]
        omega
      · simp only [remainingOf, Function.update_of_ne hk]
  | callFail k i c heffect =>
      have hk : Function.update s.broken k true k = false := hbroken k
      rw [Function.update_self] at hk
      cases hk
  | receive k i r rest c _ _ heffect =>
      have hlt := Client.remaining_step heffect
      refine ⟨k, ?_, fun k' hk => ?_⟩
      · simp only [remainingOf, Function.update_self]
        omega
      · simp only [remainingOf, Function.update_of_ne hk]
  | fail k i c heffect => cases he
  | readFrame k f rest hframes htask =>
      refine ⟨k, ?_, fun k' hk => ?_⟩
      · simp only [remainingOf, State.goto, Function.update_self, hframes, htask, Task.remaining, List.length_cons]
        omega
      · simp only [remainingOf, State.goto, Function.update_of_ne hk]
  | write k r htask => exact remainingOf_server (k := k) rfl (by rw [htask]; simp [Task.remaining])
  | server e server heffect hread hwrite =>
      cases heffect with
      | acceptPanic | leave | writePanic | panic | lockPanic => cases he
      | read k => exact absurd rfl (hread k)
      | write k r => exact absurd rfl (hwrite k r)
      | accept k htask | command k _ _ htask | lock k _ htask | apply k _ htask | unlock k _ htask =>
          exact remainingOf_server (k := k) rfl (by rw [htask]; simp [Task.remaining])

variable [Fintype κ]

def remaining (s : System κ ι F) : Nat := ∑ k, s.remainingOf k

/-- All client processes have come to their ends. -/
def Finished (s : System κ ι F) : Prop :=
  ∀ k, (s.client k).main = .returned ∧ ∀ i, ∃ reply, (s.client k).task i = .ended (some (some reply))

/-- What a run at which nothing fails promises. -/
structure Completes (m : MiniRedis F) (command : κ → ι → Op) (handles : List ι) (tr : List (SystemEvent κ ι))
    (s : System κ ι F) : Prop where
  bounded : tr.length ≤ Fintype.card κ * (7 * (6 * Fintype.card ι + handles.length + 3) + 1)
  final : (∀ e t, ¬ Smooth m command s e t) → s.Finished
  completes : ∃ tr' t, Run (Smooth m command) s tr' t ∧ t.Finished

/-- **Without failures everything completes.** The client processes, the server, the connections and the mutex
never wait for each other in a circle: however the steps are interleaved, there are finitely many, and when
there are no more all client processes have returned and each task has printed a result. -/
theorem redis_completes (hall : ∀ i, i ∈ handles) (h : Run (Smooth m command) (start handles) tr s) :
    Completes m command handles tr s := by
  have hkeep : ∀ (a : System κ ι F) e b, Sane m command handles a → Smooth m command a e b →
      Sane m command handles b := fun _ _ _ => sane_step
  have hdec : ∀ (a : System κ ι F) e b, Sane m command handles a → Smooth m command a e b →
      b.remaining < a.remaining := by
    intro a e b _ hstep
    obtain ⟨k, hlt, hrest⟩ := remaining_step hstep
    refine Finset.sum_lt_sum (fun k' _ => ?_) ⟨k, Finset.mem_univ k, hlt⟩
    by_cases hk : k' = k
    · rw [hk]
      exact hlt.le
    · exact (hrest k' hk).le
  have hfinished : ∀ a : System κ ι F, Sane m command handles a → ¬ a.Finished → ∃ e b, Smooth m command a e b := by
    intro a ha hnot
    by_contra hnone
    refine hnot fun k => ?_
    obtain ⟨o, hsimulates⟩ := ha.simulates
    exact Client.ended_of_returned (hsimulates.valid k) (ha.client k) fun rest hmain =>
      hnone (exists_smooth ha hall hmain)
  have hsane : Sane m command handles s := h.stateInvariant _ sane_start hkeep
  have hlength := h.length_add_le remaining (Sane m command handles) sane_start hkeep hdec
  exact {
    bounded := by
      refine (Nat.le_add_right ..).trans (hlength.trans (le_of_eq ?_))
      have hsum : ∀ k : κ, (start handles : System κ ι F).remainingOf k =
          7 * (6 * Fintype.card ι + handles.length + 3) + 1 := by
        intro k
        have hclient := Client.remaining_start handles
        simp only [remainingOf, start, State.start, Task.remaining, List.length_nil, hclient]
      rw [remaining, Finset.sum_congr rfl fun k _ => hsum k, Finset.sum_const, Finset.card_univ, smul_eq_mul]
    final := fun hnone => by
      by_contra hnot
      obtain ⟨e, t, hstep⟩ := hfinished s hsane hnot
      exact hnone e t hstep
    completes := Run.exists_final remaining (Sane m command handles) Finished hkeep hdec hfinished hsane }

end System

/-- `t1` gets `hello`, and `t2` sets `foo` to `bar`. -/
def command (_ : Bool) : Bool → Op
  | true => .get "hello"
  | false => .set "foo" (ascii "bar")

namespace System

/-- `next`, unless something fails -/
def smoothNext (s : System Bool Bool Op) (x : SystemChoice Bool Bool) :
    Option (System Bool Bool Op × SystemEvent Bool Bool) :=
  (s.next MiniRedis.direct command x).filter fun r => !r.2.isFault && decide (∀ k, r.1.broken k = false)

/-- Both client processes wait: the command of one has the mutex, and that of the other is behind it. -/
def waiting : List (SystemChoice Bool Bool) :=
  [.task true false, .connect true true, .manager true true, .manager true true, .task false true,
    .task false false, .connect false true, .manager false true, .manager false true, .accept true, .accept false,
    .readFrame true, .run true, .run true, .readFrame false, .run false]

theorem redis_completes_waiting : ∃ (tr : List (SystemEvent Bool Bool)) (s : System Bool Bool Op),
    Completes MiniRedis.direct command [true, false] tr s ∧ s.server.guard = some true ∧
      (s.client false).manager = .awaiting true ∧ (s.client false).channel = [false] := by
  have hreplay : (replay smoothNext (start [true, false]) waiting).map (fun r =>
      (r.1.server.guard, (r.1.client false).manager, (r.1.client false).channel)) =
        some (some true, .awaiting true, [false]) := by
    decide +kernel
  obtain ⟨⟨s, tr⟩, hreplayed, hfacts⟩ := Option.map_eq_some_iff.mp hreplay
  simp only [Prod.mk.injEq] at hfacts
  have hstep : ∀ (s : System Bool Bool Op) x t e, s.smoothNext x = some (t, e) →
      Smooth MiniRedis.direct command s e t := by
    intro s x t e hnext
    obtain ⟨hnext, hsmooth⟩ := Option.filter_eq_some_iff.mp hnext
    rw [Bool.and_eq_true, Bool.not_eq_true', decide_eq_true_eq] at hsmooth
    exact ⟨⟨x, hnext⟩, hsmooth⟩
  exact ⟨tr, s, redis_completes (by decide) (Run.of_replay hstep hreplayed), hfacts⟩

end System

end SmallTrial.Redis
