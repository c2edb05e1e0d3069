import Mathlib.Data.List.Basic
import Mathlib.Data.Fintype.Basic
import SmallTrial.ChatReplyModel

/-! Whether a client gets the reply to its own request. A request that waits for its reply has exactly
one token: the request on its way to the server, or the reply on its way back, which may be in the
message queue. The queue is shared and selected by type only, so a client that takes a message gets its
own as long as no other client waits for the same type, and a client that starts removes nobody's
message as long as no other client waits at all. -/

namespace SmallTrial.Chat.Reply

open Transition

variable {ι : Type*}

/-- What the main thread waits for. -/
def MainPc.expects : MainPc → List (MsgType × Nat)
  | .waiting type call => [(type, call)]
  | _ => []

def Packet.key (p : Packet ι) : MsgType × Nat := (p.type, p.call)

/-- The requests and replies of a client outside the queue. -/
def Client.tokens (client : Client ι) : List (MsgType × Nat) :=
  ((client.helper.toList ++ client.fromServer).filter (·.type ≠ .repost)).map Packet.key ++
    client.toServer

section Tokens

variable [DecidableEq ι]

/-- The replies to a client that are in the queue. -/
def queueTokens (c : ι) (queue : List (Packet ι)) : List (MsgType × Nat) :=
  (queue.filter (·.dest = some c)).map Packet.key

theorem queueTokens_append (c : ι) (queue queue' : List (Packet ι)) :
    queueTokens c (queue ++ queue') = queueTokens c queue ++ queueTokens c queue' := by
  rw [queueTokens, List.filter_append, List.map_append, queueTokens, queueTokens]

theorem queueTokens_singleton (c : ι) (p : Packet ι) :
    queueTokens c [p] = if p.dest = some c then [p.key] else [] := by
  rw [queueTokens, List.filter_singleton]
  by_cases h : p.dest = some c <;> simp [h]

theorem key_mem {c : ι} {queue : List (Packet ι)} {p : Packet ι} (hp : p ∈ queue)
    (hdest : p.dest = some c) : p.key ∈ queueTokens c queue :=
  List.mem_map_of_mem (List.mem_filter.mpr ⟨hp, by simpa using hdest⟩)

end Tokens

theorem Client.tokens_offline (main : MainPc) : (Client.offline main : Client ι).tokens = [] := rfl

/-- `msgrcv` takes a message of the type it is given out of the queue. -/
theorem msgrcv_eq {type : MsgType} {queue rest : List (Packet ι)} {p : Packet ι}
    (h : msgrcv type queue = some (p, rest)) :
    p.type = type ∧ ∃ before after, queue = before ++ p :: after ∧ rest = before ++ after := by
  rw [msgrcv] at h
  obtain ⟨q, hq, he⟩ := Option.map_eq_some_iff.mp h
  cases he
  obtain ⟨htype, before, after, rfl, hbefore⟩ := List.find?_eq_some_iff_append.mp hq
  refine ⟨by simpa using htype, before, after, rfl, ?_⟩
  rw [List.eraseP_append_right _ (by simpa using hbefore)]
  simp [htype]

/-! ### The invariant -/

variable [DecidableEq ι]

/-- Every client that waits has one token, and nobody else has any. -/
structure Coherent (tr : List (Event ι)) (s : State ι) : Prop where
  tokens_eq : ∀ c, queueTokens c s.queue ++ (s.client c).tokens = (s.client c).main.expects
  own : ∀ c, ∀ p ∈ (s.client c).helper.toList ++ (s.client c).fromServer, p.type ≠ .repost →
    p.dest = some c ∧ .serve c p.type p.call ∈ tr
  served : ∀ p ∈ s.queue, ∀ c, p.dest = some c → .serve c p.type p.call ∈ tr
  leftover : ∀ p ∈ s.queue, p.dest = none → ∀ c,
    (s.client c).main = .absent ∨ (s.client c).main = .draining
  requested : ∀ c type call, (s.client c).main = .waiting type call →
    .request c type call ∈ tr ∧ type ≠ .repost

/-- Client `c` waits for a reply of this type. -/
def Waits (s : State ι) (c : ι) (type : MsgType) : Prop :=
  ∃ call, (s.client c).main = .waiting type call

/-- A message is taken when no other client waits for its type, or, in a constructor, when none waits. -/
def Alone (s : State ι) : Event ι → Prop
  | .drain _ _ => ∀ c type, ¬Waits s c type
  | .receive c _ _ => ∀ c' type, Waits s c type → Waits s c' type → c' = c
  | _ => True

namespace Coherent

variable {tr : List (Event ι)} {s s' : State ι}

/-- A message in the queue is a leftover or answers a client that waits for it. -/
theorem waits_of_mem (H : Coherent tr s) {p : Packet ι} (hp : p ∈ s.queue) {c : ι}
    (hdest : p.dest = some c) : (s.client c).main = .waiting p.type p.call := by
  have hmem : p.key ∈ (s.client c).main.expects := by
    rw [← H.tokens_eq c]
    exact List.mem_append_left _ (key_mem hp hdest)
  cases hmain : (s.client c).main <;> rw [hmain] at hmem <;> simp [MainPc.expects, Packet.key] at hmem
  rw [hmem.1, hmem.2]

theorem init (leftover : List (MsgType × Nat)) : Coherent [] (State.new leftover : State ι) where
  tokens_eq := fun c => by
    have hnone : (State.new leftover : State ι).queue.filter (·.dest = some c) = [] := by
      rw [List.filter_eq_nil_iff]
      intro p hp
      obtain ⟨m, -, rfl⟩ := List.mem_map.mp hp
      simp
    rw [queueTokens, hnone]
    rfl
  own := fun _ _ hp => nomatch hp
  served := fun p hp c hdest => by
    obtain ⟨m, -, rfl⟩ := List.mem_map.mp hp
    cases hdest
  leftover := fun _ _ _ _ => .inl rfl
  requested := fun _ _ _ h => nomatch h

/-- A step of one client that may add its own reply to the queue, or take something out of it. -/
theorem update (H : Coherent tr s) (e : Event ι) {c : ι} {x : Client ι} {queue : List (Packet ι)}
    (n : Nat) (htokens : queueTokens c queue ++ x.tokens = x.main.expects)
    (hown : ∀ p ∈ x.helper.toList ++ x.fromServer, p.type ≠ .repost →
      p.dest = some c ∧ .serve c p.type p.call ∈ tr ++ [e])
    (hqueue : ∀ c' ≠ c, queueTokens c' queue = queueTokens c' s.queue)
    (hmem : ∀ p ∈ queue, p ∈ s.queue ∨ (p.dest = some c ∧ .serve c p.type p.call ∈ tr))
    (hleft : (∃ p ∈ queue, p.dest = none) → x.main = .absent ∨ x.main = .draining)
    (hrequested : ∀ type call, x.main = .waiting type call →
      .request c type call ∈ tr ++ [e] ∧ type ≠ .repost) :
    Coherent (tr ++ [e]) ({ s with queue, calls := n }.set c x) := by
  constructor
  case tokens_eq =>
      exact (Function.forall_update_iff s.client fun c x => queueTokens c queue ++ x.tokens =
        x.main.expects).mpr ⟨htokens, fun c' hc' => by rw [hqueue c' hc', H.tokens_eq c']⟩
  case own =>
      refine (Function.forall_update_iff s.client fun c x => ∀ p ∈ x.helper.toList ++ x.fromServer,
        p.type ≠ .repost → p.dest = some c ∧ .serve c p.type p.call ∈ tr ++ [e]).mpr
        ⟨hown, fun c' _ p hp htype => ?_⟩
      obtain ⟨hdest, hserve⟩ := H.own c' p hp htype
      exact ⟨hdest, List.mem_append_left _ hserve⟩
  case served =>
      intro p hp c' hdest
      refine List.mem_append_left _ ?_
      rcases hmem p hp with hold | ⟨hc, hserve⟩
      · exact H.served p hold c' hdest
      · rw [hc, Option.some.injEq] at hdest
        rw [← hdest]
        exact hserve
  case leftover =>
      intro p hp hdest
      refine (Function.forall_update_iff s.client fun _ x => x.main = .absent ∨ x.main = .draining).mpr
        ⟨hleft ⟨p, hp, hdest⟩, fun c' _ => ?_⟩
      rcases hmem p hp with hold | ⟨hc, -⟩
      · exact H.leftover p hold hdest c'
      · cases hc.symm.trans hdest
  case requested =>
      refine (Function.forall_update_iff s.client fun c x => ∀ type call, x.main = .waiting type call →
        .request c type call ∈ tr ++ [e] ∧ type ≠ .repost).mpr
        ⟨hrequested, fun c' _ type call hmain => ?_⟩
      obtain ⟨hrequest, htype⟩ := H.requested c' type call hmain
      exact ⟨List.mem_append_left _ hrequest, htype⟩

/-- The case of `update` where the queue stays as it is. -/
theorem set (H : Coherent tr s) (e : Event ι) {c : ι} {x : Client ι}
    (htokens : x.tokens = (s.client c).tokens ∧ x.main.expects = (s.client c).main.expects)
    (hown : ∀ p ∈ x.helper.toList ++ x.fromServer,
      p ∈ (s.client c).helper.toList ++ (s.client c).fromServer)
    (hleft : (∃ p ∈ s.queue, p.dest = none) → x.main = .absent ∨ x.main = .draining) :
    Coherent (tr ++ [e]) (s.set c x) := by
  refine H.update e s.calls ?_ (fun p hp htype => ?_) (fun _ _ => rfl) (fun _ => .inl) hleft ?_
  · rw [htokens.1, htokens.2, H.tokens_eq c]
  · obtain ⟨hdest, hserve⟩ := H.own c p (hown p hp) htype
    exact ⟨hdest, List.mem_append_left _ hserve⟩
  · intro type call hmain
    have hexpects := htokens.2
    rw [hmain] at hexpects
    cases hold : (s.client c).main <;> rw [hold] at hexpects <;> cases hexpects
    obtain ⟨hrequest, htype⟩ := H.requested c type call hold
    exact ⟨List.mem_append_left _ hrequest, htype⟩

theorem tokens_nil (H : Coherent tr s) {c : ι} (hmain : (s.client c).main.expects = []) :
    queueTokens c s.queue = [] ∧ (s.client c).tokens = [] :=
  List.append_eq_nil_iff.mp ((H.tokens_eq c).trans hmain)

/-- A client that waits for nothing can lose what its sockets hold. -/
theorem offline (H : Coherent tr s) (e : Event ι) {c : ι} {main : MainPc}
    (hbefore : (s.client c).main.expects = []) (hafter : main.expects = [])
    (hleft : (∃ p ∈ s.queue, p.dest = none) → main = .absent ∨ main = .draining) :
    Coherent (tr ++ [e]) (s.set c (.offline main)) := by
  refine H.set e ⟨?_, ?_⟩ (fun p hp => nomatch hp) hleft
  · rw [Client.tokens_offline, (H.tokens_nil hbefore).2]
  · exact hafter.trans hbefore.symm

theorem repost_toServer (s : State ι) (type : MsgType) (call : Nat) (target : Option ι) (c : ι) :
    ((s.repost type call target).client c).toServer = (s.client c).toServer := by
  unfold State.repost
  split
  · split
    · refine (Function.forall_update_iff s.client fun c x => x.toServer = (s.client c).toServer).mpr
        ⟨?_, fun _ _ => rfl⟩ c
      rfl
    · rfl
  · rfl

/-- A `REPOST` on its way to a client is no token. -/
theorem repost (H : Coherent tr s) (type : MsgType) (call : Nat) (target : Option ι) :
    Coherent tr (s.repost type call target) := by
  unfold State.repost
  split
  · rename_i d
    split
    · have htokens : ({ s.client d with fromServer := (s.client d).fromServer ++
          [⟨.repost, some d, call⟩] } : Client ι).tokens = (s.client d).tokens := by
        simp [Client.tokens]
      constructor
      case tokens_eq =>
          refine (Function.forall_update_iff s.client fun c x => queueTokens c s.queue ++ x.tokens =
            x.main.expects).mpr ⟨?_, fun c' _ => H.tokens_eq c'⟩
          rw [htokens, H.tokens_eq d]
      case own =>
          refine (Function.forall_update_iff s.client fun c x => ∀ p ∈ x.helper.toList ++ x.fromServer,
            p.type ≠ .repost → p.dest = some c ∧ .serve c p.type p.call ∈ tr).mpr
            ⟨fun p hp htype => ?_, fun c' _ => H.own c'⟩
          rw [← List.append_assoc, List.mem_append, List.mem_singleton] at hp
          rcases hp with hold | rfl
          · exact H.own d p hold htype
          · exact absurd rfl htype
      case served => exact H.served
      case leftover =>
          exact fun p hp hdest => (Function.forall_update_iff s.client fun _ x => x.main = .absent ∨
            x.main = .draining).mpr ⟨H.leftover p hp hdest d, fun c' _ => H.leftover p hp hdest c'⟩
      case requested =>
          refine (Function.forall_update_iff s.client fun c x => ∀ type call,
            x.main = .waiting type call → .request c type call ∈ tr ∧ type ≠ .repost).mpr
            ⟨?_, fun c' _ => H.requested c'⟩
          exact H.requested d
    · exact H
  · exact H

/-! ### The steps -/

/-- The client that has just sent a request. -/
theorem step_request (H : Coherent tr s) {c : ι} {type : MsgType} (hmain : (s.client c).main = .menu)
    (htype : type.isRequest = true) :
    Coherent (tr ++ [.request c type s.calls]) ({ s with calls := s.calls + 1 }.set c
      { s.client c with
        main := .waiting type s.calls
        toServer := (s.client c).toServer ++ [(type, s.calls)] }) := by
  obtain ⟨hqueue, htokens⟩ := H.tokens_nil (c := c) (by rw [hmain]; rfl)
  refine H.update _ _ ?_ (fun p hp hp' => ?_) (fun _ _ => rfl) (fun _ => .inl) ?_ ?_
  · rw [Client.tokens, List.append_eq_nil_iff] at htokens
    simp only [hqueue, Client.tokens, htokens.1, htokens.2]
    rfl
  · obtain ⟨hdest, hserve⟩ := H.own c p hp hp'
    exact ⟨hdest, List.mem_append_left _ hserve⟩
  · rintro ⟨p, hp, hdest⟩
    rcases H.leftover p hp hdest c with h | h <;> rw [hmain] at h <;> cases h
  · rintro type' call' hwait
    cases hwait
    refine ⟨List.mem_append_right _ (List.mem_singleton.mpr rfl), ?_⟩
    rintro rfl
    cases htype

/-- The server's reply goes back on the connection the request came on. -/
theorem step_serve (H : Coherent tr s) {c : ι} {type : MsgType} {call : Nat}
    {rest : List (MsgType × Nat)} (hserver : (s.client c).toServer = (type, call) :: rest) :
    Coherent (tr ++ [.serve c type call]) (s.set c { s.client c with
      toServer := rest, fromServer := (s.client c).fromServer ++ [⟨type, some c, call⟩] }) := by
  have hmem : (type, call) ∈ (s.client c).main.expects := by
    rw [← H.tokens_eq c, Client.tokens, hserver]
    simp
  obtain ⟨hmain, htype⟩ : (s.client c).main = .waiting type call ∧ type ≠ .repost := by
    cases hmain : (s.client c).main <;> rw [hmain] at hmem <;> simp [MainPc.expects] at hmem
    obtain ⟨rfl, rfl⟩ := hmem
    exact ⟨rfl, (H.requested c _ _ hmain).2⟩
  have hleft : ¬∃ p ∈ s.queue, p.dest = none := by
    rintro ⟨p, hp, hdest⟩
    rcases H.leftover p hp hdest c with h | h <;> rw [hmain] at h <;> cases h
  refine H.update _ s.calls ?_ (fun p hp hp' => ?_) (fun _ _ => rfl) (fun _ => .inl)
    (fun h => absurd h hleft) fun type' call' hwait => ?_
  · rw [← H.tokens_eq c, Client.tokens, Client.tokens, hserver]
    simp [htype, Packet.key, List.filter_append]
  · rw [← List.append_assoc, List.mem_append, List.mem_singleton] at hp
    rcases hp with hold | rfl
    · obtain ⟨hdest, hserve⟩ := H.own c p hold hp'
      exact ⟨hdest, List.mem_append_left _ hserve⟩
    · exact ⟨rfl, List.mem_append_right _ (List.mem_singleton.mpr rfl)⟩
  · obtain ⟨hrequest, hne⟩ := H.requested c type' call' hwait
    exact ⟨List.mem_append_left _ hrequest, hne⟩

/-- `msgsnd` of the helper. -/
theorem step_helperSend (H : Coherent tr s) {c : ι} {p : Packet ι}
    (hhelper : (s.client c).helper = some p) (htype : p.type ≠ .repost) :
    Coherent (tr ++ [.helperSend c p])
      ({ s with queue := s.queue ++ [p] }.set c { s.client c with helper := none }) := by
  obtain ⟨hdest, hserve⟩ := H.own c p (by simp [hhelper]) htype
  have hmain : (s.client c).main.expects ≠ [] := by
    rw [← H.tokens_eq c, Client.tokens, hhelper]
    simp [htype]
  have hleft : ¬∃ q ∈ s.queue ++ [p], q.dest = none := by
    rintro ⟨q, hq, hnone⟩
    rcases List.mem_append.mp hq with hold | hnew
    · rcases H.leftover q hold hnone c with h | h <;> rw [h] at hmain <;> exact hmain rfl
    · rw [List.mem_singleton.mp hnew, hdest] at hnone
      cases hnone
  refine H.update _ s.calls ?_ (fun q hq hq' => ?_) (fun c' hc' => ?_) (fun q hq => ?_)
    (fun h => absurd h hleft) fun type call hwait => ?_
  · rw [← H.tokens_eq c, queueTokens_append, queueTokens_singleton, if_pos hdest, Client.tokens,
      Client.tokens, hhelper]
    simp [htype]
  · obtain ⟨hq₁, hq₂⟩ := H.own c q (List.mem_append_right _ hq) hq'
    exact ⟨hq₁, List.mem_append_left _ hq₂⟩
  · rw [queueTokens_append, queueTokens_singleton, if_neg, List.append_nil]
    rw [hdest, Option.some.injEq]
    exact Ne.symm hc'
  · rcases List.mem_append.mp hq with hold | hnew
    · exact .inl hold
    · rw [List.mem_singleton.mp hnew]
      exact .inr ⟨hdest, hserve⟩
  · obtain ⟨hrequest, hne⟩ := H.requested c type call hwait
    exact ⟨List.mem_append_left _ hrequest, hne⟩

/-- A message taken out of the queue that answers no other client. -/
theorem queueTokens_removed {c' : ι} {p : Packet ι} (before : List (Packet ι)) {after : List (Packet ι)}
    (hdest : p.dest ≠ some c') :
    queueTokens c' (before ++ after) = queueTokens c' (before ++ p :: after) := by
  rw [queueTokens_append, queueTokens_append, ← List.singleton_append, queueTokens_append,
    queueTokens_singleton, if_neg hdest, List.nil_append]

/-- A constructor that runs while nobody waits only finds leftovers. -/
theorem step_drain (H : Coherent tr s) {c : ι} {p : Packet ι} {queue : List (Packet ι)}
    (hmain : (s.client c).main = .draining) (hqueue : s.queue = p :: queue)
    (halone : ∀ c type, ¬Waits s c type) :
    p.dest = none ∧ Coherent (tr ++ [.drain c p]) { s with queue } := by
  have hp : p ∈ s.queue := hqueue ▸ List.mem_cons_self
  have hdest : ∀ c', p.dest ≠ some c' := fun c' h => halone c' p.type ⟨_, H.waits_of_mem hp h⟩
  have hnone : p.dest = none := by
    cases hd : p.dest with
    | none => rfl
    | some c' => exact absurd hd (hdest c')
  refine ⟨hnone, ?_⟩
  have htokens : ∀ c', queueTokens c' queue = queueTokens c' s.queue := fun c' => by
    rw [hqueue]
    exact queueTokens_removed [] (hdest c')
  have hstep : Coherent (tr ++ [.drain c p])
      ({ s with queue, calls := s.calls }.set c (s.client c)) := H.update _ s.calls
    (by rw [htokens, H.tokens_eq c]) (fun q hq hq' => ?_) (fun c' _ => htokens c')
    (fun q hq => .inl (hqueue ▸ List.mem_cons_of_mem p hq)) (fun _ => .inr hmain)
    fun type call hwait => ?_
  · have hsame : ({ s with queue, calls := s.calls }.set c (s.client c) : State ι) = { s with queue } := by
      rw [State.set, Function.update_eq_self]
    rwa [hsame] at hstep
  · obtain ⟨hq₁, hq₂⟩ := H.own c q hq hq'
    exact ⟨hq₁, List.mem_append_left _ hq₂⟩
  · rw [hmain] at hwait
    cases hwait

/-- A client that is the only one to wait for its type takes its own reply. -/
theorem step_receive (H : Coherent tr s) {c : ι} {type : MsgType} {call : Nat} {p : Packet ι}
    {queue : List (Packet ι)} (hmain : (s.client c).main = .waiting type call)
    (hrecv : msgrcv type s.queue = some (p, queue))
    (halone : ∀ c' type, Waits s c type → Waits s c' type → c' = c) :
    p.dest = some c ∧ p.type = type ∧ p.call = call ∧
      Coherent (tr ++ [.receive c call p])
        ({ s with queue }.set c { s.client c with main := .menu }) := by
  obtain ⟨rfl, before, after, hqueue, rfl⟩ := msgrcv_eq hrecv
  have hp : p ∈ s.queue := hqueue ▸ List.mem_append_right _ List.mem_cons_self
  have hleft : ¬∃ q ∈ s.queue, q.dest = none := by
    rintro ⟨q, hq, hdest⟩
    rcases H.leftover q hq hdest c with h | h <;> rw [hmain] at h <;> cases h
  have hdest : p.dest = some c := by
    cases hd : p.dest with
    | none => exact absurd ⟨p, hp, hd⟩ hleft
    | some d => rw [halone d p.type ⟨_, hmain⟩ ⟨_, H.waits_of_mem hp hd⟩]
  have hcall : p.call = call := by
    have hwait := hmain.symm.trans (H.waits_of_mem hp hdest)
    cases hwait
    rfl
  have hsub : ∀ q ∈ before ++ after, q ∈ s.queue := fun q hq => by
    rw [hqueue]
    rcases List.mem_append.mp hq with h | h
    · exact List.mem_append_left _ h
    · exact List.mem_append_right _ (List.mem_cons_of_mem p h)
  refine ⟨hdest, rfl, hcall, H.update _ s.calls ?_ (fun q hq hq' => ?_) (fun c' hc' => ?_)
    (fun q hq => .inl (hsub q hq)) (fun ⟨q, hq, hd⟩ => absurd ⟨q, hsub q hq, hd⟩ hleft) nofun⟩
  · have htokens := H.tokens_eq c
    rw [hmain, hqueue, queueTokens_append, ← List.singleton_append, queueTokens_append,
      queueTokens_singleton, if_pos hdest] at htokens
    have hlength := congrArg List.length htokens
    simp only [List.length_append, List.length_singleton, MainPc.expects] at hlength
    have hnil : queueTokens c (before ++ after) ++ (s.client c).tokens = [] := by
      rw [queueTokens_append, ← List.length_eq_zero_iff]
      simp only [List.length_append]
      omega
    exact hnil
  · obtain ⟨hq₁, hq₂⟩ := H.own c q hq hq'
    exact ⟨hq₁, List.mem_append_left _ hq₂⟩
  · rw [hqueue]
    refine queueTokens_removed before ?_
    rw [hdest, ne_eq, Option.some.injEq]
    exact Ne.symm hc'

end Coherent

/-! ### Runs -/

/-- What the clients may rely on: a call returns the server's reply to this very request of the same
client, and no client removes a reply to another one from the queue. -/
structure Matched (tr : List (Event ι)) : Prop where
  answer : ∀ c call p, .receive c call p ∈ tr → p.dest = some c ∧ p.call = call ∧
    .request c p.type call ∈ tr ∧ .serve c p.type call ∈ tr
  kept : ∀ c p, .drain c p ∈ tr → ∀ d, p.dest = some d → d = c

omit [DecidableEq ι] in
theorem Matched.snoc {tr : List (Event ι)} {e : Event ι} (H : Matched tr)
    (hreceive : ∀ c call p, e = .receive c call p → p.dest = some c ∧ p.call = call ∧
      .request c p.type call ∈ tr ∧ .serve c p.type call ∈ tr)
    (hdrain : ∀ c p, e = .drain c p → p.dest = none) : Matched (tr ++ [e]) where
  answer := fun c call p hmem => by
    obtain ⟨hdest, hcall, hrequest, hserve⟩ : p.dest = some c ∧ p.call = call ∧
        .request c p.type call ∈ tr ∧ .serve c p.type call ∈ tr := by
      rcases List.mem_append.mp hmem with hold | hnew
      · exact H.answer c call p hold
      · exact hreceive c call p (List.mem_singleton.mp hnew).symm
    exact ⟨hdest, hcall, List.mem_append_left _ hrequest, List.mem_append_left _ hserve⟩
  kept := fun c p hmem d hd => by
    rcases List.mem_append.mp hmem with hold | hnew
    · exact H.kept c p hold d hd
    · rw [hdrain c p (List.mem_singleton.mp hnew).symm] at hd
      cases hd

/-- One step of a run in which messages are only taken by clients that are alone. -/
theorem Coherent.step {tr : List (Event ι)} {s s' : State ι} {e : Event ι} (H : Coherent tr s)
    (hM : Matched tr) (hstep : Step s e s') (halone : Alone s e) :
    Coherent (tr ++ [e]) s' ∧ Matched (tr ++ [e]) := by
  obtain ⟨⟨c, action⟩, h⟩ := hstep
  have hkeep : (∃ p ∈ s.queue, p.dest = none) →
      (s.client c).main = .absent ∨ (s.client c).main = .draining :=
    fun ⟨p, hp, hdest⟩ => H.leftover p hp hdest c
  have hleft : (s.client c).main = .menu → ¬∃ p ∈ s.queue, p.dest = none := by
    rintro hmain ⟨p, hp, hdest⟩
    rcases H.leftover p hp hdest c with h | h <;> rw [hmain] at h <;> cases h
  cases action with
  | start =>
      simp only [State.next] at h
      split at h <;> cases h
      rename_i hmain
      exact ⟨H.offline _ (by rw [hmain]; rfl) rfl fun _ => .inr rfl, hM.snoc nofun nofun⟩
  | drain =>
      simp only [State.next] at h
      split at h
      · rename_i p queue hmain hqueue
        cases h
        obtain ⟨hdest, H'⟩ := H.step_drain hmain hqueue halone
        refine ⟨H', hM.snoc nofun fun c' p' he => ?_⟩
        cases he
        exact hdest
      · rename_i hmain hqueue
        cases h
        refine ⟨H.set _ ⟨rfl, ?_⟩ (fun _ hp => hp) ?_, hM.snoc nofun nofun⟩
        · rw [hmain]
          rfl
        · rintro ⟨p, hp, -⟩
          rw [hqueue] at hp
          cases hp
      · cases h
  | connect =>
      simp only [State.next] at h
      split at h <;> cases h
      rename_i hmain _
      exact ⟨H.set _ ⟨rfl, rfl⟩ (fun _ hp => hp) hkeep, hM.snoc nofun nofun⟩
  | disconnect =>
      simp only [State.next] at h
      split at h <;> cases h
      rename_i hmain _
      exact ⟨H.offline _ (by rw [hmain]; rfl) rfl fun hold => absurd hold (hleft hmain),
        hM.snoc nofun nofun⟩
  | exit =>
      simp only [State.next] at h
      split at h <;> cases h
      rename_i hmain
      exact ⟨H.offline _ (by rw [hmain]; rfl) rfl fun _ => .inl rfl, hM.snoc nofun nofun⟩
  | request type =>
      simp only [State.next] at h
      split at h <;> cases h
      rename_i hmain _ htype
      exact ⟨H.step_request hmain htype, hM.snoc nofun nofun⟩
  | serve target =>
      simp only [State.next] at h
      split at h <;> cases h
      rename_i type call rest hserver
      refine ⟨(H.repost type call target).step_serve ?_, hM.snoc nofun nofun⟩
      rw [repost_toServer, hserver]
  | helperRecv =>
      simp only [State.next] at h
      split at h <;> cases h
      rename_i p rest hserver hhelper
      refine ⟨H.set _ ⟨?_, rfl⟩ (fun q hq => ?_) hkeep, hM.snoc nofun nofun⟩
      · simp [Client.tokens, hserver, hhelper]
      · simpa [hserver, hhelper] using hq
  | helperSend =>
      simp only [State.next] at h
      split at h
      · rename_i p hhelper
        split at h <;> cases h
        · rename_i htype
          refine ⟨H.set _ ⟨?_, rfl⟩ (fun q hq => ?_) hkeep, hM.snoc nofun nofun⟩
          · simp [Client.tokens, hhelper, htype]
          · exact List.mem_append_right _ hq
        · rename_i htype
          exact ⟨H.step_helperSend hhelper htype, hM.snoc nofun nofun⟩
      · cases h
  | receive =>
      simp only [State.next] at h
      split at h
      · rename_i type call hmain
        obtain ⟨⟨p, queue⟩, hrecv, he⟩ := Option.map_eq_some_iff.mp h
        cases he
        obtain ⟨hdest, htype, hcall, H'⟩ := H.step_receive hmain hrecv halone
        refine ⟨H', hM.snoc (fun c' call' p' he => ?_) nofun⟩
        cases he
        obtain ⟨-, before, after, hqueue, -⟩ := msgrcv_eq hrecv
        have hmem : p ∈ s.queue := hqueue ▸ List.mem_append_right _ List.mem_cons_self
        have hserve := H.served p hmem c hdest
        rw [hcall] at hserve
        rw [htype]
        exact ⟨hdest, hcall, (H.requested c type call hmain).1, htype ▸ hserve⟩
      · cases h

theorem coherent {leftover : List (MsgType × Nat)} {tr : List (Event ι)} {s : State ι}
    (h : Run (Restrict Step Alone) (State.new leftover) tr s) : Coherent tr s ∧ Matched tr := by
  refine h.invariant (fun tr s => Coherent tr s ∧ Matched tr) ⟨Coherent.init leftover, nofun, nofun⟩ ?_
  rintro tr a e b - ⟨H, hM⟩ ⟨hstep, halone⟩
  exact H.step hM hstep halone

/-! ### Clients that wait for the same type -/

/-- Two clients wait for a reply of the same type, or one starts up while another one waits. -/
def Overlap (s : State ι) : Prop :=
  (∃ c c' type, c ≠ c' ∧ Waits s c type ∧ Waits s c' type) ∨
    ∃ c c' type, (s.client c).main = .draining ∧ Waits s c' type

/-- The steps a reply still needs to get into the queue. -/
def Client.distance (client : Client ι) : Nat :=
  3 * client.toServer.length + 2 * client.fromServer.length + client.helper.toList.length

theorem set_self (s : State ι) (c : ι) (x : Client ι) : (s.set c x).client c = x :=
  Function.update_self ..

theorem set_main (s : State ι) {c : ι} {x : Client ι} (hx : x.main = (s.client c).main) (c' : ι) :
    ((s.set c x).client c').main = (s.client c').main := by
  by_cases hc : c' = c
  · rw [hc, set_self, hx]
  · show (Function.update s.client c x c').main = _
    rw [Function.update_of_ne hc]

/-- The reply of a waiting client is in the queue, or the helper or the server can bring it nearer. -/
theorem approach {tr : List (Event ι)} {s : State ι} {c : ι} {type : MsgType} (H : Coherent tr s)
    (hwait : Waits s c type) :
    (∃ p ∈ s.queue, p.dest = some c ∧ p.type = type) ∨
    ∃ e s', Step s e s' ∧ Alone s e ∧ (∀ c', (s'.client c').main = (s.client c').main) ∧
      (s'.client c).distance < (s.client c).distance := by
  cases hhelper : (s.client c).helper with
  | some p =>
      refine .inr ?_
      by_cases htype : p.type = .repost
      · have hnext : s.next (c, .helperSend) =
            some (s.set c { s.client c with helper := none }, .helperPrint c) := by
          simp only [State.next, hhelper, if_pos htype]
        refine ⟨_, _, ⟨_, hnext⟩, trivial, set_main s rfl, ?_⟩
        rw [set_self]
        simp [Client.distance, hhelper]
      · have hnext : s.next (c, .helperSend) =
            some ({ s with queue := s.queue ++ [p] }.set c { s.client c with helper := none },
              .helperSend c p) := by
          simp only [State.next, hhelper, if_neg htype]
        refine ⟨_, _, ⟨_, hnext⟩, trivial, set_main { s with queue := s.queue ++ [p] } rfl, ?_⟩
        rw [set_self]
        simp [Client.distance, hhelper]
  | none =>
      cases hserver : (s.client c).fromServer with
      | cons p rest =>
          have hnext : s.next (c, .helperRecv) = some (s.set c { s.client c with
              fromServer := rest, helper := some p }, .helperRecv c) := by
            simp only [State.next, hhelper, hserver]
          refine .inr ⟨_, _, ⟨_, hnext⟩, trivial, set_main s rfl, ?_⟩
          rw [set_self]
          simp [Client.distance, hhelper, hserver]
          omega
      | nil =>
          cases hto : (s.client c).toServer with
          | cons m rest =>
              have hnext : s.next (c, .serve none) = some (s.set c { s.client c with
                  toServer := rest
                  fromServer := (s.client c).fromServer ++ [⟨m.1, some c, m.2⟩] },
                  .serve c m.1 m.2) := by
                simp only [State.next, hto, State.repost]
              refine .inr ⟨_, _, ⟨_, hnext⟩, trivial, set_main s rfl, ?_⟩
              rw [set_self]
              simp [Client.distance, hhelper, hserver, hto]
              omega
          | nil =>
              -- the token is nowhere else than in the queue
              obtain ⟨call, hcall⟩ := hwait
              have htokens := H.tokens_eq c
              rw [Client.tokens, hhelper, hserver, hto, hcall] at htokens
              simp only [Option.toList_none, List.append_nil, List.filter_nil, List.map_nil,
                MainPc.expects] at htokens
              have hmem : (type, call) ∈ queueTokens c s.queue := by
                rw [htokens]
                exact List.mem_singleton.mpr rfl
              obtain ⟨p, hp, hkey⟩ := List.mem_map.mp hmem
              obtain ⟨hp, hdest⟩ := List.mem_filter.mp hp
              exact .inl ⟨p, hp, by simpa using hdest, congrArg Prod.fst hkey⟩

/-- Nothing else has to happen for the reply of a waiting client to get into the queue. -/
theorem delivered {tr : List (Event ι)} {s : State ι} {c : ι} {type : MsgType} (H : Coherent tr s)
    (hM : Matched tr) (hwait : Waits s c type) :
    ∃ tr' s', Run Step s tr' s' ∧ Coherent (tr ++ tr') s' ∧
      (∀ c', (s'.client c').main = (s.client c').main) ∧
      ∃ p ∈ s'.queue, p.dest = some c ∧ p.type = type := by
  generalize hn : (s.client c).distance = n
  induction n using Nat.strongRecOn generalizing tr s with
  | ind n ih =>
      rcases approach H hwait with hp | ⟨e, s₁, hstep, halone, hmain, hlt⟩
      · exact ⟨[], s, .nil, by rwa [List.append_nil], fun _ => rfl, hp⟩
      · obtain ⟨H₁, hM₁⟩ := H.step hM hstep halone
        obtain ⟨call, hcall⟩ := hwait
        obtain ⟨tr', s', hrun, H', hmain', hp⟩ :=
          ih _ (hn ▸ hlt) H₁ hM₁ ⟨call, (hmain c).trans hcall⟩ rfl
        refine ⟨e :: tr', s', Run.cons hstep hrun, ?_, fun c' => (hmain' c').trans (hmain c'), hp⟩
        rwa [List.append_assoc, List.singleton_append] at H'

/-- A run after which two clients wait for the same type can go on so that one takes the other's
reply, and one after which a client starts up while another waits so that it drops the reply. -/
theorem overlap_steals {tr : List (Event ι)} {s : State ι} (H : Coherent tr s) (hM : Matched tr)
    (hoverlap : Overlap s) : ∃ tr' s', Run Step s tr' s' ∧ ¬Matched (tr ++ tr') := by
  rcases hoverlap with ⟨c, c', type, hne, hwait, hwait'⟩ | ⟨c, c', type, hdrain, hwait⟩
  · obtain ⟨tr', s', hrun, H', hmain, p, hp, hdest, htype⟩ := delivered H hM hwait
    -- the first message of the type answers one of the two; the other one takes it
    obtain ⟨q, hq⟩ : ∃ q, s'.queue.find? (·.type = type) = some q := by
      rw [← Option.isSome_iff_exists, List.find?_isSome]
      exact ⟨p, hp, by simpa using htype⟩
    have hthief : ∃ d, q.dest ≠ some d ∧ Waits s d type := by
      by_cases hqc : q.dest = some c
      · refine ⟨c', ?_, hwait'⟩
        rw [hqc, ne_eq, Option.some.injEq]
        exact hne
      · exact ⟨c, hqc, hwait⟩
    obtain ⟨d, hd, call, hcall⟩ := hthief
    have hnext : s'.next (d, .receive) = some ({ s' with
        queue := s'.queue.eraseP (·.type = type) }.set d { s'.client d with main := .menu },
        .receive d call q) := by
      simp only [State.next, (hmain d).trans hcall, msgrcv, hq, Option.map_some]
    refine ⟨tr' ++ [.receive d call q], _, hrun.snoc ⟨_, hnext⟩, fun hmatched => hd ?_⟩
    have hmem : Event.receive d call q ∈ tr ++ (tr' ++ [.receive d call q]) := by simp
    exact (hmatched.answer d call q hmem).1
  · obtain ⟨tr', s', hrun, H', hmain, p, hp, hdest, htype⟩ := delivered H hM hwait
    obtain ⟨q, rest, hqueue⟩ := List.exists_cons_of_ne_nil (List.ne_nil_of_mem hp)
    have hmainc : (s'.client c).main = .draining := (hmain c).trans hdrain
    have hnext : s'.next (c, .drain) = some ({ s' with queue := rest }, .drain c q) := by
      simp only [State.next, hmainc, hqueue]
    refine ⟨tr' ++ [.drain c q], _, hrun.snoc ⟨_, hnext⟩, fun hmatched => ?_⟩
    have hmem : Event.drain c q ∈ tr ++ (tr' ++ [.drain c q]) := by simp
    have hq : q ∈ s'.queue := hqueue ▸ List.mem_cons_self
    obtain ⟨call, hcall⟩ := hwait
    cases hd : q.dest with
    | none =>
        rcases H'.leftover q hq hd c' with h | h <;> rw [hmain c', hcall] at h <;> cases h
    | some d =>
        have hwaits := H'.waits_of_mem hq hd
        rw [hmatched.kept c q hmem d hd, hmainc] at hwaits
        cases hwaits

/-- **Reply matching.** In a run in which a client only takes a message while no other client waits for
the type, and a starting client only while none waits, every call returns the reply to its own request
and no reply to another client is removed. Once two clients wait for the same type, or a client starts
up while one waits, the run can go on so that this fails. -/
theorem replies_matched {leftover : List (MsgType × Nat)} {tr : List (Event ι)} {s : State ι}
    (h : Run (Restrict Step Alone) (State.new leftover) tr s) :
    Matched tr ∧ (Overlap s → ∃ tr' s', Run Step s tr' s' ∧ ¬Matched (tr ++ tr')) := by
  obtain ⟨H, hM⟩ := coherent h
  exact ⟨hM, overlap_steals H hM⟩

omit [DecidableEq ι] in
theorem waits_iff {s : State ι} {c : ι} {type : MsgType} :
    Waits s c type ↔ ∃ m ∈ (s.client c).main.expects, m.1 = type := by
  rw [Waits]
  cases (s.client c).main <;> simp [MainPc.expects]

instance [Fintype ι] (s : State ι) : DecidablePred (Alone s)
  | .drain _ _ => decidable_of_iff (∀ c, (s.client c).main.expects = []) (by
      simp only [Alone, waits_iff, List.eq_nil_iff_forall_not_mem]
      exact ⟨fun h c type ⟨m, hm, _⟩ => h c m hm, fun h c m hm => h c m.1 ⟨m, hm, rfl⟩⟩)
  | .receive c _ _ => decidable_of_iff
      (∀ c', (∃ m ∈ (s.client c).main.expects, ∃ m' ∈ (s.client c').main.expects, m'.1 = m.1) → c' = c) (by
        simp only [Alone, waits_iff]
        exact ⟨fun h c' type ⟨m, hm, htype⟩ ⟨m', hm', htype'⟩ =>
            h c' ⟨m, hm, m', hm', htype'.trans htype.symm⟩,
          fun h c' ⟨m, hm, m', hm', htype⟩ => h c' m.1 ⟨m, hm, rfl⟩ ⟨m', hm', htype⟩⟩)
  | .start _ | .ready _ | .connect _ | .disconnect _ | .exit _ | .request _ _ _ | .serve _ _ _
  | .helperRecv _ | .helperPrint _ | .helperSend _ _ => .isTrue trivial

/-- Two clients wait at the same time, one for the time and one for the name; the replies get into the
queue in the other order. -/
def timeAndName : List (Bool × Action Bool) :=
  [(false, .start), (false, .drain), (true, .start), (true, .drain), (false, .connect), (true, .connect),
    (false, .request .getTime), (true, .request .getName), (true, .serve none), (false, .serve none),
    (true, .helperRecv), (true, .helperSend), (false, .helperRecv), (false, .helperSend),
    (false, .receive), (true, .receive)]

theorem replies_matched_timeAndName : ∃ (tr : List (Event Bool)) (s : State Bool),
    Run (Restrict Step Alone) (State.new []) tr s ∧ .receive false 0 ⟨.getTime, some false, 0⟩ ∈ tr ∧
      .receive true 1 ⟨.getName, some true, 1⟩ ∈ tr ∧ Matched tr := by
  have hreplay : (replay (checked State.next Alone) (State.new []) timeAndName).map (fun r =>
      decide (.receive false 0 ⟨.getTime, some false, 0⟩ ∈ r.2 ∧
        .receive true 1 ⟨.getName, some true, 1⟩ ∈ r.2)) = some true := by decide +kernel
  obtain ⟨⟨s, tr⟩, hrun, hmem⟩ := Option.map_eq_some_iff.mp hreplay
  obtain ⟨htime, hname⟩ := of_decide_eq_true hmem
  have halone : Run (Restrict Step Alone) (State.new []) tr s :=
    Run.of_replay_checked (fun _ k _ _ h => ⟨k, h⟩) hrun
  exact ⟨tr, s, halone, htime, hname, (replies_matched halone).1⟩

/-- Both clients ask for the time, and the reply to client `true` gets into the queue first. -/
def twoRequests : List (Bool × Action Bool) :=
  [(false, .start), (false, .drain), (true, .start), (true, .drain), (false, .connect),
    (true, .connect), (false, .request .getTime), (true, .request .getTime), (true, .serve none),
    (true, .helperRecv), (true, .helperSend), (false, .receive)]

/-- Client `false` takes the reply to client `true`. -/
theorem replies_not_matched : ∃ (tr : List (Event Bool)) (s : State Bool),
    Run Step (State.new []) tr s ∧ .receive false 0 ⟨.getTime, some true, 1⟩ ∈ tr ∧ ¬Matched tr := by
  have hreplay : (replay State.next (State.new []) twoRequests).map (fun r =>
      decide (.receive false 0 ⟨.getTime, some true, 1⟩ ∈ r.2)) = some true := by decide +kernel
  obtain ⟨⟨s, tr⟩, hrun, hmem⟩ := Option.map_eq_some_iff.mp hreplay
  have hreceive : .receive false 0 ⟨.getTime, some true, 1⟩ ∈ tr := of_decide_eq_true hmem
  refine ⟨tr, s, Run.of_replay (fun _ k _ _ h => ⟨k, h⟩) hrun, hreceive, fun hmatched => ?_⟩
  exact absurd (hmatched.answer _ _ _ hreceive).1 (by decide)

end SmallTrial.Chat.Reply
