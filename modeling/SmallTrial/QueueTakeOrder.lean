import SmallTrial.QueueShape

/-! When the values put into `LockFreeQueue` have one owner each: as long as `head` is moved past a node only
after the `dequeue` that moved it there has taken the node's value. -/

namespace SmallTrial.Queue

open Transition

variable {ι V : Type*} [DecidableEq ι]

/-- `head` is moved past a node only when no call has still to take the node's value. -/
def TakenBeforePassed (s : State ι V) : Event ι V → Prop
  | .act _ (.casHead true) => ∀ a, s.head = some a → ∀ t, ¬AwaitsTake s t a
  | _ => True

/-- The node whose value thread `t` has still to take. -/
def awaited (s : State ι V) (t : ι) : Ptr := (s.pc t).wonHead.bind fun p => p.bind (nextOf s)

omit [DecidableEq ι] in
theorem awaitsTake_iff {s : State ι V} {t : ι} {a : Addr} : AwaitsTake s t a ↔ awaited s t = some a := by
  constructor
  · rintro ⟨p, b, node, hwon, hderef, hnext⟩
    obtain ⟨rfl, hnode⟩ := deref_eq_some hderef
    rw [awaited, hwon, Option.bind_some, Option.bind_some, nextOf_of_heap hnode, hnext]
  · intro h
    rw [awaited, Option.bind_eq_some_iff] at h
    obtain ⟨p, hwon, h⟩ := h
    rw [Option.bind_eq_some_iff] at h
    obtain ⟨b, rfl, h⟩ := h
    rw [nextOf, Option.bind_eq_some_iff] at h
    obtain ⟨node, hnode, hnext⟩ := h
    exact ⟨some b, b, node, hwon, deref_some hnode, hnext⟩

instance [Fintype ι] (s : State ι V) : DecidablePred (TakenBeforePassed s)
  | .act _ (.casHead true) =>
      match h : s.head with
      | none => .isTrue fun a ha => by rw [h] at ha; cases ha
      | some a => decidable_of_iff (∀ t, awaited s t ≠ some a) (by
          simp only [TakenBeforePassed, h, awaitsTake_iff, Option.some.injEq, forall_eq', ne_eq])
  | .act _ (.casHead false) | .act _ (.callEnqueue _ _) | .act _ .callDequeue | .act _ .load
  | .act _ (.casNext _) | .act _ (.casTail _) | .act _ (.checkNull _) | .act _ (.take _ _)
  | .act _ (.dropInPlace _ _) | .act _ (.ret _) | .act _ .fault | .dropStart | .dropNode _ _ | .dropEnd =>
      .isTrue trivial

/-! ### Who waits for a value -/

section Step

variable {s s' : State ι V} {t : ι} {a : Act V}

/-- A thread has to take a value because it has moved `head`, now or before. -/
theorem threadStep_wonHead (h : s.threadStep t = some (s', a)) {p : Ptr}
    (hwon : (s'.pc t).wonHead = some p) : s'.heap = s.heap ∧
      ((s.pc t).wonHead = some p ∧ s'.head = s.head ∨ ∃ n, s.pc t = .deqCasHead p n ∧ s'.head = n) := by
  rw [State.threadStep] at h
  cases hpc : s.pc t <;> rw [hpc] at h <;> dsimp only at h
  all_goals (repeat' split at h) <;> cases h <;>
    simp only [goto_pc, store_pc, Function.update_self, Pc.wonHead, Option.some.injEq, reduceCtorEq] at hwon
  · subst hwon
    exact ⟨rfl, .inr ⟨_, rfl, rfl⟩⟩
  · exact ⟨rfl, .inl ⟨congrArg some hwon, rfl⟩⟩

theorem threadStep_head (h : s.threadStep t = some (s', a)) : s'.head = s.head ∨ a = .casHead true := by
  unfold State.threadStep at h
  split at h <;> (repeat' split at h) <;> cases h <;> first | exact .inl rfl | exact .inr rfl

end Step

/-- Values are awaited at the head only. -/
def AwaitedAtHead (s : State ι V) : Prop := ∀ t a, AwaitsTake s t a → s.head = some a

namespace Coupled

variable {s s' : State ι V} {o : Fifo ι V} {l : List Addr} {h k : Nat} {e : Event ι V} {t : ι} {a : Addr}

/-- As long as a thread waits, it waits for the same value. -/
theorem awaited_eq (H : Coupled s o l h k) (hstep : Step s e s')
    (hwon : (s'.pc t).wonHead = (s.pc t).wonHead) : awaited s' t = awaited s t := by
  rw [awaited, awaited, hwon]
  cases hp : (s.pc t).wonHead with
  | none => rfl
  | some p =>
      obtain ⟨i, a, value, hi, rfl, ha, -⟩ := H.wonHead_index hp
      have hh := H.head_lt
      obtain ⟨b, value, hb, hnode, -⟩ := H.deref_eq (i := i) (by omega)
      rw [Option.bind_some, Option.bind_some, hb, Option.bind_some, Option.bind_some]
      rcases H.nextOf_step hstep with hnext | ⟨b', q, -, -, hnull, hnext⟩
      · exact hnext b
      · have hne : b ≠ b' := by
          rintro rfl
          rw [nextOf_of_heap hnode, ha] at hnull
          cases hnull
        rw [hnext, Function.update_of_ne hne]

omit [DecidableEq ι] in
theorem head_of_casHead (H : Coupled s o l h k) {p n : Ptr} (hpc : s.pc t = .deqCasHead p n) :
    p.bind (nextOf s) = n := by
  have hok := H.pcOk t
  rw [hpc] at hok
  obtain ⟨-, i, -, hlt, rfl, rfl⟩ := hok
  obtain ⟨b, value, hb, hnode, -⟩ := H.deref_eq (i := i) (by omega)
  rw [hb, Option.bind_some, nextOf_of_heap hnode]

theorem awaitedAtHead_step (H : Coupled s o l h k) (hI : AwaitedAtHead s) (hstep : Step s e s')
    (hcond : TakenBeforePassed s e) : AwaitedAtHead s' := by
  intro t a hawait
  rw [awaitsTake_iff] at hawait
  have hsame : (s'.pc t).wonHead = (s.pc t).wonHead → s.head = some a := fun hwon => by
    rw [H.awaited_eq hstep hwon] at hawait
    exact hI t a (awaitsTake_iff.mpr hawait)
  cases hstep with
  | enqueue t' value q =>
      by_cases ht : t = t'
      · subst ht
        simp [awaited, State.callEnqueue, Pc.wonHead] at hawait
      · exact hsame (congrArg Pc.wonHead (Function.update_of_ne ht _ _))
  | dequeue t' =>
      by_cases ht : t = t'
      · subst ht
        simp [awaited, State.callDequeue, Pc.wonHead] at hawait
      · exact hsame (congrArg Pc.wonHead (Function.update_of_ne ht _ _))
  | dropStart | dropNode | dropEnd => exact hsame rfl
  | thread _ t' act hthread =>
      by_cases ht : t = t'
      · subst ht
        obtain ⟨p, hwon, hnext⟩ := Option.bind_eq_some_iff.mp hawait
        obtain ⟨hheap, ⟨hwon', hhead⟩ | ⟨n, hpc, hhead⟩⟩ := threadStep_wonHead hthread hwon
        · rw [hhead]
          exact hsame (hwon.trans hwon'.symm)
        · have hnext' : nextOf s' = nextOf s := funext fun b => by rw [nextOf, nextOf, hheap]
          rw [hhead, ← H.head_of_casHead hpc, ← hnext']
          exact hnext
      · obtain ⟨x, hpc⟩ := threadStep_pc hthread
        have hold := hsame (by rw [hpc, Function.update_of_ne ht])
        rcases threadStep_head hthread with hhead | rfl
        · rw [hhead]
          exact hold
        · have hwon : (s'.pc t).wonHead = (s.pc t).wonHead := by rw [hpc, Function.update_of_ne ht]
          rw [H.awaited_eq (.thread s s' t' _ hthread) hwon] at hawait
          exact absurd (awaitsTake_iff.mpr hawait) (hcond a hold t)

end Coupled

/-- What is awaited at the head is not destroyed by the `dequeue` that has moved `head` further. -/
theorem Coupled.noTakeAwaited {s s' : State ι V} {o : Fifo ι V} {l : List Addr} {h k : Nat} {e : Event ι V}
    (H : Coupled s o l h k) (hI : AwaitedAtHead s) (hstep : Step s e s') : NoTakeAwaited s e := by
  cases hstep with
  | thread _ t act hthread =>
      cases act with
      | dropInPlace a value =>
          intro t' hawait
          obtain ⟨⟨res, hpc⟩, -⟩ := threadStep_drop hthread
          have hok := H.pcOk t
          rw [hpc] at hok
          obtain ⟨-, i, hi, ha⟩ := hok
          have hhead := hI t' a hawait
          rw [H.head_eq] at hhead
          have hh := H.head_lt
          have hsame : i = h := (List.getElem?_inj (by omega) H.nodup).mp (ha.symm.trans hhead.symm)
          omega
      | _ => trivial
  | _ => trivial

theorem restrict_noTakeAwaited {p : Addr} {tr : List (Event ι V)} {s : State ι V}
    (hrun : Run (Restrict Step TakenBeforePassed) (State.new p) tr s) :
    Run (Restrict Step NoTakeAwaited) (State.new p) tr s ∧ AwaitedAtHead s := by
  induction hrun with
  | nil =>
      refine ⟨.nil, fun t a hawait => ?_⟩
      rw [awaitsTake_iff] at hawait
      cases hawait
  | @snoc tr e s s' hrun hlast ih =>
      obtain ⟨hsafe, hI⟩ := ih
      obtain ⟨o, -, ⟨l, h, k, H⟩, -⟩ :=
        simulates_forward.run ⟨[p], 0, 0, Coupled.init p⟩ hrun.of_restrict
      exact ⟨hsafe.snoc ⟨hlast.1, H.noTakeAwaited hI hlast.1⟩, H.awaitedAtHead_step hI hlast.1 hlast.2⟩

/-! ### What happens otherwise -/

theorem awaited_other {s s' : State ι V} {t t' : ι} {a : Act V} (hS : Sound s)
    (hstep : s.threadStep t = some (s', a)) (ht : t' ≠ t) : awaited s' t' = awaited s t' := by
  obtain ⟨o, l, h, k, H⟩ := hS
  obtain ⟨x, hpc⟩ := threadStep_pc hstep
  exact H.awaited_eq (.thread s s' t a hstep) (by rw [hpc, Function.update_of_ne ht])

theorem threadStep_casHead {s s' : State ι V} {t : ι} (h : s.threadStep t = some (s', .casHead true)) :
    (s.pc t).wonHead = none ∧ s'.pc t = .deqLoadTaken s.head := by
  rw [State.threadStep] at h
  cases hpc : s.pc t <;> rw [hpc] at h <;> dsimp only at h
  case deqCasHead p n =>
      split at h <;> cases h
      rename_i hhead
      exact ⟨rfl, by rw [goto_pc, Function.update_self, hhead]⟩
  all_goals (repeat' split at h) <;> cases h

/-- A `dequeue` that has moved `head` away from a node destroys that node in its third step. -/
theorem Sound.destroys {s : State ι V} {t : ι} {a : Addr} (hS : Sound s)
    (hpc : s.pc t = .deqLoadTaken (some a)) : ∃ tr s₁ s₂ value, Run Step s tr s₁ ∧
      (∀ t' ≠ t, awaited s₁ t' = awaited s t') ∧ Sound s₁ ∧
      s₁.threadStep t = some (s₂, .dropInPlace a value) := by
  obtain ⟨b, node, hderef⟩ := hS.deref (t := t) (by rw [hpc]; rfl)
  have hload : s.threadStep t = some (s.goto t (.deqTake (some a) node.next), .load) := by
    rw [State.threadStep, hpc]
    simp only [hderef]
  have hS₁ := hS.thread hload
  have hpc₁ : (s.goto t (.deqTake (some a) node.next)).pc t = .deqTake (some a) node.next :=
    Function.update_self _ _ _
  have hother₁ (t' : ι) (ht : t' ≠ t) := awaited_other hS hload ht
  generalize s.goto t (.deqTake (some a) node.next) = s₁ at hload hS₁ hpc₁ hother₁
  obtain ⟨c, node', hderef'⟩ : ∃ c node', s₁.deref node.next = some (c, node') := by
    obtain ⟨o, l, h, k, H⟩ := hS₁
    have hok := H.pcOk t
    rw [hpc₁] at hok
    obtain ⟨i, c, value, -, -, -, hvalue, -, hn⟩ := hok
    obtain ⟨node', hnode, -⟩ := Option.bind_eq_some_iff.mp hvalue
    exact ⟨c, node', by rw [hn, deref_some hnode]⟩
  have htake : s₁.threadStep t = some ((s₁.store c { node' with value := none }).goto t
      (.deqDrop (some a) node'.value), .take c node'.value) := by
    rw [State.threadStep, hpc₁]
    simp only [hderef']
  have hS₂ := hS₁.thread htake
  have hpc₂ : ((s₁.store c { node' with value := none }).goto t (.deqDrop (some a) node'.value)).pc t =
      .deqDrop (some a) node'.value := Function.update_self _ _ _
  have hother₂ (t' : ι) (ht : t' ≠ t) := awaited_other hS₁ htake ht
  generalize (s₁.store c { node' with value := none }).goto t (.deqDrop (some a) node'.value) = s₂
    at htake hS₂ hpc₂ hother₂
  obtain ⟨b', node'', hderef''⟩ := hS₂.deref (t := t) (by rw [hpc₂]; rfl)
  obtain rfl : a = b' := Option.some.inj (deref_eq_some hderef'').1
  have hdrop : s₂.threadStep t = some (s₂.goto t (.ret (.value node'.value)), .dropInPlace a node''.value) := by
    rw [State.threadStep, hpc₂]
    simp only [hderef'']
  exact ⟨_, s₂, _, node''.value, (Run.single (.thread s s₁ t _ hload)).snoc (.thread s₁ s₂ t _ htake),
    fun t' ht => (hother₂ t' ht).trans (hother₁ t' ht), hS₂, hdrop⟩

/-- **Ownership of the values.** As long as `head` is moved past a node only after the `dequeue` that moved
it there has taken the node's value, the values of a run have one owner each. Once it is moved past a node
whose value has still to be taken, the run can go on so that they have not. -/
theorem lockFreeQueue_owned {p : Addr} {tr : List (Event ι V)} {s : State ι V}
    (hrun : Run (Restrict Step TakenBeforePassed) (State.new p) tr s) :
    Owned tr s ∧ ∀ e s', Step s e s' → ¬TakenBeforePassed s e →
      ∃ tr' s'', Run Step s' tr' s'' ∧ ¬Owned (tr ++ e :: tr') s'' := by
  refine ⟨((owned_iff p tr s).mpr (restrict_noTakeAwaited hrun).1).2, fun e s' hstep hpassed => ?_⟩
  obtain ⟨t, rfl⟩ : ∃ t, e = .act t (.casHead true) := by
    by_contra hne
    refine hpassed ?_
    unfold TakenBeforePassed
    split
    · exact absurd ⟨_, rfl⟩ hne
    · trivial
  obtain ⟨a, hhead, t', hawait⟩ : ∃ a, s.head = some a ∧ ∃ t', AwaitsTake s t' a := by
    by_contra hnone
    exact hpassed fun a ha t' ht' => hnone ⟨a, ha, t', ht'⟩
  rw [awaitsTake_iff] at hawait
  obtain ⟨o, -, hsim, -⟩ := simulates_forward.run ⟨[p], 0, 0, Coupled.init p⟩ hrun.of_restrict
  have hS : Sound s := ⟨o, hsim⟩
  cases hstep with
  | thread _ _ _ hthread =>
      obtain ⟨hwon, hpc⟩ := threadStep_casHead hthread
      have ht : t' ≠ t := by
        rintro rfl
        rw [awaited, hwon] at hawait
        cases hawait
      rw [hhead] at hpc
      obtain ⟨tr', s₁, s₂, value, hrun', hother, ⟨o₁, l, h, k, H⟩, hdrop⟩ := (hS.thread hthread).destroys hpc
      have hawait₁ : AwaitsTake s₁ t' a := by
        rw [awaitsTake_iff, hother t' ht, awaited_other hS hthread ht]
        exact hawait
      refine ⟨_, s₂, hrun'.snoc (.thread s₁ s₂ t _ hdrop), fun howned => ?_⟩
      have hnone := howned.drop_empty t a value
        (List.mem_append_right _ (List.mem_cons_of_mem _ (List.mem_append_right _ List.mem_cons_self)))
      exact (H.dropInPlace_value hdrop).mp hnone t' hawait₁

/-- Both threads dequeue; thread `true` moves `head` on when thread `false` has taken its value. -/
def takenFirst : List (Bool × Move Nat) :=
  (false, .enqueue 10 1) :: List.replicate 5 (false, .step) ++
  (true, .enqueue 20 2) :: List.replicate 5 (true, .step) ++
  (false, .dequeue) :: (true, .dequeue) :: List.replicate 7 (false, .step) ++
  List.replicate 8 (true, .step) ++ List.replicate 2 (false, .step) ++ [(true, .step)]

theorem lockFreeQueue_owned_takenFirst : ∃ (tr : List (Event Bool Nat)) (s : State Bool Nat),
    Run (Restrict Step TakenBeforePassed) (State.new 0) tr s ∧ returnedBy false tr = [10] ∧
      returnedBy true tr = [20] ∧ Owned tr s := by
  have hreplay : (replay (checked State.move TakenBeforePassed) (State.new 0) takenFirst).map
      (fun r => (returnedBy false r.2, returnedBy true r.2)) = some ([10], [20]) := by decide +kernel
  obtain ⟨⟨s, tr⟩, hrun, hfacts⟩ := Option.map_eq_some_iff.mp hreplay
  obtain ⟨hfalse, htrue⟩ := Prod.mk.inj hfacts
  have htaken : Run (Restrict Step TakenBeforePassed) (State.new 0) tr s :=
    Run.of_replay_checked (fun _ _ _ _ => step_of_move) hrun
  exact ⟨tr, s, htaken, hfalse, htrue, (lockFreeQueue_owned htaken).1⟩

/-- Thread `false` has moved `head` to the node of 10 when thread `true` moves it on and
destroys that node. -/
def overtaken : List (Bool × Move Nat) :=
  (false, .enqueue 10 1) :: List.replicate 5 (false, .step) ++
  (false, .enqueue 20 2) :: List.replicate 5 (false, .step) ++
  (false, .dequeue) :: List.replicate 5 (false, .step) ++
  (true, .dequeue) :: List.replicate 9 (true, .step) ++
  List.replicate 4 (false, .step)

/-- The value 10 is destroyed by thread `true` in its call of `dequeue`, and then returned to thread
`false`. -/
theorem lockFreeQueue_not_owned :
    ∃ (tr : List (Event Bool Nat)) (s : State Bool Nat), Run Step (State.new 0) tr s ∧
      fates 1 tr = [.destroyedInDequeue true 10, .taken false 10] ∧ returnedBy false tr = [10] ∧
      ¬Owned tr s := by
  have hreplay : (replay State.move (State.new 0) overtaken).map (fun r => (fates 1 r.2,
      returnedBy false r.2, decide (.act true (.dropInPlace 1 (some 10)) ∈ r.2))) =
      some ([.destroyedInDequeue true 10, .taken false 10], [10], true) := by decide +kernel
  obtain ⟨⟨s, tr⟩, hrun, hfacts⟩ := Option.map_eq_some_iff.mp hreplay
  simp only [Prod.mk.injEq, decide_eq_true_eq] at hfacts
  obtain ⟨hfates, hreturned, hdrop⟩ := hfacts
  refine ⟨tr, s, Run.of_replay (fun _ _ _ _ => step_of_move) hrun, hfates, hreturned, ?_⟩
  intro howned
  cases howned.drop_empty _ _ _ hdrop

end SmallTrial.Queue
