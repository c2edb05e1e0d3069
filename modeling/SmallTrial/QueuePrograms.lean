import SmallTrial.QueueInterchange
import SmallTrial.TransitionLog

/-! What the benchmark and the tests of the crate do with a queue. The threads of the benchmark each put in
`size` values and take out as many; the threads of a test put in their values, and when they have ended one
thread takes out what is there. Only the histories of the queues matter, so both hold of either queue. -/

namespace SmallTrial.Queue

open Transition

variable {ι V : Type*} [DecidableEq ι]

/-- The calls and the results that can be seen of a queue. -/
abbrev Calls (ι V : Type*) := List (ι × HistoryEvent (Op V) (Res V))

/-- The histories of the two queues of the crate. -/
inductive IsQueue : Set (Calls ι V) → Prop where
  | lockFree (p : Addr) : IsQueue (histories Step Event.observe (State.new p))
  | lockBased : IsQueue (histories LockBasedQueue.Step GuardedEvent.observe LockBasedQueue.State.new)

theorem IsQueue.eq {H : Set (Calls ι V)} (hH : IsQueue H) :
    H = histories (Object.Step LockBasedQueue.apply) ObjectEvent.observe (Object.new LockBasedQueue.new) := by
  cases hH with
  | lockFree p => exact lockFreeQueue_histories p
  | lockBased => exact Guarded.histories_eq LockBasedQueue.apply LockBasedQueue.new

/-! ### What the log says about the list -/

def Op.isEnqueue : Op V → Bool
  | .enqueue _ => true
  | .dequeue => false

/-- A call that took a value out. -/
def took : Op V × Res V → Bool
  | (.dequeue, .value (some _)) => true
  | _ => false

omit [DecidableEq ι] in
/-- The list holds what was put in and not taken out. -/
theorem length_value {tr : List (ι × ObjectEvent (Op V) (Res V))} {o : Fifo ι V}
    (h : Executes LockBasedQueue.apply LockBasedQueue.new (commits tr) o.value) :
    (commits tr).countP (fun x => x.1.isEnqueue) = (commits tr).countP took + o.value.length := by
  have hfifo := congrArg List.length (LockBasedQueue.executes_fifo h)
  have hput : ∀ l : List (Op V × Res V), (enqueued l).length = l.countP fun x => x.1.isEnqueue := by
    intro l
    rw [enqueued, List.length_filterMap_eq_countP]
    refine List.countP_congr fun x _ => ?_
    obtain ⟨op, res⟩ := x
    cases op <;> simp [Op.isEnqueue]
  have htaken : ∀ l : List (Op V × Res V), (dequeued l).length = l.countP took := by
    intro l
    rw [dequeued, List.length_filterMap_eq_countP]
    refine List.countP_congr fun x _ => ?_
    obtain ⟨op, res⟩ := x
    cases op with
    | enqueue => simp [took]
    | dequeue =>
        cases res with
        | unit => simp [took]
        | value res => cases res <;> simp [took]
  rw [List.length_append, List.length_append, hput, htaken] at hfifo
  simpa [LockBasedQueue.new] using hfifo

/-! ### The benchmark -/

/-- The calls of a thread of `lock_free_test` or `lock_based_test`. -/
def testCalls (size : Nat) : List (Op Nat) :=
  List.replicate size (.enqueue 1) ++ List.replicate size .dequeue

/-- A call that does not find the queue empty. -/
def Op.expected : Op Nat → Res Nat
  | .enqueue _ => .unit
  | .dequeue => .value (some 1)

/-- A thread has never taken out more than it has put in. -/
theorem count_le_of_prefix {size : Nat} {l : List (Op Nat)} (h : l <+: testCalls size) :
    l.countP (fun op => !op.isEnqueue) ≤ l.countP Op.isEnqueue := by
  rw [List.prefix_iff_eq_take.mp h, testCalls, List.take_append, List.take_replicate, List.take_replicate,
    List.length_replicate]
  simp [List.countP_append, List.countP_replicate, Op.isEnqueue]

/-- What the threads have done of `lock_free_test` or `lock_based_test`. -/
structure Tested (size : Nat) (tr : List (ι × ObjectEvent (Op Nat) (Res Nat))) (o : Fifo ι Nat) : Prop where
  run : Run (Object.Step LockBasedQueue.apply) (Object.new LockBasedQueue.new) tr o
  calls : ∀ t, calls t (tr.filterMap ObjectEvent.observe) <+: testCalls size

namespace Tested

variable {size : Nat} {tr : List (ι × ObjectEvent (Op Nat) (Res Nat))} {o : Fifo ι Nat}

theorem init {e : ι × ObjectEvent (Op Nat) (Res Nat)} {o' : Fifo ι Nat} (H : Tested size (tr ++ [e]) o')
    (h : Run (Object.Step LockBasedQueue.apply) (Object.new LockBasedQueue.new) tr o) : Tested size tr o where
  run := h
  calls t := by
    have hcalls := H.calls t
    rw [filterMap_snoc, calls_append] at hcalls
    exact (List.prefix_append ..).trans hcalls

theorem logged_prefix (H : Tested size tr o) (t : ι) :
    (logOf t (log tr)).map Prod.fst ++ (o.call t).ahead <+: testCalls size :=
  (calls_results H.run t).1 ▸ H.calls t

/-- The calls that have taken effect are those of the threads. -/
theorem countP_commits [Fintype ι] (P : Op V → Bool)
    (tr : List (ι × ObjectEvent (Op V) (Res V))) :
    (commits tr).countP (fun x => P x.1) = ∑ t, ((logOf t (log tr)).map Prod.fst).countP P := by
  rw [commits_eq_log, ← sum_countP_logOf]
  exact Finset.sum_congr rfl fun t _ => List.countP_map.symm

/-- While a thread is about to take a value out, all threads together have put in more than they have taken
out. -/
theorem dequeues_lt [Fintype ι] (H : Tested size tr o) {t : ι} (hcall : o.call t = .pending .dequeue) :
    (commits tr).countP (fun x => !x.1.isEnqueue) < (commits tr).countP (fun x => x.1.isEnqueue) := by
  rw [countP_commits fun op => !op.isEnqueue, countP_commits Op.isEnqueue]
  refine Finset.sum_lt_sum (fun t _ => ?_) ⟨t, Finset.mem_univ t, ?_⟩
  · exact count_le_of_prefix ((List.prefix_append ..).trans (H.logged_prefix t))
  · have hprefix := count_le_of_prefix (H.logged_prefix t)
    rw [hcall, Call.ahead, List.countP_append, List.countP_append] at hprefix
    have hone : [Op.dequeue].countP (fun op : Op Nat => !op.isEnqueue) = 1 := rfl
    have hzero : [Op.dequeue].countP (Op.isEnqueue (V := Nat)) = 0 := rfl
    omega

/-- Where no call finds the queue empty, every `dequeue` takes a value out. -/
theorem countP_took {l : List (Op Nat × Res Nat)} (hexpected : ∀ x ∈ l, x.2 = x.1.expected) :
    l.countP took = l.countP (fun x => !x.1.isEnqueue) := by
  refine List.countP_congr fun x hx => ?_
  obtain ⟨op, res⟩ := x
  have hres : res = op.expected := hexpected _ hx
  subst hres
  cases op <;> simp [took, Op.isEnqueue, Op.expected]

/-- A thread that is about to take a value out finds one. -/
theorem value_ne_nil [Fintype ι] (H : Tested size tr o) (hexpected : ∀ x ∈ commits tr, x.2 = x.1.expected)
    {t : ι} (hcall : o.call t = .pending .dequeue) : o.value ≠ [] := by
  intro hvalue
  have hlength := length_value (Object.Step.executes_commits H.run)
  rw [hvalue, List.length_nil, countP_took hexpected] at hlength
  have hlt := H.dequeues_lt hcall
  omega

/-- No call finds the queue empty, and the values are those of the benchmark. -/
theorem commits_expected [Fintype ι] (H : Tested size tr o) :
    (∀ x ∈ commits tr, x.2 = x.1.expected) ∧ ∀ value ∈ o.value, value = 1 := by
  obtain ⟨hrun, hcalls⟩ := H
  induction hrun with
  | nil => exact ⟨by simp [commits], by simp [Object.new, LockBasedQueue.new]⟩
  | @snoc tr e o o' hrun hstep ih =>
      have H : Tested size tr o := init ⟨hrun.snoc hstep, hcalls⟩ hrun
      obtain ⟨hexpected, hones⟩ := ih H.calls
      have hsnoc : commits (tr ++ [e]) = commits tr ++ commits [e] := List.filterMap_append
      rw [hsnoc, List.forall_mem_append]
      cases hstep with
      | invoke | respond => exact ⟨⟨hexpected, by simp [commits]⟩, hones⟩
      | commit t op hcall =>
          have hmem : op ∈ testCalls size := by
            refine (H.logged_prefix t).subset (List.mem_append_right _ ?_)
            rw [hcall]
            exact List.mem_singleton_self op
          cases op with
          | enqueue value =>
              have hone : value = 1 := by
                rcases List.mem_append.mp hmem with hmem | hmem
                · cases List.eq_of_mem_replicate hmem
                  rfl
                · cases List.eq_of_mem_replicate hmem
              refine ⟨⟨hexpected, by simp [commits, LockBasedQueue.apply, Op.expected]⟩, ?_⟩
              exact List.forall_mem_append.mpr ⟨hones, List.forall_mem_singleton.mpr hone⟩
          | dequeue =>
              obtain ⟨value, rest, hvalue⟩ := List.exists_cons_of_ne_nil (H.value_ne_nil hexpected hcall)
              rw [hvalue, List.forall_mem_cons] at hones
              rw [hvalue]
              refine ⟨⟨hexpected, ?_⟩, hones.2⟩
              simp [commits, LockBasedQueue.apply, LockBasedQueue.dequeue, Op.expected, hones.1]

/-- What a thread has got back, as far as it is. -/
theorem results_prefix [Fintype ι] (H : Tested size tr o) (t : ι) :
    results t (tr.filterMap ObjectEvent.observe) <+: (testCalls size).map Op.expected := by
  have hmap : (logOf t (log tr)).map Prod.snd = ((logOf t (log tr)).map Prod.fst).map Op.expected := by
    rw [List.map_map]
    refine List.map_congr_left fun x hx => H.commits_expected.1 x ?_
    rw [commits_eq_log]
    obtain ⟨y, hy, rfl⟩ := List.mem_map.mp hx
    exact List.mem_map_of_mem (List.mem_of_mem_filter hy)
  refine (List.prefix_append _ (o.call t).behind).trans ?_
  rw [(calls_results H.run t).2, hmap]
  exact ((List.prefix_append ..).trans (H.logged_prefix t)).map _

/-- A thread that has got back everything is not in a call. -/
theorem ended (H : Tested size tr o) {t : ι}
    (hends : (results t (tr.filterMap ObjectEvent.observe)).length = 2 * size) :
    o.call t = .idle ∧ (logOf t (log tr)).map Prod.fst = testCalls size := by
  have hsize : (testCalls size).length = 2 * size := by
    rw [testCalls, List.length_append, List.length_replicate, List.length_replicate, two_mul]
  have hlength := (H.calls t).length_le
  obtain ⟨hidle, hlogged⟩ := Run.ended H.run (t := t) (by omega)
  have hbehind := congrArg List.length (calls_results H.run t).2
  rw [hidle, Call.behind, List.append_nil, List.length_map] at hbehind
  refine ⟨hidle, hlogged.trans ((H.calls t).eq_of_length ?_)⟩
  rw [← hlogged, List.length_map]
  omega

/-- When all threads have got back everything, the queue is as it was. -/
theorem emptied [Fintype ι] (H : Tested size tr o)
    (hends : ∀ t, (results t (tr.filterMap ObjectEvent.observe)).length = 2 * size) :
    o = Object.new LockBasedQueue.new := by
  have hcount : ∀ P : Op Nat → Bool, (testCalls size).countP P = size →
      (commits tr).countP (fun x => P x.1) = Fintype.card ι * size := by
    intro P hP
    rw [countP_commits, Finset.sum_congr rfl fun t _ => by rw [(H.ended (hends t)).2, hP], Finset.sum_const,
      Finset.card_univ, smul_eq_mul]
  have hlength := length_value (Object.Step.executes_commits H.run)
  rw [countP_took H.commits_expected.1, hcount Op.isEnqueue, hcount fun op => !op.isEnqueue] at hlength
  · have hvalue : o.value = LockBasedQueue.new := List.length_eq_zero_iff.mp (by omega)
    rw [Object.eq_new fun t => (H.ended (hends t)).1, hvalue]
  · simp [testCalls, List.countP_append, List.countP_replicate, Op.isEnqueue]
  · simp [testCalls, List.countP_append, List.countP_replicate, Op.isEnqueue]

end Tested

/-- **The benchmark.** The threads of `lock_free_test` and `lock_based_test` each put in `size` values and
take out as many. Whatever the interleaving, no thread finds the queue empty, and when all of them have
ended the queue is empty. -/
theorem test_results [Fintype ι] {H : Set (Calls ι Nat)} (hH : IsQueue H) {size : Nat} {h : Calls ι Nat}
    (hh : h ∈ H) (hcalls : ∀ t, calls t h <+: testCalls size) :
    (∀ t, results t h <+: List.replicate size .unit ++ List.replicate size (.value (some 1))) ∧
      ((∀ t, (results t h).length = 2 * size) → ∀ t res,
        h ++ [(t, .invoke .dequeue), (t, .respond res)] ∈ H → res = .value none) := by
  rw [hH.eq] at hh ⊢
  obtain ⟨tr, o, hrun, rfl⟩ := hh
  have htested : Tested size tr o := ⟨hrun, hcalls⟩
  constructor
  · intro t
    have hresults := htested.results_prefix t
    rwa [testCalls, List.map_append, List.map_replicate, List.map_replicate] at hresults
  · rintro hends t res ⟨tr', o', hrun', hobs⟩
    obtain ⟨before, after, rfl, hbefore, hafter⟩ := List.filterMap_eq_append_iff.mp hobs
    obtain ⟨o₁, hrun₁, hrest⟩ := hrun'.split
    have hempty := Tested.emptied ⟨hrun₁, hbefore ▸ hcalls⟩ (hbefore ▸ hends)
    rw [hempty] at hrest
    exact (Object.Step.alone_inv hrest hafter).1

/-- A call on a `LockBasedQueue`, from its start. -/
def callEvents (t : Bool) (op : Op Nat) (res : Res Nat) : List (Bool × GuardedEvent (Op Nat) (Res Nat)) :=
  [(t, .invoke op), (t, .lock), (t, .load), (t, .store op res), (t, .unlock), (t, .respond res)]

/-- Two threads of the benchmark whose calls overlap: one waits for the lock in both of its calls. -/
def benchmarked : List (Bool × GuardedEvent (Op Nat) (Res Nat)) :=
  (false, .invoke (.enqueue 1)) :: callEvents true (.enqueue 1) .unit ++
    (true, .invoke .dequeue) :: (callEvents false (.enqueue 1) .unit).tail ++
    (false, .invoke .dequeue) :: (callEvents true .dequeue (.value (some 1))).tail ++
    (callEvents false .dequeue (.value (some 1))).tail

theorem test_results_overlapping :
    (∀ t, results t (benchmarked.filterMap GuardedEvent.observe) <+:
      List.replicate 1 .unit ++ List.replicate 1 (.value (some 1))) ∧
      ∀ t res, benchmarked.filterMap GuardedEvent.observe ++ [(t, .invoke .dequeue), (t, .respond res)] ∈
        histories LockBasedQueue.Step GuardedEvent.observe LockBasedQueue.State.new → res = .value none := by
  have hreplay : (replay (Guarded.next LockBasedQueue.apply) LockBasedQueue.State.new
      (benchmarked.map GuardedEvent.move)).map Prod.snd = some benchmarked := by decide +kernel
  obtain ⟨⟨s, tr⟩, hreplayed, htr⟩ := Option.map_eq_some_iff.mp hreplay
  cases htr
  have hmem : benchmarked.filterMap GuardedEvent.observe ∈
      histories LockBasedQueue.Step GuardedEvent.observe LockBasedQueue.State.new :=
    ⟨_, s, Run.of_replay (fun _ m _ _ h => ⟨m, h⟩) hreplayed, rfl⟩
  have hcalls : ∀ t, calls t (benchmarked.filterMap GuardedEvent.observe) <+: testCalls 1 := by
    decide +kernel
  obtain ⟨hresults, hempty⟩ := test_results .lockBased hmem hcalls
  exact ⟨hresults, hempty (by decide +kernel)⟩

/-! ### The tests -/

/-- The threads have put in their values, and the calls have returned. -/
def Inserted (program : ι → List V) (h : Calls ι V) : Prop :=
  ∀ t, calls t h = (program t).map .enqueue ∧ (results t h).length = (program t).length

/-- `while let Some(v) = lfq.dequeue()`, as far as the queue sees it -/
def drain (main : ι) (printed : List V) : Calls ι V :=
  printed.flatMap (fun v => [(main, .invoke .dequeue), (main, .respond (.value (some v)))]) ++
    [(main, .invoke .dequeue), (main, .respond (.value none))]

/-- The values of all threads, those of each thread in its order. -/
def Interleaves (program : ι → List V) (printed : List V) : Prop :=
  ∃ owned : List (ι × V), owned.map Prod.snd = printed ∧
    ∀ t, (owned.filter fun x => x.1 = t).map Prod.snd = program t

omit [DecidableEq ι] in
theorem drain_cons (main : ι) (v : V) (printed : List V) : drain main (v :: printed) =
    (main, .invoke .dequeue) :: (main, .respond (.value (some v))) :: drain main printed := rfl

/-- The loop prints what is in the queue. -/
theorem drain_inv {q printed : List V} {main : ι} {tr : List (ι × ObjectEvent (Op V) (Res V))} {o : Fifo ι V}
    (h : Run (Object.Step LockBasedQueue.apply) (Object.new q) tr o)
    (hobs : tr.filterMap ObjectEvent.observe = drain main printed) : printed = q := by
  induction printed generalizing q tr with
  | nil =>
      obtain ⟨hnone, -⟩ := Object.Step.alone_inv h hobs
      cases q with
      | nil => rfl
      | cons => cases hnone
  | cons v printed ih =>
      rw [drain_cons] at hobs
      obtain ⟨hsome, tr', hrest, hobs'⟩ := Object.Step.alone_inv h hobs
      cases q with
      | nil => cases hsome
      | cons value q =>
          cases hsome
          rw [ih hrest hobs']
          rfl

theorem drain_run (main : ι) (q : List V) :
    ∃ tr o, Run (Object.Step LockBasedQueue.apply) (Object.new q : Fifo ι V) tr o ∧
      tr.filterMap ObjectEvent.observe = drain main q := by
  induction q with
  | nil => exact ⟨_, _, Object.Step.alone LockBasedQueue.apply [] main .dequeue, rfl⟩
  | cons v q ih =>
      obtain ⟨tr, o, hrun, hobs⟩ := ih
      refine ⟨_, o, (Object.Step.alone LockBasedQueue.apply (v :: q) main .dequeue).append hrun, ?_⟩
      rw [List.filterMap_append, hobs]
      rfl

/-! ### What the threads put in -/

/-- The value that a call puts in. -/
def Op.value? : Op V → Option V
  | .enqueue value => some value
  | .dequeue => none

/-- The values put in, with the threads. -/
def putBy (l : List (ι × Op V × Res V)) : List (ι × V) :=
  l.filterMap fun x => x.2.1.value?.map (x.1, ·)

theorem putBy_filter (t : ι) (l : List (ι × Op V × Res V)) :
    ((putBy l).filter fun x => x.1 = t).map Prod.snd = ((logOf t l).map Prod.fst).filterMap Op.value? := by
  induction l with
  | nil => rfl
  | cons x l ih =>
      obtain ⟨t', op, res⟩ := x
      rw [logOf_cons]
      cases op with
      | enqueue value =>
          have hcons : putBy ((t', Op.enqueue value, res) :: l) = (t', value) :: putBy l := rfl
          rw [hcons, List.filter_cons]
          by_cases ht : t' = t <;> simp only [ht, decide_true, decide_false, if_true, if_false, List.map_cons, ih]
          · rfl
          · simp [ih]
      | dequeue =>
          have hcons : putBy ((t', Op.dequeue, res) :: l) = putBy l := rfl
          rw [hcons, ih]
          by_cases ht : t' = t
          · rw [if_pos ht]
            rfl
          · rw [if_neg ht]

omit [DecidableEq ι] in
theorem putBy_values (l : List (ι × Op V × Res V)) :
    (putBy l).map Prod.snd = enqueued (l.map Prod.snd) := by
  rw [putBy, enqueued, List.map_filterMap, List.filterMap_map]
  refine List.filterMap_congr fun x _ => ?_
  obtain ⟨t, op, res⟩ := x
  cases op <;> rfl

theorem filterMap_value (program : List V) : (program.map Op.enqueue).filterMap Op.value? = program := by
  rw [List.filterMap_map]
  exact List.filterMap_some

/-- Where all threads have only put in values, the queue holds them. -/
theorem Inserted.value_eq {program : ι → List V} {tr : List (ι × ObjectEvent (Op V) (Res V))} {o : Fifo ι V}
    (h : Run (Object.Step LockBasedQueue.apply) (Object.new LockBasedQueue.new) tr o)
    (hinserted : Inserted program (tr.filterMap ObjectEvent.observe)) :
    o = Object.new ((putBy (log tr)).map Prod.snd) ∧
      ∀ t, ((putBy (log tr)).filter fun x => x.1 = t).map Prod.snd = program t := by
  have hended : ∀ t, o.call t = .idle ∧ (logOf t (log tr)).map Prod.fst = (program t).map .enqueue := by
    intro t
    obtain ⟨hcalls, hresults⟩ := hinserted t
    have hends := Run.ended h (t := t) (by rw [hcalls, hresults, List.length_map])
    rwa [hcalls] at hends
  have hdequeued : dequeued (commits tr) = [] := by
    rw [commits_eq_log]
    refine List.filterMap_eq_nil_iff.mpr fun x hx => ?_
    obtain ⟨⟨t, op, res⟩, hmem, rfl⟩ := List.mem_map.mp hx
    have hop := List.mem_map_of_mem (f := Prod.fst) (mem_logOf hmem)
    rw [(hended t).2] at hop
    obtain ⟨value, -, rfl⟩ := List.mem_map.mp hop
    rfl
  have hfifo := LockBasedQueue.executes_fifo (Object.Step.executes_commits h)
  rw [hdequeued, commits_eq_log, ← putBy_values] at hfifo
  constructor
  · rw [Object.eq_new fun t => (hended t).1]
    exact congrArg Object.new hfifo.symm
  · intro t
    rw [putBy_filter, (hended t).2, filterMap_value]

/-- The calls that put in the values, one after the other. -/
def insertAll (owned : List (ι × V)) : Calls ι V :=
  owned.flatMap fun x => [(x.1, .invoke (.enqueue x.2)), (x.1, .respond .unit)]

theorem insertAll_run (owned : List (ι × V)) : ∃ tr,
    Run (Object.Step LockBasedQueue.apply) (Object.new LockBasedQueue.new) tr
      (Object.new (owned.map Prod.snd) : Fifo ι V) ∧ tr.filterMap ObjectEvent.observe = insertAll owned := by
  induction owned using List.reverseRecOn with
  | nil => exact ⟨[], .nil, rfl⟩
  | append_singleton owned x ih =>
      obtain ⟨tr, hrun, hobs⟩ := ih
      have hput := Object.Step.alone LockBasedQueue.apply (owned.map Prod.snd) x.1 (.enqueue x.2)
      rw [List.map_append]
      refine ⟨_, hrun.append hput, ?_⟩
      rw [List.filterMap_append, hobs, insertAll, insertAll, List.flatMap_append]
      rfl

theorem insertAll_inserted {program : ι → List V} {owned : List (ι × V)}
    (h : ∀ t, (owned.filter fun x => x.1 = t).map Prod.snd = program t) :
    Inserted program (insertAll owned) := by
  intro t
  rw [← h t]
  clear h
  induction owned with
  | nil => exact ⟨rfl, rfl⟩
  | cons x owned ih =>
      obtain ⟨hcalls, hresults⟩ := ih
      have hcons : insertAll (x :: owned) = [(x.1, .invoke (.enqueue x.2)), (x.1, .respond .unit)] ++
        insertAll owned := rfl
      rw [hcons, calls_append, results_append, hcalls, List.length_append, hresults, List.filter_cons]
      by_cases ht : x.1 = t <;> simp [ht, calls, results, Nat.add_comm]

/-- **The tests.** When the threads of a test have put in their values and one of them takes out what is
there, what it prints is an interleaving of what they put in; and any interleaving can be printed. -/
theorem test_prints {H : Set (Calls ι V)} (hH : IsQueue H) (program : ι → List V) (main : ι)
    (printed : List V) :
    (∃ h, Inserted program h ∧ h ++ drain main printed ∈ H) ↔ Interleaves program printed := by
  rw [hH.eq]
  constructor
  · rintro ⟨h, hinserted, tr, o, hrun, hobs⟩
    obtain ⟨before, after, rfl, rfl, hafter⟩ := List.filterMap_eq_append_iff.mp hobs
    obtain ⟨o₁, hrun₁, hrest⟩ := hrun.split
    obtain ⟨hqueue, howned⟩ := hinserted.value_eq hrun₁
    rw [hqueue] at hrest
    exact ⟨putBy (log before), (drain_inv hrest hafter).symm, howned⟩
  · rintro ⟨owned, rfl, howned⟩
    obtain ⟨before, hrun, hobs⟩ := insertAll_run owned
    obtain ⟨after, o, hrest, hobs'⟩ := drain_run main (owned.map Prod.snd)
    refine ⟨_, insertAll_inserted howned, before ++ after, o, hrun.append hrest, ?_⟩
    rw [List.filterMap_append, hobs, hobs']

theorem test_prints_lockFree : (∃ h, Inserted (fun t => if t then [1, 2] else [3]) h ∧
    h ++ drain true [1, 3, 2] ∈ histories Step Event.observe (State.new 0 : State Bool Nat)) :=
  (test_prints (.lockFree 0) _ true [1, 3, 2]).mpr
    ⟨[(true, 1), (false, 3), (true, 2)], rfl, by decide⟩

end SmallTrial.Queue
