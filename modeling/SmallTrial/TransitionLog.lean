import Mathlib.Algebra.BigOperators.Group.Finset.Piecewise
import SmallTrial.TransitionHistory
import SmallTrial.TransitionObject

/-! The log of an atomic object: the calls in the order in which they take effect, with their threads. What
the history shows of a thread is its part of the log, up to the call that it is in; and a history in which
one call follows the other is the sequential execution of its calls. -/

namespace Transition

variable {ι Op Res Q : Type*} [DecidableEq ι]

/-! ### The log -/

/-- The calls of thread `t` in a history. -/
def calls (t : ι) (h : List (ι × HistoryEvent Op Res)) : List Op :=
  h.filterMap fun
    | (t', .invoke op) => if t' = t then some op else none
    | _ => none

/-- The results of thread `t` in a history. -/
def results (t : ι) (h : List (ι × HistoryEvent Op Res)) : List Res :=
  h.filterMap fun
    | (t', .respond res) => if t' = t then some res else none
    | _ => none

/-- The calls in the order in which they took effect. -/
def log (tr : List (ι × ObjectEvent Op Res)) : List (ι × Op × Res) :=
  tr.filterMap fun
    | (t, .commit op res) => some (t, op, res)
    | _ => none

/-- The part of thread `t` in a log. -/
def logOf (t : ι) (l : List (ι × Op × Res)) : List (Op × Res) := (l.filter fun x => x.1 = t).map Prod.snd

/-- The operation of a call that has not taken effect. -/
def Call.ahead : Call Op Res → List Op
  | .pending op => [op]
  | .idle | .done _ => []

/-- The result of a call that has not returned. -/
def Call.behind : Call Op Res → List Res
  | .done res => [res]
  | .idle | .pending _ => []

omit [DecidableEq ι] in
theorem log_snoc (tr : List (ι × ObjectEvent Op Res)) (e : ι × ObjectEvent Op Res) :
    log (tr ++ [e]) = log tr ++ log [e] := List.filterMap_append

omit [DecidableEq ι] in
theorem commits_eq_log (tr : List (ι × ObjectEvent Op Res)) : commits tr = (log tr).map Prod.snd := by
  rw [commits, log, List.map_filterMap]
  refine List.filterMap_congr fun e _ => ?_
  obtain ⟨t, e⟩ := e
  cases e <;> rfl

theorem logOf_snoc (t : ι) (l : List (ι × Op × Res)) (x : ι × Op × Res) :
    logOf t (l ++ [x]) = logOf t l ++ if x.1 = t then [x.2] else [] := by
  rw [logOf, logOf, List.filter_append, List.map_append, List.filter_singleton]
  by_cases hx : x.1 = t <;> simp [hx]

theorem logOf_cons (t : ι) (x : ι × Op × Res) (l : List (ι × Op × Res)) :
    logOf t (x :: l) = if x.1 = t then x.2 :: logOf t l else logOf t l := by
  rw [logOf, List.filter_cons]
  by_cases hx : x.1 = t <;> simp [hx, logOf]

theorem mem_logOf {x : ι × Op × Res} {l : List (ι × Op × Res)} (h : x ∈ l) : x.2 ∈ logOf x.1 l :=
  List.mem_map_of_mem (List.mem_filter.mpr ⟨h, decide_eq_true rfl⟩)

theorem calls_append (t : ι) (h h' : List (ι × HistoryEvent Op Res)) :
    calls t (h ++ h') = calls t h ++ calls t h' := List.filterMap_append

theorem results_append (t : ι) (h h' : List (ι × HistoryEvent Op Res)) :
    results t (h ++ h') = results t h ++ results t h' := List.filterMap_append

variable {apply : Op → Q → Res × Q} {q : Q} {o o' : Object ι Op Res Q} {tr : List (ι × ObjectEvent Op Res)}

/-- **What the history shows of a thread.** Its calls are those of its part of the log and the one that has
not taken effect yet; its results lack the one that has not been returned yet. -/
theorem calls_results (h : Run (Object.Step apply) (Object.new q) tr o) (t : ι) :
    calls t (tr.filterMap ObjectEvent.observe) = (logOf t (log tr)).map Prod.fst ++ (o.call t).ahead ∧
      results t (tr.filterMap ObjectEvent.observe) ++ (o.call t).behind =
        (logOf t (log tr)).map Prod.snd := by
  induction h with
  | nil => exact ⟨rfl, rfl⟩
  | @snoc tr e o o' _ hstep ih =>
      obtain ⟨hcalls, hresults⟩ := ih
      rw [filterMap_snoc, calls_append, results_append, hcalls, log_snoc]
      cases hstep with
      | invoke t' op hcall =>
          have hlog : log [(t', (.invoke op : ObjectEvent Op Res))] = [] := rfl
          rw [hlog, List.append_nil]
          by_cases ht : t' = t
          · subst ht
            rw [hcall] at hresults ⊢
            simpa [ObjectEvent.observe, calls, results, Call.ahead, Call.behind] using hresults
          · rw [Object.setCall_of_ne _ _ (Ne.symm ht)]
            simpa [ObjectEvent.observe, calls, results, ht] using hresults
      | commit t' op hcall =>
          have hlog : log [(t', ObjectEvent.commit op (apply op o.value).1)] =
              [(t', op, (apply op o.value).1)] := rfl
          rw [hlog, logOf_snoc]
          by_cases ht : t' = t
          · subst ht
            rw [hcall] at hresults ⊢
            simpa [ObjectEvent.observe, calls, results, Call.ahead, Call.behind] using hresults
          · rw [Object.setCall_of_ne _ _ (Ne.symm ht), if_neg ht, List.append_nil]
            simpa [ObjectEvent.observe, calls, results] using hresults
      | respond t' res hcall =>
          have hlog : log [(t', (.respond res : ObjectEvent Op Res))] = [] := rfl
          rw [hlog, List.append_nil]
          by_cases ht : t' = t
          · subst ht
            rw [hcall] at hresults ⊢
            simpa [ObjectEvent.observe, calls, results, Call.ahead, Call.behind] using hresults
          · rw [Object.setCall_of_ne _ _ (Ne.symm ht)]
            simpa [ObjectEvent.observe, calls, results, ht] using hresults

/-- A thread that has got the results of all its calls is not in a call. -/
theorem Run.ended (h : Run (Object.Step apply) (Object.new q) tr o) {t : ι}
    (hends : (calls t (tr.filterMap ObjectEvent.observe)).length ≤
      (results t (tr.filterMap ObjectEvent.observe)).length) :
    o.call t = .idle ∧ (logOf t (log tr)).map Prod.fst = calls t (tr.filterMap ObjectEvent.observe) := by
  obtain ⟨hcalls, hresults⟩ := calls_results h t
  have hlength := congrArg List.length hcalls
  have hbehind := congrArg List.length hresults
  rw [List.length_append, List.length_map] at hlength hbehind
  rw [hcalls]
  cases hcall : o.call t with
  | idle => exact ⟨rfl, (List.append_nil _).symm⟩
  | pending op =>
      rw [hcall, Call.ahead, List.length_singleton] at hlength
      omega
  | done res =>
      rw [hcall, Call.behind, List.length_singleton] at hbehind
      omega

omit [DecidableEq ι] in
/-- The object when all threads are back. -/
theorem Object.eq_new {o : Object ι Op Res Q} (h : ∀ t, o.call t = .idle) : o = Object.new o.value := by
  obtain ⟨value, call⟩ := o
  obtain rfl : call = fun _ => .idle := funext h
  rfl

/-- A log is made of the parts of the threads. -/
theorem sum_countP_logOf [Fintype ι] (P : Op × Res → Bool) (l : List (ι × Op × Res)) :
    ∑ t, (logOf t l).countP P = (l.map Prod.snd).countP P := by
  induction l using List.reverseRecOn with
  | nil => simp [logOf]
  | append_singleton l x ih =>
      have hlast : ∀ t, (logOf t (l ++ [x])).countP P =
          (logOf t l).countP P + if x.1 = t then [x.2].countP P else 0 := by
        intro t
        rw [logOf_snoc, List.countP_append]
        by_cases hx : x.1 = t <;> simp [hx]
      rw [Finset.sum_congr rfl fun t _ => hlast t, Finset.sum_add_distrib, ih, Finset.sum_ite_eq,
        if_pos (Finset.mem_univ _), List.map_append, List.countP_append]
      rfl

/-! ### One call after the other -/

/-- Where no call is pending, nothing can happen that the history does not show. -/
theorem Run.eq_nil_of_silent (h : Run (Object.Step apply) o tr o')
    (hsilent : tr.filterMap ObjectEvent.observe = []) (hcalls : ∀ t op, o.call t ≠ .pending op) :
    tr = [] := by
  cases tr with
  | nil => rfl
  | cons e tr =>
      obtain ⟨o₁, hstep, -⟩ := h.cons_inv
      have hnone := List.filterMap_eq_nil_iff.mp hsilent e List.mem_cons_self
      cases hstep with
      | invoke | respond => cases hnone
      | commit t op hcall => exact absurd hcall (hcalls t op)

theorem Object.setCall_setCall (o : Object ι Op Res Q) (t : ι) (c c' : Call Op Res) :
    (o.setCall t c).setCall t c' = o.setCall t c' := by
  rw [Object.setCall, Object.setCall, Function.update_idem, Object.setCall]

/-- The thread of the only call has returned. -/
theorem Object.new_setCall_idle (q : Q) (t : ι) (c : Call Op Res) :
    ((Object.new q).setCall t c).setCall t .idle = (Object.new q : Object ι Op Res Q) := by
  rw [Object.setCall_setCall]
  exact Object.setCall_call (Object.new q) t

/-- The only call takes effect. -/
theorem Object.Step.commit_new (apply : Op → Q → Res × Q) (q : Q) (t : ι) (op : Op) :
    Object.Step apply ((Object.new q).setCall t (.pending op)) (t, .commit op (apply op q).1)
      ((Object.new (apply op q).2).setCall t (.done (apply op q).1)) := by
  have hstep : Object.Step apply ((Object.new q).setCall t (.pending op)) (t, .commit op (apply op q).1)
      (((Object.new (apply op q).2).setCall t (.pending op)).setCall t (.done (apply op q).1)) :=
    .commit _ t op (Object.setCall_self ..)
  rwa [Object.setCall_setCall] at hstep

/-- A call that returns before anything else happens, forwards. -/
theorem Object.Step.alone (apply : Op → Q → Res × Q) (q : Q) (t : ι) (op : Op) :
    Run (Object.Step apply) (Object.new q)
      [(t, .invoke op), (t, .commit op (apply op q).1), (t, .respond (apply op q).1)]
      (Object.new (apply op q).2) := by
  have hinvoke : Object.Step apply (Object.new q) (t, .invoke op) ((Object.new q).setCall t (.pending op)) :=
    .invoke _ t op rfl
  have hrespond : Object.Step apply ((Object.new (apply op q).2).setCall t (.done (apply op q).1))
      (t, .respond (apply op q).1)
      (((Object.new (apply op q).2).setCall t (.done (apply op q).1)).setCall t .idle) :=
    .respond _ t _ (Object.setCall_self ..)
  rw [Object.new_setCall_idle] at hrespond
  exact ((Run.single hinvoke).snoc (.commit_new apply q t op)).snoc hrespond

/-- The next event that the history shows, where no call is pending. -/
theorem Run.next_shown {a : ι × HistoryEvent Op Res} {rest : List (ι × HistoryEvent Op Res)}
    (h : Run (Object.Step apply) o tr o') (hcalls : ∀ t op, o.call t ≠ .pending op)
    (hobs : tr.filterMap ObjectEvent.observe = a :: rest) :
    ∃ e o₁ tr', Object.Step apply o e o₁ ∧ ObjectEvent.observe e = some a ∧
      Run (Object.Step apply) o₁ tr' o' ∧ tr'.filterMap ObjectEvent.observe = rest := by
  obtain ⟨before, e, tr', rfl, hbefore, he, hrest⟩ := List.filterMap_eq_cons_iff.mp hobs
  obtain ⟨o₀, hrun₀, hrun⟩ := h.split
  obtain rfl : before = [] := hrun₀.eq_nil_of_silent (List.filterMap_eq_nil_iff.mpr hbefore) hcalls
  rw [← hrun₀.nil_inv] at hrun
  obtain ⟨o₁, hstep, hrun⟩ := hrun.cons_inv
  exact ⟨e, o₁, tr', hstep, he, hrun, hrest⟩

/-- Where the only call has taken effect, it returns its result. -/
theorem Object.Step.return_inv {t : ι} {r res : Res} {rest : List (ι × HistoryEvent Op Res)}
    (h : Run (Object.Step apply) ((Object.new q).setCall t (.done r)) tr o)
    (hobs : tr.filterMap ObjectEvent.observe = (t, .respond res) :: rest) :
    res = r ∧ ∃ tr', Run (Object.Step apply) (Object.new q) tr' o ∧
      tr'.filterMap ObjectEvent.observe = rest := by
  have hnone : ∀ t' (op : Op), ((Object.new q).setCall t (.done r)).call t' ≠ .pending op := by
    intro t' op hcall
    by_cases ht : t' = t
    · rw [ht, Object.setCall_self] at hcall
      cases hcall
    · rw [Object.setCall_of_ne _ _ ht] at hcall
      cases hcall
  obtain ⟨e, o₁, tr', hrespond, he, hrun, hrest⟩ := h.next_shown hnone hobs
  cases hrespond with
  | invoke | commit => cases he
  | respond t res hcall =>
      cases he
      rw [Object.setCall_self] at hcall
      cases hcall
      rw [Object.new_setCall_idle] at hrun
      exact ⟨rfl, tr', hrun, hrest⟩

/-- A call that returns before anything else happens, backwards: its result is that of the operation. -/
theorem Object.Step.alone_inv {t : ι} {op : Op} {res : Res} {rest : List (ι × HistoryEvent Op Res)}
    (h : Run (Object.Step apply) (Object.new q) tr o)
    (hobs : tr.filterMap ObjectEvent.observe = (t, .invoke op) :: (t, .respond res) :: rest) :
    res = (apply op q).1 ∧ ∃ tr', Run (Object.Step apply) (Object.new (apply op q).2) tr' o ∧
      tr'.filterMap ObjectEvent.observe = rest := by
  obtain ⟨e, o₁, tr, hinvoke, he, hrun, hobs⟩ := h.next_shown (fun _ _ hcall => by cases hcall) hobs
  cases hinvoke with
  | commit | respond => cases he
  | invoke t op =>
      cases he
      cases tr with
      | nil => cases hobs
      | cons e tr =>
          obtain ⟨o₂, hstep, hrun⟩ := hrun.cons_inv
          cases hstep with
          | invoke => cases hobs
          | respond t' res' hcall =>
              -- the call has not taken effect
              cases hobs
              rw [Object.setCall_self] at hcall
              cases hcall
          | commit t' op' hcall =>
              obtain rfl : t' = t := by
                by_contra ht
                rw [Object.setCall_of_ne _ _ ht] at hcall
                cases hcall
              rw [Object.setCall_self] at hcall
              cases hcall
              have hrun : Run (Object.Step apply) (((Object.new (apply op q).2).setCall t'
                  (.pending op)).setCall t' (.done (apply op q).1)) tr o := hrun
              rw [Object.setCall_setCall] at hrun
              exact Object.Step.return_inv hrun hobs

end Transition
