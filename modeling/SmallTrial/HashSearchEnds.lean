import SmallTrial.HashSearch

/-! When the search of the `SHA256` crate ends: one candidate that passes `check_zero` is enough, because its
worker is never held up by the others. -/

namespace SmallTrial.Hash.Search

open Transition

variable {digest : Src → Digest} {i : Fin 4} {k : Nat}

/-- The worker that takes a step. -/
def Event.worker : Event → Option (Fin 4)
  | .digest i _ | .send i _ | .panic i => some i
  | .recv _ | .returned => none

/-- How many steps worker `i` has taken. -/
def moves (i : Fin 4) (tr : List Event) : Nat := tr.countP fun e => e.worker = some i

/-- How many steps worker `i` has left, if its candidate `k` passes. -/
def left (i : Fin 4) (k : Nat) : Worker → Nat
  | .spawned => k + 3
  | .loop cnt _ _ => k + 2 - (cnt - base - i) / 4
  | .sent | .panicked => 0

/-- A worker in its loop has not come past the candidate that passes, and has not hashed the last number. -/
theorem WorkerOk.loop_le {seen : List Src} {cnt : Nat} {src : Src} {res : Digest} (hleast : Least digest i k)
    (h : WorkerOk digest i seen (.loop cnt src res)) :
    ∃ n, cnt = candidate i n ∧ n ≤ k + 1 ∧ left i k (.loop cnt src res) = k + 2 - n ∧
      (n = k + 1 → checkZero res = true) := by
  obtain ⟨n, -, rfl, -, rfl, rfl, hall⟩ := h
  have hle : n ≤ k + 1 := by
    by_contra hlt
    have hfalse := hall k (by omega)
    rw [hleast.zero] at hfalse
    cases hfalse
  refine ⟨n, rfl, hle, ?_, ?_⟩
  · rw [left, candidate]
    omega
  · rintro rfl
    exact hleast.zero

/-! ### What a step of a worker does -/

theorem worker_of_work {s s' : State} {j : Fin 4} {e : Event} (h : s.work digest j = some (s', e)) :
    e.worker = some j := by
  unfold State.work at h
  split at h
  · cases h
    rfl
  · split at h
    · split at h <;> cases h <;> rfl
    · dsimp only at h
      split at h <;> cases h <;> rfl
  · cases h
  · cases h

/-- A worker moves itself only, and takes nothing from the channel. -/
theorem work_frame {s s' : State} {j : Fin 4} {e : Event} (h : s.work digest j = some (s', e)) :
    (∃ w, s'.worker = Function.update s.worker j w) ∧ s'.main = s.main ∧ s.channel <+: s'.channel := by
  unfold State.work at h
  split at h
  · cases h
    exact ⟨⟨_, rfl⟩, rfl, List.prefix_rfl⟩
  · split at h
    · split at h <;> cases h
      · exact ⟨⟨_, rfl⟩, rfl, List.prefix_rfl⟩
      · exact ⟨⟨_, rfl⟩, rfl, List.prefix_append _ _⟩
      · exact ⟨⟨_, rfl⟩, rfl, List.prefix_append _ _⟩
    · dsimp only at h
      split at h <;> cases h <;> exact ⟨⟨_, rfl⟩, rfl, List.prefix_rfl⟩
  · cases h
  · cases h

/-- What worker `i` does, if its candidate `k` passes and is not the last one: each step leaves fewer, only the
end of `main` makes it panic, and it sends its message if `main` still waits. -/
structure Progress (i : Fin 4) (k : Nat) (s s' : State) : Prop where
  left : left i k (s'.worker i) < left i k (s.worker i)
  panicked : s'.worker i = .panicked → s.main = .returned
  sent : s'.worker i = .sent → s'.channel ≠ []

theorem work_progress {s s' : State} {e : Event} {seen : List Src} (hleast : Least digest i k)
    (hlast : candidate i k + 4 < 2 ^ 128) (hw : WorkerOk digest i seen (s.worker i))
    (h : s.work digest i = some (s', e)) : Progress i k s s' := by
  have hself (w : Worker) : Function.update s.worker i w i = w := Function.update_self _ _ _
  rw [State.work] at h
  cases hworker : s.worker i with
  | spawned =>
      rw [hworker] at h
      cases h
      refine ⟨?_, fun hp => ?_, fun hs => ?_⟩
      · rw [hworker]
        show Search.left i k (Function.update s.worker i _ i) < _
        rw [hself, Search.left, Search.left]
        omega
      · cases (hself _).symm.trans hp
      · cases (hself _).symm.trans hs
  | loop cnt src res =>
      rw [hworker] at h hw
      obtain ⟨n, hcnt, hn, hleft, hpass⟩ := hw.loop_le hleast
      dsimp only at h
      by_cases hzero : checkZero res = true
      · rw [if_pos hzero] at h
        cases hmain : s.main with
        | returned =>
            rw [hmain] at h
            cases h
            refine ⟨?_, fun _ => hmain, fun hs => ?_⟩
            · show Search.left i k (Function.update s.worker i _ i) < _
              rw [hself, hworker, hleft, Search.left]
              omega
            · cases (hself _).symm.trans hs
        | recv | received =>
            rw [hmain] at h
            cases h
            refine ⟨?_, fun hp => ?_, fun _ => List.append_ne_nil_of_right_ne_nil _ (List.cons_ne_nil _ _)⟩
            · show Search.left i k (Function.update s.worker i _ i) < _
              rw [hself, hworker, hleft, Search.left]
              omega
            · cases (hself _).symm.trans hp
      · rw [if_neg hzero] at h
        -- the candidate that passes has not been hashed, so the addition does not overflow
        have hlt : n ≤ k := by
          by_contra hgt
          exact hzero (hpass (by omega))
        have hnext : cnt + 4 < 2 ^ 128 := by
          have hmono := candidate_mono i hlt
          omega
        rw [if_pos hnext] at h
        cases h
        refine ⟨?_, fun hp => ?_, fun hs => ?_⟩
        · show Search.left i k (Function.update s.worker i _ i) < _
          rw [hself, hworker, hleft, Search.left, hcnt, candidate]
          omega
        · cases (hself _).symm.trans hp
        · cases (hself _).symm.trans hs
  | sent | panicked =>
      rw [hworker] at h
      cases h

/-- A worker that has not ended has a next step. -/
theorem work_isSome {s : State} (hsent : s.worker i ≠ .sent) (hpanicked : s.worker i ≠ .panicked) :
    ∃ s' e, s.work digest i = some (s', e) := by
  rw [State.work]
  cases hworker : s.worker i with
  | spawned => exact ⟨_, _, rfl⟩
  | loop cnt src res =>
      dsimp only
      split
      · split <;> exact ⟨_, _, rfl⟩
      · split <;> exact ⟨_, _, rfl⟩
  | sent => exact absurd hworker hsent
  | panicked => exact absurd hworker hpanicked

/-! ### Runs -/

/-- What holds of a worker whose candidate `k` passes: it is on its way, or its message is. -/
structure OnItsWay (digest : Src → Digest) (i : Fin 4) (k : Nat) (tr : List Event) (s : State) : Prop where
  moves : moves i tr + left i k (s.worker i) ≤ k + 3
  panicked : s.worker i = .panicked → s.main = .returned
  sent : s.worker i = .sent → s.main = .recv → s.channel ≠ []

theorem moves_snoc (i : Fin 4) (tr : List Event) (e : Event) :
    moves i (tr ++ [e]) = moves i tr + if e.worker = some i then 1 else 0 := by
  rw [moves, List.countP_append, List.countP_singleton, moves]
  simp only [decide_eq_true_eq]

theorem onItsWay_main {tr : List Event} {s s' : State} {e : Event} (H : OnItsWay digest i k tr s)
    (h : s.mainStep = some (s', e)) : OnItsWay digest i k (tr ++ [e]) s' := by
  have hstep : s'.worker = s.worker ∧ e.worker = none ∧ s'.main ≠ .recv ∧
      (s.main = .returned → s'.main = .returned) := by
    rw [State.mainStep] at h
    split at h <;> cases h
    · rename_i hmain _
      rw [hmain]
      exact ⟨rfl, rfl, Main.noConfusion, fun h => Main.noConfusion h⟩
    · exact ⟨rfl, rfl, Main.noConfusion, fun _ => rfl⟩
  obtain ⟨hworker, hnone, hrecv, hreturned⟩ := hstep
  have hne : (none : Option (Fin 4)) ≠ some i := fun heq => by cases heq
  refine ⟨?_, ?_, fun _ hmain => absurd hmain hrecv⟩
  · rw [moves_snoc, hnone, if_neg hne, hworker]
    exact H.moves
  · rw [hworker]
    exact fun hp => hreturned (H.panicked hp)

theorem onItsWay_work {tr : List Event} {s s' : State} {e : Event} {j : Fin 4} (hleast : Least digest i k)
    (hlast : candidate i k + 4 < 2 ^ 128) (hok : SearchOk digest tr s) (H : OnItsWay digest i k tr s)
    (h : s.work digest j = some (s', e)) : OnItsWay digest i k (tr ++ [e]) s' := by
  obtain ⟨⟨w, hworker⟩, hmain, hchannel⟩ := work_frame h
  have hevent := worker_of_work h
  by_cases hj : j = i
  · subst hj
    have hprogress := work_progress hleast hlast (hok.worker j) h
    refine ⟨?_, fun hp => ?_, fun hs _ => hprogress.sent hs⟩
    · rw [moves_snoc, if_pos hevent]
      have hleft := hprogress.left
      have hmoves := H.moves
      omega
    · rw [hmain]
      exact hprogress.panicked hp
  · have hsame : s'.worker i = s.worker i := by rw [hworker, Function.update_of_ne (Ne.symm hj)]
    have hother : e.worker ≠ some i := by
      rw [hevent]
      exact fun heq => hj (Option.some.inj heq)
    refine ⟨?_, ?_, ?_⟩
    · rw [moves_snoc, if_neg hother, hsame]
      exact H.moves
    · rw [hsame, hmain]
      exact H.panicked
    · rw [hsame, hmain]
      intro hs hrecv hnil
      rw [hnil] at hchannel
      exact H.sent hs hrecv (List.prefix_nil.mp hchannel)

theorem onItsWay_step {tr : List Event} {s s' : State} {e : Event} (hleast : Least digest i k)
    (hlast : candidate i k + 4 < 2 ^ 128) (hok : SearchOk digest tr s) (H : OnItsWay digest i k tr s)
    (h : Step digest s e s') : OnItsWay digest i k (tr ++ [e]) s' := by
  obtain ⟨p, h⟩ := h
  cases p with
  | none => exact onItsWay_main H h
  | some j => exact onItsWay_work hleast hlast hok H h

theorem onItsWay_of_run {tr : List Event} {s : State} (hleast : Least digest i k)
    (hlast : candidate i k + 4 < 2 ^ 128) (h : Run (Step digest) State.new tr s) :
    OnItsWay digest i k tr s := by
  have hinit : OnItsWay digest i k [] State.new := by
    refine ⟨?_, fun hp => Worker.noConfusion hp, fun hs => Worker.noConfusion hs⟩
    exact Nat.le_of_eq (Nat.zero_add _)
  refine h.invariant (OnItsWay digest i k) hinit fun _ _ _ _ hrun H hstep => ?_
  exact onItsWay_step hleast hlast (SearchOk.of_run hrun) H hstep

/-! ### The end -/

/-- Worker `i` and `main` take the steps `tr`. -/
def Only (i : Fin 4) (tr : List Event) : Prop := ∀ e ∈ tr, e.worker = none ∨ e.worker = some i

/-- A message in the channel ends the search. -/
theorem ends_of_channel {s : State} (hmain : s.main = .recv) (hchannel : s.channel ≠ []) :
    ∃ tr s', Run (Step digest) s tr s' ∧ s'.main = .returned ∧ tr.length = 2 ∧ Only i tr := by
  obtain ⟨target, rest, hcons⟩ := List.exists_cons_of_ne_nil hchannel
  obtain ⟨t, ht⟩ : ∃ t : State, t = { s with channel := rest, main := .received target } := ⟨_, rfl⟩
  have hrecv : Step digest s (.recv target) t := by
    refine ⟨none, ?_⟩
    rw [State.next, State.mainStep, hmain, hcons, ht]
  have hreturn : Step digest t .returned { t with main := .returned } := by
    refine ⟨none, ?_⟩
    rw [State.next, State.mainStep, ht]
  refine ⟨_, _, (Run.single hrecv).snoc hreturn, rfl, rfl, fun e he => .inl ?_⟩
  rcases List.mem_append.mp he with he | he <;> rw [List.mem_singleton.mp he] <;> rfl

theorem ends_of_received {s : State} {target : Src} (hmain : s.main = .received target) :
    ∃ tr s', Run (Step digest) s tr s' ∧ s'.main = .returned ∧ tr.length = 1 ∧ Only i tr := by
  have hreturn : Step digest s .returned { s with main := .returned } := by
    refine ⟨none, ?_⟩
    rw [State.next, State.mainStep, hmain]
  refine ⟨_, _, .single hreturn, rfl, rfl, fun e he => .inl ?_⟩
  rw [List.mem_singleton.mp he]
  rfl

/-- Worker `i` and `main` alone end the search. -/
theorem ends {tr : List Event} {s : State} (hleast : Least digest i k)
    (hlast : candidate i k + 4 < 2 ^ 128) (h : Run (Step digest) State.new tr s) :
    ∃ tr' s', Run (Step digest) s tr' s' ∧ s'.main = .returned ∧
      tr'.length ≤ left i k (s.worker i) + 2 ∧ Only i tr' := by
  induction hn : left i k (s.worker i) using Nat.strongRecOn generalizing tr s with
  | ind n ih =>
      have H := onItsWay_of_run hleast hlast h
      cases hmain : s.main with
      | returned => exact ⟨[], s, .nil, hmain, Nat.zero_le _, List.forall_mem_nil _⟩
      | received target =>
          obtain ⟨tr', s', hrun, hend, hlen, honly⟩ := ends_of_received hmain
          exact ⟨tr', s', hrun, hend, by omega, honly⟩
      | recv =>
          by_cases hchannel : s.channel = []
          · have hsent : s.worker i ≠ .sent := fun hs => H.sent hs hmain hchannel
            have hpanicked : s.worker i ≠ .panicked := by
              intro hp
              cases hmain.symm.trans (H.panicked hp)
            obtain ⟨t, e, hwork⟩ : ∃ t e, s.work digest i = some (t, e) := work_isSome hsent hpanicked
            have hstep : Step digest s e t := ⟨some i, hwork⟩
            have hleft := (work_progress hleast hlast ((SearchOk.of_run h).worker i) hwork).left
            obtain ⟨tr', s', hrun, hend, hlen, honly⟩ := ih _ (hn ▸ hleft) (h.snoc hstep) rfl
            refine ⟨e :: tr', s', hrun.cons hstep, hend, ?_, ?_⟩
            · rw [List.length_cons]
              omega
            · exact List.forall_mem_cons.mpr ⟨.inr (worker_of_work hwork), honly⟩
          · obtain ⟨tr', s', hrun, hend, hlen, honly⟩ := ends_of_channel hmain hchannel
            exact ⟨tr', s', hrun, hend, by omega, honly⟩

end SmallTrial.Hash.Search
