import Mathlib.Algebra.BigOperators.Group.List.Basic
import SmallTrial.ListingBuffers

/-! `myls -R` comes to an end on every tree: also where it is in the wrong directory and visits names again,
`_path` grows with every level of the recursion, until it is full. -/

namespace SmallTrial.Listing

open Text Files Transition

variable {fs : FileTree} {opts : Options} {uninit : State → Bool} {s t : State} {e : Event}

/-! ### The work that is left -/

/-- What a call may cost whose `path` leaves room for `room` more bytes. -/
def callWork : Nat → Nat
  | 0 => 2
  | room + 1 => maxFileNum * (callWork room + 2) + 3

/-- The room that is left in `_path`. -/
def roomOf (path : Bytes) : Nat := maxFileName - path.length

/-- The names that the loop of a call has still to visit, each with its call. -/
def Frame.work (f : Frame) : Nat := f.rest.length * (callWork (roomOf f.path) + 2) + 1

/-- The calls in progress, with the `chdir("..")` that the caller of each does next. -/
def stackWork (stack : List Frame) : Nat := (stack.map fun f => f.work + 1).sum

def State.work (s : State) : Nat :=
  match s.mode with
  | .call _ path => callWork (roomOf path) + stackWork s.stack
  | .loop => stackWork s.stack
  | .back => stackWork s.stack + 1
  | .fault => 0

theorem stackWork_cons (f : Frame) (stack : List Frame) :
    stackWork (f :: stack) = f.work + 1 + stackWork stack := by
  simp [stackWork]

theorem two_le_callWork (room : Nat) : 2 ≤ callWork room := by
  cases room with
  | zero => exact Nat.le_refl 2
  | succ room => exact Nat.le_add_left_of_le (by decide)

theorem callWork_le_succ (room : Nat) : callWork room ≤ callWork (room + 1) := by
  rw [callWork, maxFileNum]
  omega

theorem callWork_mono {room room' : Nat} (h : room ≤ room') : callWork room ≤ callWork room' :=
  monotone_nat_of_le_succ callWork_le_succ h

theorem work_start (cwd : Path) (root : Bytes) : (State.start cwd root).work = callWork maxFileName :=
  Nat.add_zero _

/-! ### One step -/

theorem length_le_withSlash (text : Bytes) : text.length ≤ (withSlash text).length := by
  unfold withSlash
  split
  · exact Nat.le_refl _
  · simp

/-- The path of the subdirectories is longer than the one of the directory. -/
theorem length_lt_of_parentPath {path path' dirname : Bytes} {subdirs : List Bytes}
    (hne : subdirs ≠ []) (hdir : dirname ≠ []) (h : parentPath path dirname subdirs = some path') :
    path.length < path'.length := by
  have hfits := parentPath_isSome_iff.mp (Option.isSome_of_eq_some h) hne
  rw [parentPath_eq subdirs hfits, if_neg hne] at h
  cases h
  have hpos := List.length_pos_iff.mpr hdir
  have hslash := length_le_withSlash (path ++ dirname)
  rw [List.length_append] at hslash
  omega

/-- What a call finds in a directory that it can hold. -/
theorem length_subdirs_le {dirname path : Bytes} {listed cwd : Path} {entries : List Bytes}
    (hpath : PathsFit s) (hmode : s.mode = .call dirname path)
    (hopen : fs.opendir s.cwd dirname = some (listed, entries))
    (hcwd : cwd = (fs.chdir s.cwd dirname).getD s.cwd) (hstep : Step fs opts uninit s e t)
    (hgoes : t.mode ≠ .fault) : (s.subdirs fs opts uninit cwd entries).length ≤ maxFileNum := by
  have hfits : s.Fits fs opts uninit := not_not.mp (mt (fault_iff hpath hstep).mpr hgoes)
  have hfound : s.found fs opts uninit dirname =
      some (entries, s.subdirs fs opts uninit cwd entries) := by
    rw [State.found, hopen, hcwd]
    rfl
  have hlen := ((fits_iff_of_found hmode hfound).mp hfits).1
  exact Nat.le_trans (State.found_eq_some hfound).2 hlen

theorem ne_nil_of_opendir {cwd p : Path} {dirname : Bytes} {entries : List Bytes}
    (h : fs.opendir cwd dirname = some (p, entries)) : dirname ≠ [] := by
  rintro rfl
  obtain ⟨hresolve, -⟩ := FileTree.opendir_eq_some h
  rw [FileTree.resolve, if_pos rfl] at hresolve
  cases hresolve

/-- A call costs more than the loop over the subdirectories that it finds. -/
theorem work_lt_callWork {path path' : Bytes} {listed : Path} {subdirs : List Bytes}
    (hlen : subdirs.length ≤ maxFileNum) (hpath : path.length < maxFileName)
    (hgrows : subdirs ≠ [] → path.length < path'.length) :
    (Frame.mk listed path' subdirs).work + 1 < callWork (roomOf path) := by
  obtain ⟨room, hroom⟩ := Nat.exists_eq_add_of_lt hpath
  have hrooms : roomOf path = room + 1 := by
    rw [roomOf]
    omega
  rw [Frame.work, hrooms, callWork]
  by_cases hnil : subdirs = []
  · simp [hnil]
  · have hless : roomOf path' ≤ room := by
      have hlt := hgrows hnil
      rw [roomOf]
      omega
    have hmul : subdirs.length * (callWork (roomOf path') + 2) ≤ maxFileNum * (callWork room + 2) :=
      Nat.mul_le_mul hlen (Nat.add_le_add_right (callWork_mono hless) 2)
    exact Nat.lt_of_le_of_lt (Nat.add_le_add_right hmul 2) (Nat.lt_succ_self _)

/-- Every step leaves less to do. -/
theorem work_lt_of_step (hfit : PathsFit s) (hstep : Step fs opts uninit s e t) : t.work < s.work := by
  have heffect := effect_of_step hstep
  cases heffect with
  | @accessError _ path out hmode =>
      have hcall := two_le_callWork (roomOf path)
      simp only [State.work, hmode]
      omega
  | @fault _ path hmode =>
      have hcall := two_le_callWork (roomOf path)
      simp only [State.work, hmode]
      omega
  | @list dirname path listed cwd entries path' out hmode hopen hcwd =>
      have hlen := length_subdirs_le hfit hmode hopen hcwd hstep (fun h => by cases h)
      have hparent := parentPath_of_list hmode hstep rfl
      have hdir : dirname ≠ [] := ne_nil_of_opendir hopen
      have hless : (Frame.mk listed path' (s.subdirs fs opts uninit cwd entries)).work + 1 <
          callWork (roomOf path) :=
        work_lt_callWork hlen (hfit.call _ _ hmode) fun hne => length_lt_of_parentPath hne hdir hparent
      simp only [State.work, hmode, stackWork_cons]
      exact Nat.add_lt_add_right hless _
  | leave hmode hstack hrest =>
      simp only [State.work, hmode, hstack, stackWork_cons, Frame.work, hrest]
      omega
  | skip hmode hstack hrest =>
      simp only [State.work, hmode, hstack, stackWork_cons, Frame.work, hrest, List.length_cons,
        Nat.succ_mul]
      omega
  | recurse out hmode hstack hrest =>
      simp only [State.work, hmode, hstack, stackWork_cons, Frame.work, hrest, List.length_cons,
        Nat.succ_mul]
      omega
  | back hmode hstack =>
      simp only [State.work, hmode, hstack]
      omega

/-! ### Runs -/

/-- The loop runs in a call. -/
def InCall (s : State) : Prop := s.mode = .loop → s.stack ≠ []

theorem inCall_step (hstep : Step fs opts uninit s e t) : InCall t := by
  intro hloop hnil
  have heffect := effect_of_step hstep
  cases heffect with
  | accessError | fault | leave | recurse => cases hloop
  | list | skip | back => cases hnil

/-- A call goes on until it has returned or a buffer has overflowed. -/
theorem next_isSome (hcall : InCall s) (hgoes : ¬ (s.finished ∨ s.mode = .fault)) :
    ∃ e t, Step fs opts uninit s e t := by
  have hsome : (s.next fs opts uninit).isSome := by
    unfold State.next
    cases hmode : s.mode with
    | call dirname path => rfl
    | loop =>
        obtain ⟨f, stack, hstack⟩ := List.exists_cons_of_ne_nil (hcall hmode)
        rw [State.loop, hstack]
        cases hrest : f.rest with
        | nil => simp [hrest]
        | cons name rest =>
            simp only [hrest]
            split
            · rfl
            · rfl
    | back =>
        cases hstack : s.stack with
        | nil => exact absurd (.inl ⟨hmode, hstack⟩) hgoes
        | cons f stack => rfl
    | fault => exact absurd (.inr hmode) hgoes
  obtain ⟨⟨t, e⟩, hnext⟩ := Option.isSome_iff_exists.mp hsome
  exact ⟨e, t, hnext⟩

theorem not_step_of_stopped (h : s.mode = .fault ∨ s.finished) : ¬ Step fs opts uninit s e t := by
  intro hstep
  unfold Step State.next at hstep
  obtain hfault | ⟨hback, hstack⟩ := h
  · rw [hfault] at hstep
    cases hstep
  · rw [hback, hstack] at hstep
    cases hstep

/-- Before the end of a run every buffer is large enough, unless the run ends with the overflow. -/
theorem fits_of_finished (hpath : PathsFit s) {rest : List Event}
    (hrest : Run (Step fs opts uninit) s rest t) (hfinished : t.finished) : s.Fits fs opts uninit := by
  cases rest with
  | nil =>
      rw [hrest.nil_inv, State.Fits, hfinished.1]
      trivial
  | cons e rest =>
      obtain ⟨u, hstep, htail⟩ := hrest.cons_inv
      by_contra hnot
      have hfault := (fault_iff hpath hstep).mpr hnot
      cases rest with
      | nil =>
          rw [htail.nil_inv, hfinished.1] at hfault
          cases hfault
      | cons e' rest =>
          obtain ⟨v, hnext, -⟩ := htail.cons_inv
          exact not_step_of_stopped (.inl hfault) hnext

/-- A run that comes to an overflow does so from a state that does not fit. -/
theorem exists_not_fits {cwd : Path} {root : Bytes} {tr : List Event}
    (hrun : Run (Step fs opts uninit) (.start cwd root) tr t) (hfault : t.mode = .fault) :
    ∃ s, Reachable (Step fs opts uninit) (.start cwd root) s ∧ ¬ s.Fits fs opts uninit := by
  cases hrun with
  | nil => cases hfault
  | snoc hinit hlast =>
      have hpath := pathsFit_of_reachable hinit.reachable
      exact ⟨_, hinit.reachable, (fault_iff hpath hlast).mp hfault⟩

/-- A call goes on to its return or to an overflow. -/
theorem exists_stopped (fs : FileTree) (opts : Options) (uninit : State → Bool) (cwd : Path) (root : Bytes) :
    ∃ tr t, Run (Step fs opts uninit) (.start cwd root) tr t ∧ tr.length ≤ callWork maxFileName ∧
      (t.finished ∨ t.mode = .fault) := by
  have hstart : Run (Step fs opts uninit) (.start cwd root) [] (.start cwd root) := .nil
  have hinit : PathsFit (.start cwd root) ∧ InCall (.start cwd root) :=
    ⟨pathsFit_of_reachable hstart.reachable, fun hloop => by cases hloop⟩
  have hkeep : ∀ a e b, (PathsFit a ∧ InCall a) → Step fs opts uninit a e b → PathsFit b ∧ InCall b :=
    fun a e b h hstep => ⟨pathsFit_step h.1 hstep, inCall_step hstep⟩
  have hdec : ∀ a e b, (PathsFit a ∧ InCall a) → Step fs opts uninit a e b → b.work < a.work :=
    fun a e b h hstep => work_lt_of_step h.1 hstep
  obtain ⟨tr, t, hrun, hend⟩ := Run.exists_final State.work _ (fun a => a.finished ∨ a.mode = .fault)
    hkeep hdec (fun a h => next_isSome h.2) hinit
  have hlen := hrun.length_add_le State.work _ hinit hkeep hdec
  rw [work_start] at hlen
  exact ⟨tr, t, hrun, Nat.le_trans (Nat.le_add_right _ _) hlen, hend⟩

/-- **`list_content_dir` comes to an end.** On every tree there is one longest run, which every other one
begins; it ends with the return of the first call, or else a buffer has overflowed. The stack is taken to have
room for the calls, each of which holds arrays of 1 MiB. -/
theorem listContentDir_terminates (fs : FileTree) (opts : Options) (uninit : State → Bool) (cwd : Path)
    (root : Bytes) :
    ∃ tr t, Run (Step fs opts uninit) (.start cwd root) tr t ∧ tr.length ≤ callWork maxFileName ∧
      (t.finished ∨ t.mode = .fault) ∧
      (t.finished ↔ ∀ s, Reachable (Step fs opts uninit) (.start cwd root) s → s.Fits fs opts uninit) ∧
      ∀ tr' s, Run (Step fs opts uninit) (.start cwd root) tr' s →
        ∃ rest, tr = tr' ++ rest ∧ Run (Step fs opts uninit) s rest t := by
  obtain ⟨tr, t, hrun, hlen, hend⟩ := exists_stopped fs opts uninit cwd root
  have hprefix : ∀ tr' s, Run (Step fs opts uninit) (.start cwd root) tr' s →
      ∃ rest, tr = tr' ++ rest ∧ Run (Step fs opts uninit) s rest t := fun tr' s hrun' =>
    Run.extends_to_final (fun _ _ _ _ _ => step_deterministic)
      (fun _ _ => not_step_of_stopped hend.symm) hrun hrun'
  refine ⟨tr, t, hrun, hlen, hend, ⟨?_, fun hfits => ?_⟩, hprefix⟩
  · rintro hfinished s ⟨tr', hrun'⟩
    obtain ⟨rest, -, hrest⟩ := hprefix tr' s hrun'
    exact fits_of_finished (pathsFit_of_reachable hrun'.reachable) hrest hfinished
  · refine hend.resolve_right fun hfault => ?_
    obtain ⟨s, hreach, hnot⟩ := exists_not_fits hrun hfault
    exact hnot (hfits s hreach)

end SmallTrial.Listing
