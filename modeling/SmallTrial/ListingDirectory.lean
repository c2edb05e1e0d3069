import SmallTrial.ListingModel

/-! The current directory of `myls -R`. The caller of `list_content_dir` goes back with `chdir("..")`
whether or not the callee has entered a directory, so that it keeps its current directory only where
every subdirectory that it visits can be opened and entered. -/

namespace SmallTrial.Listing

open Text Files Transition

/-- After each `chdir("..")` the current directory is the one that the caller lists. -/
def Event.Disciplined : Event → Prop
  | .back listed cwd => cwd = listed
  | _ => True

/-- A call that keeps the current directory of its caller. The directory can be opened and entered; or
`chdir("..")` does not leave the caller's directory, and there is nothing to list below. -/
def Keeps (fs : FileTree) (opts : Options) (uninit : State → Bool) (s : State) : Prop :=
  match s.mode with
  | .call dirname _ =>
      match fs.opendir s.cwd dirname with
      | none => s.stack = [] ∨ fs.up s.cwd = s.cwd
      | some (_, entries) =>
          fs.chdir s.cwd dirname ≠ none ∨
            (∀ n ∈ s.subdirs fs opts uninit s.cwd entries, skipped opts n = true) ∧
              (s.stack = [] ∨ fs.up s.cwd = s.cwd)
  | _ => True

variable {fs : FileTree} {opts : Options} {uninit : State → Bool} {s t : State} {e : Event}

/-! ### Steps -/

/-- What a step can do. -/
inductive Effect (fs : FileTree) (opts : Options) (uninit : State → Bool) (s : State) : Event → State → Prop where
  | accessError {dirname path : Bytes} (out : List Token) : s.mode = .call dirname path →
      fs.opendir s.cwd dirname = none →
      Effect fs opts uninit s (.accessError dirname) ⟨s.cwd, .back, s.stack, out⟩
  | fault {dirname path : Bytes} : s.mode = .call dirname path →
      Effect fs opts uninit s .fault { s with mode := .fault }
  | list {dirname path : Bytes} {listed cwd : Path} {entries : List Bytes} (path' : Bytes)
      (out : List Token) : s.mode = .call dirname path →
      fs.opendir s.cwd dirname = some (listed, entries) → cwd = (fs.chdir s.cwd dirname).getD s.cwd →
      Effect fs opts uninit s (.list listed cwd)
        ⟨cwd, .loop, ⟨listed, path', s.subdirs fs opts uninit cwd entries⟩ :: s.stack, out⟩
  | leave {f : Frame} {stack : List Frame} : s.mode = .loop → s.stack = f :: stack → f.rest = [] →
      Effect fs opts uninit s .leave { s with mode := .back, stack := stack }
  | skip {f : Frame} {stack : List Frame} {name : Bytes} {rest : List Bytes} : s.mode = .loop →
      s.stack = f :: stack → f.rest = name :: rest → skipped opts name = true →
      Effect fs opts uninit s (.skip name) { s with stack := { f with rest := rest } :: stack }
  | recurse {f : Frame} {stack : List Frame} {name : Bytes} {rest : List Bytes} (out : List Token) :
      s.mode = .loop → s.stack = f :: stack → f.rest = name :: rest → skipped opts name = false →
      Effect fs opts uninit s (.recurse name)
        ⟨s.cwd, .call name f.path, { f with rest := rest } :: stack, out⟩
  | back {f : Frame} {stack : List Frame} : s.mode = .back → s.stack = f :: stack →
      Effect fs opts uninit s (.back f.listed (fs.up s.cwd)) ⟨fs.up s.cwd, .loop, f :: stack, s.out⟩

theorem effect_of_call {dirname path : Bytes} (hmode : s.mode = .call dirname path) :
    Effect fs opts uninit s (s.call fs opts uninit dirname path).2
      (s.call fs opts uninit dirname path).1 := by
  unfold State.call
  cases hopen : fs.opendir s.cwd dirname with
  | none => exact .accessError _ hmode hopen
  | some p =>
      obtain ⟨listed, entries⟩ := p
      dsimp only
      split
      · split
        · exact .fault hmode
        · exact .list _ _ hmode hopen rfl
      · exact .fault hmode

theorem effect_of_step (h : Step fs opts uninit s e t) : Effect fs opts uninit s e t := by
  unfold Step State.next at h
  cases hmode : s.mode with
  | call dirname path =>
      rw [hmode] at h
      have heffect : Effect fs opts uninit s _ _ := effect_of_call hmode
      rwa [Option.some.inj h] at heffect
  | loop =>
      rw [hmode, State.loop] at h
      cases hstack : s.stack with
      | nil =>
          rw [hstack] at h
          cases h
      | cons f stack =>
          rw [hstack] at h
          cases hrest : f.rest with
          | nil =>
              simp only [hrest] at h
              cases h
              exact .leave hmode hstack hrest
          | cons name rest =>
              simp only [hrest] at h
              split at h
              · rename_i hskip
                cases h
                exact .skip hmode hstack hrest hskip
              · rename_i hskip
                cases h
                exact .recurse _ hmode hstack hrest (Bool.eq_false_of_not_eq_true hskip)
  | back =>
      rw [hmode] at h
      cases hstack : s.stack with
      | nil =>
          rw [hstack] at h
          cases h
      | cons f stack =>
          simp only [hstack] at h
          cases h
          exact .back hmode hstack
  | fault =>
      rw [hmode] at h
      cases h

/-! ### Calls that are in the right directory -/

/-- A name of a directory that is itself a directory, or that the loop skips. -/
def Enterable (fs : FileTree) (opts : Options) (p : Path) (n : Bytes) : Prop :=
  skipped opts n = false → fs.resolve p n = some (p ++ [n])

/-- `chdir("..")` leads to the directory of the caller, if there is one. -/
def Returns (fs : FileTree) (cwd : Path) (stack : List Frame) : Prop :=
  ∀ g ∈ stack.head?, fs.up cwd = g.listed

/-- The directories of the calls in progress are below each other. -/
def Nested (fs : FileTree) (opts : Options) : List Frame → Prop
  | [] => True
  | f :: stack => fs.canEnter f.listed = true ∧ (∀ n ∈ f.rest, Enterable fs opts f.listed n) ∧
      (∀ g ∈ stack.head?, f.listed.dropLast = g.listed) ∧ Nested fs opts stack

/-- The top call lists its own directory, or has nothing to list below. -/
def InPlace (fs : FileTree) (opts : Options) (cwd : Path) : List Frame → Prop
  | [] => False
  | f :: stack => (cwd = f.listed ∧ Nested fs opts (f :: stack)) ∨
      (∀ n ∈ f.rest, skipped opts n = true) ∧ Returns fs cwd stack ∧ Nested fs opts stack

/-- The current directory and the calls in progress fit together. -/
def Aligned (fs : FileTree) (opts : Options) (s : State) : Prop :=
  match s.mode with
  | .call dirname _ => Nested fs opts s.stack ∧
      ∀ f ∈ s.stack.head?, s.cwd = f.listed ∧ fs.resolve f.listed dirname = some (f.listed ++ [dirname])
  | .loop => InPlace fs opts s.cwd s.stack
  | .back => Returns fs s.cwd s.stack ∧ Nested fs opts s.stack
  | .fault => True

/-- Going back from a directory that is nested in that of the caller. -/
theorem returns_of_nested {f : Frame} {stack : List Frame} (h : Nested fs opts (f :: stack)) :
    Returns fs f.listed stack := by
  obtain ⟨henter, -, hparent, hstack⟩ := h
  cases stack with
  | nil => exact fun g hg => by cases hg
  | cons g stack =>
      intro g' hg'
      cases hg'
      rw [FileTree.up_eq henter (by rw [hparent g rfl]; exact hstack.1), hparent g rfl]

/-- In a directory that has been entered, the subdirectories that are found can be visited. -/
theorem enterable_of_mem_subdirs {p : Path} {o e : Bool} {entries : List Bytes}
    (hnode : fs.node p = some (.dir o e entries)) (hp : fs.canEnter p = true) {n : Bytes}
    (hn : n ∈ s.subdirs fs opts uninit p entries) : Enterable fs opts p n := by
  intro hskip
  obtain ⟨hdot, hdotdot⟩ := ne_dots_of_not_skipped hskip
  obtain rfl : e = true := by rw [← FileTree.canEnter_of_node hnode, hp]
  rw [State.subdirs] at hn
  split at hn
  · rw [collect_eq fun m hm => FileTree.lstat_entry hnode hm, List.mem_filter] at hn
    obtain ⟨hmem, hdir⟩ := hn
    obtain ⟨hne, hslash, -⟩ := fs.name p o true entries hnode n hmem
    rw [FileTree.lstat, if_pos hp, if_neg hdot, if_neg hdotdot] at hdir
    cases hsub : fs.node (p ++ [n]) with
    | none =>
        rw [hsub] at hdir
        cases hdir
    | some node =>
        rw [hsub] at hdir
        cases node with
        | file | link => cases hdir
        | dir => exact FileTree.resolve_dir hne hslash hdot hdotdot hp hsub
  · cases hn

/-- What the loop of the recursion does keeps the calls in place. -/
theorem aligned_of_loop (h : Aligned fs opts s) (hmode : s.mode = .loop)
    (heffect : Effect fs opts uninit s e t) : Aligned fs opts t ∧ e.Disciplined := by
  unfold Aligned at h
  rw [hmode] at h
  cases heffect with
  | accessError _ hmode' | fault hmode' | list _ _ hmode' | back hmode' =>
      rw [hmode] at hmode'
      cases hmode'
  | @leave f stack _ hstack hrest =>
      rw [hstack] at h
      rcases h with ⟨hcwd, hnested⟩ | ⟨-, hreturns, hnested⟩
      · refine ⟨⟨?_, hnested.2.2.2⟩, trivial⟩
        rw [hcwd]
        exact returns_of_nested hnested
      · exact ⟨⟨hreturns, hnested⟩, trivial⟩
  | @skip f stack name rest _ hstack hrest hskip =>
      rw [hstack, InPlace, hrest] at h
      unfold Aligned
      rw [hmode]
      rcases h with ⟨hcwd, henter, hall, hparent, hnested⟩ | ⟨hall, hreturns, hnested⟩
      · rw [hrest] at hall
        exact ⟨.inl ⟨hcwd, henter, fun n hn => hall n (List.mem_cons_of_mem _ hn), hparent, hnested⟩, trivial⟩
      · exact ⟨.inr ⟨fun n hn => hall n (List.mem_cons_of_mem _ hn), hreturns, hnested⟩, trivial⟩
  | @recurse f stack name rest _ _ hstack hrest hskip =>
      rw [hstack, InPlace, hrest] at h
      rcases h with ⟨hcwd, henter, hall, hparent, hnested⟩ | ⟨hall, -⟩
      · rw [hrest] at hall
        refine ⟨⟨⟨henter, fun n hn => hall n (List.mem_cons_of_mem _ hn), hparent, hnested⟩, ?_⟩, trivial⟩
        intro g hg
        cases hg
        exact ⟨hcwd, hall name List.mem_cons_self hskip⟩
      · rw [hall name List.mem_cons_self] at hskip
        cases hskip

/-- A call that keeps the current directory of its caller keeps the calls in place. -/
theorem aligned_of_call (h : Aligned fs opts s) (hkeeps : Keeps fs opts uninit s) {dirname path : Bytes}
    (hmode : s.mode = .call dirname path) (heffect : Effect fs opts uninit s e t) :
    Aligned fs opts t ∧ e.Disciplined := by
  unfold Aligned at h
  unfold Keeps at hkeeps
  rw [hmode] at h hkeeps
  obtain ⟨hnested, hcaller⟩ := h
  have hreturns (hup : s.stack = [] ∨ fs.up s.cwd = s.cwd) : Returns fs s.cwd s.stack := by
    intro g hg
    rcases hup with hnil | hup
    · rw [hnil] at hg
      cases hg
    · rw [hup]
      exact (hcaller g hg).1
  cases heffect with
  | leave hmode' | skip hmode' | recurse _ hmode' | back hmode' =>
      rw [hmode] at hmode'
      cases hmode'
  | accessError _ hmode' hopen =>
      obtain ⟨rfl, rfl⟩ := Mode.call.inj (hmode.symm.trans hmode')
      simp only [hopen] at hkeeps
      exact ⟨⟨hreturns hkeeps, hnested⟩, trivial⟩
  | fault => exact ⟨trivial, trivial⟩
  | @list _ _ listed cwd entries _ _ hmode' hopen hcwd =>
      obtain ⟨rfl, rfl⟩ := Mode.call.inj (hmode.symm.trans hmode')
      simp only [hopen] at hkeeps
      obtain ⟨hresolve, o, hnode⟩ := FileTree.opendir_eq_some hopen
      refine ⟨?_, trivial⟩
      cases hchdir : fs.chdir s.cwd dirname with
      | some p =>
          obtain ⟨henter, hp⟩ := FileTree.canEnter_of_chdir hchdir
          obtain rfl : listed = p := Option.some.inj (hresolve.symm.trans hp)
          rw [hchdir, Option.getD_some] at hcwd
          refine .inl ⟨hcwd, henter, ?_, ?_, hnested⟩
          · rw [hcwd]
            exact fun n hn => enterable_of_mem_subdirs hnode henter hn
          · intro g hg
            obtain ⟨hg₁, hg₂⟩ := hcaller g hg
            rw [← hg₁] at hg₂
            rw [Option.some.inj (hresolve.symm.trans hg₂), List.dropLast_concat, ← hg₁]
      | none =>
          rw [hchdir, Option.getD_none] at hcwd
          rcases hkeeps with hkeeps | ⟨hall, hup⟩
          · exact absurd hchdir hkeeps
          · rw [hcwd]
            exact .inr ⟨hall, hreturns hup, hnested⟩

/-- What a step that keeps the current directory of the callers preserves. -/
theorem aligned_of_step (h : Aligned fs opts s) (hkeeps : Keeps fs opts uninit s)
    (hstep : Step fs opts uninit s e t) : Aligned fs opts t ∧ e.Disciplined := by
  have heffect := effect_of_step hstep
  cases hmode : s.mode with
  | call dirname path => exact aligned_of_call h hkeeps hmode heffect
  | loop => exact aligned_of_loop h hmode heffect
  | back =>
      unfold Aligned at h
      rw [hmode] at h
      cases heffect with
      | accessError _ hmode' | fault hmode' | list _ _ hmode' | leave hmode' | skip hmode' | recurse _ hmode' =>
          rw [hmode] at hmode'
          cases hmode'
      | back _ hstack =>
          rw [hstack] at h
          have hcwd := h.1 _ rfl
          exact ⟨.inl ⟨hcwd, h.2⟩, hcwd⟩
  | fault =>
      rw [Step, State.next, hmode] at hstep
      cases hstep

/-! ### Calls that have lost their directory -/

/-- The next `chdir("..")` of some call will not lead to the directory that it lists, or the process has
failed before: a directory that could not be entered is listed, and there is something below it to visit. -/
inductive Doomed (fs : FileTree) (opts : Options) (s : State) : Prop where
  | fault : s.mode = .fault → Doomed fs opts s
  | back : s.mode = .back → ¬ Returns fs s.cwd s.stack → Doomed fs opts s
  | leave {f : Frame} {stack : List Frame} : s.mode = .loop → s.stack = f :: stack →
      (∀ n ∈ f.rest, skipped opts n = true) → ¬ Returns fs s.cwd stack → Doomed fs opts s
  | locked (above : List Frame) {f : Frame} {below : List Frame} : s.stack = above ++ f :: below →
      fs.canEnter f.listed = false →
      (above = [] → s.mode = .loop → ∃ n ∈ f.rest, skipped opts n = false) → Doomed fs opts s

theorem doomed_above {g f : Frame} {above below : List Frame} (hstack : s.stack = g :: above ++ f :: below)
    (hlocked : fs.canEnter f.listed = false) : Doomed fs opts s :=
  .locked (g :: above) hstack hlocked fun hnil => by cases hnil

theorem not_doomed_of_finished (h : s.finished) : ¬ Doomed fs opts s := by
  obtain ⟨hmode, hstack⟩ := h
  intro hdoomed
  cases hdoomed with
  | fault hmode' | leave hmode' =>
      rw [hmode] at hmode'
      cases hmode'
  | back _ hreturns =>
      refine hreturns fun g hg => ?_
      rw [hstack] at hg
      cases hg
  | locked above hstack' =>
      rw [hstack] at hstack'
      simp at hstack'

/-- The current directory can be entered. -/
theorem canEnter_step (h : fs.canEnter s.cwd = true) (heffect : Effect fs opts uninit s e t) :
    fs.canEnter t.cwd = true := by
  cases heffect with
  | accessError | fault | leave | skip | recurse => exact h
  | @list dirname _ _ cwd _ _ _ _ _ hcwd =>
      dsimp only
      rw [hcwd]
      cases hchdir : fs.chdir s.cwd dirname with
      | none => exact h
      | some p => exact (FileTree.canEnter_of_chdir hchdir).1
  | back =>
      have hcases : fs.up s.cwd = s.cwd ∨ fs.canEnter (fs.up s.cwd) = true := FileTree.up_cases s.cwd
      rcases hcases with hup | hup
      · dsimp only
        rw [hup]
        exact h
      · exact hup

/-- A call that does not keep the current directory of its caller. -/
theorem doomed_of_not_keeps (h : Aligned fs opts s) (hkeeps : ¬ Keeps fs opts uninit s)
    (heffect : Effect fs opts uninit s e t) : Doomed fs opts t := by
  unfold Keeps at hkeeps
  cases hmode : s.mode with
  | loop | back | fault =>
      rw [hmode] at hkeeps
      exact absurd trivial hkeeps
  | call dirname path =>
      unfold Aligned at h
      rw [hmode] at h hkeeps
      have hlost (hup : ¬ (s.stack = [] ∨ fs.up s.cwd = s.cwd)) : ¬ Returns fs s.cwd s.stack := by
        intro hreturns
        cases hstack : s.stack with
        | nil => exact hup (.inl hstack)
        | cons g stack =>
            have hg : g ∈ s.stack.head? := by rw [hstack]; rfl
            exact hup (.inr ((hreturns g hg).trans (h.2 g hg).1.symm))
      cases heffect with
      | leave hmode' | skip hmode' | recurse _ hmode' | back hmode' =>
          rw [hmode] at hmode'
          cases hmode'
      | accessError _ hmode' hopen =>
          obtain ⟨rfl, rfl⟩ := Mode.call.inj (hmode.symm.trans hmode')
          simp only [hopen] at hkeeps
          exact .back rfl (hlost hkeeps)
      | fault => exact .fault rfl
      | @list _ _ listed cwd entries _ _ hmode' hopen hcwd =>
          obtain ⟨rfl, rfl⟩ := Mode.call.inj (hmode.symm.trans hmode')
          simp only [hopen, not_or, not_not] at hkeeps
          obtain ⟨hchdir, hkeeps⟩ := hkeeps
          rw [hchdir, Option.getD_none] at hcwd
          subst hcwd
          have hlocked : fs.canEnter listed = false := by
            obtain ⟨hresolve, -⟩ := FileTree.opendir_eq_some hopen
            rw [FileTree.chdir_of_resolve hresolve] at hchdir
            by_contra hne
            rw [if_pos (Bool.eq_true_of_not_eq_false hne)] at hchdir
            cases hchdir
          by_cases hall : ∀ n ∈ s.subdirs fs opts uninit s.cwd entries, skipped opts n = true
          · exact .leave rfl rfl hall (hlost fun hup => hkeeps ⟨hall, hup⟩)
          · refine .locked [] rfl hlocked fun _ _ => ?_
            push Not at hall
            obtain ⟨n, hn, hskip⟩ := hall
            exact ⟨n, hn, Bool.eq_false_of_not_eq_true hskip⟩

/-- A directory that could not be entered stays in the list of the calls until a `chdir("..")` misses it. -/
theorem doomed_of_locked {above below : List Frame} {f : Frame} (hstack : s.stack = above ++ f :: below)
    (hlocked : fs.canEnter f.listed = false)
    (hpending : above = [] → s.mode = .loop → ∃ n ∈ f.rest, skipped opts n = false)
    (hcwd : fs.canEnter s.cwd = true) (heffect : Effect fs opts uninit s e t) :
    ¬ e.Disciplined ∨ Doomed fs opts t := by
  have henter := canEnter_step hcwd heffect
  cases heffect with
  | accessError =>
      refine .inr (.locked above hstack hlocked fun _ hmode => ?_)
      cases hmode
  | fault => exact .inr (.fault rfl)
  | list => exact .inr (doomed_above (congrArg _ hstack) hlocked)
  | leave hmode hstack' hrest =>
      rw [hstack'] at hstack
      cases above with
      | nil =>
          cases hstack
          obtain ⟨n, hn, -⟩ := hpending rfl hmode
          rw [hrest] at hn
          cases hn
      | cons _ above =>
          cases hstack
          refine .inr (.locked above rfl hlocked fun _ hmode => ?_)
          cases hmode
  | skip hmode hstack' hrest hskip =>
      rw [hstack'] at hstack
      cases above with
      | nil =>
          cases hstack
          refine .inr (.locked [] rfl hlocked fun _ _ => ?_)
          obtain ⟨n, hn, hn'⟩ := hpending rfl hmode
          rw [hrest] at hn
          rcases List.mem_cons.mp hn with rfl | hn
          · rw [hskip] at hn'
            cases hn'
          · exact ⟨n, hn, hn'⟩
      | cons _ above =>
          cases hstack
          exact .inr (doomed_above rfl hlocked)
  | recurse _ _ hstack' =>
      rw [hstack'] at hstack
      cases above with
      | nil =>
          cases hstack
          refine .inr (.locked [] rfl hlocked fun _ hmode => ?_)
          cases hmode
      | cons _ above =>
          cases hstack
          exact .inr (doomed_above rfl hlocked)
  | back _ hstack' =>
      rw [hstack'] at hstack
      cases above with
      | nil =>
          cases hstack
          refine .inl fun hback => ?_
          rw [Event.Disciplined] at hback
          rw [hback, hlocked] at henter
          cases henter
      | cons _ above =>
          cases hstack
          exact .inr (doomed_above rfl hlocked)

/-- A directory that has been lost is not found again before the `chdir("..")` that shows it. -/
theorem doomed_step (h : Doomed fs opts s) (hcwd : fs.canEnter s.cwd = true)
    (hstep : Step fs opts uninit s e t) : ¬ e.Disciplined ∨ Doomed fs opts t := by
  have heffect := effect_of_step hstep
  cases h with
  | fault hmode =>
      rw [Step, State.next, hmode] at hstep
      cases hstep
  | back hmode hreturns =>
      cases heffect with
      | accessError _ hmode' | fault hmode' | list _ _ hmode' | leave hmode' | skip hmode' | recurse _ hmode' =>
          rw [hmode] at hmode'
          cases hmode'
      | back _ hstack =>
          refine .inl fun hback => hreturns fun g hg => ?_
          rw [hstack] at hg
          cases hg
          exact hback
  | leave hmode hstack hall hreturns =>
      cases heffect with
      | accessError _ hmode' | fault hmode' | list _ _ hmode' | back hmode' =>
          rw [hmode] at hmode'
          cases hmode'
      | leave _ hstack' =>
          rw [hstack'] at hstack
          cases hstack
          exact .inr (.back rfl hreturns)
      | skip _ hstack' hrest =>
          rw [hstack'] at hstack
          cases hstack
          rw [hrest] at hall
          exact .inr (.leave hmode rfl (fun n hn => hall n (List.mem_cons_of_mem _ hn)) hreturns)
      | recurse _ _ hstack' hrest hskip =>
          rw [hstack'] at hstack
          cases hstack
          rw [hall _ (by rw [hrest]; exact List.mem_cons_self)] at hskip
          cases hskip
  | locked above hstack hlocked hpending => exact doomed_of_locked hstack hlocked hpending hcwd heffect

/-! ### Runs -/

section Runs

variable (fs opts uninit) (cwd : Path) (root : Bytes)

theorem aligned_start : Aligned fs opts (.start cwd root) := by
  refine ⟨trivial, fun f hf => ?_⟩
  cases hf

/-- Calls that keep the current directory of their callers. -/
theorem disciplined_of_keeps {tr : List Event}
    (h : Run (Restrict (Step fs opts uninit) fun s _ => Keeps fs opts uninit s) (.start cwd root) tr s) :
    Aligned fs opts s ∧ ∀ e ∈ tr, e.Disciplined := by
  induction h with
  | nil => exact ⟨aligned_start fs opts cwd root, List.forall_mem_nil _⟩
  | snoc _ hlast ih =>
      obtain ⟨haligned, hall⟩ := ih
      obtain ⟨hnext, hevent⟩ := aligned_of_step haligned hlast.2 hlast.1
      refine ⟨hnext, fun e he => ?_⟩
      rcases List.mem_append.mp he with he | he
      · exact hall e he
      · rw [List.mem_singleton.mp he]
        exact hevent

/-- Once a call has not kept the current directory of its caller, that caller is doomed. -/
theorem keeps_or_doomed {tr : List Event} (hcwd : fs.canEnter cwd = true)
    (h : Run (Step fs opts uninit) (.start cwd root) tr s) (hall : ∀ e ∈ tr, e.Disciplined) :
    fs.canEnter s.cwd = true ∧
      (Run (Restrict (Step fs opts uninit) fun s _ => Keeps fs opts uninit s) (.start cwd root) tr s ∨
        Doomed fs opts s) := by
  induction h with
  | nil => exact ⟨hcwd, .inl .nil⟩
  | @snoc tr e s t hrun hstep ih =>
      obtain ⟨henter, hcases⟩ := ih fun e he => hall e (List.mem_append_left _ he)
      have heffect := effect_of_step hstep
      refine ⟨canEnter_step henter heffect, ?_⟩
      rcases hcases with hkeeps | hdoomed
      · by_cases hs : Keeps fs opts uninit s
        · exact .inl (hkeeps.snoc ⟨hstep, hs⟩)
        · exact .inr (doomed_of_not_keeps (disciplined_of_keeps _ _ _ _ _ hkeeps).1 hs heffect)
      · rcases doomed_step hdoomed henter hstep with hbad | hdoomed
        · exact absurd (hall e (List.mem_append_right _ List.mem_cons_self)) hbad
        · exact .inr hdoomed

/-- **The current directory of the caller.** In a run whose calls all keep the current directory of their
callers, every `chdir("..")` leads to the directory that the caller lists. The calls of any other run that
comes to its end have lost it at some `chdir("..")`. -/
theorem currentDirectory_iff :
    (∀ tr s, Run (Restrict (Step fs opts uninit) fun s _ => Keeps fs opts uninit s) (.start cwd root) tr s →
      ∀ e ∈ tr, e.Disciplined) ∧
    (fs.canEnter cwd = true → ∀ tr s, Run (Step fs opts uninit) (.start cwd root) tr s → s.finished →
      ((∀ e ∈ tr, e.Disciplined) ↔
        Run (Restrict (Step fs opts uninit) fun s _ => Keeps fs opts uninit s) (.start cwd root) tr s)) := by
  refine ⟨fun tr s h => (disciplined_of_keeps fs opts uninit cwd root h).2,
    fun hcwd tr s h hfinished => ⟨fun hall => ?_, fun h => (disciplined_of_keeps fs opts uninit cwd root h).2⟩⟩
  rcases (keeps_or_doomed fs opts uninit cwd root hcwd h hall).2 with hkeeps | hdoomed
  · exact hkeeps
  · exact absurd hdoomed (not_doomed_of_finished hfinished)

end Runs

instance (s : State) : Decidable (Keeps fs opts uninit s) :=
  match hmode : s.mode with
  | .call dirname _ =>
      match hopen : fs.opendir s.cwd dirname with
      | none => decidable_of_iff (s.stack = [] ∨ fs.up s.cwd = s.cwd)
          (by rw [Keeps, hmode]; dsimp only; rw [hopen])
      | some (_, entries) => decidable_of_iff
          (fs.chdir s.cwd dirname ≠ none ∨
            (∀ n ∈ s.subdirs fs opts uninit s.cwd entries, skipped opts n = true) ∧
              (s.stack = [] ∨ fs.up s.cwd = s.cwd)) (by rw [Keeps, hmode]; dsimp only; rw [hopen])
  | .loop | .back | .fault => .isTrue (by rw [Keeps, hmode]; trivial)

/-- A directory `t` with the subdirectories `a` and `b`, and `a` with a subdirectory `c`. -/
def openTable : List (Path × Node) :=
  [([], .dir true true [dot, dotdot, ascii "t"]),
    ([ascii "t"], .dir true true [dot, dotdot, ascii "a", ascii "b"]),
    ([ascii "t", ascii "a"], .dir true true [dot, dotdot, ascii "c"]),
    ([ascii "t", ascii "a", ascii "c"], .dir true true [dot, dotdot]),
    ([ascii "t", ascii "b"], .dir true true [dot, dotdot])]

theorem openTable_ok : FileTree.TableOk openTable 3 where
  length := by decide
  parent := by decide
  child := by decide

def openTree : FileTree := FileTree.ofTable openTable 3 openTable_ok

theorem currentDirectory_kept : ∃ tr s,
    Run (Step openTree recursive fun _ => false) (.start [] (ascii "t")) tr s ∧ s.finished ∧
      .back [ascii "t", ascii "a"] [ascii "t", ascii "a"] ∈ tr ∧ .recurse (ascii "b") ∈ tr ∧
      ∀ e ∈ tr, e.Disciplined := by
  have hreplay : (replay (checked (fun (s : State) (_ : Unit) => s.next openTree recursive fun _ => false)
      fun s _ => Keeps openTree recursive (fun _ => false) s)
      (State.start [] (ascii "t")) (List.replicate 22 ())).map (fun r => (r.1.mode, r.1.stack.length,
        decide (Event.back [ascii "t", ascii "a"] [ascii "t", ascii "a"] ∈ r.2),
        decide (Event.recurse (ascii "b") ∈ r.2))) = some (Mode.back, 0, true, true) := by
    decide +kernel
  obtain ⟨⟨s, tr⟩, hreplayed, hfacts⟩ := Option.map_eq_some_iff.mp hreplay
  simp only [Prod.mk.injEq, decide_eq_true_eq, List.length_eq_zero_iff] at hfacts
  obtain ⟨hmode, hstack, hback, hb⟩ := hfacts
  have hkeeps : Run (Restrict (Step openTree recursive fun _ => false) fun s _ =>
      Keeps openTree recursive (fun _ => false) s) (.start [] (ascii "t")) tr s :=
    Run.of_replay_checked (fun s _ t e h => by exact h) hreplayed
  have hall := (currentDirectory_iff openTree recursive (fun _ => false) [] (ascii "t")).1 tr s hkeeps
  exact ⟨tr, s, hkeeps.of_restrict, ⟨hmode, hstack⟩, hback, hb, hall⟩

/-- A directory `t` with a subdirectory `a` that cannot be read and a subdirectory `b` that can. -/
def lockedTable : List (Path × Node) :=
  [([], .dir true true [dot, dotdot, ascii "t"]),
    ([ascii "t"], .dir true true [dot, dotdot, ascii "a", ascii "b"]),
    ([ascii "t", ascii "a"], .dir false true []),
    ([ascii "t", ascii "b"], .dir true true [dot, dotdot])]

theorem lockedTable_ok : FileTree.TableOk lockedTable 2 where
  length := by decide
  parent := by decide
  child := by decide

def lockedTree : FileTree := FileTree.ofTable lockedTable 2 lockedTable_ok

/-- After the unreadable `a` the current directory is the parent of `t`, and the readable `b` is reported
as one that cannot be accessed. -/
theorem currentDirectory_lost : ∃ tr s,
    Run (Step lockedTree recursive fun _ => false) (.start [] (ascii "t")) tr s ∧ s.finished ∧
      .back [ascii "t"] [] ∈ tr ∧ .accessError (ascii "b") ∈ tr ∧
      lockedTree.opendir [ascii "t"] (ascii "b") = some ([ascii "t", ascii "b"], [dot, dotdot]) ∧
      ¬ ∀ e ∈ tr, e.Disciplined := by
  have hreplay : (replay (fun (s : State) (_ : Unit) => s.next lockedTree recursive fun _ => false)
      (State.start [] (ascii "t")) (List.replicate 10 ())).map (fun r => (r.1.mode, r.1.stack.length,
        decide (Event.back [ascii "t"] [] ∈ r.2), decide (Event.accessError (ascii "b") ∈ r.2))) =
      some (Mode.back, 0, true, true) := by
    decide +kernel
  obtain ⟨⟨s, tr⟩, hreplayed, hfacts⟩ := Option.map_eq_some_iff.mp hreplay
  simp only [Prod.mk.injEq, decide_eq_true_eq, List.length_eq_zero_iff] at hfacts
  obtain ⟨hmode, hstack, hback, hb⟩ := hfacts
  have hrun : Run (Step lockedTree recursive fun _ => false) (.start [] (ascii "t")) tr s :=
    Run.of_replay (fun s _ t e h => by exact h) hreplayed
  refine ⟨tr, s, hrun, ⟨hmode, hstack⟩, hback, hb, by decide +kernel, fun hall => ?_⟩
  have hlost : ([] : Path) = [ascii "t"] := hall _ hback
  cases hlost

end SmallTrial.Listing
