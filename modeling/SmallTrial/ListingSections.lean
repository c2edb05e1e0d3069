import SmallTrial.ListingModel
import SmallTrial.TreePreorder

/-! The sections that `myls -R` prints when every directory below the argument can be opened and entered
and the buffers are large enough: one for each directory that is not hidden, in pre-order. -/

namespace SmallTrial.Listing

open Text Files Transition

/-- A name that is listed below its directory: not `.` or `..`, and hidden ones only with `-a` or `-A`. -/
def visible (opts : Options) (name : Bytes) : Bool :=
  name ≠ dot && name ≠ dotdot && (name.head? ≠ some 46 || opts.a || opts.A)

/-- The names in a directory, in the order of `readdir`. -/
def entriesOf (fs : FileTree) (p : Path) : List Bytes := ((fs.node p).bind Node.entries?).getD []

def isRealDir (fs : FileTree) (p : Path) : Bool := ((fs.node p).map Node.isDir).getD false

/-- The directories below `r` are named by the names on the way to them. -/
def children (fs : FileTree) (opts : Options) (r : Path) (names : List Bytes) : List (List Bytes) :=
  ((entriesOf fs (r ++ names)).filter fun n => visible opts n && isRealDir fs (r ++ names ++ [n])).map
    fun n => names ++ [n]

def withSlash (text : Bytes) : Bytes := if text.getLast? = some 47 then text else text ++ [47]

/-- The header of a section: the argument and the names, joined by single slashes. -/
def header (root : Bytes) (names : List Bytes) : Bytes :=
  if names = [] then root else withSlash root ++ [47].intercalate names

/-- The section of a directory. -/
def sectionOf (fs : FileTree) (root : Bytes) (r : Path) (names : List Bytes) : List Token :=
  put (header root names ++ ascii ":\n") ++
    .files (r ++ names) (entriesOf fs (r ++ names)) :: put (ascii "\n")

/-- The directories that are to be listed, in pre-order. -/
def visits (fs : FileTree) (opts : Options) (r : Path) : List (List Bytes) :=
  Tree.preorder (children fs opts r) (fs.height + 1) []

/-- Every directory that is to be listed can be opened and entered, only `..` starts with `..`, and the
buffers are large enough. -/
structure Listable (fs : FileTree) (opts : Options) (cwd : Path) (root : Bytes) (r : Path) : Prop where
  resolve : fs.resolve cwd root = some r
  dir : ∀ names, Tree.Below (children fs opts r) [] names →
    ∃ entries, fs.node (r ++ names) = some (.dir true true entries) ∧ entries.length ≤ maxFileNum ∧
      (∀ n ∈ entries, dotdot <+: n → n = dotdot) ∧
      (withSlash (header root names)).length < maxFileName

variable {fs : FileTree} {opts : Options} {uninit : State → Bool} {cwd r : Path} {root : Bytes}

/-! ### The tree of the sections -/

theorem entriesOf_dir {p : Path} {o e : Bool} {entries : List Bytes}
    (h : fs.node p = some (.dir o e entries)) : entriesOf fs p = entries := by
  rw [entriesOf, h, Option.bind_some, Node.entries?, Option.getD_some]

theorem isRealDir_iff {p : Path} :
    isRealDir fs p = true ↔ ∃ o e entries, fs.node p = some (.dir o e entries) := by
  unfold isRealDir
  constructor
  · intro h
    cases hnode : fs.node p with
    | none =>
        rw [hnode] at h
        cases h
    | some node =>
        rw [hnode] at h
        cases node with
        | file | link => cases h
        | dir o e entries => exact ⟨o, e, entries, rfl⟩
  · rintro ⟨o, e, entries, hnode⟩
    rw [hnode]
    rfl

theorem mem_children {names child : List Bytes} :
    child ∈ children fs opts r names ↔ ∃ n ∈ entriesOf fs (r ++ names),
      (visible opts n = true ∧ isRealDir fs (r ++ names ++ [n]) = true) ∧ names ++ [n] = child := by
  simp only [children, List.mem_map, List.mem_filter, Bool.and_eq_true, and_assoc]

theorem length_lt_of_mem_children (names : List Bytes) :
    ∀ child ∈ children fs opts r names, names.length < child.length := by
  intro child h
  obtain ⟨n, -, -, rfl⟩ := mem_children.mp h
  rw [List.length_append, List.length_singleton]
  exact Nat.lt_succ_self _

theorem parent_unique (names names' child : List Bytes) (h : child ∈ children fs opts r names)
    (h' : child ∈ children fs opts r names') : names = names' := by
  obtain ⟨n, -, -, rfl⟩ := mem_children.mp h
  obtain ⟨n', -, -, heq⟩ := mem_children.mp h'
  exact (List.append_inj' heq rfl).1.symm

theorem entriesOf_eq_nil {p : Path} (h : ¬ isRealDir fs p = true) : entriesOf fs p = [] := by
  unfold isRealDir at h
  unfold entriesOf
  cases hnode : fs.node p with
  | none => rfl
  | some node =>
      cases node with
      | file | link => rfl
      | dir => exact absurd (by rw [hnode]; rfl) h

theorem nodup_entriesOf (p : Path) : (entriesOf fs p).Nodup := by
  by_cases h : isRealDir fs p = true
  · obtain ⟨o, e, entries, hnode⟩ := isRealDir_iff.mp h
    rw [entriesOf_dir hnode]
    exact fs.nodup p o e entries hnode
  · rw [entriesOf_eq_nil h]
    exact List.nodup_nil

theorem nodup_children (names : List Bytes) : (children fs opts r names).Nodup :=
  ((nodup_entriesOf _).filter _).map fun _ _ h => List.singleton_injective (List.append_cancel_left h)

/-- No directory has two sections. -/
theorem nodup_visits : (visits fs opts r).Nodup :=
  Tree.nodup_preorder length_lt_of_mem_children parent_unique nodup_children _ _

namespace Listable

variable (h : Listable fs opts cwd root r)

include h

theorem length_le {names : List Bytes} (hnames : Tree.Below (children fs opts r) [] names) :
    (r ++ names).length ≤ fs.height := by
  obtain ⟨entries, hnode, -⟩ := h.dir names hnames
  exact fs.length_le _ (hnode ▸ Option.some_ne_none _)

/-- The sections are those of the directories reached through visible subdirectories. -/
theorem mem_visits {names : List Bytes} :
    names ∈ visits fs opts r ↔ Tree.Below (children fs opts r) [] names := by
  refine ⟨Tree.below_of_mem, fun hnames => ?_⟩
  have hlen := h.length_le hnames
  rw [List.length_append] at hlen
  exact Tree.mem_preorder length_lt_of_mem_children (Nat.le_of_add_left_le hlen)
    (by rw [List.length_nil]; omega) hnames

end Listable

/-! ### Headers -/

theorem put_append (a b : Bytes) : put (a ++ b) = put a ++ put b := List.map_append

theorem intercalate_concat {names : List Bytes} (hne : names ≠ []) (n : Bytes) :
    [47].intercalate (names ++ [n]) = [47].intercalate names ++ 47 :: n := by
  induction names with
  | nil => exact absurd rfl hne
  | cons a names ih =>
      cases names with
      | nil => simp
      | cons b names =>
          have hcons := ih (List.cons_ne_nil b names)
          rw [List.cons_append, List.intercalate_cons_of_ne_nil (by simp), hcons,
            List.intercalate_cons_of_ne_nil (List.cons_ne_nil b names)]
          simp only [List.append_assoc]

/-- A header ends in the last name. -/
theorem header_suffix (names : List Bytes) (n : Bytes) : n <:+ header root (names ++ [n]) := by
  rw [header, if_neg (by simp)]
  by_cases hne : names = []
  · rw [hne, List.nil_append, List.intercalate_singleton]
    exact List.suffix_append _ _
  · rw [intercalate_concat hne, ← List.append_assoc, List.append_cons]
    exact List.suffix_append _ _

/-- The header of a subdirectory. -/
theorem header_concat {names : List Bytes} (hnames : ∀ n ∈ names, n ≠ [] ∧ 47 ∉ n) (n : Bytes) :
    header root (names ++ [n]) = withSlash (header root names) ++ n := by
  rcases List.eq_nil_or_concat names with rfl | ⟨init, last, rfl⟩
  · rw [List.nil_append, header, if_neg (List.cons_ne_nil n []), List.intercalate_singleton, header,
      if_pos rfl]
  · rw [List.concat_eq_append] at hnames ⊢
    obtain ⟨hne, hslash⟩ := hnames last (List.mem_append_right _ List.mem_cons_self)
    have hsuffix : last <:+ header root (init ++ [last]) := header_suffix init last
    obtain ⟨text, htext⟩ := hsuffix
    have hlast : (header root (init ++ [last])).getLast? ≠ some 47 := by
      rw [← htext, List.getLast?_append_of_ne_nil _ hne]
      exact fun h => hslash (List.mem_of_getLast? h)
    rw [withSlash, if_neg hlast, header, if_neg (by simp), header, if_neg (by simp),
      intercalate_concat (by simp)]
    simp only [List.append_assoc, List.singleton_append]

theorem names_of_below {names : List Bytes} (h : Tree.Below (children fs opts r) [] names) :
    ∀ n ∈ names, n ≠ [] ∧ 47 ∉ n := by
  induction h with
  | refl => exact List.forall_mem_nil _
  | @tail names child _ hchild ih =>
      obtain ⟨n, hn, -, rfl⟩ := mem_children.mp hchild
      have hname : n ≠ [] ∧ 47 ∉ n := by
        by_cases hdir : isRealDir fs (r ++ names) = true
        · obtain ⟨o, e, entries, hnode⟩ := isRealDir_iff.mp hdir
          rw [entriesOf_dir hnode] at hn
          obtain ⟨hne, hslash, -⟩ := fs.name _ o e entries hnode n hn
          exact ⟨hne, hslash⟩
        · rw [entriesOf_eq_nil hdir] at hn
          cases hn
      intro m hm
      rcases List.mem_append.mp hm with hm | hm
      · exact ih m hm
      · rw [List.mem_singleton.mp hm]
        exact hname

/-! ### The subdirectories -/

/-- Only `..` starts with `..`: the loop skips what is not visible. -/
theorem skipped_eq {n : Bytes} (hdots : dotdot <+: n → n = dotdot) : skipped opts n = !visible opts n := by
  match n with
  | [] => rfl
  | c :: rest =>
      by_cases hc : c = 46
      · subst hc
        match rest with
        | [] => rfl
        | d :: rest =>
            by_cases hd : d = 46
            · subst hd
              have hrest := hdots ⟨rest, rfl⟩
              rw [hrest]
              rfl
            · simp [skipped, visible, hd, dot, dotdot]
      · have hskip : skipped opts (c :: rest) = false := by
          unfold skipped
          split
          · rename_i heq
            exact absurd (List.cons.inj heq).1 hc
          · rfl
        rw [hskip]
        simp [visible, hc, dot, dotdot]

/-- The names that `lstat` finds to be directories. -/
def candidates (fs : FileTree) (p : Path) : List Bytes :=
  (entriesOf fs p).filter fun n => ((fs.lstat p n).map Node.isDir).getD false

theorem ne_dots_of_visible {n : Bytes} (h : visible opts n = true) : n ≠ dot ∧ n ≠ dotdot := by
  simp only [visible, Bool.and_eq_true, decide_eq_true_eq, ne_eq] at h
  exact h.1

/-- A visible name is looked up in the directory itself. -/
theorem lstat_visible {p : Path} (hp : fs.canEnter p = true) {n : Bytes} (hn : visible opts n = true) :
    ((fs.lstat p n).map Node.isDir).getD false = isRealDir fs (p ++ [n]) := by
  obtain ⟨hdot, hdotdot⟩ := ne_dots_of_visible hn
  rw [FileTree.lstat, if_pos hp, if_neg hdot, if_neg hdotdot, isRealDir]

theorem candidates_visible {p : Path} (hp : fs.canEnter p = true) :
    (candidates fs p).filter (visible opts) =
      (entriesOf fs p).filter fun n => visible opts n && isRealDir fs (p ++ [n]) := by
  rw [candidates, List.filter_filter]
  refine List.filter_congr fun n _ => ?_
  cases hn : visible opts n with
  | false => rw [Bool.false_and, Bool.false_and]
  | true => rw [lstat_visible hp hn]

theorem parentPath_eq {path dirname : Bytes} (subdirs : List Bytes)
    (h : (withSlash (path ++ dirname)).length < maxFileName) :
    parentPath path dirname subdirs = some (if subdirs = [] then path else withSlash (path ++ dirname)) := by
  unfold parentPath strcat
  generalize path ++ dirname = text at h ⊢
  unfold withSlash at h ⊢
  split
  · rfl
  · by_cases hlast : text.getLast? = some 47
    · rw [if_pos hlast] at h ⊢
      simp [h, hlast]
    · rw [if_neg hlast] at h ⊢
      have hlt : text.length < maxFileName := by
        rw [List.length_append] at h
        omega
      have hslash : ascii "/" = [47] := rfl
      rw [if_pos hlt, Option.bind_eq_bind, Option.bind_some, if_neg hlast, hslash, if_pos h]

/-! ### Runs -/

theorem step_deterministic {s t t' : State} {e e' : Event} (h : Step fs opts uninit s e t)
    (h' : Step fs opts uninit s e' t') : e = e' ∧ t = t' := by
  unfold Step at h h'
  rw [h] at h'
  cases h'
  exact ⟨rfl, rfl⟩

theorem not_step_of_finished {s : State} (h : s.finished) (e : Event) (t : State) :
    ¬ Step fs opts uninit s e t := by
  obtain ⟨hmode, hstack⟩ := h
  rw [Step, State.next, hmode, hstack]
  rintro ⟨⟩

/-- From the call on, the sections of a directory and of those below it are printed, and the current
directory is that directory when the call returns. -/
def Prints (fs : FileTree) (opts : Options) (uninit : State → Bool) (root : Bytes) (r : Path) (k : Nat)
    (names : List Bytes) : Prop :=
  ∀ cwd dirname path stack out, fs.resolve cwd dirname = some (r ++ names) →
    path ++ dirname = header root names → path.length < maxFileName →
    Reachable (Step fs opts uninit) ⟨cwd, .call dirname path, stack, out ++ put path⟩
      ⟨r ++ names, .back, stack,
        out ++ (Tree.preorder (children fs opts r) k names).flatMap (sectionOf fs root r)⟩

namespace Listable

variable (h : Listable fs opts cwd root r) (hR : opts.R = true)

include h hR

/-- What the call does before its last loop. -/
theorem step_call {names : List Bytes} (hnames : Tree.Below (children fs opts r) [] names)
    {cwd' : Path} {dirname path : Bytes} (stack : List Frame) (out : List Token)
    (hresolve : fs.resolve cwd' dirname = some (r ++ names)) (hpath : path ++ dirname = header root names)
    (hlen : path.length < maxFileName) :
    ∃ path', (candidates fs (r ++ names) ≠ [] → path' = withSlash (header root names)) ∧
      Step fs opts uninit ⟨cwd', .call dirname path, stack, out ++ put path⟩
        (.list (r ++ names) (r ++ names))
        ⟨r ++ names, .loop, ⟨r ++ names, path', candidates fs (r ++ names)⟩ :: stack,
          out ++ sectionOf fs root r names⟩ := by
  obtain ⟨entries, hnode, hnum, -, hroom⟩ := h.dir names hnames
  rw [← hpath] at hroom
  have henter : fs.canEnter (r ++ names) = true := FileTree.canEnter_of_node hnode
  have hcollect (dir : Bool) : collect fs (r ++ names) dir entries = candidates fs (r ++ names) := by
    rw [candidates, entriesOf_dir hnode]
    exact collect_eq (fun n hn => FileTree.lstat_entry hnode hn) dir
  refine ⟨if candidates fs (r ++ names) = [] then path else withSlash (header root names),
    fun hne => if_neg hne, ?_⟩
  simp only [Step, State.next, State.call, FileTree.opendir_of_node hresolve hnode, hlen, hnum, and_self,
    if_true, FileTree.chdir_of_resolve hresolve, henter,
    Option.getD_some, State.subdirs, hR, hcollect, parentPath_eq _ hroom, sectionOf,
    entriesOf_dir hnode, ← hpath, put_append, List.append_assoc]

omit hR

/-- One iteration of the loop over a visible name. -/
theorem child_prints {k : Nat} {names : List Bytes} (hnames : Tree.Below (children fs opts r) [] names)
    {n : Bytes} (hchild : names ++ [n] ∈ children fs opts r names)
    (ih : Prints fs opts uninit root r k (names ++ [n])) {path : Bytes}
    (hpath : path = withSlash (header root names)) (stack : List Frame) (rest : List Bytes)
    (out : List Token) :
    Reachable (Step fs opts uninit) ⟨r ++ names, .loop, ⟨r ++ names, path, n :: rest⟩ :: stack, out⟩
      ⟨r ++ names, .loop, ⟨r ++ names, path, rest⟩ :: stack,
        out ++ (Tree.preorder (children fs opts r) k (names ++ [n])).flatMap (sectionOf fs root r)⟩ := by
  obtain ⟨entries, hnode, -, hdots, hroom⟩ := h.dir names hnames
  obtain ⟨_, hnode', -⟩ := h.dir _ (hnames.child hchild)
  obtain ⟨m, hm, ⟨hvisible, -⟩, heq⟩ := mem_children.mp hchild
  obtain rfl : m = n := List.singleton_injective (List.append_cancel_left heq)
  rw [entriesOf_dir hnode] at hm
  obtain ⟨hname, hslash, -⟩ := fs.name _ _ _ entries hnode m hm
  obtain ⟨hdot, hdotdot⟩ := ne_dots_of_visible hvisible
  have henter : fs.canEnter (r ++ names) = true := FileTree.canEnter_of_node hnode
  have hskip : skipped opts m = false := by rw [skipped_eq (hdots m hm), hvisible, Bool.not_true]
  have hresolve : fs.resolve (r ++ names) m = some (r ++ (names ++ [m])) := by
    rw [← List.append_assoc] at hnode' ⊢
    exact FileTree.resolve_dir hname hslash hdot hdotdot henter hnode'
  have hheader : path ++ m = header root (names ++ [m]) := by
    rw [header_concat (names_of_below hnames), hpath]
  have hup : fs.up (r ++ (names ++ [m])) = r ++ names := by
    rw [← List.append_assoc] at hnode' ⊢
    have hdrop : (r ++ names ++ [m]).dropLast = r ++ names := List.dropLast_concat
    rw [FileTree.up_eq (FileTree.canEnter_of_node hnode') (by rw [hdrop]; exact henter), hdrop]
  have hcall : Step fs opts uninit ⟨r ++ names, .loop, ⟨r ++ names, path, m :: rest⟩ :: stack, out⟩
      (.recurse m) ⟨r ++ names, .call m path, ⟨r ++ names, path, rest⟩ :: stack, out ++ put path⟩ := by
    simp [Step, State.next, State.loop, hskip]
  have hprints := ih (r ++ names) m path (⟨r ++ names, path, rest⟩ :: stack) out hresolve hheader
    (by rw [hpath]; exact hroom)
  have hback (out' : List Token) : Step fs opts uninit
      ⟨r ++ (names ++ [m]), .back, ⟨r ++ names, path, rest⟩ :: stack, out'⟩
      (.back (r ++ names) (r ++ names)) ⟨r ++ names, .loop, ⟨r ++ names, path, rest⟩ :: stack, out'⟩ := by
    simp only [Step, State.next, hup]
  exact ((Reachable.single hcall).trans hprints).trans (Reachable.single (hback _))

/-- The loop of the recursion prints the sections of the visible subdirectories. -/
theorem loop_prints {k : Nat} {names : List Bytes} (hnames : Tree.Below (children fs opts r) [] names)
    (ih : ∀ child ∈ children fs opts r names, Prints fs opts uninit root r k child) {path : Bytes}
    (stack : List Frame) {rest : List Bytes} (hrest : ∀ n ∈ rest, n ∈ candidates fs (r ++ names))
    (hpath : rest ≠ [] → path = withSlash (header root names)) (out : List Token) :
    Reachable (Step fs opts uninit) ⟨r ++ names, .loop, ⟨r ++ names, path, rest⟩ :: stack, out⟩
      ⟨r ++ names, .loop, ⟨r ++ names, path, []⟩ :: stack,
        out ++ ((rest.filter (visible opts)).flatMap fun n =>
          (Tree.preorder (children fs opts r) k (names ++ [n])).flatMap (sectionOf fs root r))⟩ := by
  obtain ⟨entries, hnode, -, hdots, -⟩ := h.dir names hnames
  induction rest generalizing out with
  | nil =>
      rw [List.filter_nil, List.flatMap_nil, List.append_nil]
      exact Run.nil.reachable
  | cons n rest ihrest =>
      have htail := ihrest (fun m hm => hrest m (List.mem_cons_of_mem _ hm))
        fun _ => hpath (List.cons_ne_nil _ _)
      obtain ⟨hn, hdir⟩ := List.mem_filter.mp (hrest n List.mem_cons_self)
      rw [entriesOf_dir hnode] at hn
      cases hvisible : visible opts n with
      | false =>
          have hskip : skipped opts n = true := by rw [skipped_eq (hdots n hn), hvisible, Bool.not_false]
          have hstep : Step fs opts uninit
              ⟨r ++ names, .loop, ⟨r ++ names, path, n :: rest⟩ :: stack, out⟩ (.skip n)
              ⟨r ++ names, .loop, ⟨r ++ names, path, rest⟩ :: stack, out⟩ := by
            simp [Step, State.next, State.loop, hskip]
          rw [List.filter_cons_of_neg (by rw [hvisible]; exact Bool.false_ne_true)]
          exact (Reachable.single hstep).trans (htail out)
      | true =>
          rw [lstat_visible (FileTree.canEnter_of_node hnode) hvisible] at hdir
          have hchild : names ++ [n] ∈ children fs opts r names :=
            mem_children.mpr ⟨n, by rw [entriesOf_dir hnode]; exact hn, ⟨hvisible, hdir⟩, rfl⟩
          have hhead := h.child_prints hnames hchild (ih _ hchild) (hpath (List.cons_ne_nil _ _)) stack
            rest out
          rw [List.filter_cons_of_pos hvisible, List.flatMap_cons, ← List.append_assoc]
          exact hhead.trans (htail _)

include hR

/-- A directory and those below it, by induction on the depth that is left. -/
theorem prints {k : Nat} {names : List Bytes} (hnames : Tree.Below (children fs opts r) [] names)
    (hk : fs.height < (r ++ names).length + k) : Prints fs opts uninit root r k names := by
  induction k generalizing names with
  | zero =>
      have hle := h.length_le hnames
      omega
  | succ k ih =>
      intro cwd' dirname path stack out hresolve hpath hlen
      obtain ⟨entries, hnode, -⟩ := h.dir names hnames
      have hchildren : ∀ child ∈ children fs opts r names, Prints fs opts uninit root r k child := by
        intro child hchild
        refine ih (hnames.child hchild) ?_
        have hlt := length_lt_of_mem_children names child hchild
        rw [List.length_append] at hk ⊢
        omega
      obtain ⟨path', hpath', hcall⟩ := h.step_call hR hnames stack out hresolve hpath hlen
      have hloop := h.loop_prints hnames hchildren stack (fun n hn => hn) hpath'
        (out ++ sectionOf fs root r names)
      rw [candidates_visible (FileTree.canEnter_of_node hnode), List.append_assoc] at hloop
      have hleave (out' : List Token) : Step fs opts uninit
          ⟨r ++ names, .loop, ⟨r ++ names, path', []⟩ :: stack, out'⟩ .leave
          ⟨r ++ names, .back, stack, out'⟩ := rfl
      rw [Tree.preorder, List.flatMap_cons, children, List.flatMap_map, List.flatMap_assoc]
      exact ((Reachable.single hcall).trans hloop).trans (Reachable.single (hleave _))

end Listable

/-- **Completeness of `myls -R`.** The call on the argument returns, whatever an uninitialised `struct
stat` holds, and prints exactly one section for each directory that is reached through visible real
subdirectories, in pre-order. The stack is taken to have room for the calls. -/
theorem listContentDir_complete (uninit : State → Bool) (hR : opts.R = true)
    (h : Listable fs opts cwd root r) :
    ∃ tr s, Run (Step fs opts uninit) (.start cwd root) tr s ∧ s.finished ∧
      (∀ tr' s', Run (Step fs opts uninit) (.start cwd root) tr' s' →
        ∃ rest, tr = tr' ++ rest ∧ Run (Step fs opts uninit) s' rest s) ∧
      s.out = (visits fs opts r).flatMap (sectionOf fs root r) ∧ (visits fs opts r).Nodup ∧
      ∀ names, names ∈ visits fs opts r ↔ Tree.Below (children fs opts r) [] names := by
  have hprints : Prints fs opts uninit root r (fs.height + 1) [] :=
    h.prints hR (.refl []) (by rw [List.append_nil]; omega)
  obtain ⟨tr, hrun⟩ := hprints cwd root [] [] [] (by rw [List.append_nil]; exact h.resolve) rfl (by decide)
  have hfinished : State.finished ⟨r ++ [], .back, [], (visits fs opts r).flatMap (sectionOf fs root r)⟩ :=
    ⟨rfl, rfl⟩
  exact ⟨tr, _, hrun, hfinished,
    fun tr' s' hrun' => Run.extends_to_final (fun _ _ _ _ _ => step_deterministic)
      (not_step_of_finished hfinished) hrun hrun',
    rfl, nodup_visits, fun names => h.mem_visits⟩

/-- A directory `t` with a subdirectory `a`, a hidden one, a file and a link to `a`. -/
def sampleTable : List (Path × Node) :=
  [([], .dir true true [dot, dotdot, ascii "t"]),
    ([ascii "t"], .dir true true [dot, dotdot, ascii "l", ascii "a", ascii ".h", ascii "f"]),
    ([ascii "t", ascii "l"], .link (some [ascii "t", ascii "a"])),
    ([ascii "t", ascii "a"], .dir true true [dotdot, dot]),
    ([ascii "t", ascii ".h"], .dir true true []),
    ([ascii "t", ascii "f"], .file)]

theorem sampleTable_ok : FileTree.TableOk sampleTable 2 where
  length := by decide
  parent := by decide
  child := by decide

def sampleTree : FileTree := FileTree.ofTable sampleTable 2 sampleTable_ok

theorem sampleTree_listable : Listable sampleTree recursive [] (ascii "t/") [ascii "t"] where
  resolve := by decide
  dir := by
    have hroot : children sampleTree recursive [ascii "t"] [] = [[ascii "a"]] := by decide
    have hleaf : children sampleTree recursive [ascii "t"] [ascii "a"] = [] := by decide
    intro names hnames
    have hcases : names = [] ∨ names = [ascii "a"] := by
      induction hnames with
      | refl => exact .inl rfl
      | tail _ hchild ih =>
          rcases ih with rfl | rfl
          · rw [hroot] at hchild
            exact .inr (List.mem_singleton.mp hchild)
          · rw [hleaf] at hchild
            cases hchild
    rcases hcases with rfl | rfl
    · exact ⟨_, rfl, by decide, by decide, by decide⟩
    · exact ⟨_, rfl, by decide, by decide, by decide⟩

theorem listContentDir_complete_sample :
    visits sampleTree recursive [ascii "t"] = [[], [ascii "a"]] ∧
    ∃ tr s, Run (Step sampleTree recursive fun _ => true) (.start [] (ascii "t/")) tr s ∧ s.finished ∧
      s.out = put (ascii "t/:\n") ++
        .files [ascii "t"] [dot, dotdot, ascii "l", ascii "a", ascii ".h", ascii "f"] ::
        put (ascii "\nt/a:\n") ++ .files [ascii "t", ascii "a"] [dotdot, dot] :: put (ascii "\n") := by
  have hvisits : visits sampleTree recursive [ascii "t"] = [[], [ascii "a"]] := by decide
  obtain ⟨tr, s, hrun, hfinished, -, hout, -⟩ :=
    listContentDir_complete (fun _ => true) rfl sampleTree_listable
  refine ⟨hvisits, tr, s, hrun, hfinished, ?_⟩
  rw [hout, hvisits]
  rfl

end SmallTrial.Listing
