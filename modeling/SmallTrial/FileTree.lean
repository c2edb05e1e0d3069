import SmallTrial.TextBuffer

/-! File trees with the lookup of paths and the permissions of POSIX. A path is the list of the names
from the root of the tree; the current directory of a process is a path, and `..` of the root is the
root. -/

namespace Files

open Text

abbrev Path := List Bytes

def dot : Bytes := [46]

def dotdot : Bytes := [46, 46]

/-- What stands at a path. A directory says whether it may be read and searched, and lists its names in
the order in which `readdir` returns them; a symbolic link says what it finally leads to. -/
inductive Node where
  | file
  | link (target : Option Path)
  | dir (canOpen canEnter : Bool) (entries : List Bytes)
  deriving DecidableEq

/-- The names in a directory. -/
def Node.entries? : Node → Option (List Bytes)
  | .dir _ _ entries => some entries
  | _ => none

def Node.isDir : Node → Bool
  | .dir _ _ _ => true
  | _ => false

/-- A finite tree: the entries of a directory are its children, and maybe `.` and `..`. -/
structure FileTree where
  node : Path → Option Node
  height : Nat
  length_le : ∀ p, node p ≠ none → p.length ≤ height
  parent : ∀ p n, node (p ++ [n]) ≠ none → ∃ o e entries, node p = some (.dir o e entries) ∧ n ∈ entries
  child : ∀ p o e entries, node p = some (.dir o e entries) → ∀ n ∈ entries,
    n = dot ∨ n = dotdot ∨ node (p ++ [n]) ≠ none
  nodup : ∀ p o e entries, node p = some (.dir o e entries) → entries.Nodup
  name : ∀ p o e entries, node p = some (.dir o e entries) → ∀ n ∈ entries,
    n ≠ [] ∧ 47 ∉ n ∧ 0 ∉ n ∧ n.length ≤ 255

namespace FileTree

variable (fs : FileTree)

/-- Search permission. -/
def canEnter (p : Path) : Bool :=
  match fs.node p with
  | some (.dir _ e _) => e
  | _ => false

/-- Looks up one name in a directory and follows a symbolic link. -/
def step (p : Path) (name : Bytes) : Option Path :=
  if fs.canEnter p then
    if name = dot then some p
    else if name = dotdot then some p.dropLast
    else
      match fs.node (p ++ [name]) with
      | none => none
      | some (.link target) => target
      | some .file | some (.dir _ _ _) => some (p ++ [name])
  else none

/-- The names between the slashes. -/
def components (text : Bytes) : List Bytes := (text.splitOn 47).filter (· ≠ [])

/-- What a path leads to from a current directory. -/
def resolve (cwd : Path) (text : Bytes) : Option Path :=
  if text = [] then none
  else (components text).foldlM fs.step (if text.head? = some 47 then [] else cwd)

/-- `opendir` and the calls of `readdir` that follow it: the directory and its names. -/
def opendir (cwd : Path) (text : Bytes) : Option (Path × List Bytes) :=
  (fs.resolve cwd text).bind fun p =>
    match fs.node p with
    | some (.dir true _ entries) => some (p, entries)
    | _ => none

/-- `chdir`, with the new current directory. -/
def chdir (cwd : Path) (text : Bytes) : Option Path :=
  (fs.resolve cwd text).bind fun p => if fs.canEnter p then some p else none

/-- `lstat` of a name in the current directory. -/
def lstat (cwd : Path) (name : Bytes) : Option Node :=
  if fs.canEnter cwd then
    if name = dot then fs.node cwd
    else if name = dotdot then fs.node cwd.dropLast
    else fs.node (cwd ++ [name])
  else none

/-- The current directory after `chdir("..")`, whether it succeeds or not. -/
def up (cwd : Path) : Path := (fs.chdir cwd dotdot).getD cwd

variable {fs}

/-! ### Lookup -/

theorem components_name {n : Bytes} (hne : n ≠ []) (hslash : 47 ∉ n) : components n = [n] := by
  rw [components, List.splitOn_eq_singleton hslash, List.filter_cons_of_pos (by simpa using hne),
    List.filter_nil]

theorem canEnter_of_node {p : Path} {o e : Bool} {entries : List Bytes}
    (h : fs.node p = some (.dir o e entries)) : fs.canEnter p = e := by
  rw [canEnter, h]

/-- A single name is looked up in the current directory. -/
theorem resolve_name {cwd : Path} {n : Bytes} (hne : n ≠ []) (hslash : 47 ∉ n) :
    fs.resolve cwd n = fs.step cwd n := by
  have hhead : n.head? ≠ some 47 := fun h => hslash (List.mem_of_mem_head? h)
  rw [resolve, if_neg hne, if_neg hhead, components_name hne hslash]
  simp

theorem resolve_dir {cwd : Path} {n : Bytes} (hne : n ≠ []) (hslash : 47 ∉ n) (hdot : n ≠ dot)
    (hdotdot : n ≠ dotdot) (hcwd : fs.canEnter cwd = true) {o e : Bool} {entries : List Bytes}
    (hnode : fs.node (cwd ++ [n]) = some (.dir o e entries)) :
    fs.resolve cwd n = some (cwd ++ [n]) := by
  rw [resolve_name hne hslash, step, if_pos hcwd, if_neg hdot, if_neg hdotdot, hnode]

/-- `chdir` only leads to a directory that may be searched. -/
theorem canEnter_of_chdir {cwd p : Path} {text : Bytes} (h : fs.chdir cwd text = some p) :
    fs.canEnter p = true ∧ fs.resolve cwd text = some p := by
  obtain ⟨q, hq, hp⟩ := Option.bind_eq_some_iff.mp h
  split at hp
  · cases hp
    exact ⟨‹_›, hq⟩
  · cases hp

theorem opendir_eq_some {cwd p : Path} {text : Bytes} {entries : List Bytes}
    (h : fs.opendir cwd text = some (p, entries)) :
    fs.resolve cwd text = some p ∧ ∃ e, fs.node p = some (.dir true e entries) := by
  obtain ⟨q, hq, hp⟩ := Option.bind_eq_some_iff.mp h
  split at hp
  · rename_i e _ hnode
    cases hp
    exact ⟨hq, e, hnode⟩
  · cases hp

theorem opendir_of_node {cwd p : Path} {text : Bytes} {e : Bool} {entries : List Bytes}
    (h : fs.resolve cwd text = some p) (hnode : fs.node p = some (.dir true e entries)) :
    fs.opendir cwd text = some (p, entries) := by
  rw [opendir, h, Option.bind_some, hnode]

theorem chdir_of_resolve {cwd p : Path} {text : Bytes} (h : fs.resolve cwd text = some p) :
    fs.chdir cwd text = if fs.canEnter p then some p else none := by
  rw [chdir, h, Option.bind_some]

/-- `chdir("..")` from a directory that may be searched into one that may be. -/
theorem up_eq {p : Path} (hp : fs.canEnter p = true) (hparent : fs.canEnter p.dropLast = true) :
    fs.up p = p.dropLast := by
  have hstep : fs.step p dotdot = some p.dropLast := by
    rw [step, if_pos hp, if_neg (by decide), if_pos rfl]
  have hresolve : fs.resolve p dotdot = some p.dropLast := by
    rw [resolve_name (by decide) (by decide), hstep]
  rw [up, chdir_of_resolve hresolve, if_pos hparent, Option.getD_some]

/-- The current directory only changes to one that may be searched. -/
theorem up_cases (p : Path) : fs.up p = p ∨ fs.canEnter (fs.up p) = true := by
  unfold up
  cases h : fs.chdir p dotdot with
  | none => exact .inl rfl
  | some q => exact .inr (canEnter_of_chdir h).1

/-- In a directory that may be searched, `lstat` succeeds on every entry. -/
theorem lstat_entry {p : Path} {o : Bool} {entries : List Bytes}
    (hnode : fs.node p = some (.dir o true entries)) {n : Bytes} (hn : n ∈ entries) :
    ∃ node, fs.lstat p n = some node := by
  have hdots : ∃ node, fs.node p.dropLast = some node := by
    rcases List.eq_nil_or_concat p with rfl | ⟨q, m, rfl⟩
    · exact ⟨_, hnode⟩
    · rw [List.concat_eq_append] at hnode ⊢
      obtain ⟨o, e, entries, hq, -⟩ := fs.parent q m (hnode ▸ Option.some_ne_none _)
      rw [List.dropLast_concat]
      exact ⟨_, hq⟩
  rw [lstat, if_pos (canEnter_of_node hnode)]
  split
  · exact ⟨_, hnode⟩
  · split
    · exact hdots
    · rcases fs.child p o true entries hnode n hn with h | h | h
      · exact absurd h ‹_›
      · exact absurd h ‹_›
      · exact Option.ne_none_iff_exists'.mp h

/-! ### Trees from tables -/

/-- What a table says about a path. -/
def lookup (table : List (Path × Node)) (p : Path) : Option Node :=
  (table.find? fun x => x.1 = p).map Prod.snd

theorem mem_of_lookup {table : List (Path × Node)} {p : Path} {node : Node}
    (h : lookup table p = some node) : (p, node) ∈ table := by
  obtain ⟨x, hx, rfl⟩ := Option.map_eq_some_iff.mp h
  have hp : x.1 = p := by simpa using List.find?_some hx
  rw [← hp]
  exact List.mem_of_find?_eq_some hx

/-- What a table must satisfy to describe a tree. -/
structure TableOk (table : List (Path × Node)) (height : Nat) : Prop where
  length : ∀ x ∈ table, x.1.length ≤ height
  parent : ∀ x ∈ table, ∀ n ∈ x.1.getLast?,
    ∃ y ∈ table, lookup table x.1.dropLast = some y.2 ∧ ∃ entries ∈ y.2.entries?, n ∈ entries
  child : ∀ x ∈ table, ∀ entries ∈ x.2.entries?, entries.Nodup ∧ ∀ n ∈ entries,
    (n ≠ [] ∧ 47 ∉ n ∧ 0 ∉ n ∧ n.length ≤ 255) ∧
      (n = dot ∨ n = dotdot ∨ lookup table (x.1 ++ [n]) ≠ none)

theorem eq_dir_of_entries {node : Node} {entries : List Bytes} (h : node.entries? = some entries) :
    ∃ o e, node = .dir o e entries := by
  cases node with
  | file | link => cases h
  | dir o e entries' =>
      cases h
      exact ⟨o, e, rfl⟩

def ofTable (table : List (Path × Node)) (height : Nat) (h : TableOk table height) : FileTree where
  node := lookup table
  height := height
  length_le := by
    intro p hp
    obtain ⟨node, hnode⟩ := Option.ne_none_iff_exists'.mp hp
    exact h.length (p, node) (mem_of_lookup hnode)
  parent := by
    intro p n hp
    obtain ⟨node, hnode⟩ := Option.ne_none_iff_exists'.mp hp
    obtain ⟨y, -, hy, entries, hentries, hn⟩ :=
      h.parent (p ++ [n], node) (mem_of_lookup hnode) n List.getLast?_concat
    obtain ⟨o, e, hdir⟩ := eq_dir_of_entries hentries
    rw [List.dropLast_concat, hdir] at hy
    exact ⟨o, e, entries, hy, hn⟩
  child := fun _ _ _ entries hp n hn =>
    ((h.child _ (mem_of_lookup hp) entries rfl).2 n hn).2
  nodup := fun _ _ _ entries hp => (h.child _ (mem_of_lookup hp) entries rfl).1
  name := fun _ _ _ entries hp n hn => ((h.child _ (mem_of_lookup hp) entries rfl).2 n hn).1

end FileTree

end Files
