import Mathlib.Algebra.BigOperators.Group.List.Basic
import SmallTrial.ListingFile

/-! The output of `list_file`: which names are shown and entered, where the separators stand, and what the
total adds up. -/

namespace SmallTrial.Listing

open Text Files

/-! ### Filters -/

/-- The names that `-a` and `-A` ask for. -/
def wanted (opts : Options) (n : Bytes) : Bool :=
  if opts.a then true
  else if opts.A then n ≠ dot && n ≠ dotdot
  else n.head? ≠ some 46

/-- The names that are wanted are listed, and with `-R` the directories among them are entered, other than
`.` and `..`. -/
structure FiltersAgree (lib : Library) (o : Settings) (stat : Bytes → Stat) (names : List Bytes) :
    Prop where
  listed : (names.filter fun n => (listSingle lib o stat n).isSome) = names.filter (wanted o.toOptions)
  enters : o.R = true → entered o stat names =
    (names.filter (wanted o.toOptions)).filter fun n => (stat n).isDir && (n ≠ dot && n ≠ dotdot)

theorem isSome_listSingle {lib : Library} {o : Settings} {stat : Bytes → Stat} {n : Bytes} :
    (listSingle lib o stat n).isSome = !hidden o.toOptions n := by
  rw [listSingle]
  cases hidden o.toOptions n with
  | false => rfl
  | true => rfl

theorem dotdot_isPrefix_cons {c : UInt8} {rest : Bytes} : dotdot <+: 46 :: c :: rest ↔ c = 46 := by
  simp [dotdot, List.cons_prefix_cons, eq_comm]

theorem head?_eq_of_dotdot {n : Bytes} (h : dotdot <+: n) : n.head? = some 46 := by
  obtain ⟨rest, rfl⟩ := h
  rfl

theorem head?_ne_of_ne_cons {n : Bytes} (h : ∀ rest, n = 46 :: rest → False) : n.head? ≠ some 46 := by
  intro hhead
  obtain ⟨rest, hn⟩ := List.head?_eq_some_iff.mp hhead
  exact h rest hn

theorem hidden_iff {opts : Options} {n : Bytes} :
    hidden opts n = true ↔
      opts.a = false ∧ n.head? = some 46 ∧ (opts.A = true → n = dot ∨ dotdot <+: n) := by
  unfold hidden
  split
  · rename_i rest
    cases rest with
    | nil => cases opts.a <;> cases opts.A <;> simp [dot]
    | cons c rest =>
        rw [dotdot_isPrefix_cons]
        cases opts.a <;> cases opts.A <;> simp [dot]
  · simp [head?_ne_of_ne_cons ‹_›]

theorem skipped_iff {opts : Options} {n : Bytes} :
    skipped opts n = true ↔
      n = dot ∨ dotdot <+: n ∨ n.head? = some 46 ∧ opts.a = false ∧ opts.A = false := by
  unfold skipped
  split
  · rename_i rest
    cases rest with
    | nil => simp [dot]
    | cons c rest =>
        rw [dotdot_isPrefix_cons]
        by_cases hc : c = 46
        · simp [hc]
        · simp [hc, dot]
  · have hhead := head?_ne_of_ne_cons ‹_›
    have hdot : n ≠ dot := by
      rintro rfl
      exact hhead rfl
    have hpre : ¬ dotdot <+: n := fun h => hhead (head?_eq_of_dotdot h)
    simp [hhead, hdot, hpre]

/-- Where the two filters are right: names other than `..` that start with `..` are the exceptions. -/
def Agreeing (o : Settings) (stat : Bytes → Stat) (n : Bytes) : Prop :=
  dotdot <+: n → n ≠ dotdot →
    (o.a = false → o.A = false) ∧ (o.a = true → o.R = true → (stat n).isDir = false)

variable {o : Settings} {stat : Bytes → Stat} {n : Bytes}

theorem wanted_iff {opts : Options} : wanted opts n = true ↔ opts.a = true ∨
    opts.a = false ∧ opts.A = true ∧ n ≠ dot ∧ n ≠ dotdot ∨
    opts.a = false ∧ opts.A = false ∧ n.head? ≠ some 46 := by
  unfold wanted
  cases opts.a <;> cases opts.A <;> simp

theorem not_hidden_eq (h : Agreeing o stat n) : (!hidden o.toOptions n) = wanted o.toOptions n := by
  have hdot : n = dot → n.head? = some 46 := by
    rintro rfl
    rfl
  have hdots : n = dotdot → dotdot <+: n := by
    rintro rfl
    exact List.prefix_rfl
  have hhead : dotdot <+: n → n.head? = some 46 := head?_eq_of_dotdot
  rw [Bool.eq_iff_iff, Bool.not_eq_true', ← Bool.not_eq_true, hidden_iff, wanted_iff]
  unfold Agreeing at h
  grind

/-- The loop of the recursion passes the directories among the wanted names, other than `.` and `..`. -/
theorem not_skipped_eq (h : Agreeing o stat n) (hR : o.R = true) (hdir : (stat n).isDir = true) :
    (!skipped o.toOptions n) = (wanted o.toOptions n && (n ≠ dot && n ≠ dotdot)) := by
  have hdots : n = dotdot → dotdot <+: n := by
    rintro rfl
    exact List.prefix_rfl
  have hhead : dotdot <+: n → n.head? = some 46 := head?_eq_of_dotdot
  rw [Bool.eq_iff_iff, Bool.not_eq_true', ← Bool.not_eq_true, skipped_iff, Bool.and_eq_true, wanted_iff,
    Bool.and_eq_true, decide_eq_true_iff, decide_eq_true_iff]
  unfold Agreeing at h
  grind

variable {lib : Library} {names : List Bytes}

theorem mem_of_filter_eq {p q : Bytes → Bool} (h : names.filter p = names.filter q) (hn : n ∈ names) :
    p n = q n := by
  have hmem : n ∈ names.filter p ↔ n ∈ names.filter q := by rw [h]
  rw [List.mem_filter, List.mem_filter, and_iff_right hn, and_iff_right hn] at hmem
  exact Bool.eq_iff_iff.mpr hmem

theorem FiltersAgree.agreeing (h : FiltersAgree lib o stat names) (hn : n ∈ names) :
    Agreeing o stat n := by
  intro hpre hne
  have hdot : n ≠ dot := by
    rintro rfl
    exact absurd hpre (by decide)
  constructor
  · intro ha
    have hlisted := mem_of_filter_eq h.listed hn
    have hhead := head?_eq_of_dotdot hpre
    have hhidden : hidden o.toOptions n = true := hidden_iff.mpr ⟨ha, hhead, fun _ => .inr hpre⟩
    rw [isSome_listSingle, hhidden] at hlisted
    by_contra hA
    have hwanted : wanted o.toOptions n = true :=
      wanted_iff.mpr (.inr (.inl ⟨ha, Bool.not_eq_false _ ▸ hA, hdot, hne⟩))
    rw [hwanted] at hlisted
    cases hlisted
  · intro ha hR
    have henters := h.enters hR
    rw [entered, if_pos hR, List.filter_filter, List.filter_filter] at henters
    have heq := mem_of_filter_eq henters hn
    have hskipped : skipped o.toOptions n = true := skipped_iff.mpr (.inr (.inl hpre))
    have hwanted : wanted o.toOptions n = true := wanted_iff.mpr (.inl ha)
    rw [hskipped, hwanted, decide_eq_true hdot, decide_eq_true hne] at heq
    simpa using heq.symm

/-- **When the filters of `myls` are right.** The exceptions are names other than `..` that start with `..`:
with `-A` they are not listed, and with `-a -R` the directories among them are listed but not entered. -/
theorem filtersAgree_iff (lib : Library) (o : Settings) (stat : Bytes → Stat) (names : List Bytes) :
    FiltersAgree lib o stat names ↔ ∀ n ∈ names, dotdot <+: n → n ≠ dotdot →
      (o.a = false → o.A = false) ∧ (o.a = true → o.R = true → (stat n).isDir = false) := by
  refine ⟨fun h n hn => h.agreeing hn, fun h => ⟨?_, fun hR => ?_⟩⟩
  · refine List.filter_congr fun n hn => ?_
    rw [isSome_listSingle]
    exact not_hidden_eq (h n hn)
  · rw [entered, if_pos hR, List.filter_filter, List.filter_filter]
    refine List.filter_congr fun n hn => ?_
    cases hdir : (stat n).isDir with
    | false => simp only [Bool.and_false, Bool.false_and]
    | true =>
        rw [not_skipped_eq (h n hn) hR hdir, Bool.and_true, Bool.true_and]
        exact Bool.and_comm _ _

/-- No options. -/
def plain : Settings where
  a := false
  A := false
  R := false
  c := false
  F := false
  h := false
  i := false
  l := false
  m := false
  p := false
  Q := false
  r := false
  s := false
  S := false
  t := false
  u := false
  one := false
  long := false
  owner := true
  group := true
  num := false

def sampleLibrary : Library where
  pwName := fun _ => ascii "root"
  grName := fun _ => ascii "root"
  ctime := fun _ => ascii "Thu Jan  1 00:00:00 1970\n"
  trans := fun _ => ascii "     0B"

/-- `-A` hides `..x`. -/
theorem filters_disagree :
    ¬ FiltersAgree sampleLibrary { plain with A := true } farStat [dot, dotdot, ascii "..x"] := by
  rintro ⟨hlisted, -⟩
  simp only [isSome_listSingle] at hlisted
  exact absurd hlisted (by decide)

/-! ### Separators -/

/-- The entries that are shown. -/
def shown (lib : Library) (o : Settings) (stat : Bytes → Stat) (names : List Bytes) : List Bytes :=
  names.filterMap (listSingle lib o stat)

theorem listSingle_eq_none_iff : listSingle lib o stat n = none ↔ hidden o.toOptions n = true := by
  rw [← Option.isNone_iff_eq_none, ← Option.not_isSome, isSome_listSingle, Bool.not_not]

theorem shown_eq_nil_iff : shown lib o stat names = [] ↔ ∀ n ∈ names, hidden o.toOptions n = true := by
  rw [shown, List.filterMap_eq_nil_iff]
  exact forall₂_congr fun n _ => listSingle_eq_none_iff

/-- The last name of the array is hidden. -/
def hiddenLast (o : Settings) (names : List Bytes) : Bool := names.getLast?.any (hidden o.toOptions)

theorem hiddenLast_cons {name : Bytes} {rest : List Bytes} (hne : rest ≠ []) :
    hiddenLast o (name :: rest) = hiddenLast o rest := by
  rw [hiddenLast, hiddenLast, List.getLast?_cons, List.getLast?_eq_some_getLast hne, Option.getD_some]

/-- If nothing is shown, the last name is hidden. -/
theorem hiddenLast_of_shown_nil (hne : names ≠ []) (h : shown lib o stat names = []) :
    hiddenLast o names = true := by
  rw [hiddenLast, List.getLast?_eq_some_getLast hne, Option.any_some]
  exact shown_eq_nil_iff.mp h _ (List.getLast_mem hne)

/-- What `info` prints: the entries with separators between them, and one more if the last name is
hidden. -/
theorem info_eq (lib : Library) (o : Settings) (stat : Bytes → Stat) (names : List Bytes) :
    info lib o stat names = (separator o).intercalate (shown lib o stat names) ++
      if shown lib o stat names ≠ [] ∧ hiddenLast o names = true then separator o else [] := by
  induction names with
  | nil => rfl
  | cons name rest ih =>
      cases hname : listSingle lib o stat name with
      | none =>
          have hshown : shown lib o stat (name :: rest) = shown lib o stat rest :=
            List.filterMap_cons_none hname
          rw [info, hname, hshown]
          dsimp only
          rw [ih]
          by_cases hrest : rest = []
          · subst hrest
            rfl
          · rw [hiddenLast_cons hrest]
      | some text =>
          have hshown : shown lib o stat (name :: rest) = text :: shown lib o stat rest :=
            List.filterMap_cons_some hname
          rw [info, hname, hshown]
          dsimp only
          by_cases hrest : rest = []
          · subst hrest
            have hvisible : hiddenLast o [name] = false := by
              have hsome : (listSingle lib o stat name).isSome = true := by rw [hname, Option.isSome_some]
              rw [isSome_listSingle, Bool.not_eq_true'] at hsome
              exact hsome
            rw [if_pos rfl, hvisible]
            simp [info, shown]
          · rw [if_neg hrest, ih, hiddenLast_cons hrest]
            by_cases hnil : shown lib o stat rest = []
            · -- all that follow are hidden
              rw [hnil, hiddenLast_of_shown_nil hrest hnil]
              simp
            · rw [List.intercalate_cons_of_ne_nil hnil]
              simp [hnil]

theorem separator_ne_nil : separator o ≠ [] := by
  unfold separator
  split
  · decide
  · split
    · decide
    · decide

/-- **When the separators of `myls` are right.** `info` prints the entries that are shown joined by
separators exactly if the last name of the array is shown, or none is. -/
theorem info_joined_iff (lib : Library) (o : Settings) (stat : Bytes → Stat) (names : List Bytes) :
    info lib o stat names =
      (separator o).intercalate (names.filterMap (listSingle lib o stat)) ↔
    (∀ n ∈ names.getLast?, hidden o.toOptions n = false) ∨ ∀ n ∈ names, hidden o.toOptions n = true := by
  have hlast : (∀ n ∈ names.getLast?, hidden o.toOptions n = false) ↔ hiddenLast o names = false := by
    rw [hiddenLast]
    cases names.getLast? with
    | none => simp
    | some n => simp
  have hnil : shown lib o stat names = [] ↔ ∀ n ∈ names, hidden o.toOptions n = true := shown_eq_nil_iff
  rw [← hnil, hlast, info_eq]
  split
  · rename_i h
    have hnot : ¬ (hiddenLast o names = false ∨ shown lib o stat names = []) := by simp [h]
    refine iff_of_false (fun heq => ?_) hnot
    exact separator_ne_nil (List.append_right_eq_self.mp heq)
  · rename_i h
    refine iff_of_true (List.append_nil _) ?_
    rw [not_and_or, not_ne_iff, Bool.not_eq_true] at h
    exact h.symm

/-- `myls -r` prints a separator behind the last entry. -/
theorem info_not_joined :
    let o := { plain with r := true }
    let names := ordered o farStat [dot, dotdot, ascii "a"]
    info sampleLibrary o farStat names ≠
      (separator o).intercalate (names.filterMap (listSingle sampleLibrary o farStat)) := by
  intro o names
  have hnames : names = [ascii "a", dotdot, dot] := by decide
  have hinfo : info sampleLibrary o farStat names = ascii "a " := by
    rw [hnames]
    rfl
  have hshown : names.filterMap (listSingle sampleLibrary o farStat) = [ascii "a"] := by
    rw [hnames]
    rfl
  rw [hinfo, hshown]
  decide

/-! ### The total -/

theorem toInt_addBlocks (totalblk : Int32) (blocks : Int64) :
    (addBlocks totalblk blocks).toInt = (totalblk.toInt + blocks.toInt).bmod (2 ^ 32) := by
  rw [addBlocks, Int64.toInt_toInt32, Int64.toInt_add, Int32.toInt_toInt64,
    Int.bmod_bmod_of_dvd (by decide)]

/-- The sum of the blocks of the names that are shown. -/
def shownBlocks (o : Settings) (stat : Bytes → Stat) (names : List Bytes) : Int :=
  ((names.filter fun n => !hidden o.toOptions n).map fun n => (stat n).blocks.toInt).sum

theorem shownBlocks_cons (name : Bytes) (rest : List Bytes) : shownBlocks o stat (name :: rest) =
    (if hidden o.toOptions name then 0 else (stat name).blocks.toInt) + shownBlocks o stat rest := by
  unfold shownBlocks
  cases h : hidden o.toOptions name with
  | false => simp [h]
  | true => simp [h]

/-- The loop adds up the blocks modulo 2 ^ 32. -/
theorem toInt_totalBlocks (names : List Bytes) :
    (totalBlocks o stat names).toInt = (shownBlocks o stat names).bmod (2 ^ 32) := by
  have hfold : ∀ totalblk : Int32, (names.foldl (fun totalblk name =>
      if hidden o.toOptions name then totalblk else addBlocks totalblk (stat name).blocks)
        totalblk).toInt = (totalblk.toInt + shownBlocks o stat names).bmod (2 ^ 32) := by
    induction names with
    | nil =>
        intro totalblk
        have hle := totalblk.le_toInt
        have hlt := totalblk.toInt_lt
        rw [List.foldl_nil, shownBlocks, List.filter_nil, List.map_nil, List.sum_nil, Int.add_zero]
        exact (Int.bmod_eq_of_le (by omega) (by omega)).symm
    | cons name rest ih =>
        intro totalblk
        rw [List.foldl_cons, ih, shownBlocks_cons]
        split
        · rw [Int.zero_add]
        · rw [toInt_addBlocks, Int.bmod_add_bmod, Int.add_assoc]
  have hzero := hfold 0
  rw [Int32.toInt_zero, Int.zero_add] at hzero
  exact hzero

/-- Sorting does not change the sum. -/
theorem shownBlocks_ordered : shownBlocks o stat (ordered o stat names) = shownBlocks o stat names :=
  (((orderBy_perm o.r _ names).filter _).map _).sum_eq

/-- **When the total of `myls` is right.** It is the sum of the blocks of the entries that are printed
exactly if this is an `int`. -/
theorem totalBlocks_iff (lib : Library) (o : Settings) (stat : Bytes → Stat) (names : List Bytes) :
    (totalBlocks o stat names).toInt =
      (((ordered o stat names).filter fun n => (listSingle lib o stat n).isSome).map
        fun n => (stat n).blocks.toInt).sum ↔
    -2 ^ 31 ≤ shownBlocks o stat names ∧ shownBlocks o stat names < 2 ^ 31 := by
  have hsum : (((ordered o stat names).filter fun n => (listSingle lib o stat n).isSome).map
      fun n => (stat n).blocks.toInt).sum = shownBlocks o stat names := by
    rw [← shownBlocks_ordered]
    simp only [isSome_listSingle]
    rfl
  rw [hsum]
  constructor
  · intro heq
    have hle := (totalBlocks o stat names).le_toInt
    have hlt := (totalBlocks o stat names).toInt_lt
    omega
  · rintro ⟨hle, hlt⟩
    rw [toInt_totalBlocks]
    exact Int.bmod_eq_of_le (by omega) (by omega)

/-- What `list_file` prints for a directory whose total is an `int` and whose last name is shown: the
total of the entries, and the entries in the order of the sort with separators between them. -/
theorem listFile_eq (hnames : names ≠ []) (hlow : -2 ^ 31 ≤ shownBlocks o stat names)
    (hhigh : shownBlocks o stat names < 2 ^ 31) (hlast : hiddenLast o (ordered o stat names) = false) :
    listFile lib o stat true names =
      (if o.long then
        ascii "total:  " ++ (decimal (shownBlocks o stat names)).rightpad 6 32 ++ ascii "\n"
      else []) ++
      (separator o).intercalate (shown lib o stat (ordered o stat names)) ++ ascii "\n" := by
  have htotal : (totalBlocks o stat names).toInt = shownBlocks o stat names := by
    rw [toInt_totalBlocks]
    exact Int.bmod_eq_of_le (by omega) (by omega)
  have hinfo : info lib o stat (ordered o stat names) =
      (separator o).intercalate (shown lib o stat (ordered o stat names)) := by
    rw [info_eq, if_neg (fun h => Bool.false_ne_true (hlast.symm.trans h.2)), List.append_nil]
  rw [listFile, if_neg hnames, htotal, hinfo, Bool.true_and]

/-- One file of 2 ^ 31 blocks. -/
def largeStat (name : Bytes) : Stat := { farStat name with blocks := 2147483648 }

/-- `myls -l` prints -2147483648. -/
theorem totalBlocks_wrong :
    let o := { plain with l := true, long := true }
    (totalBlocks o largeStat [ascii "a"]).toInt ≠
      (((ordered o largeStat [ascii "a"]).filter fun n =>
        (listSingle sampleLibrary o largeStat n).isSome).map fun n => (largeStat n).blocks.toInt).sum := by
  intro o
  have htotal : (totalBlocks o largeStat [ascii "a"]).toInt = -2147483648 := by decide
  have hsum : (((ordered o largeStat [ascii "a"]).filter fun n =>
      (listSingle sampleLibrary o largeStat n).isSome).map fun n => (largeStat n).blocks.toInt).sum =
      2147483648 := by
    simp only [isSome_listSingle]
    decide
  rw [htotal, hsum]
  decide

end SmallTrial.Listing
