import Mathlib.Data.List.SplitLengths
import SmallTrial.TextBuffer

/-! Records on a byte stream that a receiver reads piece by piece, each piece into a buffer of zeros. What a
piece is read as weighs at most the bytes of the piece that are not 0. If all pieces together are read as
the records that were sent, no piece goes past the end of a record. -/

namespace Text

/-- The bytes that are not 0. -/
def nonzeros (bytes : Bytes) : Nat := bytes.countP (· ≠ 0)

@[simp] theorem nonzeros_nil : nonzeros [] = 0 := rfl

theorem nonzeros_append (a b : Bytes) : nonzeros (a ++ b) = nonzeros a + nonzeros b := List.countP_append

theorem nonzeros_cons {b : UInt8} (hb : b ≠ 0) (s : Bytes) : nonzeros (b :: s) = nonzeros s + 1 := by
  rw [nonzeros, List.countP_cons_of_pos (by simpa using hb), nonzeros]

theorem nonzeros_zero_cons (s : Bytes) : nonzeros (0 :: s) = nonzeros s := by
  rw [nonzeros, List.countP_cons_of_neg (by simp), nonzeros]

theorem nonzeros_eq_zero {s : Bytes} : nonzeros s = 0 ↔ ∀ b ∈ s, b = 0 := by
  rw [nonzeros, List.countP_eq_zero]
  simp

theorem nonzeros_replicate (k : Nat) : nonzeros (List.replicate k 0) = 0 :=
  nonzeros_eq_zero.mpr fun _ hb => List.eq_of_mem_replicate hb

theorem nonzeros_of_not_mem {s : Bytes} (h : 0 ∉ s) : nonzeros s = s.length := by
  rw [nonzeros, List.countP_eq_length]
  intro b hb
  simpa using fun h0 : b = 0 => h (h0 ▸ hb)

theorem nonzeros_mono {a b : Bytes} (h : a.Sublist b) : nonzeros a ≤ nonzeros b := h.countP_le

/-- A stream can be cut into pieces of any lengths. -/
theorem exists_pieces {bytes : Bytes} {lens : List Nat} (h : lens.sum = bytes.length) :
    ∃ segs : List Bytes, segs.flatten = bytes ∧ segs.map List.length = lens :=
  ⟨lens.splitLengths bytes, List.flatten_splitLengths bytes lens h.ge,
    List.map_splitLengths_length bytes lens h.le⟩

/-- The pieces of the first part of a stream. -/
theorem split_pieces {segs : List Bytes} {ls lens : List Nat} {a b : Bytes}
    (hlen : segs.map List.length = ls ++ lens) (hflatten : segs.flatten = a ++ b) (ha : a.length = ls.sum) :
    ∃ ps segs', segs = ps ++ segs' ∧ ps.map List.length = ls ∧ segs'.map List.length = lens ∧
      ps.flatten = a ∧ segs'.flatten = b := by
  obtain ⟨ps, segs', rfl, rfl, rfl⟩ := List.map_eq_append_iff.mp hlen
  rw [List.flatten_append] at hflatten
  obtain ⟨rfl, rfl⟩ := List.append_inj hflatten (by rw [List.length_flatten, ha])
  exact ⟨ps, segs', rfl, rfl, rfl, rfl, rfl⟩

/-! ### Numbers -/

/-- The number whose bytes are given, the lowest first. -/
def littleEndian (bytes : Bytes) : Nat := bytes.foldr (fun b v => b.toNat + 256 * v) 0

theorem littleEndian_cons (b : UInt8) (s : Bytes) :
    littleEndian (b :: s) = b.toNat + 256 * littleEndian s := rfl

theorem littleEndian_lt (bytes : Bytes) : littleEndian bytes < 256 ^ bytes.length := by
  induction bytes with
  | nil => exact Nat.one_pos
  | cons b s ih =>
      have hb := b.toNat_lt
      rw [littleEndian_cons, List.length_cons, Nat.pow_succ]
      omega

theorem littleEndian_inj {a b : Bytes} (hlen : a.length = b.length)
    (h : littleEndian a = littleEndian b) : a = b := by
  induction a generalizing b with
  | nil => exact (List.length_eq_zero_iff.mp hlen.symm).symm
  | cons x a ih =>
      cases b with
      | nil => cases hlen
      | cons y b =>
          have hx := x.toNat_lt
          have hy := y.toNat_lt
          rw [littleEndian_cons, littleEndian_cons] at h
          have hhead : x = y := UInt8.toNat_inj.mp (by omega)
          rw [hhead, ih (Nat.succ.inj hlen) (by omega)]

theorem littleEndian_eq_zero {s : Bytes} : littleEndian s = 0 ↔ nonzeros s = 0 := by
  induction s with
  | nil => simp [littleEndian]
  | cons b s ih =>
      rw [littleEndian_cons]
      by_cases hb : b = 0
      · rw [hb, nonzeros_zero_cons, ← ih, UInt8.toNat_zero]
        omega
      · have hne : b.toNat ≠ 0 := fun h => hb (UInt8.toNat_inj.mp h)
        rw [nonzeros_cons hb]
        omega

/-! ### Records -/

section Records

variable {α : Type*} {read : Bytes → Option α} {w : α → Nat}
  (hbound : ∀ s x, read s = some x → w x ≤ nonzeros s)

include hbound

theorem sum_reads_le (segs : List Bytes) :
    ((segs.filterMap read).map w).sum ≤ nonzeros segs.flatten := by
  induction segs with
  | nil => exact Nat.zero_le _
  | cons s segs ih =>
      rw [List.flatten_cons, nonzeros_append]
      cases h : read s with
      | none =>
          rw [List.filterMap_cons_none h]
          omega
      | some x =>
          have hx := hbound s x h
          rw [List.filterMap_cons_some h, List.map_cons, List.sum_cons]
          omega

/-- If nothing is left over, each piece is read as all of its bytes that are not 0. -/
theorem reads_exact {segs : List Bytes}
    (h : ((segs.filterMap read).map w).sum = nonzeros segs.flatten) :
    ∀ s ∈ segs, (read s = none → nonzeros s = 0) ∧ ∀ x, read s = some x → w x = nonzeros s := by
  induction segs with
  | nil => exact List.forall_mem_nil _
  | cons s segs ih =>
      have hle := sum_reads_le hbound segs
      rw [List.flatten_cons, nonzeros_append] at h
      have hsplit : ((read s = none → nonzeros s = 0) ∧ ∀ x, read s = some x → w x = nonzeros s) ∧
          ((segs.filterMap read).map w).sum = nonzeros segs.flatten := by
        cases hs : read s with
        | none =>
            rw [List.filterMap_cons_none hs] at h
            exact ⟨⟨fun _ => by omega, fun x hx => (by cases hx)⟩, by omega⟩
        | some x =>
            have hx := hbound s x hs
            rw [List.filterMap_cons_some hs, List.map_cons, List.sum_cons] at h
            refine ⟨⟨fun hnone => (by cases hnone), fun y hy => ?_⟩, by omega⟩
            cases hy
            omega
      intro s' hs'
      rcases List.mem_cons.mp hs' with rfl | hs'
      · exact hsplit.1
      · exact ih hsplit.2 s' hs'

end Records

/-- Pieces of zeros up to the end of a record. -/
theorem take_zeros {segs : List Bytes} {zeros rest : Bytes} (hne : ∀ s ∈ segs, s ≠ [])
    (hflatten : segs.flatten = zeros ++ rest) (hzeros : nonzeros zeros = 0)
    (hseg : ∀ s ∈ segs, s.head? = some 0 → nonzeros s = 0) (hrest : rest.head? ≠ some 0) :
    ∃ zs segs', segs = zs ++ segs' ∧ zs.flatten = zeros ∧ segs'.flatten = rest := by
  induction segs generalizing zeros with
  | nil =>
      obtain ⟨rfl, rfl⟩ := List.append_eq_nil_iff.mp hflatten.symm
      exact ⟨[], [], rfl, rfl, rfl⟩
  | cons s segs ih =>
      cases zeros with
      | nil => exact ⟨[], s :: segs, rfl, rfl, hflatten⟩
      | cons z zeros =>
          obtain ⟨b, s', rfl⟩ := List.exists_cons_of_ne_nil (hne s List.mem_cons_self)
          obtain ⟨rfl, htail⟩ := List.cons.inj hflatten
          have hz := nonzeros_eq_zero.mp hzeros b List.mem_cons_self
          have hs := hseg _ List.mem_cons_self (by rw [List.head?_cons, hz])
          subst hz
          rw [nonzeros_zero_cons] at hs hzeros
          rcases List.append_eq_append_iff.mp htail with ⟨a, rfl, ha⟩ | ⟨c, rfl, hc⟩
          · rw [nonzeros_append] at hzeros
            obtain ⟨zs, segs', rfl, hzs, hsegs'⟩ := ih (fun t ht => hne t (List.mem_cons_of_mem _ ht)) ha
              (by omega) fun t ht => hseg t (List.mem_cons_of_mem _ ht)
            refine ⟨(0 :: s') :: zs, segs', rfl, ?_, hsegs'⟩
            rw [List.flatten_cons, hzs, List.cons_append]
          · -- a piece of zeros cannot go on into what follows
            cases c with
            | nil =>
                refine ⟨[0 :: (zeros ++ [])], segs, rfl, ?_, hc.symm⟩
                rw [List.append_nil, List.flatten_singleton]
            | cons c cs =>
                rw [nonzeros_append] at hs
                have hcs : nonzeros (c :: cs) = 0 := by omega
                rw [hc, List.cons_append, List.head?_cons,
                  nonzeros_eq_zero.mp hcs c List.mem_cons_self] at hrest
                exact absurd rfl hrest

/-- The pieces fall into groups, one for each record: the first piece is read as the record, and the others
are zeros. -/
inductive Grouped {α : Type*} (read : Bytes → Option α) : List (α × Bytes) → List Bytes → Prop where
  | nil : Grouped read [] []
  | cons {x : α} {first : Bytes} {rest : List Bytes} {rs : List (α × Bytes)} {segs : List Bytes} :
      read first = some x → (∀ s ∈ rest, s ≠ [] ∧ nonzeros s = 0) → Grouped read rs segs →
      Grouped read ((x, first ++ rest.flatten) :: rs) (first :: rest ++ segs)

theorem Grouped.cons_inv {α : Type*} {read : Bytes → Option α} {r : α × Bytes} {rs : List (α × Bytes)}
    {segs : List Bytes} (h : Grouped read (r :: rs) segs) : ∃ first rest segs',
      segs = first :: rest ++ segs' ∧ read first = some r.1 ∧ (∀ s ∈ rest, s ≠ [] ∧ nonzeros s = 0) ∧
        first ++ rest.flatten = r.2 ∧ Grouped read rs segs' := by
  cases h with
  | cons hread hzeros hgrouped => exact ⟨_, _, _, rfl, hread, hzeros, rfl, hgrouped⟩

/-- A property of the lengths of the pieces from `start` on, if each piece has a property of its own. -/
theorem pieces_of_starts {Pieces : Nat → List Nat → Prop} {Q : Nat → Nat → Prop} {size : Nat}
    (hnil : Pieces size [])
    (hcons : ∀ start l ls, 0 < l → Q start l → Pieces (start + l) ls → Pieces start (l :: ls))
    {start : Nat} {ps : List Bytes}
    (h : ∀ u p v, ps = u ++ p :: v → p ≠ [] ∧ Q (start + u.flatten.length) p.length)
    (hsum : start + ps.flatten.length = size) : Pieces start (ps.map List.length) := by
  induction ps generalizing start with
  | nil =>
      obtain rfl : start = size := hsum
      exact hnil
  | cons p ps ih =>
      obtain ⟨hp, hstart⟩ := h [] p ps rfl
      rw [List.flatten_cons, List.length_append, ← Nat.add_assoc] at hsum
      refine hcons start _ _ (List.length_pos_iff.mpr hp) hstart (ih (fun u q v hq => ?_) hsum)
      obtain ⟨hne, hq⟩ := h (p :: u) q v (by rw [hq, List.cons_append])
      rw [List.flatten_cons, List.length_append, ← Nat.add_assoc] at hq
      exact ⟨hne, hq⟩

theorem sum_records {α : Type*} {w : α → Nat} {rs : List (α × Bytes)}
    (hrecord : ∀ r ∈ rs, w r.1 = nonzeros r.2) :
    ((rs.map Prod.fst).map w).sum = nonzeros (rs.map Prod.snd).flatten := by
  induction rs with
  | nil => rfl
  | cons r rs ih =>
      rw [List.map_cons, List.map_cons, List.sum_cons, List.map_cons, List.flatten_cons, nonzeros_append,
        ih fun r' hr' => hrecord r' (List.mem_cons_of_mem _ hr'), hrecord r List.mem_cons_self]

/-- Records that start with a nonzero byte, one after the other, start with a nonzero byte. -/
theorem head_records {α : Type*} {rs : List (α × Bytes)} (hrecord : ∀ r ∈ rs, ∃ b s, r.2 = b :: s ∧ b ≠ 0) :
    ((rs.map Prod.snd).flatten).head? ≠ some 0 := by
  cases rs with
  | nil => exact fun h => by cases h
  | cons r rs =>
      obtain ⟨c, u, hc, hc0⟩ := hrecord r List.mem_cons_self
      rw [List.map_cons, List.flatten_cons, hc, List.cons_append, List.head?_cons]
      exact fun h => hc0 (Option.some.inj h)

/-- A piece with all the nonzero bytes of the record lies within it, if what follows the record does not
start with a zero. -/
theorem first_within {first record rest later : Bytes} (h : first ++ later = record ++ rest)
    (hall : nonzeros first = nonzeros record) (hrest : rest.head? ≠ some 0) :
    ∃ zeros, record = first ++ zeros ∧ later = zeros ++ rest := by
  rcases List.append_eq_append_iff.mp h with ⟨a, ha, ha'⟩ | ⟨c, hc, hc'⟩
  · exact ⟨a, ha, ha'⟩
  · cases c with
    | nil =>
        rw [List.append_nil] at hc
        exact ⟨[], by rw [List.append_nil, hc], hc'.symm⟩
    | cons c cs =>
        rw [hc, nonzeros_append] at hall
        have hcs : nonzeros (c :: cs) = 0 := by omega
        rw [hc', List.cons_append, List.head?_cons, nonzeros_eq_zero.mp hcs c List.mem_cons_self] at hrest
        exact absurd rfl hrest

/-- Where only the records are read, no piece that starts with a zero is read. -/
theorem read_none_of_head {α : Type*} {read : Bytes → Option α} {rs : List (α × Bytes)}
    {segs : List Bytes} (hhead : ∀ r ∈ rs, ∀ s, read s = some r.1 → s.head? ≠ some 0)
    (hreads : segs.filterMap read = rs.map Prod.fst) :
    ∀ z ∈ segs, z.head? = some 0 → read z = none := by
  intro z hz hzero
  cases hr : read z with
  | none => rfl
  | some y =>
      have hy : y ∈ rs.map Prod.fst := by
        rw [← hreads]
        exact List.mem_filterMap.mpr ⟨z, hz, hr⟩
      obtain ⟨r, hr', rfl⟩ := List.mem_map.mp hy
      exact absurd hzero (hhead r hr' z hr)

/-- **Framing.** Pieces that are read as the records on the stream, and as nothing else, do not cross the end
of a record. -/
theorem grouped_of_reads {α : Type*} {read : Bytes → Option α} {w : α → Nat}
    (hbound : ∀ s x, read s = some x → w x ≤ nonzeros s) {rs : List (α × Bytes)}
    (hrecord : ∀ r ∈ rs, w r.1 = nonzeros r.2 ∧ ∃ b s, r.2 = b :: s ∧ b ≠ 0)
    (hhead : ∀ r ∈ rs, ∀ s, read s = some r.1 → s.head? ≠ some 0) {segs : List Bytes}
    (hne : ∀ s ∈ segs, s ≠ []) (hflatten : segs.flatten = (rs.map Prod.snd).flatten)
    (hreads : segs.filterMap read = rs.map Prod.fst) : Grouped read rs segs := by
  induction rs generalizing segs with
  | nil =>
      cases segs with
      | nil => exact .nil
      | cons s segs =>
          rw [List.map_nil, List.flatten_nil, List.flatten_cons, List.append_eq_nil_iff] at hflatten
          exact absurd hflatten.1 (hne s List.mem_cons_self)
  | cons r rs ih =>
      have hsum : ((segs.filterMap read).map w).sum = nonzeros segs.flatten := by
        rw [hreads, hflatten, sum_records fun r hr => (hrecord r hr).1]
      have hexact := reads_exact hbound hsum
      obtain ⟨x, bytes⟩ := r
      obtain ⟨hw, b, t, hb, hb0⟩ := hrecord _ List.mem_cons_self
      obtain rfl : bytes = b :: t := hb
      replace hw : w x = nonzeros (b :: t) := hw
      replace hflatten : segs.flatten = (b :: t) ++ (rs.map Prod.snd).flatten := hflatten
      obtain ⟨s, segs, rfl⟩ : ∃ s segs', segs = s :: segs' := by
        cases segs with
        | nil => cases hflatten
        | cons s segs => exact ⟨s, segs, rfl⟩
      obtain ⟨b', s', rfl⟩ := List.exists_cons_of_ne_nil (hne s List.mem_cons_self)
      rw [List.flatten_cons] at hflatten
      obtain rfl : b' = b := (List.cons.inj hflatten).1
      -- the first piece is read as the record, and holds all its bytes that are not 0
      have hread : read (b' :: s') = some x ∧ segs.filterMap read = rs.map Prod.fst := by
        cases hr : read (b' :: s') with
        | none =>
            have hnil := (hexact _ List.mem_cons_self).1 hr
            rw [nonzeros_cons hb0] at hnil
            cases hnil
        | some y =>
            rw [List.filterMap_cons_some hr, List.map_cons] at hreads
            obtain ⟨rfl, htail⟩ := List.cons.inj hreads
            exact ⟨rfl, htail⟩
      obtain ⟨hread, hreads⟩ := hread
      have hall := (hexact _ List.mem_cons_self).2 x hread
      have hrest : ((rs.map Prod.snd).flatten).head? ≠ some 0 :=
        head_records fun r hr => (hrecord r (List.mem_cons_of_mem _ hr)).2
      have hnone : ∀ z ∈ segs, z.head? = some 0 → read z = none :=
        read_none_of_head (fun r hr => hhead r (List.mem_cons_of_mem _ hr)) hreads
      obtain ⟨zeros, hzeros, hsegs⟩ := first_within hflatten (hall.symm.trans hw) hrest
      rw [hzeros, nonzeros_append] at hw
      obtain ⟨zs, segs', rfl, hzs, hsegs'⟩ := take_zeros
        (fun z hz => hne z (List.mem_cons_of_mem _ hz)) hsegs (by omega)
        (fun z hz h0 => (hexact z (List.mem_cons_of_mem _ hz)).1 (hnone z hz h0)) hrest
      have hzsne : ∀ z ∈ zs, z ≠ [] ∧ nonzeros z = 0 := by
        intro z hz
        have hle := nonzeros_mono (List.sublist_flatten_of_mem hz)
        rw [hzs] at hle
        exact ⟨hne z (List.mem_cons_of_mem _ (List.mem_append_left _ hz)), by omega⟩
      have hzsnone : zs.filterMap read = [] := by
        rw [List.filterMap_eq_nil_iff]
        intro z hz
        obtain ⟨hzne, hz0⟩ := hzsne z hz
        refine hnone z (List.mem_append_left _ hz) ?_
        obtain ⟨c, u, rfl⟩ := List.exists_cons_of_ne_nil hzne
        rw [List.head?_cons, nonzeros_eq_zero.mp hz0 c List.mem_cons_self]
      rw [List.filterMap_append, hzsnone, List.nil_append] at hreads
      have htail := ih (fun r hr => hrecord r (List.mem_cons_of_mem _ hr))
        (fun r hr => hhead r (List.mem_cons_of_mem _ hr))
        (fun z hz => hne z (List.mem_cons_of_mem _ (List.mem_append_right _ hz))) hsegs' hreads
      rw [hzeros, ← hzs]
      exact .cons hread hzsne htail

end Text
