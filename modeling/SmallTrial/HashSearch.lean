import SmallTrial.HashEncoding
import SmallTrial.TransitionRun

/-! The search in `main` of the `SHA256` crate: four workers count in steps of four, hash each number
and send the first one whose hash starts with 31 zero bits, and `main` takes the first message. The hash
function is a parameter. The addition on `cnt` is checked, as in a debug build. -/

namespace SmallTrial.Hash.Search

open Transition

abbrev Src := Vector Byte 16
abbrev Digest := Vector Byte 32

/-- The first candidate of worker 0. -/
def base : Nat := 0xd72f345a

/-- `u128::to_be_bytes` -/
def toBeBytes16 (n : Nat) : Src := .ofFn fun i => BitVec.ofNat 8 (n >>> (8 * (15 - i.val)))

def checkZero (s : Digest) : Bool := s[0] == 0 && s[1] == 0 && s[2] == 0 && s[3] &&& 0xFE == 0

/-- Where a worker stands: before its first statement, at the head of its loop with its variables, or
after it has sent its message or panicked. -/
inductive Worker where
  | spawned
  | loop (cnt : Nat) (src : Src) (res : Digest)
  | sent
  | panicked

/-- Where `main` stands: at `receiver.recv()`, with the target, or after its end, which drops the
receiver. -/
inductive Main where
  | recv
  | received (target : Src)
  | returned
  deriving DecidableEq

structure State where
  worker : Fin 4 → Worker
  channel : List Src
  main : Main

inductive Event where
  /-- `Sha256::digest(&src)` in worker `i` -/
  | digest (i : Fin 4) (src : Src)
  | send (i : Fin 4) (src : Src)
  | panic (i : Fin 4)
  | recv (target : Src)
  | returned
  deriving DecidableEq

def State.new : State := ⟨fun _ => .spawned, [], .recv⟩

namespace State

def setWorker (s : State) (i : Fin 4) (w : Worker) : State :=
  { s with worker := Function.update s.worker i w }

variable (digest : Src → Digest)

/-- The next step of worker `i`: its first statements, an iteration of its loop, or the statement
after the loop. -/
def work (s : State) (i : Fin 4) : Option (State × Event) :=
  match s.worker i with
  | .spawned =>
      let cnt := i + base
      let src := toBeBytes16 cnt
      some (s.setWorker i (.loop cnt src (digest src)), .digest i src)
  | .loop cnt src res =>
      if checkZero res then
        match s.main with
        -- the receiver is gone, or a worker that has found it gone has poisoned the mutex
        | .returned => some (s.setWorker i .panicked, .panic i)
        | .recv | .received _ =>
            some ({ s with channel := s.channel ++ [src] }.setWorker i .sent, .send i src)
      else
        let src := toBeBytes16 cnt
        let res := digest src
        if cnt + 4 < 2 ^ 128 then some (s.setWorker i (.loop (cnt + 4) src res), .digest i src)
        else some (s.setWorker i .panicked, .digest i src)
  | .sent | .panicked => none

/-- The next step of `main`. -/
def mainStep (s : State) : Option (State × Event) :=
  match s.main, s.channel with
  | .recv, target :: rest => some ({ s with channel := rest, main := .received target }, .recv target)
  | .recv, [] => none
  | .received _, _ => some ({ s with main := .returned }, .returned)
  | .returned, _ => none

/-- `some i` lets worker `i` take a step, `none` lets `main`. -/
def next (s : State) : Option (Fin 4) → Option (State × Event)
  | some i => s.work digest i
  | none => s.mainStep

end State

variable (digest : Src → Digest)

def Step (s : State) (e : Event) (s' : State) : Prop := ∃ p, s.next digest p = some (s', e)

/-! ### Candidates -/

/-- The number a worker hashes in iteration `k` of its loop, counted from 0. -/
def candidate (i : Fin 4) (k : Nat) : Nat := base + i + 4 * k

/-- Every number from `base` on is a candidate of exactly one worker. -/
theorem candidate_unique {m : Nat} (hm : base ≤ m) : ∃! i, ∃ k, m = candidate i k := by
  refine ⟨⟨(m - base) % 4, Nat.mod_lt _ (by decide)⟩, ⟨(m - base) / 4, ?_⟩, ?_⟩
  · show m = base + (m - base) % 4 + 4 * ((m - base) / 4)
    omega
  · rintro ⟨j, hj⟩ ⟨k, hk⟩
    have hk' : m = base + j + 4 * k := hk
    refine Fin.ext ?_
    show j = (m - base) % 4
    omega

theorem toBeBytes16_toList (n : Nat) : (toBeBytes16 n).toList =
    (List.range 16).map fun i => BitVec.ofNat 8 (n >>> (8 * (16 - 1 - i))) := by
  refine List.ext_getElem ?_ fun i hi hi' => ?_
  · rw [Vector.length_toList, List.length_map, List.length_range]
  · rw [Vector.getElem_toList, List.getElem_map, List.getElem_range]
    exact Vector.getElem_ofFn _

theorem ofBeBytes_toBeBytes16 {n : Nat} (hn : n < 2 ^ 128) : ofBeBytes (toBeBytes16 n).toList = n := by
  rw [toBeBytes16_toList, ofBeBytes_shiftRight]
  exact Nat.mod_eq_of_lt hn

/-! ### The zero bits -/

theorem toList_eq_cons (s : Digest) : s.toList = s[0] :: s[1] :: s[2] :: s[3] :: s.toList.drop 4 := by
  have hlen : s.toList.length = 32 := Vector.length_toList
  have hcons : ∀ i (hi : i < 32), s.toList.drop i = s[i] :: s.toList.drop (i + 1) := by
    intro i hi
    rw [List.drop_eq_getElem_cons (by omega), Vector.getElem_toList]
  rw [← hcons 3, ← hcons 2, ← hcons 1, ← hcons 0, List.drop_zero]

/-- `check_zero` compares the digest, read as a big-endian number, with `2 ^ 225`. -/
theorem checkZero_iff (s : Digest) : checkZero s = true ↔ ofBeBytes s.toList < 2 ^ 225 := by
  have hrest := ofBeBytes_lt (s.toList.drop 4)
  have hlen : (s.toList.drop 4).length = 28 := by rw [List.length_drop, Vector.length_toList]
  have hvalue : ofBeBytes s.toList =
      (((s[0].toNat * 256 + s[1].toNat) * 256 + s[2].toNat) * 256 + s[3].toNat) * 256 ^ 28 +
        ofBeBytes (s.toList.drop 4) := by
    have happend := ofBeBytes_append [s[0], s[1], s[2], s[3]] (s.toList.drop 4)
    have hfour : ofBeBytes [s[0], s[1], s[2], s[3]] =
        ((s[0].toNat * 256 + s[1].toNat) * 256 + s[2].toNat) * 256 + s[3].toNat := by simp [ofBeBytes]
    rw [hlen, hfour] at happend
    rw [← happend, toList_eq_cons]
    rfl
  rw [hlen] at hrest
  have hbits : ∀ b : Byte, b &&& 0xFE = 0 ↔ b.toNat < 2 := by decide
  have hzero : ∀ b : Byte, b = 0 ↔ b.toNat = 0 := fun b => by rw [← BitVec.toNat_inj]; rfl
  simp only [checkZero, Bool.and_eq_true, beq_iff_eq, hbits, hzero]
  rw [hvalue]
  omega

/-! ### The runs -/

/-- Candidate `k` of worker `i` in the form that is hashed. -/
def source (i : Fin 4) (k : Nat) : Src := toBeBytes16 (candidate i k)

/-- What worker `i` has hashed after `n` iterations: its first candidate before the loop, and then its
first `n` candidates. -/
def segment (i : Fin 4) (n : Nat) : List Src := source i 0 :: (List.range n).map (source i)

/-- What worker `i` has hashed in a run, oldest first. -/
def hashed (i : Fin 4) (tr : List Event) : List Src :=
  tr.filterMap fun
    | .digest j src => if j = i then some src else none
    | _ => none

/-- Candidate `k` is the first one of worker `i` whose digest passes `check_zero`. -/
structure Least (i : Fin 4) (k : Nat) : Prop where
  lt : candidate i k < 2 ^ 128
  zero : checkZero (digest (source i k)) = true
  least : ∀ k' < k, checkZero (digest (source i k')) = false

/-- How the variables of worker `i` and what it has hashed are related; `n` counts the iterations. -/
def WorkerOk (i : Fin 4) (seen : List Src) : Worker → Prop
  | .spawned => seen = []
  | .loop cnt src res => ∃ n, seen = segment i n ∧ cnt = candidate i n ∧ cnt < 2 ^ 128 ∧
      src = source i (n - 1) ∧ res = digest src ∧
      ∀ k, k + 1 < n → checkZero (digest (source i k)) = false
  | .sent | .panicked => ∃ n, seen = segment i n ∧ ∀ k < n, candidate i k < 2 ^ 128

structure SearchOk (tr : List Event) (s : State) : Prop where
  worker : ∀ i, WorkerOk digest i (hashed i tr) (s.worker i)
  send : ∀ i src, .send i src ∈ tr → ∃ k, Least digest i k ∧ src = source i k
  channel : ∀ src ∈ s.channel, ∃ i, .send i src ∈ tr
  recv : ∀ target, .recv target ∈ tr → ∃ i, .send i target ∈ tr

variable {digest}

theorem candidate_zero (i : Fin 4) : i + base = candidate i 0 := Nat.add_comm ..

theorem candidate_succ (i : Fin 4) (n : Nat) : candidate i n + 4 = candidate i (n + 1) := rfl

theorem candidate_mono (i : Fin 4) {k n : Nat} (h : k ≤ n) : candidate i k ≤ candidate i n := by
  unfold candidate
  omega

theorem segment_succ (i : Fin 4) (n : Nat) : segment i (n + 1) = segment i n ++ [source i n] := by
  rw [segment, List.range_succ, List.map_append, List.map_singleton, segment, List.cons_append]

theorem hashed_snoc (i : Fin 4) (tr : List Event) (e : Event) :
    hashed i (tr ++ [e]) = hashed i tr ++ hashed i [e] := List.filterMap_append

theorem hashed_digest (i : Fin 4) (tr : List Event) (src : Src) :
    hashed i (tr ++ [.digest i src]) = hashed i tr ++ [src] := by
  rw [hashed_snoc]
  simp [hashed]

/-- What `loop` says about the candidate of the last digest. -/
theorem WorkerOk.least {i : Fin 4} {seen : List Src} {cnt : Nat} {src : Src} {res : Digest}
    (h : WorkerOk digest i seen (.loop cnt src res)) (hzero : checkZero res = true) :
    ∃ k, Least digest i k ∧ src = source i k := by
  obtain ⟨n, -, rfl, hlt, rfl, rfl, hleast⟩ := h
  refine ⟨n - 1, ⟨?_, hzero, fun k hk => hleast k (by omega)⟩, rfl⟩
  exact Nat.lt_of_le_of_lt (candidate_mono i (Nat.sub_le n 1)) hlt

/-- An iteration hashes the next candidate, whether the addition after it overflows or not. -/
theorem WorkerOk.iterate {i : Fin 4} {seen : List Src} {cnt : Nat} {src : Src} {res : Digest}
    (h : WorkerOk digest i seen (.loop cnt src res)) (hzero : checkZero res = false) :
    (cnt + 4 < 2 ^ 128 → WorkerOk digest i (seen ++ [toBeBytes16 cnt])
      (.loop (cnt + 4) (toBeBytes16 cnt) (digest (toBeBytes16 cnt)))) ∧
    WorkerOk digest i (seen ++ [toBeBytes16 cnt]) .panicked := by
  obtain ⟨n, rfl, rfl, hlt, rfl, rfl, hleast⟩ := h
  have hseen : segment i n ++ [toBeBytes16 (candidate i n)] = segment i (n + 1) := (segment_succ i n).symm
  rw [hseen]
  constructor
  · intro hnext
    refine ⟨n + 1, rfl, candidate_succ i n, hnext, rfl, rfl, fun k hk => ?_⟩
    by_cases hlast : k + 1 < n
    · exact hleast k hlast
    · obtain rfl : k = n - 1 := by omega
      exact hzero
  · refine ⟨n + 1, rfl, fun k hk => ?_⟩
    exact Nat.lt_of_le_of_lt (candidate_mono i (Nat.le_of_lt_succ hk)) hlt

/-- A worker that leaves its loop has hashed a segment of its candidates. -/
theorem WorkerOk.leave {i : Fin 4} {seen : List Src} {cnt : Nat} {src : Src} {res : Digest}
    (h : WorkerOk digest i seen (.loop cnt src res)) : WorkerOk digest i seen .sent := by
  obtain ⟨n, rfl, rfl, hlt, -, -, -⟩ := h
  exact ⟨n, rfl, fun k hk => Nat.lt_of_le_of_lt (candidate_mono i (Nat.le_of_lt hk)) hlt⟩

namespace SearchOk

variable {tr : List Event} {s s' : State} {e : Event}

theorem init : SearchOk digest [] State.new where
  worker := fun _ => rfl
  send := fun _ _ h => absurd h List.not_mem_nil
  channel := fun _ h => absurd h List.not_mem_nil
  recv := fun _ h => absurd h List.not_mem_nil

/-- A step that moves worker `i`, and puts into the channel only what it reports to send. -/
theorem move (H : SearchOk digest tr s) {i : Fin 4} {w : Worker}
    (hworker : s'.worker = Function.update s.worker i w)
    (hw : WorkerOk digest i (hashed i (tr ++ [e])) w) (hother : ∀ j ≠ i, hashed j [e] = [])
    (hsend : ∀ j src, e = .send j src → ∃ k, Least digest j k ∧ src = source j k)
    (hchannel : ∀ src ∈ s'.channel, src ∈ s.channel ∨ e = .send i src)
    (hrecv : ∀ target, e ≠ .recv target) : SearchOk digest (tr ++ [e]) s' where
  worker := by
    intro j
    rw [hworker]
    by_cases hj : j = i
    · rw [hj, Function.update_self]
      exact hw
    · rw [Function.update_of_ne hj, hashed_snoc, hother j hj, List.append_nil]
      exact H.worker j
  send := by
    intro j src h
    rcases List.mem_append.mp h with h | h
    · exact H.send j src h
    · exact hsend j src (List.mem_singleton.mp h).symm
  channel := by
    intro src h
    rcases hchannel src h with h | h
    · obtain ⟨j, hj⟩ := H.channel src h
      exact ⟨j, List.mem_append_left _ hj⟩
    · exact ⟨i, List.mem_append_right _ (List.mem_singleton.mpr h.symm)⟩
  recv := by
    intro target h
    rcases List.mem_append.mp h with h | h
    · obtain ⟨j, hj⟩ := H.recv target h
      exact ⟨j, List.mem_append_left _ hj⟩
    · exact absurd (List.mem_singleton.mp h).symm (hrecv target)

/-- A step of a worker that hashes `src`. -/
theorem hash (H : SearchOk digest tr s) {i : Fin 4} {src : Src} {w : Worker}
    (hw : WorkerOk digest i (hashed i tr ++ [src]) w) :
    SearchOk digest (tr ++ [.digest i src]) (s.setWorker i w) := by
  refine H.move (i := i) rfl (by rwa [hashed_digest]) ?_ ?_ (fun _ h => .inl h) ?_
  · intro j hj
    simp [hashed, Ne.symm hj]
  · rintro j src' ⟨⟩
  · rintro target ⟨⟩

theorem work (H : SearchOk digest tr s) {i : Fin 4} (h : s.work digest i = some (s', e)) :
    SearchOk digest (tr ++ [e]) s' := by
  have hw := H.worker i
  rw [State.work] at h
  cases hworker : s.worker i with
  | spawned =>
      rw [hworker] at h hw
      cases h
      refine H.hash ?_
      have hseen : hashed i tr = [] := hw
      rw [hseen, candidate_zero]
      refine ⟨0, rfl, rfl, ?_, rfl, rfl, fun k hk => by omega⟩
      have hi := i.isLt
      show base + i + 4 * 0 < 2 ^ 128
      unfold base
      omega
  | loop cnt src res =>
      rw [hworker] at h hw
      dsimp only at h
      by_cases hzero : checkZero res = true
      · rw [if_pos hzero] at h
        have hsnoc : ∀ e, hashed i [e] = [] → hashed i (tr ++ [e]) = hashed i tr := fun e he => by
          rw [hashed_snoc, he, List.append_nil]
        cases hmain : s.main with
        | returned =>
            rw [hmain] at h
            cases h
            refine H.move rfl ?_ (fun _ _ => rfl) (by rintro j src' ⟨⟩) (fun _ h => .inl h)
              (by rintro target ⟨⟩)
            rw [hsnoc _ rfl]
            exact hw.leave
        | recv | received =>
            rw [hmain] at h
            cases h
            refine H.move rfl ?_ (fun _ _ => rfl) ?_ ?_ (by rintro target ⟨⟩)
            · rw [hsnoc _ rfl]
              exact hw.leave
            · rintro j src' ⟨⟩
              exact hw.least hzero
            · intro src' h'
              rcases List.mem_append.mp h' with h' | h'
              · exact .inl h'
              · exact .inr (by rw [List.mem_singleton.mp h'])
      · rw [Bool.not_eq_true] at hzero
        rw [hzero, if_neg Bool.false_ne_true] at h
        obtain ⟨hnext, hover⟩ := hw.iterate hzero
        split at h <;> cases h
        · exact H.hash (hnext ‹_›)
        · exact H.hash hover
  | sent | panicked =>
      rw [hworker] at h
      cases h

/-- A step of `main`, which hashes nothing and receives only what is in the channel. -/
theorem mainStep (H : SearchOk digest tr s) (h : s.mainStep = some (s', e)) :
    SearchOk digest (tr ++ [e]) s' := by
  have hstep : s'.worker = s.worker ∧ (∀ i, hashed i [e] = []) ∧ (∀ i src, e ≠ .send i src) ∧
      (∀ src ∈ s'.channel, src ∈ s.channel) ∧ ∀ target, e = .recv target → target ∈ s.channel := by
    rw [State.mainStep] at h
    split at h <;> cases h
    · rename_i target rest _ hchannel
      rw [hchannel]
      refine ⟨rfl, fun _ => rfl, by rintro i src ⟨⟩, fun _ => List.mem_cons_of_mem _, ?_⟩
      rintro target' ⟨⟩
      exact List.mem_cons_self
    · exact ⟨rfl, fun _ => rfl, by rintro i src ⟨⟩, fun _ h => h, by rintro target' ⟨⟩⟩
  obtain ⟨hworker, hhash, hsend, hchannel, hrecv⟩ := hstep
  refine ⟨fun i => ?_, fun i src h => ?_, fun src h => ?_, fun target h => ?_⟩
  · rw [hworker, hashed_snoc, hhash, List.append_nil]
    exact H.worker i
  · rcases List.mem_append.mp h with h | h
    · exact H.send i src h
    · exact absurd (List.mem_singleton.mp h).symm (hsend i src)
  · obtain ⟨i, hi⟩ := H.channel src (hchannel src h)
    exact ⟨i, List.mem_append_left _ hi⟩
  · have hsent : ∃ i, Event.send i target ∈ tr := by
      rcases List.mem_append.mp h with h | h
      · exact H.recv target h
      · exact H.channel target (hrecv target (List.mem_singleton.mp h).symm)
    obtain ⟨i, hi⟩ := hsent
    exact ⟨i, List.mem_append_left _ hi⟩

theorem step (H : SearchOk digest tr s) (h : Step digest s e s') : SearchOk digest (tr ++ [e]) s' := by
  obtain ⟨i | _, h⟩ := h
  · exact H.mainStep h
  · exact H.work h

theorem of_run (h : Run (Step digest) State.new tr s) : SearchOk digest tr s :=
  h.invariant (SearchOk digest) init fun _ _ _ _ _ H hstep => H.step hstep

/-- What a worker has hashed, in every position of the worker. -/
theorem segment (H : SearchOk digest tr s) (i : Fin 4) :
    hashed i tr = [] ∨ ∃ n, hashed i tr = Search.segment i n ∧ ∀ k < n, candidate i k < 2 ^ 128 := by
  have hw := H.worker i
  cases hworker : s.worker i with
  | spawned =>
      rw [hworker] at hw
      exact .inl hw
  | loop =>
      rw [hworker] at hw
      exact .inr hw.leave
  | sent | panicked =>
      rw [hworker] at hw
      exact .inr hw

end SearchOk

/-- The numbers a worker has hashed. -/
def examined (i : Fin 4) (tr : List Event) : List Nat :=
  (hashed i tr).map fun src => ofBeBytes src.toList

theorem segment_values {i : Fin 4} {n : Nat} (h : ∀ k < n, candidate i k < 2 ^ 128) :
    (segment i n).map (fun src => ofBeBytes src.toList) =
      candidate i 0 :: (List.range n).map (candidate i) := by
  have hvalue : ∀ k, candidate i k < 2 ^ 128 → ofBeBytes (source i k).toList = candidate i k :=
    fun k hk => ofBeBytes_toBeBytes16 hk
  have hzero : candidate i 0 < 2 ^ 128 := by
    have hi := i.isLt
    unfold candidate base
    omega
  have hmap : (List.range n).map ((fun src => ofBeBytes src.toList) ∘ source i) =
      (List.range n).map (candidate i) := by
    refine List.map_congr_left fun k hk => ?_
    rw [Function.comp_apply, hvalue k (h k (List.mem_range.mp hk))]
  rw [segment, List.map_cons, List.map_map, hmap, hvalue 0 hzero]

/-- What a run of the search shows: the numbers of each worker, the four shares of the numbers, and
what is sent and received. -/
structure Correct (digest : Src → Digest) (tr : List Event) : Prop where
  examined : ∀ i, examined i tr = [] ∨
    ∃ n, examined i tr = candidate i 0 :: (List.range n).map (candidate i)
  shared : ∀ m ≥ base, ∃! i, ∃ k, m = candidate i k
  sent : ∀ i src, .send i src ∈ tr → ∃ k, src = toBeBytes16 (candidate i k) ∧
    candidate i k < 2 ^ 128 ∧ ofBeBytes (digest src).toList < 2 ^ 225 ∧
    ∀ k' < k, ¬ofBeBytes (digest (toBeBytes16 (candidate i k'))).toList < 2 ^ 225
  received : ∀ target, .recv target ∈ tr → checkZero (digest target) = true ∧
    ∃ i k, .send i target ∈ tr ∧ target = toBeBytes16 (candidate i k) ∧
      ∀ k' < k, checkZero (digest (toBeBytes16 (candidate i k'))) = false

/-- **The search is correct** for every digest function and every scheduling. -/
theorem search_correct {digest : Src → Digest} {tr : List Event} {s : State}
    (h : Run (Step digest) State.new tr s) : Correct digest tr := by
  have H := SearchOk.of_run h
  refine ⟨fun i => ?_, fun m hm => candidate_unique hm, fun i src hsend => ?_, fun target hrecv => ?_⟩
  · rcases H.segment i with hnil | ⟨n, hseg, hlt⟩
    · exact .inl (by rw [Search.examined, hnil, List.map_nil])
    · exact .inr ⟨n, by rw [Search.examined, hseg, segment_values hlt]⟩
  · obtain ⟨k, hk, rfl⟩ := H.send i src hsend
    refine ⟨k, rfl, hk.lt, (checkZero_iff _).mp hk.zero, fun k' hk' => ?_⟩
    rw [← checkZero_iff, Bool.not_eq_true]
    exact hk.least k' hk'
  · obtain ⟨i, hi⟩ := H.recv target hrecv
    obtain ⟨k, hk, rfl⟩ := H.send i target hi
    exact ⟨hk.zero, i, k, hi, rfl, hk.least⟩

/-- A digest function that passes the test on the number `base + 5` only. -/
def sampleDigest (src : Src) : Digest :=
  if src = toBeBytes16 (base + 5) then .replicate 32 0 else .replicate 32 0xff

/-- Worker 1 finds its second candidate, while worker 0 has hashed its first one. -/
theorem search_correct_sample : ∃ tr s, Run (Step sampleDigest) State.new tr s ∧
    .recv (toBeBytes16 (base + 5)) ∈ tr ∧ Correct sampleDigest tr := by
  have hreplay : (replay (State.next sampleDigest) State.new
      [some 1, some 0, some 1, some 1, some 1, none]).map (fun r =>
        decide (.recv (toBeBytes16 (base + 5)) ∈ r.2)) = some true := by decide +kernel
  obtain ⟨⟨s, tr⟩, hrun, hrecv⟩ := Option.map_eq_some_iff.mp hreplay
  have h : Run (Step sampleDigest) State.new tr s := Run.of_replay (fun _ p _ _ hp => ⟨p, hp⟩) hrun
  exact ⟨tr, s, h, of_decide_eq_true hrecv, search_correct h⟩

end SmallTrial.Hash.Search
