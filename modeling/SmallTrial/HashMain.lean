import SmallTrial.HashSearch
import SmallTrial.TextDecimal
import SmallTrial.TextHex

/-! The program of the `SHA256` crate: the search with the crate's own hash function, and what `main` prints
about the message it receives. -/

namespace SmallTrial.Hash.Search

open Transition Text

/-! ### The hash of a candidate -/

/-- `Sha256::digest(&src)`, which does not panic on 16 bytes. -/
def sha (e : Endian) (src : Src) : Digest := (Hash.digest e src.toList).toOption.getD (.replicate 32 0)

theorem digest_src (e : Endian) (src : Src) : Hash.digest e src.toList = .ok (sha e src) := by
  have hlen : src.toList.length = 16 := Vector.length_toList
  have hok : Hash.digest e src.toList = _ := digest_ok e (by omega) (by omega)
  rw [sha, hok]
  rfl

theorem sha_toList (e : Endian) (src : Src) : (sha e src).toList = Fips.sha256 src.toList := by
  have hlen : src.toList.length = 16 := Vector.length_toList
  have hok : Hash.digest e src.toList = _ := digest_ok e (by omega) (by omega)
  rw [digest_src, Except.ok.injEq] at hok
  rw [hok, initialState_eq, foldl_dealOne, output_toState, Fips.sha256]

/-- The hash of a number, as a number. -/
def hashOf (m : Nat) : Nat := ofBeBytes (Fips.sha256 (toBeBytes16 m).toList)

theorem checkZero_sha (e : Endian) (m : Nat) : checkZero (sha e (toBeBytes16 m)) = true ↔ hashOf m < 2 ^ 225 := by
  rw [checkZero_iff, sha_toList, hashOf]

/-! ### What `main` prints -/

/-- What `main` has received. -/
def received (tr : List Event) : List Src :=
  tr.filterMap fun
    | .recv target => some target
    | _ => none

/-- The report on `target`, `ms` milliseconds after the start. -/
def report (digest : Src → Digest) (ms : Nat) (target : Src) : Bytes :=
  ascii "---Found target, time: " ++ digits ms ++ ascii "ms---\nsrc: 0x" ++ hex target.toList ++
    ascii "\nres: 0x" ++ hex (digest target).toList

def printed (digest : Src → Digest) (ms : Nat) (tr : List Event) : Bytes :=
  (received tr).flatMap (report digest ms)

/-- What `main` has received says where it stands. -/
def MainOk (seen : List Src) : Main → Prop
  | .recv => seen = []
  | .received target => seen = [target]
  | .returned => ∃ target, seen = [target]

theorem received_snoc (tr : List Event) (e : Event) : received (tr ++ [e]) = received tr ++ received [e] :=
  List.filterMap_append

theorem work_quiet {digest : Src → Digest} {s s' : State} {i : Fin 4} {e : Event}
    (h : s.work digest i = some (s', e)) : s'.main = s.main ∧ received [e] = [] := by
  unfold State.work at h
  split at h
  · cases h
    exact ⟨rfl, rfl⟩
  · split at h
    · split at h <;> cases h <;> exact ⟨rfl, rfl⟩
    · dsimp only at h
      split at h <;> cases h <;> exact ⟨rfl, rfl⟩
  · cases h
  · cases h

theorem mainOk_step {digest : Src → Digest} {tr : List Event} {s s' : State} {e : Event}
    (H : MainOk (received tr) s.main) (h : Step digest s e s') : MainOk (received (tr ++ [e])) s'.main := by
  rw [received_snoc]
  obtain ⟨i | _, h⟩ := h
  · rw [State.next, State.mainStep] at h
    split at h <;> cases h
    · rename_i hmain _
      rw [hmain] at H
      rw [H]
      rfl
    · rename_i hmain
      rw [hmain] at H
      exact ⟨_, by rw [H]; rfl⟩
  · obtain ⟨hmain, hnone⟩ := work_quiet h
    rw [hmain, hnone, List.append_nil]
    exact H

theorem mainOk_of_run {digest : Src → Digest} {tr : List Event} {s : State}
    (h : Run (Step digest) State.new tr s) : MainOk (received tr) s.main := by
  have hinit : MainOk (received []) State.new.main := rfl
  exact h.invariant (fun tr s => MainOk (received tr) s.main) hinit
    fun _ _ _ _ _ H hstep => mainOk_step H hstep

theorem mem_received {tr : List Event} {target : Src} (h : target ∈ received tr) : .recv target ∈ tr := by
  obtain ⟨e, he, heq⟩ := List.mem_filterMap.mp h
  cases e with
  | recv => rwa [← Option.some.inj heq]
  | _ => cases heq

/-- A text that reports `m` as a number found with the hash function `digest`. -/
structure Reports (digest : Src → Digest) (text : Bytes) (ms m : Nat) : Prop where
  printed : ∃ src res, text = ascii "---Found target, time: " ++ digits ms ++ ascii "ms---\nsrc: 0x" ++ src ++
    ascii "\nres: 0x" ++ res ∧ src.length = 32 ∧ res.length = 64 ∧
      ofHex src = some (toBeBytes16 m).toList ∧ ofHex res = some (digest (toBeBytes16 m)).toList
  base_le : base ≤ m
  lt : m < 2 ^ 128
  found : checkZero (digest (toBeBytes16 m)) = true
  least : ∀ m' ≥ base, m' < m → m' % 4 = m % 4 → checkZero (digest (toBeBytes16 m')) = false

/-- The same for SHA-256. -/
structure ReportsSha (text : Bytes) (ms m : Nat) : Prop where
  printed : ∃ src res, text = ascii "---Found target, time: " ++ digits ms ++ ascii "ms---\nsrc: 0x" ++ src ++
    ascii "\nres: 0x" ++ res ∧ src.length = 32 ∧ res.length = 64 ∧
      ofHex src = some (toBeBytes16 m).toList ∧ ofHex res = some (Fips.sha256 (toBeBytes16 m).toList)
  base_le : base ≤ m
  lt : m < 2 ^ 128
  found : hashOf m < 2 ^ 225
  least : ∀ m' ≥ base, m' < m → m' % 4 = m % 4 → 2 ^ 225 ≤ hashOf m'

theorem Reports.sha {e : Endian} {text : Bytes} {ms m : Nat} (h : Reports (sha e) text ms m) :
    ReportsSha text ms m where
  printed := by
    rw [← sha_toList e]
    exact h.printed
  base_le := h.base_le
  lt := h.lt
  found := (checkZero_sha e m).mp h.found
  least := by
    intro m' hbase hlt hmod
    have hfalse := h.least m' hbase hlt hmod
    rwa [← Bool.not_eq_true, checkZero_sha, Nat.not_lt] at hfalse

theorem candidate_of_mod {i : Fin 4} {k m' : Nat} (hbase : base ≤ m') (hlt : m' < candidate i k)
    (hmod : m' % 4 = candidate i k % 4) : ∃ k' < k, m' = candidate i k' := by
  refine ⟨(m' - base) / 4, ?_, ?_⟩ <;> unfold candidate at * <;> omega

theorem reports_of_least {digest : Src → Digest} {i : Fin 4} {k : Nat} (h : Least digest i k) (ms : Nat) :
    Reports digest (report digest ms (source i k)) ms (candidate i k) := by
  refine ⟨⟨_, _, rfl, ?_, ?_, ofHex_hex _, ofHex_hex _⟩, ?_, h.lt, h.zero, fun m' hbase hlt hmod => ?_⟩
  · rw [length_hex, Vector.length_toList]
  · rw [length_hex, Vector.length_toList]
  · unfold candidate
    omega
  · obtain ⟨k', hk', rfl⟩ := candidate_of_mod hbase hlt hmod
    exact h.least k' hk'

/-- **What the program prints.** Whatever the hash function and the order in which its four workers run, the
program prints nothing before it has received a message, and once it returns it has printed one report: in
hexadecimal a number from `base` on and its hash, which starts with 31 zero bits as that of no smaller number
from `base` on with the same remainder by 4 does. With the crate's own hash function that is SHA-256. -/
theorem main_reports {digest : Src → Digest} {tr : List Event} {s : State}
    (h : Run (Step digest) State.new tr s) (ms : Nat) :
    (s.main = .recv → printed digest ms tr = []) ∧
      (s.main = .returned → ∃ m, Reports digest (printed digest ms tr) ms m ∧
        ∀ e, digest = sha e → ReportsSha (printed digest ms tr) ms m) := by
  have hmain := mainOk_of_run h
  constructor
  · intro hrecv
    rw [hrecv] at hmain
    rw [printed, hmain]
    rfl
  · intro hreturned
    rw [hreturned] at hmain
    obtain ⟨target, htarget⟩ := hmain
    have H := SearchOk.of_run h
    obtain ⟨i, hi⟩ := H.recv target (mem_received (by rw [htarget]; exact List.mem_cons_self))
    obtain ⟨k, hk, rfl⟩ := H.send i target hi
    rw [printed, htarget, List.flatMap_singleton]
    refine ⟨_, reports_of_least hk ms, ?_⟩
    rintro e rfl
    exact (reports_of_least hk ms).sha

/-- `main` returns after the message of worker 1, while worker 0 has hashed its first candidate. -/
theorem main_reports_sample : ∃ tr s, Run (Step sampleDigest) State.new tr s ∧ s.main = .returned ∧
    hashed 0 tr = [source 0 0] ∧ ∃ m, Reports sampleDigest (printed sampleDigest 7 tr) 7 m := by
  have hreplay : (replay (State.next sampleDigest) State.new
      [some 1, some 0, some 1, some 1, some 1, none, none]).map (fun r =>
        decide (r.1.main = .returned ∧ hashed 0 r.2 = [source 0 0])) = some true := by decide +kernel
  obtain ⟨⟨s, tr⟩, hrun, hreturns⟩ := Option.map_eq_some_iff.mp hreplay
  obtain ⟨hreturned, hhashed⟩ := of_decide_eq_true hreturns
  have h : Run (Step sampleDigest) State.new tr s := Run.of_replay (fun _ p _ _ hp => ⟨p, hp⟩) hrun
  obtain ⟨m, hm, -⟩ := (main_reports h 7).2 hreturned
  exact ⟨tr, s, h, hreturned, hhashed, m, hm⟩

end SmallTrial.Hash.Search
