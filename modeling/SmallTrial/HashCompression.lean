import SmallTrial.HashReference

/-! `deal_one` is the compression of FIPS 180-4: the loop over `w` computes the message schedule, and
the assignments that rotate `state` in place are one round on the working variables. -/

namespace SmallTrial.Hash

/-- What every iteration of a counted loop keeps holds after the loop. -/
theorem fold_invariant {α : Type*} {n : Nat} {f : (i : Nat) → i < n → α → α} {a : α}
    (P : Nat → α → Prop) (hinit : P 0 a) (hstep : ∀ i hi b, P i b → P (i + 1) (f i hi b)) :
    P n (Nat.fold n f a) := by
  induction n with
  | zero => exact hinit
  | succ n ih =>
      rw [Nat.fold_succ]
      exact hstep n _ _ (ih fun i hi b hb => hstep i _ b hb)

/-! ### Constants -/

theorem primes_eq : Fips.primes = [2, 3, 5, 7, 11, 13, 17, 19, 23, 29, 31, 37, 41, 43, 47, 53, 59, 61,
    67, 71, 73, 79, 83, 89, 97, 101, 103, 107, 109, 113, 127, 131, 137, 139, 149, 151, 157, 163, 167,
    173, 179, 181, 191, 193, 197, 199, 211, 223, 227, 229, 233, 239, 241, 251, 257, 263, 269, 271, 277,
    281, 283, 293, 307, 311] := by decide +kernel

theorem K_eq (i : Fin 64) : K[i] = Fips.K i := by
  unfold Fips.K
  rw [primes_eq]
  decide +kernel +revert

/-- The state that holds the words of a hash value. -/
def Fips.Vars.toState (v : Vars) : HashState := #v[v.a, v.b, v.c, v.d, v.e, v.f, v.g, v.h]

theorem initialState_eq : initialState = Fips.initialHash.toState := by
  unfold Fips.initialHash Fips.H
  rw [primes_eq]
  decide +kernel

/-! ### The message schedule -/

theorem loadWords_get (block : Block) {t : Nat} (ht : t < 16) :
    (loadWords block)[t] = Fips.schedule block t := by
  rw [Fips.schedule, dif_pos ht, loadWords, Vector.getElem_ofFn, dif_pos ht]
  rfl

theorem extendWords_get {i : Nat} (hlo : 16 ≤ i) (hhi : i < 64) (w : Vector Word 64) {t : Nat}
    (ht : t < 64) :
    (extendWords i hlo hhi w)[t] =
      if t = i then w[i - 16] + Fips.smallSigma0 w[i - 15] + w[i - 7] + Fips.smallSigma1 w[i - 2]
      else w[t] := by
  rw [extendWords, Vector.getElem_set]
  simp only [eq_comm (a := i)]
  rfl

/-- After `j` iterations the first `16 + j` words are those of the schedule. -/
theorem extendWords_schedule (block : Block) {j : Nat} (hj : j < 48) {w : Vector Word 64}
    (hw : ∀ t (ht : t < 64), t < 16 + j → w[t] = Fips.schedule block t) (t : Nat) (ht : t < 64)
    (hlt : t < 16 + (j + 1)) :
    (extendWords (16 + j) (by omega) (by omega) w)[t] = Fips.schedule block t := by
  rw [extendWords_get]
  split
  · rename_i he
    subst he
    rw [hw (16 + j - 16) (by omega) (by omega), hw (16 + j - 15) (by omega) (by omega),
      hw (16 + j - 7) (by omega) (by omega), hw (16 + j - 2) (by omega) (by omega)]
    conv_rhs => rw [Fips.schedule, dif_neg (by omega)]
    ac_rfl
  · exact hw t ht (by omega)

theorem messageWords_get (block : Block) {t : Nat} (ht : t < 64) :
    (messageWords block)[t] = Fips.schedule block t :=
  fold_invariant (fun j w => ∀ t (ht : t < 64), t < 16 + j → w[t] = Fips.schedule block t)
    (fun _ _ hlt => loadWords_get block hlt)
    (fun _ hj _ hw => extendWords_schedule block hj hw) t ht (by omega)

/-! ### The rounds -/

theorem rotateState_toState (k w : Word) (v : Fips.Vars) :
    rotateState k w v.toState = (v.round k w).toState := by
  simp [rotateState, Fips.Vars.toState, Fips.Vars.round, Fips.ch, Fips.maj, Fips.bigSigma0,
    Fips.bigSigma1]

theorem runRounds_toState (v : Fips.Vars) (block : Block) :
    runRounds (messageWords block) v.toState = (Fips.rounds v block 64).toState := by
  refine fold_invariant (fun i state => state = (Fips.rounds v block i).toState) rfl ?_
  intro i hi state hstate
  have hk : K[i] = Fips.K i := K_eq ⟨i, hi⟩
  rw [hstate, rotateState_toState, hk, messageWords_get block hi, Fips.rounds]

theorem zipWith_toState (hash v : Fips.Vars) :
    Vector.zipWith (· + ·) hash.toState v.toState = (hash.addTo v).toState := by
  ext1 i hi
  rw [Vector.getElem_zipWith, BitVec.add_comm]
  match i, hi with
  | 0, _ | 1, _ | 2, _ | 3, _ | 4, _ | 5, _ | 6, _ | 7, _ => rfl

/-- **`deal_one` is the compression function.** -/
theorem dealOne_eq_compress (hash : Fips.Vars) (block : Block) :
    dealOne hash.toState block = (Fips.compress hash block).toState := by
  rw [Fips.compress, dealOne, runRounds_toState, zipWith_toState]

end SmallTrial.Hash
