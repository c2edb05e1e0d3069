import SmallTrial.NumberRounding

/-! `get_tracks` of the crawlers, the steps in which `move` drags the slider of a captcha over a distance: the
way of a body that accelerates from rest, in `float`s that are rounded to 53 bits, every step rounded to an
integer for the mouse. -/

namespace SmallTrial.Crawler

open Rounding

/-! ### `get_tracks` -/

/-- What Python raises for a local variable without a value. -/
inductive PyError where
  | unboundLocalError
  deriving DecidableEq

/-- The local variables. -/
structure Locals where
  v : ℚ
  current : ℚ
  move : Option ℚ
  tracks : List ℤ
  deriving DecidableEq

/-- The `float` nearest to 0.1. -/
def t : ℚ := fl 53 (1 / 10)

def a : ℚ := 100

def start : Locals := { v := 0, current := 0, move := none, tracks := [] }

/-- The body of the loop. -/
def turn (s : Locals) : Locals :=
  let move := fl 53 (fl 53 (s.v * t) + fl 53 (fl 53 (1 / 2 * a) * fl 53 (t * t)))
  { v := fl 53 (s.v + fl 53 (a * t))
    current := fl 53 (s.current + move)
    move := some move
    tracks := s.tracks ++ [roundEven move] }

/-- `while current < self.distance` -/
def loop (distance : ℚ) : Nat → Locals → Option Locals
  | 0, _ => none
  | fuel + 1, s => if s.current < distance then loop distance fuel (turn s) else some s

/-- What is appended behind the loop. -/
def last (distance move current : ℚ) : ℤ := roundEven (fl 53 (fl 53 (distance + move) - current))

def getTracks (fuel : Nat) (distance : ℚ) : Option (Except PyError (List ℤ)) := do
  let s ← loop distance fuel start
  match s.move with
  | none => return .error .unboundLocalError
  | some move => return .ok (s.tracks ++ [last distance move s.current])

/-- The offsets of the mouse in `move`: the slider is pushed once more and drawn back. -/
def move (fuel : Nat) (distance : ℚ) : Option (Except PyError (List ℤ)) :=
  (getTracks fuel distance).map fun result => result.map (· ++ [4, -4])

/-- `solve_pic` of `jd.py` for the column that `locate_pic` returns. -/
def solvePic (column : Nat) : ℚ := fl 53 (fl 53 (column * 278 / 360) - 12)

/-! ### The turns -/

/-- What the first step is too long by, as 0.1 is no `float`; the second step drops it. -/
def excess (n : Nat) : ℚ := if n = 1 then 1 / 2 ^ 53 else 0

/-- The variables after `n` turns. -/
structure After (n : Nat) (s : Locals) : Prop where
  v : s.v = 10 * n
  current : s.current = n ^ 2 / 2 + excess n
  move : 0 < n → s.move = some (n - 1 / 2 + excess n)
  length : s.tracks.length = n
  nonneg : ∀ x ∈ s.tracks, 0 ≤ x
  sum : 0 < n → 2 * s.tracks.sum = n ^ 2 + if Even (n : ℤ) then 2 else 1

theorem half_step : fl 53 (fl 53 (1 / 2 * a) * fl 53 (t * t)) = 1 / 2 + 1 / 2 ^ 53 := by decide +kernel

theorem speed_step : fl 53 (a * t) = 10 := by decide +kernel

/-- The way at a constant speed is exact. -/
theorem fl_speed {n : Nat} (h0 : 0 < n) (h : n < 2 ^ 53) : fl 53 (10 * n * t) = n := by
  have ht : t = 1 / 10 * (1 + 1 / 2 ^ 54) := by decide +kernel
  have hn : (0 : ℚ) < n := by exact_mod_cast h0
  have hsplit : 10 * n * t = n + n / 2 ^ 54 := by
    rw [ht]
    ring
  have hpart : (0 : ℚ) ≤ n / 2 ^ 54 := by positivity
  refine fl_above hn (fl_natCast h) (by linarith) ?_
  rw [hsplit, add_sub_cancel_left]
  norm_num

theorem fl_half {m : Int} (h : |m| < 2 ^ 53) : fl 53 (m / 2) = m / 2 := by
  have hexact := fl_exact (e := -1) h
  rwa [zpow_neg_one, ← div_eq_mul_inv] at hexact

theorem fl_add_half {n : Nat} (h : n < 2 ^ 51) : fl 53 (n + 1 / 2) = n + 1 / 2 := by
  have hexact : fl 53 (((2 * n + 1 : ℤ) : ℚ) / 2) = ((2 * n + 1 : ℤ) : ℚ) / 2 := by
    refine fl_half ?_
    rw [abs_of_nonneg (by positivity)]
    omega
  push_cast at hexact
  rwa [add_div, mul_div_cancel_left₀ _ (by norm_num)] at hexact

theorem fl_half_square {n : Nat} (h : n ≤ 2 ^ 26) : fl 53 ((n : ℚ) ^ 2 / 2) = (n : ℚ) ^ 2 / 2 := by
  have hexact : fl 53 ((n ^ 2 : ℤ) / 2) = (n ^ 2 : ℤ) / 2 := by
    refine fl_half ?_
    have hpow : n ^ 2 ≤ (2 ^ 26) ^ 2 := Nat.pow_le_pow_left h 2
    rw [abs_of_nonneg (by positivity)]
    exact_mod_cast lt_of_le_of_lt hpow (by decide)
  push_cast at hexact
  exact hexact

/-- From the third turn on a step is exact. -/
theorem fl_move {n : Nat} (h2 : 2 ≤ n) (h : n < 2 ^ 51) :
    fl 53 (n + (1 / 2 + 1 / 2 ^ 53)) = n + 1 / 2 := by
  have hn : (2 : ℚ) ≤ n := by exact_mod_cast h2
  refine fl_above (by linarith) (fl_add_half h) (by norm_num) ?_
  norm_num
  linarith

theorem after_zero : After 0 start :=
  ⟨by norm_num [start], by norm_num [start, excess], nofun, rfl, nofun, nofun⟩

theorem after_one : After 1 (turn start) := by
  have hturn : turn start = ⟨10, 1 / 2 + 1 / 2 ^ 53, some (1 / 2 + 1 / 2 ^ 53), [1]⟩ := by decide +kernel
  rw [hturn]
  constructor <;> norm_num [excess]

theorem after_two : After 2 (turn (turn start)) := by
  have hturn : turn (turn start) = ⟨20, 2, some (3 / 2), [1, 2]⟩ := by decide +kernel
  rw [hturn]
  constructor <;> norm_num [excess]

/-- A turn from the third on. -/
theorem after_succ {n : Nat} {s : Locals} (h : After n s) (h2 : 2 ≤ n) (hn : n < 2 ^ 26) :
    After (n + 1) (turn s) := by
  have hexcess : excess n = 0 := if_neg (by omega)
  have hexcess' : excess (n + 1) = 0 := if_neg (by omega)
  have hmove : fl 53 (fl 53 (s.v * t) + fl 53 (fl 53 (1 / 2 * a) * fl 53 (t * t))) = n + 1 / 2 := by
    rw [half_step, h.v, fl_speed (by omega) (by omega), fl_move h2 (by omega)]
  have hround : roundEven ((n : ℚ) + 1 / 2) = if Even (n : ℤ) then (n : ℤ) else n + 1 :=
    roundEven_add_half (n : ℤ)
  have hv : fl 53 (s.v + 10) = 10 * (n + 1 : ℕ) := by
    have hexact : fl 53 ((10 * n + 10 : ℕ) : ℚ) = (10 * n + 10 : ℕ) := fl_natCast (by omega)
    push_cast at hexact ⊢
    rw [h.v, hexact]
    ring
  have hcurrent : fl 53 (s.current + (n + 1 / 2)) = (n + 1 : ℕ) ^ 2 / 2 := by
    have hsum : s.current + (n + 1 / 2) = (n + 1 : ℕ) ^ 2 / 2 := by
      rw [h.current, hexcess]
      push_cast
      ring
    rw [hsum, fl_half_square hn]
  have hturn : turn s = { v := 10 * (n + 1 : ℕ), current := (n + 1 : ℕ) ^ 2 / 2, move := some (n + 1 / 2)
                          tracks := s.tracks ++ [if Even (n : ℤ) then (n : ℤ) else n + 1] } := by
    simp only [turn, hmove, speed_step, hv, hcurrent, hround]
  rw [hturn]
  constructor
  · rfl
  · show _ = _ + excess (n + 1)
    rw [hexcess', add_zero]
  · intro _
    rw [hexcess', add_zero]
    push_cast
    congr 1
    ring
  · rw [List.length_append, h.length, List.length_singleton]
  · intro x hx
    rcases List.mem_append.mp hx with hx | hx
    · exact h.nonneg x hx
    · rw [List.mem_singleton.mp hx]
      split <;> omega
  · intro _
    rw [List.sum_append, List.sum_singleton, mul_add, h.sum (by omega), Nat.cast_succ]
    simp only [Int.even_add_one]
    by_cases heven : Even (n : ℤ)
    · rw [if_pos heven, if_pos heven, if_neg (not_not.mpr heven)]
      ring
    · rw [if_neg heven, if_neg heven, if_pos heven]
      ring

/-- **The turns.** -/
theorem after_iterate {n : Nat} (h : n ≤ 2 ^ 26) : After n (turn^[n] start) := by
  induction n with
  | zero => exact after_zero
  | succ n ih =>
      rw [Function.iterate_succ_apply']
      rcases Nat.lt_or_ge n 2 with hn | hn
      · obtain rfl | rfl : n = 0 ∨ n = 1 := by omega
        · exact after_one
        · exact after_two
      · exact after_succ (ih (by omega)) hn (by omega)

/-! ### The loop -/

/-- The loop makes its turns until the distance is reached. -/
theorem loop_eq {distance : ℚ} {n : Nat} {s : Locals} (hlt : ∀ k < n, (turn^[k] s).current < distance)
    (hle : distance ≤ (turn^[n] s).current) {fuel : Nat} (hfuel : n < fuel) :
    loop distance fuel s = some (turn^[n] s) := by
  induction n generalizing s fuel with
  | zero =>
      obtain ⟨fuel, rfl⟩ : ∃ f, fuel = f + 1 := ⟨fuel - 1, by omega⟩
      have hstop : ¬s.current < distance := not_lt.mpr hle
      rw [loop, if_neg hstop]
      rfl
  | succ n ih =>
      obtain ⟨fuel, rfl⟩ : ∃ f, fuel = f + 1 := ⟨fuel - 1, by omega⟩
      have hfirst : s.current < distance := hlt 0 (Nat.succ_pos n)
      rw [loop, if_pos hfirst, Function.iterate_succ_apply]
      exact ih (fun k hk => hlt (k + 1) (Nat.succ_lt_succ hk)) hle (by omega)

theorem excess_nonneg (n : Nat) : 0 ≤ excess n := by
  rw [excess]
  split <;> norm_num

theorem excess_le (n : Nat) : excess n ≤ 1 / 2 ^ 53 := by
  rw [excess]
  split <;> norm_num

/-- There is a first turn that reaches the distance. -/
theorem exists_turns {distance : ℚ} (h0 : 0 < distance) (hbound : distance ≤ 2 ^ 49) :
    ∃ n, n < 2 ^ 25 ∧ (∀ k < n + 1, (turn^[k] start).current < distance) ∧
      distance ≤ (turn^[n + 1] start).current := by
  have hreach : distance ≤ (turn^[2 ^ 25] start).current := by
    rw [(after_iterate (n := 2 ^ 25) (by decide)).current]
    have hexcess := excess_nonneg (2 ^ 25)
    have hsquare : (2 : ℚ) ^ 49 = ((2 ^ 25 : ℕ) : ℚ) ^ 2 / 2 := by norm_num
    rw [← hsquare]
    linarith
  have hex : ∃ n, distance ≤ (turn^[n] start).current := ⟨_, hreach⟩
  have hpos : Nat.find hex ≠ 0 := by
    intro hzero
    have hle := (Nat.find_eq_zero hex).mp hzero
    exact absurd hle (not_le.mpr h0)
  obtain ⟨n, hn⟩ := Nat.exists_eq_succ_of_ne_zero hpos
  refine ⟨n, ?_, fun k hk => not_le.mp (Nat.find_min hex (by omega)), ?_⟩
  · have := Nat.find_min' hex hreach
    omega
  · have hfind := Nat.find_spec hex
    rwa [hn] at hfind

theorem After.fl_current {n : Nat} {s : Locals} (h : After n s) (hn : n ≤ 2 ^ 26) :
    fl 53 s.current = s.current := by
  rw [h.current]
  by_cases h1 : n = 1
  · subst h1
    decide +kernel
  · rw [excess, if_neg h1, add_zero, fl_half_square hn]

/-- Rounding makes the sum of the steps too long by a half or by one. -/
theorem After.sum_bounds {n : Nat} {s : Locals} (h : After n s) (h0 : 0 < n) :
    (n : ℚ) ^ 2 + 1 ≤ 2 * (s.tracks.sum : ℤ) ∧ 2 * (s.tracks.sum : ℤ) ≤ (n : ℚ) ^ 2 + 2 := by
  have hlow : (n : ℤ) ^ 2 + 1 ≤ 2 * s.tracks.sum := by
    rw [h.sum h0]
    split <;> omega
  have hhigh : 2 * s.tracks.sum ≤ (n : ℤ) ^ 2 + 2 := by
    rw [h.sum h0]
    split <;> omega
  generalize s.tracks.sum = total at hlow hhigh ⊢
  exact ⟨by exact_mod_cast hlow, by exact_mod_cast hhigh⟩

/-! ### The last step -/

/-- The last step is the way that is left and one move more, up to three quarters. -/
theorem last_spec {distance move current : ℚ} (hcurrent : 0 ≤ current) (hself : fl 53 current = current)
    (hreach : current ≤ distance + move) (hbound : distance + move ≤ 2 ^ 50 - 1) :
    0 ≤ last distance move current ∧
      |(last distance move current : ℚ) - (distance + move - current)| ≤ 3 / 4 := by
  have hsum := abs_fl_sub_le 53 (distance + move)
  have hdiff := abs_fl_sub_le 53 (fl 53 (distance + move) - current)
  have hround := abs_roundEven_sub_le (fl 53 (fl 53 (distance + move) - current))
  have hle : current ≤ fl 53 (distance + move) := by
    rw [← hself]
    exact fl_mono (by decide) hcurrent hreach
  constructor
  · refine le_roundEven ?_
    rw [Int.cast_zero]
    exact fl_nonneg (sub_nonneg.mpr hle)
  · rw [abs_of_nonneg (le_trans hcurrent hreach)] at hsum
    rw [abs_of_nonneg (sub_nonneg.mpr hle)] at hdiff
    rw [last]
    have herror : |fl 53 (distance + move) - (distance + move)| ≤ 1 / 8 := by linarith
    have herror' :
        |fl 53 (fl 53 (distance + move) - current) - (fl 53 (distance + move) - current)| ≤ 1 / 8 := by
      have := (abs_le.mp herror).2
      linarith
    rw [abs_le] at herror herror' hround ⊢
    constructor <;> linarith

/-- No step was made. -/
theorem move_of_nonpos {distance : ℚ} (hle : distance ≤ 0) {fuel : Nat} (hfuel : 0 < fuel) :
    move fuel distance = some (.error .unboundLocalError) := by
  have hloop : loop distance fuel start = some start := loop_eq (n := 0) nofun hle hfuel
  rw [move, getTracks, hloop]
  rfl

theorem move_of_pos {distance : ℚ} (h0 : 0 < distance) (hbound : distance ≤ 2 ^ 49) :
    ∃ n tracks, (∀ fuel > n, move fuel distance = some (.ok (tracks ++ [4, -4]))) ∧
      tracks.length = n + 1 ∧ (∀ x ∈ tracks, 0 ≤ x) ∧
      |(((tracks ++ [4, -4]).sum : ℤ) : ℚ) - (distance + n)| ≤ 5 / 4 ∧
      (n - 1 : ℚ) ^ 2 < 2 * distance ∧ 2 * distance ≤ n ^ 2 + 1 / 2 ^ 52 := by
  obtain ⟨n, hn, hlt, hle⟩ := exists_turns h0 hbound
  have hbefore := after_iterate (n := n) (by omega)
  have hafter := after_iterate (n := n + 1) (by omega)
  have hprevious := hlt n (Nat.lt_succ_self n)
  have hself := hafter.fl_current (by omega)
  generalize turn^[n] start = s₀ at hbefore hprevious
  have hloop {fuel : ℕ} (hfuel : n + 1 < fuel) := loop_eq hlt hle hfuel
  generalize turn^[n + 1] start = s at hafter hle hself hloop
  have hmove := hafter.move (Nat.succ_pos n)
  generalize hstep : ((n + 1 : ℕ) - 1 / 2 + excess (n + 1) : ℚ) = step at hmove
  have hexcess := excess_nonneg n
  have hexcess' := excess_nonneg (n + 1)
  have hexcess'' := excess_le (n + 1)
  have hcurrent := hafter.current
  push_cast at hstep hcurrent
  have hsquare : ((n : ℚ) + 1) ^ 2 / 2 = n ^ 2 / 2 + n + 1 / 2 := by ring
  have hn' : (n : ℚ) + 1 ≤ 2 ^ 25 := by exact_mod_cast hn
  rw [hbefore.current] at hprevious
  have hreach : s.current ≤ distance + step := by linarith
  have hsmall : distance + step ≤ 2 ^ 50 - 1 := by
    norm_num at hn' ⊢
    linarith
  obtain ⟨hnonneg, hnear⟩ := last_spec (by rw [hcurrent]; positivity) hself hreach hsmall
  refine ⟨n + 1, s.tracks ++ [last distance step s.current], fun fuel hfuel => ?_, ?_, ?_, ?_, ?_, ?_⟩
  · rw [move, getTracks, hloop hfuel, Option.bind_eq_bind, Option.bind_some, hmove]
    rfl
  · rw [List.length_append, hafter.length, List.length_singleton]
  · intro x hx
    rcases List.mem_append.mp hx with hx | hx
    · exact hafter.nonneg x hx
    · rw [List.mem_singleton.mp hx]
      exact hnonneg
  · obtain ⟨hlow, hhigh⟩ := hafter.sum_bounds (Nat.succ_pos n)
    have hback : ([4, -4] : List ℤ).sum = 0 := rfl
    rw [List.sum_append, List.sum_append, List.sum_singleton, hback, add_zero]
    generalize s.tracks.sum = total at hlow hhigh ⊢
    rw [abs_le] at hnear ⊢
    push_cast at hlow hhigh ⊢
    constructor <;> linarith
  · push_cast
    linarith
  · push_cast
    linarith

/-! ### The distance -/

theorem solvePic_le {column : Nat} (h : column < 2 ^ 31) : solvePic column ≤ 2 ^ 49 := by
  have hcolumn : (column : ℚ) ≤ 2 ^ 31 := by exact_mod_cast h.le
  have hzero : (0 : ℚ) ≤ column := Nat.cast_nonneg column
  have hscale := abs_fl_sub_le 53 (column * 278 / 360)
  have hshift := abs_fl_sub_le 53 (fl 53 (column * 278 / 360) - 12)
  have hscaled : |fl 53 (column * 278 / 360) - column * 278 / 360| ≤ 1 := by
    rw [abs_of_nonneg (by positivity : (0 : ℚ) ≤ column * 278 / 360)] at hscale
    linarith
  have hbounds := abs_le.mp hscaled
  have hshifted : |fl 53 (column * 278 / 360) - 12| ≤ 2 ^ 32 := by
    rw [abs_le]
    constructor <;> linarith
  have herror : |fl 53 (fl 53 (column * 278 / 360) - 12) - (fl 53 (column * 278 / 360) - 12)| ≤ 1 := by
    linarith
  rw [solvePic]
  linarith [(abs_le.mp herror).2]

theorem solvePic_pos {column : Nat} (h : 16 ≤ column) : 0 < solvePic column := by
  have hcolumn : (16 : ℚ) ≤ column := by exact_mod_cast h
  have hscale : fl 53 (16 * 278 / 360) ≤ fl 53 (column * 278 / 360) :=
    fl_mono (by decide) (by norm_num) (by linarith)
  have hleft : 0 < fl 53 (fl 53 (16 * 278 / 360) - 12) := by decide +kernel
  have hpos : 0 ≤ fl 53 (16 * 278 / 360) - 12 := by decide +kernel
  exact hleft.trans_le (fl_mono (by decide) hpos (by linarith))

theorem solvePic_nonpos {column : Nat} (h : column < 16) : solvePic column ≤ 0 := by
  have hall : ∀ column < 16, solvePic column ≤ 0 := by decide +kernel
  exact hall column h

/-- **The slider.** A distance that is not positive makes `move` fail, as no step was made; in `jd.py` these
are the columns below 16. Over any other the slider is dragged forward and then past it by the number
of turns, which is about the root of twice the distance. -/
theorem slider_passes :
    (∀ distance ≤ 2 ^ 49,
      (distance ≤ 0 → ∀ fuel > 0, move fuel distance = some (.error .unboundLocalError)) ∧
      (0 < distance → ∃ n tracks, (∀ fuel > n, move fuel distance = some (.ok (tracks ++ [4, -4]))) ∧
        tracks.length = n + 1 ∧ (∀ x ∈ tracks, 0 ≤ x) ∧
        |(((tracks ++ [4, -4]).sum : ℤ) : ℚ) - (distance + n)| ≤ 5 / 4 ∧
        (n - 1 : ℚ) ^ 2 < 2 * distance ∧ 2 * distance ≤ n ^ 2 + 1 / 2 ^ 52)) ∧
      ∀ column < 2 ^ 31, solvePic column ≤ 2 ^ 49 ∧ (0 < solvePic column ↔ 16 ≤ column) := by
  refine ⟨fun distance hbound =>
      ⟨fun hle fuel hfuel => move_of_nonpos hle hfuel, fun h0 => move_of_pos h0 hbound⟩,
    fun column hcolumn => ⟨solvePic_le hcolumn, fun hpos => ?_, solvePic_pos⟩⟩
  by_contra hlt
  exact absurd hpos (not_lt.mpr (solvePic_nonpos (Nat.lt_of_not_le hlt)))

example : getTracks 6 10 = some (.ok [1, 2, 2, 4, 4, 2]) := by decide +kernel

end SmallTrial.Crawler
