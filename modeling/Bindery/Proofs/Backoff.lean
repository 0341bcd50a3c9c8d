import Mathlib.Algebra.Order.Ring.Int
import Mathlib.Tactic.SplitIfs
import Bindery.Backoff

/-!
# How long is waited

A policy from settings has delays above zero in their order (`sound_ofSettings`), and settings that make
sense are taken as they are (`ofSettings_eq`). The delay before a retry is meant to be what the mode lets
it grow to, up to the cap. It is computed in a word, and the guards behind the computation see only what
the word holds of the growth. So the delay is the exact one as long as the growth fits in a word, and
beyond that unless what the word holds of it lies below the cap, where it `Slips` through the guards.
-/

namespace Bindery.Backoff

/-! ## Policies from settings -/

/-- The policies that settings give: a known mode, delays above zero in their order, and no negative
number of retries. -/
structure Sound (p : Backoff) : Prop where
  known : p.mode.isKnown = true
  initial_pos : 0 < p.initial
  initial_le_max : p.initial ≤ p.max
  retries_nonneg : 0 ≤ p.retries

theorem ofSettings_eq {mode : BackoffMode} {initial max retries : Int64}
    (hmode : mode.isKnown = true) (hinitial : 0 < initial) (hmax : initial ≤ max)
    (hretries : 0 ≤ retries) :
    ofSettings mode initial max retries = { mode, initial, max, retries } := by
  have hlongest : 0 < max := Int64.lt_of_lt_of_le hinitial hmax
  have horder : ¬initial > max := Int64.not_lt.2 hmax
  simp only [ofSettings, if_pos hmode, if_pos hinitial, if_pos hlongest, if_pos hretries, if_neg horder,
    gt_iff_lt, ge_iff_le]

/-- Whatever the settings, the policy makes sense. -/
theorem sound_ofSettings (mode : BackoffMode) (initial max retries : Int64) :
    (ofSettings mode initial max retries).Sound := by
  have hstandard : 0 < standard.initial ∧ 0 < standard.max ∧ 0 ≤ standard.retries := by decide
  -- The first delay is cut down to the longest only after both were replaced.
  have hclamp : ∀ a b : Int64, 0 < a → 0 < b →
      (0 < if a > b then b else a) ∧ (if a > b then b else a) ≤ b := fun a b ha hb => by
    split
    · exact ⟨hb, Int64.le_refl b⟩
    · next horder => exact ⟨ha, Int64.not_lt.1 horder⟩
  have hinitial : 0 < if initial > 0 then initial else standard.initial := by
    split
    · assumption
    · exact hstandard.1
  have hmax : 0 < if max > 0 then max else standard.max := by
    split
    · assumption
    · exact hstandard.2.1
  obtain ⟨hpos, hle⟩ := hclamp _ _ hinitial hmax
  refine ⟨?_, hpos, hle, ?_⟩
  · simp only [ofSettings]
    split
    · assumption
    · rfl
  · simp only [ofSettings]
    split
    · assumption
    · exact hstandard.2.2

namespace Sound

variable {p : Backoff}

theorem max_pos (h : p.Sound) : 0 < p.max := Int64.lt_of_lt_of_le h.initial_pos h.initial_le_max

theorem problem?_eq_none (h : p.Sound) : p.problem? = none := by
  rw [problem?, if_neg (Int64.not_le.2 h.initial_pos), if_neg (Int64.not_le.2 h.max_pos),
    if_neg (Int64.not_lt.2 h.retries_nonneg)]

theorem one_le_initial (h : p.Sound) : 1 ≤ p.initial.toInt := by
  have hpos := Int64.lt_iff_toInt_lt.1 h.initial_pos
  rw [Int64.toInt_zero] at hpos
  omega

end Sound

/-! ## Growth -/

/-- What the delay before a retry grows to, in numbers without bound. -/
def growth (p : Backoff) (n : Int64) : Int :=
  match p.mode with
  | .fixed => p.initial.toInt
  | .exponential => p.initial.toInt * 2 ^ (n.toInt - 1).toNat
  | .linear | .other _ => n.toInt * p.initial.toInt

/-- The growth up to the cap. -/
def exactDelay (p : Backoff) (n : Int64) : Int := min p.max.toInt (p.growth n)

/-- What a word holds of the growth. -/
def wrapped (p : Backoff) (n : Int64) : Int := (p.growth n).bmod (2 ^ 64)

/-- The growth is too large for a word, and what the word holds of it passes the guards below the
cap. Exponential growth is also guarded at zero. -/
def Slips (p : Backoff) (n : Int64) : Prop :=
  2 ^ 63 ≤ p.growth n ∧ p.wrapped n < p.max.toInt ∧ (p.mode = .exponential → 0 < p.wrapped n)

instance (p : Backoff) (n : Int64) : Decidable (p.Slips n) := inferInstanceAs (Decidable (_ ∧ _ ∧ _))

section Growth

variable {p : Backoff} {n m : Int64}

theorem one_le_toInt (hn : 0 < n) : 1 ≤ n.toInt := by
  have hpos := Int64.lt_iff_toInt_lt.1 hn
  rw [Int64.toInt_zero] at hpos
  omega

theorem toInt_pred (hn : 0 < n) : (n - 1).toInt = n.toInt - 1 := by
  have hlow := one_le_toInt hn
  have hhigh := n.toInt_lt
  rw [Int64.toInt_sub, Int64.toInt_one]
  exact Int.bmod_eq_of_le_mul_two (by omega) (by omega)

theorem toInt_doubling (n : Int64) : (doubling n).toInt = ((2 : Int) ^ n.toInt.toNat).bmod (2 ^ 64) := by
  rw [doubling]
  split
  · rw [Int64.toInt_ofNat']
    push_cast
    rfl
  · next hlarge =>
    -- All digits are shifted out of the word.
    obtain ⟨k, hk⟩ := Nat.exists_eq_add_of_le (show 64 ≤ n.toInt.toNat by omega)
    rw [Int64.toInt_zero, hk, Int.pow_add, Int.mul_comm]
    exact (Int.mul_bmod_left _ _).symm

theorem one_le_growth (hp : p.Sound) (hn : 0 < n) : 1 ≤ p.growth n := by
  have hinitial := hp.one_le_initial
  have hlinear : 1 ≤ n.toInt * p.initial.toInt := one_le_mul_of_one_le_of_one_le (one_le_toInt hn) hinitial
  rw [growth]
  split
  · exact hinitial
  · exact one_le_mul_of_one_le_of_one_le hinitial (one_le_pow₀ one_le_two)
  · exact hlinear
  · exact hlinear

theorem growth_le_growth (hp : p.Sound) (hnm : n ≤ m) : p.growth n ≤ p.growth m := by
  have hinitial := hp.one_le_initial
  have hcount := Int64.le_iff_toInt_le.1 hnm
  have hlinear : n.toInt * p.initial.toInt ≤ m.toInt * p.initial.toInt :=
    Int.mul_le_mul_of_nonneg_right hcount (by omega)
  rw [growth, growth]
  split
  · exact le_refl _
  · exact Int.mul_le_mul_of_nonneg_left (pow_le_pow_right₀ one_le_two (by omega)) (by omega)
  · exact hlinear
  · exact hlinear

theorem wrapped_eq (hp : p.Sound) (hn : 0 < n) (hfits : p.growth n < 2 ^ 63) :
    p.wrapped n = p.growth n := by
  have hpos := one_le_growth hp hn
  exact Int.bmod_eq_of_le_mul_two (by omega) (by omega)

end Growth

/-! ## Delays -/

section Delay

variable {p : Backoff} {n m : Int64}

theorem toInt_initial_mul_doubling (hmode : p.mode = .exponential) (hn : 0 < n) :
    (p.initial * doubling (n - 1)).toInt = p.wrapped n := by
  rw [Int64.toInt_mul, toInt_doubling, Int.mul_bmod_bmod, toInt_pred hn, wrapped, growth, hmode]

theorem toInt_mul_initial (hfixed : p.mode ≠ .fixed) (hexponential : p.mode ≠ .exponential) :
    (n * p.initial).toInt = p.wrapped n := by
  rw [Int64.toInt_mul, wrapped, growth]
  split
  · contradiction
  · contradiction
  · rfl
  · rfl

theorem delay_fixed (hmode : p.mode = .fixed) (hn : 0 < n) : p.delay n = p.initial := by
  rw [delay, if_neg (Int64.not_le.2 hn), hmode]

theorem toInt_delay_exponential (hmode : p.mode = .exponential) (hn : 0 < n) :
    (p.delay n).toInt =
      if p.max.toInt < p.wrapped n ∨ p.wrapped n ≤ 0 then p.max.toInt else p.wrapped n := by
  rw [delay, if_neg (Int64.not_le.2 hn), hmode]
  simp only [gt_iff_lt, Bool.or_eq_true, decide_eq_true_eq, apply_ite Int64.toInt, Int64.lt_iff_toInt_lt,
    Int64.le_iff_toInt_le, Int64.toInt_zero, toInt_initial_mul_doubling hmode hn]

theorem toInt_delay_linear (hfixed : p.mode ≠ .fixed) (hexponential : p.mode ≠ .exponential) (hn : 0 < n) :
    (p.delay n).toInt = if p.max.toInt < p.wrapped n then p.max.toInt else p.wrapped n := by
  rw [delay, if_neg (Int64.not_le.2 hn)]
  split
  · contradiction
  · contradiction
  all_goals
    simp only [gt_iff_lt, apply_ite Int64.toInt, Int64.lt_iff_toInt_lt, toInt_mul_initial hfixed hexponential]

theorem not_slips_of_fixed (hmode : p.mode = .fixed) : ¬p.Slips n := fun hslips => by
  have hgrowth : p.growth n = p.initial.toInt := by rw [growth, hmode]
  have hinitial := p.initial.toInt_lt
  have hlarge := hslips.1
  omega

/-- **What is waited.** Growth that slips through the guards is waited for as the word holds it, and all
other growth up to the cap. -/
theorem toInt_delay (hp : p.Sound) (hn : 0 < n) :
    (p.delay n).toInt = if p.Slips n then p.wrapped n else p.exactDelay n := by
  have hpos := one_le_growth hp hn
  have hfits := wrapped_eq hp hn
  have hmax := p.max.toInt_lt
  -- Growth that fits is seen by the guards as it is, and growth that does not fit is above any cap. So
  -- they differ from the exact cut only where the word holds something below the cap.
  by_cases hfixed : p.mode = .fixed
  · have hgrowth : p.growth n = p.initial.toInt := by rw [growth, hfixed]
    have horder := Int64.le_iff_toInt_le.1 hp.initial_le_max
    rw [delay_fixed hfixed hn, if_neg (not_slips_of_fixed hfixed), exactDelay, hgrowth]
    exact (min_eq_right horder).symm
  · by_cases hexponential : p.mode = .exponential
    · simp only [toInt_delay_exponential hexponential hn, Slips, hexponential, true_implies, exactDelay]
      split_ifs <;> omega
    · simp only [toInt_delay_linear hfixed hexponential hn, Slips, hexponential, false_implies, and_true,
        exactDelay]
      split_ifs <;> omega

theorem exactDelay_le_max (p : Backoff) (n : Int64) : p.exactDelay n ≤ p.max.toInt := min_le_left _ _

theorem one_le_exactDelay (hp : p.Sound) (hn : 0 < n) : 1 ≤ p.exactDelay n := by
  have hmax := one_le_toInt hp.max_pos
  exact le_min hmax (one_le_growth hp hn)

theorem exactDelay_le_exactDelay (hp : p.Sound) (hnm : n ≤ m) : p.exactDelay n ≤ p.exactDelay m :=
  min_le_min_left _ (growth_le_growth hp hnm)

/-- Growth that slips would have been cut off at the cap. -/
theorem Slips.exactDelay_eq (h : p.Slips n) : p.exactDelay n = p.max.toInt :=
  min_eq_left (p.max.toInt_lt.le.trans h.1)

theorem toInt_delay_le (hp : p.Sound) (hn : 0 < n) : (p.delay n).toInt ≤ p.exactDelay n := by
  rw [toInt_delay hp hn]
  split
  · next hslips => exact hslips.exactDelay_eq ▸ hslips.2.1.le
  · exact le_refl _

/-- What holds of the delay before a retry, against the exact one. -/
structure Delays (p : Backoff) (n : Int64) : Prop where
  le_max : p.delay n ≤ p.max
  /-- The delay is the exact one unless the growth slips through the guards. -/
  eq_exact_iff : (p.delay n).toInt = p.exactDelay n ↔ ¬p.Slips n
  /-- There is a delay unless the growth slips through as a number that is not above zero. -/
  pos_iff : 0 < p.delay n ↔ ¬(p.Slips n ∧ p.wrapped n ≤ 0)
  /-- Only where linear growth slips can there be none. -/
  pos_of_ne_linear : p.mode ≠ .linear → 0 < p.delay n
  /-- No delay is longer than a later one whose growth does not slip. -/
  le_later : ∀ m, n ≤ m → ¬p.Slips m → p.delay n ≤ p.delay m
  /-- Growth that fits in a word does not slip. -/
  not_slips : p.growth n < 2 ^ 63 → ¬p.Slips n
  not_slips_of_fixed : p.mode = .fixed → ¬p.Slips n

theorem eq_exact_iff (hp : p.Sound) (hn : 0 < n) :
    (p.delay n).toInt = p.exactDelay n ↔ ¬p.Slips n := by
  rw [toInt_delay hp hn]
  split
  · next hslips => exact iff_of_false (hslips.exactDelay_eq ▸ hslips.2.1.ne) (not_not_intro hslips)
  · next hslips => exact iff_of_true rfl hslips

theorem pos_iff (hp : p.Sound) (hn : 0 < n) : 0 < p.delay n ↔ ¬(p.Slips n ∧ p.wrapped n ≤ 0) := by
  rw [Int64.lt_iff_toInt_lt, Int64.toInt_zero, toInt_delay hp hn]
  split
  · next hslips => rw [and_iff_right hslips, not_le]
  · next hslips =>
    exact iff_of_true (one_le_exactDelay hp hn) fun h => hslips h.1

/-- Growth of another kind than the linear one slips through as a number above zero only. -/
theorem wrapped_pos_of_slips (hp : p.Sound) (hlinear : p.mode ≠ .linear) (hslips : p.Slips n) :
    0 < p.wrapped n := by
  have hknown := hp.known
  cases hmode : p.mode with
  | fixed => exact absurd hslips (not_slips_of_fixed hmode)
  | exponential => exact hslips.2.2 hmode
  | linear => contradiction
  | other name => rw [hmode] at hknown; cases hknown

theorem delay_le_delay (hp : p.Sound) (hn : 0 < n) (hnm : n ≤ m) (hslips : ¬p.Slips m) :
    p.delay n ≤ p.delay m := by
  have hm : 0 < m := Int64.lt_of_lt_of_le hn hnm
  rw [Int64.le_iff_toInt_le]
  calc (p.delay n).toInt
    _ ≤ p.exactDelay n := toInt_delay_le hp hn
    _ ≤ p.exactDelay m := exactDelay_le_exactDelay hp hnm
    _ = (p.delay m).toInt := ((eq_exact_iff hp hm).2 hslips).symm

/-- **Delays are exact unless the growth slips through the guards.** -/
theorem delays_ofSettings (mode : BackoffMode) (initial max retries n : Int64) (hn : 0 < n) :
    (ofSettings mode initial max retries).Delays n := by
  have hp := sound_ofSettings mode initial max retries
  refine
    { le_max := Int64.le_iff_toInt_le.2 ((toInt_delay_le hp hn).trans (exactDelay_le_max _ n))
      eq_exact_iff := eq_exact_iff hp hn
      pos_iff := pos_iff hp hn
      pos_of_ne_linear := fun hlinear => (pos_iff hp hn).2 fun ⟨hslips, hle⟩ => ?_
      le_later := fun m => delay_le_delay hp hn
      not_slips := fun hfits hslips => ?_
      not_slips_of_fixed := not_slips_of_fixed }
  · exact (wrapped_pos_of_slips hp hlinear hslips).not_ge hle
  · exact hfits.not_ge hslips.1

/-- Thirty-one doublings of some eight and a half seconds leave just over two in the word. The cap is
half a minute, and the retry before waits that long. -/
theorem delays_ofSettings_doubled :
    (0 : Int64) < 32 ∧ (ofSettings .exponential 8589934593 30000000000 32).Delays 32 ∧
      (ofSettings .exponential 8589934593 30000000000 32).Slips 32 ∧
      (ofSettings .exponential 8589934593 30000000000 32).delay 32 = 2147483648 ∧
      (ofSettings .exponential 8589934593 30000000000 32).delay 31 = 30000000000 :=
  ⟨by decide, delays_ofSettings _ _ _ _ _ (by decide), by decide, by decide, by decide⟩

/-- Linear growth can slip through as a number below zero. -/
example : (ofSettings .linear 4611686018427387904 9223372036854775807 1).delay 2 =
    -9223372036854775808 := by decide

end Delay

end Bindery.Backoff
