import Mathlib.Dynamics.PeriodicPts.Lemmas
import Mathlib.Data.Finset.Card
import Mathlib.Tactic.Ring

/-! Linear congruential generators modulo a power of two: when they run through all words, and
how scaling spreads the words over a range. -/
namespace Buenos.Foundation.Lcg

open Function

def affine (w a c x : Nat) : Nat := (a * x + c) % 2 ^ w

section Steps
variable {w a c : Nat}

theorem affine_lt (x : Nat) : affine w a c x < 2 ^ w := Nat.mod_lt _ (Nat.two_pow_pos w)

theorem iterate_lt (start : x < 2 ^ w) (n : Nat) : (affine w a c)^[n] x < 2 ^ w := by
  cases n with
  | zero => exact start
  | succ n =>
    rw [iterate_succ_apply']
    exact affine_lt _

/-- Words are taken modulo `2 ^ w` at the end as well as in every step. -/
theorem iterate_mod (start : x < 2 ^ w) (n : Nat) :
    (affine w a c)^[n] x = (fun y => a * y + c)^[n] x % 2 ^ w := by
  induction n with
  | zero => exact (Nat.mod_eq_of_lt start).symm
  | succ n ih =>
    rw [iterate_succ_apply',iterate_succ_apply',ih,affine,Nat.add_mod,Nat.mul_mod,Nat.mod_mod,← Nat.mul_mod,← Nat.add_mod]

/-- Twice as many steps double the power of two in the increment and in the multiplier less 1. -/
theorem iterate_two_pow (quarter : a = 4 * b + 1) (odd : c = 2 * e + 1) (k : Nat) :
    ∃ t s, ∀ x, (fun y => a * y + c)^[2 ^ k] x = x + 2 ^ (k + 2) * (t * x) + 2 ^ k * (2 * s + 1) := by
  induction k with
  | zero =>
    refine ⟨b,e,fun x => ?_⟩
    simp only [pow_zero,iterate_one,quarter,odd]
    ring
  | succ k ih =>
    obtain ⟨t,s,steps⟩ := ih
    refine ⟨t + 2 ^ (k + 1) * (t * t),s + 2 ^ k * (t * (2 * s + 1)),fun x => ?_⟩
    rw [pow_succ,mul_two,iterate_add_apply,steps,steps]
    ring

/-- After half of the period the highest bit is the other one. -/
theorem half_period (quarter : a = 4 * b + 1) (odd : c = 2 * e + 1) (start : x < 2 ^ (w + 1)) :
    (affine (w + 1) a c)^[2 ^ w] x = (x + 2 ^ w) % 2 ^ (w + 1) := by
  obtain ⟨t,s,steps⟩ := iterate_two_pow quarter odd w
  have whole : x + 2 ^ (w + 2) * (t * x) + 2 ^ w * (2 * s + 1) = x + 2 ^ w + 2 ^ (w + 1) * (2 * (t * x) + s) := by ring
  rw [iterate_mod start,steps,whole,Nat.add_mul_mod_self_left]

theorem whole_period (quarter : a = 4 * b + 1) (odd : c = 2 * e + 1) (start : x < 2 ^ w) :
    (affine w a c)^[2 ^ w] x = x := by
  obtain ⟨t,s,steps⟩ := iterate_two_pow quarter odd w
  have whole : x + 2 ^ (w + 2) * (t * x) + 2 ^ w * (2 * s + 1) = x + 2 ^ w * (4 * (t * x) + (2 * s + 1)) := by ring
  rw [iterate_mod start,steps,whole,Nat.add_mul_mod_self_left,Nat.mod_eq_of_lt start]

/-- With a multiplier that is 1 modulo 4 and an odd increment the period is as long as it can be. -/
theorem minimalPeriod_affine (quarter : a = 4 * b + 1) (odd : c = 2 * e + 1) (start : x < 2 ^ w) :
    minimalPeriod (affine w a c) x = 2 ^ w := by
  cases w with
  | zero =>
    have fixed : IsFixedPt (affine 0 a c) x := by
      have only := affine_lt (w := 0) (a := a) (c := c) x
      unfold IsFixedPt
      omega
    simpa using minimalPeriod_eq_one_iff_isFixedPt.mpr fixed
  | succ w =>
    have prime : Fact (Nat.Prime 2) := ⟨Nat.prime_two⟩
    refine minimalPeriod_eq_prime_pow ?_ (whole_period quarter odd start)
    intro periodic
    have same : (x + 2 ^ w) % 2 ^ (w + 1) = x := (half_period quarter odd start).symm.trans periodic
    have positive := Nat.two_pow_pos w
    have double : 2 ^ (w + 1) = 2 ^ w + 2 ^ w := by rw [pow_succ]; omega
    by_cases low : x + 2 ^ w < 2 ^ (w + 1)
    · rw [Nat.mod_eq_of_lt low] at same
      omega
    · rw [Nat.mod_eq_sub_mod (by omega),Nat.mod_eq_of_lt (by omega)] at same
      omega

/-- The words that follow each other from `x` on are all the words. -/
theorem orbit_all (quarter : a = 4 * b + 1) (odd : c = 2 * e + 1) (start : x < 2 ^ w) :
    (Finset.range (2 ^ w)).image (fun n => (affine w a c)^[n] x) = Finset.range (2 ^ w) ∧
      Set.InjOn (fun n => (affine w a c)^[n] x) (Finset.range (2 ^ w)) := by
  have injective : Set.InjOn (fun n => (affine w a c)^[n] x) (Finset.range (2 ^ w)) := by
    have once := iterate_injOn_Iio_minimalPeriod (f := affine w a c) (x := x)
    rwa [minimalPeriod_affine quarter odd start,← Finset.coe_range] at once
  refine ⟨Finset.eq_of_subset_of_card_le ?_ ?_,injective⟩
  · intro y member
    obtain ⟨n,_,rfl⟩ := Finset.mem_image.mp member
    exact Finset.mem_range.mpr (iterate_lt start n)
  · rw [Finset.card_image_of_injOn injective]

/-- So over a period a property holds as often as among the words. -/
theorem orbit_count (quarter : a = 4 * b + 1) (odd : c = 2 * e + 1) (start : x < 2 ^ w) (p : Nat → Prop) [DecidablePred p] :
    ((Finset.range (2 ^ w)).filter fun n => p ((affine w a c)^[n] x)).card = ((Finset.range (2 ^ w)).filter p).card := by
  obtain ⟨all,injective⟩ := orbit_all quarter odd start
  have image : ((Finset.range (2 ^ w)).filter fun n => p ((affine w a c)^[n] x)).image (fun n => (affine w a c)^[n] x) =
      (Finset.range (2 ^ w)).filter p := by
    rw [← Finset.filter_image,all]
  rw [← image]
  refine (Finset.card_image_of_injOn (injective.mono ?_)).symm
  exact Finset.coe_subset.mpr (Finset.filter_subset _ _)

end Steps

/-! ### Scaling to a range -/

theorem scaled_words (positive : 0 < range) (small : v < range) (words : 0 < m) :
    (Finset.range m).filter (fun x => x * range / m = v) =
      Finset.Ico ((v * m + (range - 1)) / range) ((v * m + (range - 1) + m) / range) := by
  have above : ∀ n x, (n + (range - 1)) / range ≤ x ↔ n ≤ x * range := by
    intro n x
    rw [Nat.div_le_iff_le_mul_add_pred positive,Nat.mul_comm range x]
    omega
  have next : v * m + (range - 1) + m = (v + 1) * m + (range - 1) := by rw [Nat.add_mul]; omega
  ext x
  rw [Finset.mem_filter,Finset.mem_range,Finset.mem_Ico,above,next,← Nat.not_le,← Nat.not_le,above,Nat.not_le,Nat.not_le,
    Nat.div_eq_iff words]
  have step : (v + 1) * m = v * m + m := Nat.succ_mul v m
  constructor
  · rintro ⟨_,low,high⟩
    exact ⟨low,by omega⟩
  · rintro ⟨low,high⟩
    refine ⟨?_,low,by omega⟩
    have most : (v + 1) * m ≤ range * m := Nat.mul_le_mul_right m small
    by_contra large
    have product : m * range ≤ x * range := Nat.mul_le_mul_right range (Nat.not_lt.mp large)
    rw [Nat.mul_comm m range] at product
    omega

/-- Every value of the range has as many words as any other, up to one. -/
theorem scaled_count (positive : 0 < range) (small : v < range) (words : 0 < m) :
    ((Finset.range m).filter fun x => x * range / m = v).card = m / range ∨
      ((Finset.range m).filter fun x => x * range / m = v).card = m / range + 1 := by
  rw [scaled_words positive small words,Nat.card_Ico,Nat.add_div positive]
  generalize (v * m + (range - 1)) / range = first
  generalize m / range = count
  split
  · exact .inr (by omega)
  · exact .inl (by omega)

end Buenos.Foundation.Lcg
