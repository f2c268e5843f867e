import Buenos.Foundation.Lcg

/-! The random numbers of `lib/rand.S`, which the scheduler draws its time slices with. -/
namespace Buenos.Lib.Rand

open Buenos.Foundation

def rand5A : Nat := 314159557
def rand5C : Nat := 23550511

/-- The words of `multu`: `hi` and `lo` of the product. -/
def multu (x y : Nat) : Nat × Nat := (x * y / 2 ^ 32, x * y % 2 ^ 32)

def addu (x y : Nat) : Nat := (x + y) % 2 ^ 32

/-- `_set_rand_seed`: the word `rand5_seed` afterwards. -/
def setRandSeed (a0 : Nat) : Nat := a0

/-- `_get_rand`: its value and the word `rand5_seed` afterwards. -/
def getRand (range rand5Seed : Nat) : Nat × Nat :=
  let x := addu (multu rand5Seed rand5A).2 rand5C
  ((multu x range).1, x)

def seedAfter (ranges : List Nat) (rand5Seed : Nat) : Nat := ranges.foldl (fun seed range => (getRand range seed).2) rand5Seed

theorem getRand_seed (range seed : Nat) : (getRand range seed).2 = Lcg.affine 32 rand5A rand5C seed := by
  simp only [getRand,multu,addu,Lcg.affine,Nat.mod_add_mod,Nat.mul_comm rand5A]

theorem seedAfter_eq (ranges : List Nat) (seed : Nat) :
    seedAfter ranges seed = (Lcg.affine 32 rand5A rand5C)^[ranges.length] seed := by
  induction ranges generalizing seed with
  | nil => rfl
  | cons range rest ih =>
    unfold seedAfter at ih ⊢
    rw [List.foldl_cons,ih,getRand_seed,List.length_cons,Function.iterate_succ_apply]

theorem rand5A_quarter : rand5A = 4 * 78539889 + 1 := rfl
theorem rand5C_odd : rand5C = 2 * 11775255 + 1 := rfl

theorem getRand_value (range seed : Nat) : (getRand range seed).1 = (getRand range seed).2 * range / 2 ^ 32 := rfl

theorem getRand_lt (seed : Nat) (positive : 0 < range) : (getRand range seed).1 < range := by
  have word : (getRand range seed).2 < 2 ^ 32 := Nat.mod_lt _ (by decide)
  rw [getRand_value]
  exact Nat.div_lt_of_lt_mul (Nat.mul_lt_mul_of_pos_right word positive)

/-- Whatever the seed is, the seeds come back to it after every 2^32 calls and not before, every
number is below its range, and those of 2^32 calls are as evenly spread over it as they can be. -/
theorem rand_full_period (seed : Nat) (word : setRandSeed seed < 2 ^ 32) (ranges : List Nat) :
    (seedAfter ranges (setRandSeed seed) = setRandSeed seed ↔ 2 ^ 32 ∣ ranges.length) ∧
    (∀ range, 0 < range → (getRand range (seedAfter ranges (setRandSeed seed))).1 < range) ∧
    ∀ range v, 0 < range → v < range →
      ((Finset.range (2 ^ 32)).filter fun n =>
        (getRand range (seedAfter (List.replicate n range) (setRandSeed seed))).1 = v).card ∈
          [2 ^ 32 / range,2 ^ 32 / range + 1] := by
  refine ⟨?_,fun range positive => getRand_lt _ positive,?_⟩
  · rw [seedAfter_eq,← Lcg.minimalPeriod_affine rand5A_quarter rand5C_odd word]
    exact Function.isPeriodicPt_iff_minimalPeriod_dvd
  · intro range v positive small
    have next : Lcg.affine 32 rand5A rand5C (setRandSeed seed) < 2 ^ 32 := Lcg.affine_lt _
    have values : ∀ n, (getRand range (seedAfter (List.replicate n range) (setRandSeed seed))).1 =
        (Lcg.affine 32 rand5A rand5C)^[n] (Lcg.affine 32 rand5A rand5C (setRandSeed seed)) * range / 2 ^ 32 := by
      intro n
      rw [getRand_value,getRand_seed,seedAfter_eq,List.length_replicate,← Function.iterate_succ_apply' (Lcg.affine 32 rand5A rand5C),
        Function.iterate_succ_apply]
    simp only [values]
    rw [Lcg.orbit_count rand5A_quarter rand5C_odd next fun x => x * range / 2 ^ 32 = v]
    simpa using Lcg.scaled_count positive small (by decide)

/-- The seed that `init` falls back to. -/
theorem rand_full_period_zero : seedAfter (List.replicate (2 ^ 32) 100) (setRandSeed 0) = setRandSeed 0 :=
  (rand_full_period 0 (by decide) (List.replicate (2 ^ 32) 100)).1.mpr (by rw [List.length_replicate])

end Buenos.Lib.Rand
