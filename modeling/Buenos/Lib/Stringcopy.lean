import Buenos.Lib.Libc
import Mathlib.Data.List.GetD

/-! The loops of `stringcopy` with their counter, for a source in memory and any `buflen`, and
what they leave in the target. -/
namespace Buenos.Lib

open Buenos.Foundation

/-- `while(i < buflen) { *target = '\0'; i++; }`, `left` times. -/
def padNuls (target : Bytes) (t : Nat) : Nat → Bytes
  | 0 => target
  | left + 1 => padNuls (Function.update target t 0) t left

/-- The `for` loop from the `i`-th turn on, with `left` turns to the limit, and the store behind it. -/
def stringcopyFrom (buflen : Nat) (source : Bytes) (target : Bytes) (t s i : Nat) : Nat → Bytes
  | 0 => Function.update target t 0
  | left + 1 =>
    let copied := Function.update target t (source s)
    if source s = 0 then padNuls copied t (buflen - (i + 1))
    else stringcopyFrom buflen source copied (t + 1) (s + 1) (i + 1) left

/-- `stringcopy(target, source, buflen)`. -/
def stringcopyBuflen (buflen : Int) (source : Bytes) (target : Bytes) (t s : Nat) : Bytes :=
  stringcopyFrom buflen.toNat source target t s 0 (buflen - 1).toNat

/-- The target does not move, so the padding stores one NUL again and again. -/
theorem padNuls_same (nul : target t = 0) (left : Nat) : padNuls target t left = target := by
  induction left with
  | zero => rfl
  | succ left ih =>
    have unchanged : Function.update target t 0 = target := by
      rw [← nul]
      exact Function.update_eq_self t target
    rw [padNuls,unchanged]
    exact ih

theorem stringcopyFrom_eq (buflen : Nat) (clean : 0 ∉ str) (holds : Holds source s str) (target : Bytes) (t i left : Nat) :
    stringcopyFrom buflen source target t s i left = stringcopy target t left str := by
  induction left generalizing str target t s i with
  | zero => cases str <;> rfl
  | succ left ih =>
    cases str with
    | nil =>
      have nul : source s = 0 := holds.head
      rw [stringcopyFrom,if_pos nul,nul,stringcopy]
      exact padNuls_same (Function.update_self t 0 target) _
    | cons c rest =>
      have first : source s = c := holds.head
      have nonzero : c ≠ 0 := by
        rintro rfl
        exact clean List.mem_cons_self
      rw [stringcopyFrom,first,if_neg nonzero,stringcopy,if_neg nonzero]
      exact ih (fun member => clean (List.mem_cons_of_mem c member)) holds.tail _ _ _

theorem stringcopyBuflen_eq (clean : 0 ∉ str) (holds : Holds source s str) (buflen : Int) (target : Bytes) (t : Nat) :
    stringcopyBuflen buflen source target t s = stringcopy target t (buflen - 1).toNat str :=
  stringcopyFrom_eq _ clean holds target t 0 _

/-- The bytes of the target: the characters that fit, a NUL, and what was there before. -/
theorem stringcopy_byte (clean : 0 ∉ str) (target : Bytes) (t left i : Nat) :
    stringcopy target t left str (t + i) =
      if i < min str.length left then str.getD i 0 else if i = min str.length left then 0 else target (t + i) := by
  induction left generalizing str target t i with
  | zero =>
    rw [stringcopy,Function.update_apply,Nat.min_zero]
    simp
  | succ left ih =>
    cases str with
    | nil =>
      rw [stringcopy,Function.update_apply]
      simp
    | cons c rest =>
      have nonzero : c ≠ 0 := by
        rintro rfl
        exact clean List.mem_cons_self
      rw [stringcopy,if_neg nonzero,List.length_cons,Nat.succ_min_succ]
      cases i with
      | zero =>
        rw [stringcopy_other _ _ _ _ _ (by omega)]
        simp
      | succ i =>
        have next := ih (fun member => clean (List.mem_cons_of_mem c member)) (Function.update target t c) (t + 1) i
        rw [show t + (i + 1) = t + 1 + i by omega,next,Function.update_of_ne (by omega)]
        simp

/-- The buffer holds the source, cut to `buflen - 1` characters, and NULs up to its end. -/
def Padded (buflen : Nat) (str : List UInt8) (target : Bytes) (t : Nat) : Prop :=
  ∀ i < buflen, target (t + i) = (str.take (buflen - 1)).getD i 0

/-- Only the buffer is written, and it is as documented exactly where the bytes behind the NUL
of a shorter source were NULs before. -/
theorem stringcopy_padded (clean : 0 ∉ str) (holds : Holds source s str) (buflen : Nat) (positive : 1 ≤ buflen)
    (target : Bytes) (t : Nat) :
    (∀ j, j < t ∨ t + buflen ≤ j → stringcopyBuflen buflen source target t s j = target j) ∧
    (Padded buflen str (stringcopyBuflen buflen source target t s) t ↔
      ∀ i, str.length < i → i < buflen → target (t + i) = 0) := by
  have limit : ((buflen : Int) - 1).toNat = buflen - 1 := by omega
  rw [stringcopyBuflen_eq clean holds,limit]
  constructor
  · intro j outside
    exact stringcopy_other _ _ _ _ _ (by omega)
  · constructor
    · intro padded i behind inside
      have byte := padded i inside
      rw [stringcopy_byte clean,if_neg (by omega)] at byte
      split at byte
      · next cut => omega
      · rw [byte,List.getD_eq_default]
        rw [List.length_take]
        omega
    · intro nuls i inside
      rw [stringcopy_byte clean]
      by_cases copied : i < min str.length (buflen - 1)
      · rw [if_pos copied,List.getD_eq_getElem?_getD,List.getD_eq_getElem?_getD,List.getElem?_take_of_lt (by omega)]
      · rw [if_neg copied,List.getD_eq_default _ _ (by rw [List.length_take]; omega)]
        split
        · rfl
        · next behind => exact nuls i (by omega) inside

/-- A letter into a buffer of three bytes that are not NULs: the last one stays. -/
theorem stringcopy_unpadded : ¬Padded 3 ['a'.toUInt8]
    (stringcopyBuflen 3 (fun i => if i = 0 then 'a'.toUInt8 else 0) (fun _ => 255) 0 0) 0 := by
  intro padded
  exact absurd (padded 2 (by decide)) (by decide)

theorem stringcopy_padded_letter :
    (∀ j, j < 0 ∨ 0 + 3 ≤ j →
      stringcopyBuflen 3 (fun i => if i = 0 then 'a'.toUInt8 else 0) (fun _ => 255) 0 0 j = 255) ∧
    (Padded 3 ['a'.toUInt8] (stringcopyBuflen 3 (fun i => if i = 0 then 'a'.toUInt8 else 0) (fun _ => 255) 0 0) 0 ↔
      ∀ i, 1 < i → i < 3 → (255 : UInt8) = 0) :=
  stringcopy_padded (by decide) (fun i small => by
    have cases : i = 0 ∨ i = 1 := by simp at small; omega
    rcases cases with rfl | rfl <;> rfl) 3 (by decide) (fun _ => 255) 0

end Buenos.Lib
