import Buenos.Foundation.Bytes
import Mathlib.Data.Nat.Bitwise
import Mathlib.Data.Finset.Card

/-! The bitmaps of `lib/bitmap.c`, over the bytes that they occupy. -/
namespace Buenos.Lib

open Buenos.Foundation

/-- The `int` does not wrap for up to `2 ^ 31 - 32` bits. -/
def bitmapSizeof (numBits : Nat) : Nat := (numBits + 31) / 32 * 4

def clearWords : Nat → Nat → Bytes → Bytes
  | 0, _, bitmap => bitmap
  | left + 1, i, bitmap => clearWords left (i + 1) (setWord bitmap i 0)

def bitmapInit (bitmap : Bytes) (size : Nat) : Bytes := clearWords ((size + 31) / 32) 0 bitmap

def bitmapGet (bitmap : Bytes) (pos : Nat) : Nat := word bitmap (pos / 32) >>> (pos % 32) &&& 0x01

def bitmapSet (bitmap : Bytes) (pos : Nat) (value : Bool) : Bytes :=
  let i := pos / 32
  let j := pos % 32
  if value then setWord bitmap i (word bitmap i ||| 1 <<< j)
  else setWord bitmap i (word bitmap i &&& (0xffffffff ^^^ 1 <<< j))

def findBit (bitmap : Bytes) (l basepos : Nat) : Nat → Nat → Option (Int × Bytes)
  | 0, _ => none
  | left + 1, j =>
    if bitmapGet bitmap (basepos + j) = 0 then
      some (if l ≤ basepos + j then (-1, bitmap)
        else (((basepos + j : Nat) : Int), bitmapSet bitmap (basepos + j) true))
    else findBit bitmap l basepos left (j + 1)

def findWord (bitmap : Bytes) (l : Nat) : Nat → Nat → Int × Bytes
  | 0, _ => (-1, bitmap)
  | left + 1, i =>
    if word bitmap i ≠ 0xffffffff then
      (findBit bitmap l (i * 32) 32 0).getD (findWord bitmap l left (i + 1))
    else findWord bitmap l left (i + 1)

def bitmapFindnset (bitmap : Bytes) (l : Nat) : Int × Bytes := findWord bitmap l (bitmapSizeof l / 4) 0

/-! ### What the functions do to the bits -/

def bit (bitmap : Bytes) (n : Nat) : Bool := (word bitmap (n / 32)).testBit (n % 32)

theorem bitmapGet_eq (bitmap : Bytes) (n : Nat) : bitmapGet bitmap n = if bit bitmap n then 1 else 0 := by
  unfold bitmapGet bit
  rw [Nat.and_one_is_mod,Nat.testBit_eq_decide_div_mod_eq,Nat.shiftRight_eq_div_pow]
  rcases Nat.mod_two_eq_zero_or_one (word bitmap (n / 32) / 2 ^ (n % 32)) with zero | one
  · simp [zero]
  · simp [one]

theorem bits_ext {a b : Bytes} (same : ∀ n, bit a n = bit b n) : a = b := by
  apply bytes_ext
  intro i
  apply Nat.eq_of_testBit_eq
  intro j
  by_cases low : j < 32
  · have here := same (32 * i + j)
    unfold bit at here
    rwa [show (32 * i + j) / 32 = i by omega,show (32 * i + j) % 32 = j by omega] at here
  · have high : 2 ^ 32 ≤ 2 ^ j := Nat.pow_le_pow_right (by decide) (by omega)
    rw [Nat.testBit_lt_two_pow (Nat.lt_of_lt_of_le (word_lt a i) high),
      Nat.testBit_lt_two_pow (Nat.lt_of_lt_of_le (word_lt b i) high)]

theorem bit_setWord (bitmap : Bytes) (i value n : Nat) :
    bit (setWord bitmap i value) n = if n / 32 = i then value.testBit (n % 32) else bit bitmap n := by
  unfold bit
  split
  · next here =>
    subst here
    rw [word_setWord_self,Nat.testBit_mod_two_pow]
    simp [Nat.mod_lt]
  · next apart => rw [word_setWord_other bitmap value apart]

@[simp] theorem bit_bitmapSet (bitmap : Bytes) (pos : Nat) (value : Bool) (n : Nat) :
    bit (bitmapSet bitmap pos value) n = if n = pos then value else bit bitmap n := by
  have split : n = pos ↔ n / 32 = pos / 32 ∧ n % 32 = pos % 32 := by omega
  cases value with
  | true =>
    simp only [bitmapSet,if_true,bit_setWord]
    by_cases here : n / 32 = pos / 32
    · rw [if_pos here,Nat.testBit_or,Nat.one_shiftLeft,Nat.testBit_two_pow,← here]
      by_cases same : n % 32 = pos % 32
      · rw [if_pos (split.mpr ⟨here,same⟩)]
        simp [same]
      · rw [if_neg fun equal => same (split.mp equal).2]
        simp [bit,Ne.symm same]
    · rw [if_neg here,if_neg (by rw [split]; tauto)]
  | false =>
    simp only [bitmapSet,Bool.false_eq_true,if_false,bit_setWord]
    by_cases here : n / 32 = pos / 32
    · have full : Nat.testBit 0xffffffff (n % 32) = true := by
        rw [show 0xffffffff = 2 ^ 32 - 1 from rfl,Nat.testBit_two_pow_sub_one]
        simp [Nat.mod_lt]
      rw [if_pos here,Nat.testBit_and,Nat.testBit_xor,Nat.one_shiftLeft,Nat.testBit_two_pow,full,← here]
      by_cases same : n % 32 = pos % 32
      · rw [if_pos (split.mpr ⟨here,same⟩)]
        simp [same]
      · rw [if_neg fun equal => same (split.mp equal).2]
        simp [bit,Ne.symm same]
    · rw [if_neg here,if_neg (by rw [split]; tauto)]

theorem bit_clearWords (left i : Nat) (bitmap : Bytes) (n : Nat) :
    bit (clearWords left i bitmap) n = if i ≤ n / 32 ∧ n / 32 < i + left then false else bit bitmap n := by
  induction left generalizing i bitmap with
  | zero =>
    rw [if_neg (by omega)]
    rfl
  | succ left ih =>
    rw [clearWords,ih,bit_setWord]
    by_cases here : n / 32 = i
    · rw [if_neg (by omega),if_pos here,if_pos (by omega),Nat.zero_testBit]
    · rw [if_neg here]
      by_cases later : i + 1 ≤ n / 32 ∧ n / 32 < i + 1 + left
      · rw [if_pos later,if_pos (by omega)]
      · rw [if_neg later,if_neg (by omega)]

theorem bit_bitmapInit (bitmap : Bytes) (low : n < size) : bit (bitmapInit bitmap size) n = false := by
  rw [bitmapInit,bit_clearWords,if_pos (by omega)]

/-- The first bit that is clear was found and set, or the bits below `l` are all set. -/
def Found (bitmap : Bytes) (l : Nat) (result : Int × Bytes) : Prop :=
  (∃ n, n < l ∧ bit bitmap n = false ∧ (∀ m < n, bit bitmap m = true) ∧
    result = ((n : Int), bitmapSet bitmap n true)) ∨
  ((∀ n < l, bit bitmap n = true) ∧ result = (-1, bitmap))

theorem findBit_spec (l basepos left j : Nat) (below : ∀ n < basepos + j, bit bitmap n = true) :
    (∃ result, findBit bitmap l basepos left j = some result ∧ Found bitmap l result) ∨
    (findBit bitmap l basepos left j = none ∧ ∀ n < basepos + j + left, bit bitmap n = true) := by
  induction left generalizing j with
  | zero => exact .inr ⟨rfl,below⟩
  | succ left ih =>
    unfold findBit
    rw [bitmapGet_eq]
    by_cases set_ : bit bitmap (basepos + j) = true
    · simp only [set_,if_true,Nat.one_ne_zero,if_false]
      have more : ∀ n < basepos + (j + 1), bit bitmap n = true := by
        intro n small
        by_cases last : n = basepos + j
        · rw [last,set_]
        · exact below n (by omega)
      have rest := ih (j + 1) more
      rwa [show basepos + (j + 1) + left = basepos + j + (left + 1) by omega] at rest
    · have clear := Bool.not_eq_true _ ▸ set_
      simp only [clear,Bool.false_eq_true,if_false,if_true]
      refine .inl ⟨_,rfl,?_⟩
      split
      · next high => exact .inr ⟨fun n small => below n (by omega),rfl⟩
      · next low => exact .inl ⟨_,by omega,clear,below,rfl⟩

theorem bit_full (full : word bitmap (n / 32) = 0xffffffff) : bit bitmap n = true := by
  unfold bit
  rw [full,show 0xffffffff = 2 ^ 32 - 1 from rfl,Nat.testBit_two_pow_sub_one]
  simp [Nat.mod_lt]

theorem findWord_spec (left i : Nat) (below : ∀ n < i * 32, bit bitmap n = true)
    (covers : l ≤ (i + left) * 32) : Found bitmap l (findWord bitmap l left i) := by
  induction left generalizing i with
  | zero => exact .inr ⟨fun n small => below n (by omega),rfl⟩
  | succ left ih =>
    unfold findWord
    split
    · rcases findBit_spec l (i * 32) 32 0 below with ⟨result,found,good⟩ | ⟨missing,more⟩
      · rw [found]; exact good
      · rw [missing]
        exact ih (i + 1) (fun n small => more n (by omega)) (by omega)
    · next full =>
      refine ih (i + 1) (fun n small => ?_) (by omega)
      by_cases old : n < i * 32
      · exact below n old
      · exact bit_full (by rw [show n / 32 = i by omega]; exact not_not.mp full)

theorem bitmapFindnset_spec (bitmap : Bytes) (l : Nat) : Found bitmap l (bitmapFindnset bitmap l) := by
  refine findWord_spec _ 0 (fun n small => by omega) ?_
  unfold bitmapSizeof
  omega

theorem Found.unique (one : Found bitmap l r) (two : Found bitmap l s) : r = s := by
  rcases one with ⟨n,low,clear,below,result⟩ | ⟨full,result⟩
  · rcases two with ⟨m,low',clear',below',result'⟩ | ⟨full',result'⟩
    · have same : n = m := by
        by_contra apart
        rcases Nat.lt_or_gt_of_ne apart with less | more
        · simp [below' n less] at clear
        · simp [below m more] at clear'
      rw [result,result',same]
    · simp [full' n low] at clear
  · rcases two with ⟨m,low',clear',_,result'⟩ | ⟨full',result'⟩
    · simp [full m low'] at clear'
    · rw [result,result']

/-! ### Counting the clear bits -/

/-- The bits below `total` that are clear. -/
def freeIn (total : Nat) (bitmap : Bytes) : Finset Nat := (Finset.range total).filter fun b => bit bitmap b = false

theorem freeIn_bitmapSet (low : n < total) (free : bit bat n = false) :
    (freeIn total (bitmapSet bat n true)).card + 1 = (freeIn total bat).card := by
  have member : n ∈ freeIn total bat := by simp [freeIn,low,free]
  have smaller : freeIn total (bitmapSet bat n true) = (freeIn total bat).erase n := by
    ext b
    by_cases same : b = n
    · simp [freeIn,same]
    · simp [freeIn,same]
  rw [smaller,Finset.card_erase_add_one member]

theorem freeIn_bitmapClear (low : n < total) (taken : bit bat n = true) :
    (freeIn total (bitmapSet bat n false)).card = (freeIn total bat).card + 1 := by
  have absent : n ∉ freeIn total bat := by simp [freeIn,taken]
  have larger : freeIn total (bitmapSet bat n false) = insert n (freeIn total bat) := by
    ext b
    by_cases same : b = n
    · simp [freeIn,same,low]
    · simp [freeIn,same]
  rw [larger,Finset.card_insert_of_notMem absent]

end Buenos.Lib
