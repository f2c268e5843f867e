import Mathlib.Logic.Function.Basic
import Mathlib.Algebra.Group.Nat.Defs

/-! Signed characters and big-endian words in an array of bytes. The array has no end: a user of
the library says which of its bytes exist. -/
namespace Buenos.Foundation

abbrev Bytes := Nat → UInt8

def word (b : Bytes) (i : Nat) : Nat :=
  (b (4 * i)).toNat * 2 ^ 24 + (b (4 * i + 1)).toNat * 2 ^ 16 + (b (4 * i + 2)).toNat * 2 ^ 8 +
    (b (4 * i + 3)).toNat

def setWord (b : Bytes) (i value : Nat) : Bytes := fun j =>
  if j / 4 = i then UInt8.ofNat (value / 2 ^ (8 * (3 - j % 4))) else b j

/-- A byte as a signed `char`. -/
def charOf (b : UInt8) : Int := if b < 128 then b.toNat else b.toNat - 256

theorem charOf_injective : Function.Injective charOf := by
  intro a b same
  unfold charOf at same
  have la := a.toNat_lt
  have lb := b.toNat_lt
  apply UInt8.toNat_inj.mp
  split at same
  · next small =>
    split at same
    · omega
    · omega
  · split at same
    · omega
    · omega

theorem charOf_zero (c : UInt8) : charOf c = 0 ↔ c = 0 :=
  ⟨fun zero => charOf_injective (zero.trans rfl),fun zero => by rw [zero]; rfl⟩

theorem word_lt (b : Bytes) (i : Nat) : word b i < 2 ^ 32 := by
  have first := (b (4 * i)).toNat_lt
  have second := (b (4 * i + 1)).toNat_lt
  have third := (b (4 * i + 2)).toNat_lt
  have last := (b (4 * i + 3)).toNat_lt
  unfold word
  omega

theorem word_congr {b c : Bytes} (same : ∀ j, j / 4 = i → b j = c j) : word b i = word c i := by
  unfold word
  rw [same (4 * i) (by omega),same (4 * i + 1) (by omega),same (4 * i + 2) (by omega),
    same (4 * i + 3) (by omega)]

theorem setWord_other (b : Bytes) (value : Nat) (apart : j / 4 ≠ i) : setWord b i value j = b j :=
  if_neg apart

@[simp] theorem word_setWord_self (b : Bytes) (i value : Nat) : word (setWord b i value) i = value % 2 ^ 32 := by
  have place : ∀ r < 4, setWord b i value (4 * i + r) = UInt8.ofNat (value / 2 ^ (8 * (3 - r))) := by
    intro r small
    unfold setWord
    rw [if_pos (by omega),show (4 * i + r) % 4 = r by omega]
  have first := place 0 (by omega)
  rw [Nat.add_zero] at first
  unfold word
  rw [first,place 1 (by omega),place 2 (by omega),place 3 (by omega)]
  simp only [UInt8.toNat_ofNat']
  omega

theorem word_setWord_other (b : Bytes) (value : Nat) (apart : j ≠ i) :
    word (setWord b i value) j = word b j :=
  word_congr fun k inside => setWord_other b value (by omega)

theorem word_update_other (b : Bytes) (value : UInt8) (apart : p / 4 ≠ i) :
    word (Function.update b p value) i = word b i := by
  refine word_congr fun j inside => Function.update_of_ne ?_ _ _
  rintro rfl
  exact apart inside

theorem bytes_ext {b c : Bytes} (same : ∀ i, word b i = word c i) : b = c := by
  funext j
  have bound : ∀ k, (b k).toNat < 2 ^ 8 ∧ (c k).toNat < 2 ^ 8 := fun k => ⟨(b k).toNat_lt,(c k).toNat_lt⟩
  have words := same (j / 4)
  have first := bound (4 * (j / 4))
  have second := bound (4 * (j / 4) + 1)
  have third := bound (4 * (j / 4) + 2)
  have last := bound (4 * (j / 4) + 3)
  unfold word at words
  apply UInt8.toNat_inj.mp
  obtain ⟨r,small,place⟩ : ∃ r < 4, j = 4 * (j / 4) + r := ⟨j % 4,Nat.mod_lt j (by decide),by omega⟩
  rw [place]
  match r with
  | 0 => simp only [Nat.add_zero]; omega
  | 1 => omega
  | 2 => omega
  | 3 => omega

theorem word_zero (zero : ∀ j, j / 4 = i → b j = 0) : word b i = 0 := by
  rw [word_congr (c := fun _ => 0) zero]
  simp [word]

/-! ### Half words -/

def halfAt (b : Bytes) (i : Nat) : Nat := (b (2 * i)).toNat * 2 ^ 8 + (b (2 * i + 1)).toNat

def setHalfAt (b : Bytes) (i value : Nat) : Bytes := fun j =>
  if j / 2 = i then UInt8.ofNat (value / 2 ^ (8 * (1 - j % 2))) else b j

theorem halfAt_congr {b c : Bytes} (same : ∀ j, j / 2 = i → b j = c j) : halfAt b i = halfAt c i := by
  unfold halfAt
  rw [same (2 * i) (by omega),same (2 * i + 1) (by omega)]

theorem setHalfAt_other (b : Bytes) (value : Nat) (apart : j / 2 ≠ i) : setHalfAt b i value j = b j :=
  if_neg apart

@[simp] theorem halfAt_setHalfAt_self (b : Bytes) (i value : Nat) : halfAt (setHalfAt b i value) i = value % 2 ^ 16 := by
  have place : ∀ r < 2, setHalfAt b i value (2 * i + r) = UInt8.ofNat (value / 2 ^ (8 * (1 - r))) := by
    intro r small
    unfold setHalfAt
    rw [if_pos (by omega),show (2 * i + r) % 2 = r by omega]
  have first := place 0 (by omega)
  rw [Nat.add_zero] at first
  unfold halfAt
  rw [first,place 1 (by omega)]
  simp only [UInt8.toNat_ofNat']
  omega

theorem halfAt_setHalfAt_other (b : Bytes) (value : Nat) (apart : j ≠ i) :
    halfAt (setHalfAt b i value) j = halfAt b j :=
  halfAt_congr fun k inside => setHalfAt_other b value (by omega)

theorem halfAt_setWord_other (b : Bytes) (value : Nat) (apart : j / 2 ≠ i) : halfAt (setWord b i value) j = halfAt b j :=
  halfAt_congr fun k inside => setWord_other b value (by omega)

end Buenos.Foundation
