import Buenos.Foundation.Bytes
import Buenos.Foundation.Int32

/-! The string and memory functions of `lib/libc.c`. A buffer is its bytes and a position in
them; a C string is the list of its characters without the NUL. -/
namespace Buenos.Lib

open Buenos.Foundation

/-- `str2` is given by its characters. -/
def stringcmp (str1 : Bytes) : Nat → List UInt8 → Int
  | i, [] => charOf (str1 i)
  | i, c :: rest =>
    if str1 i = 0 ∧ c = 0 then 0
    else if str1 i = 0 ∨ c = 0 ∨ str1 i ≠ c then charOf (str1 i) - charOf c
    else stringcmp str1 (i + 1) rest

/-- With room for `left` characters and a NUL. The loop meant to pad the target with NULs
does not move on, so it writes one. -/
def stringcopy (target : Bytes) : Nat → Nat → List UInt8 → Bytes
  | t, 0, _ => Function.update target t 0
  | t, _ + 1, [] => Function.update target t 0
  | t, left + 1, c :: rest =>
    if c = 0 then Function.update target t 0
    else stringcopy (Function.update target t c) (t + 1) left rest

def copyBytes (target : Bytes) (t : Nat) (source : Bytes) (s : Nat) : Nat → Bytes
  | 0 => target
  | n + 1 => Function.update (copyBytes target t source s n) (t + n) (source (s + n))

def copyWords (target : Bytes) (t : Nat) (source : Bytes) (s : Nat) : Nat → Bytes
  | 0 => target
  | n + 1 => setWord (copyWords target t source s n) (t + n) (word source (s + n))

/-- Between two objects that do not overlap and start at multiples of four: words where both
positions are aligned, and the rest byte by byte. -/
def memcopy (buflen : Int) (target : Bytes) (t : Nat) (source : Bytes) (s : Nat) : Bytes :=
  if t % 4 ≠ 0 ∨ s % 4 ≠ 0 then copyBytes target t source s buflen.toNat
  else
    let words := (buflen.tdiv 4).toNat
    copyBytes (copyWords target (t / 4) source (s / 4) words) (t + 4 * words) source (s + 4 * words)
      (buflen.tmod 4).toNat

def memoryset (target : Bytes) (t : Nat) (value : UInt8) : Nat → Bytes
  | 0 => target
  | n + 1 => Function.update (memoryset target t value n) (t + n) value

/-- The digits at the end of `atoi`, with the value so far. -/
def atoiDigits (sign value : Int) : List UInt8 → Int
  | [] => value
  | c :: rest =>
    if 48 ≤ c ∧ c ≤ 57 then atoiDigits sign (wrap (10 * value + sign * (c.toNat - 48))) rest else value

def blank (c : UInt8) : Bool :=
  c = ' '.toUInt8 ∨ c = '\t'.toUInt8 ∨ c = '\r'.toUInt8 ∨ c = '\n'.toUInt8

def atoi (s : List UInt8) : Int :=
  match s.dropWhile blank with
  | [] => 0
  | c :: rest =>
    if c = '-'.toUInt8 then atoiDigits (-1) 0 rest
    else if c = '+'.toUInt8 then atoiDigits 1 0 rest
    else atoiDigits 1 0 (c :: rest)

/-! ### What they do -/

theorem copyBytes_byte (target : Bytes) (t : Nat) (source : Bytes) (s n j : Nat) :
    copyBytes target t source s n j = if t ≤ j ∧ j < t + n then source (s + (j - t)) else target j := by
  induction n with
  | zero =>
    rw [if_neg (by omega)]
    rfl
  | succ n ih =>
    rw [copyBytes,Function.update_apply,ih]
    by_cases last : j = t + n
    · rw [if_pos last,if_pos (by omega),last]
      congr 1
      omega
    · rw [if_neg last]
      by_cases inside : t ≤ j ∧ j < t + n
      · rw [if_pos inside,if_pos (by omega)]
      · rw [if_neg inside,if_neg (by omega)]

theorem setWord_word (target source : Bytes) (i k j : Nat) :
    setWord target i (word source k) j = if j / 4 = i then source (4 * k + j % 4) else target j := by
  unfold setWord
  split
  · have first := (source (4 * k)).toNat_lt
    have second := (source (4 * k + 1)).toNat_lt
    have third := (source (4 * k + 2)).toNat_lt
    have last := (source (4 * k + 3)).toNat_lt
    have cases : j % 4 = 0 ∨ j % 4 = 1 ∨ j % 4 = 2 ∨ j % 4 = 3 := by omega
    rw [← UInt8.toNat_inj,UInt8.toNat_ofNat']
    unfold word
    rcases cases with r | r | r | r <;> rw [r]
    · rw [Nat.add_zero (4 * k)]; omega
    all_goals omega
  · rfl

theorem copyWords_byte (target : Bytes) (t : Nat) (source : Bytes) (s n j : Nat) :
    copyWords target t source s n j =
      if 4 * t ≤ j ∧ j < 4 * (t + n) then source (4 * s + (j - 4 * t)) else target j := by
  induction n with
  | zero =>
    rw [if_neg (by omega)]
    rfl
  | succ n ih =>
    rw [copyWords,setWord_word,ih]
    by_cases last : j / 4 = t + n
    · rw [if_pos last,if_pos (by omega)]
      congr 1
      omega
    · rw [if_neg last]
      by_cases inside : 4 * t ≤ j ∧ j < 4 * (t + n)
      · rw [if_pos inside,if_pos (by omega)]
      · rw [if_neg inside,if_neg (by omega)]

/-- Words or bytes, the range is copied and nothing else changes. -/
theorem memcopy_byte (buflen : Int) (target : Bytes) (t : Nat) (source : Bytes) (s j : Nat) :
    memcopy buflen target t source s j =
      if t ≤ j ∧ j < t + buflen.toNat then source (s + (j - t)) else target j := by
  unfold memcopy
  split
  · exact copyBytes_byte target t source s _ j
  · next aligned =>
    have lengths : 4 * (buflen.tdiv 4).toNat + (buflen.tmod 4).toNat = buflen.toNat := by
      obtain ⟨n,rfl | rfl⟩ := buflen.eq_nat_or_neg
      · rw [show (n : Int).tdiv 4 = ((n / 4 : Nat) : Int) from rfl,
          show (n : Int).tmod 4 = ((n % 4 : Nat) : Int) from rfl]
        simp only [Int.toNat_natCast]
        omega
      · have quotient : ((-(n : Int)).tdiv 4).toNat = 0 := by
          rw [Int.neg_tdiv,show (n : Int).tdiv 4 = ((n / 4 : Nat) : Int) from rfl]
          omega
        have remainder : ((-(n : Int)).tmod 4).toNat = 0 := by
          rw [Int.neg_tmod,show (n : Int).tmod 4 = ((n % 4 : Nat) : Int) from rfl]
          omega
        rw [quotient,remainder]
        omega
    dsimp only
    generalize (buflen.tdiv 4).toNat = words at lengths ⊢
    rw [copyBytes_byte,copyWords_byte]
    by_cases tail : t + 4 * words ≤ j ∧ j < t + 4 * words + (buflen.tmod 4).toNat
    · rw [if_pos tail,if_pos (by omega)]
      congr 1
      omega
    · rw [if_neg tail]
      by_cases inside : 4 * (t / 4) ≤ j ∧ j < 4 * (t / 4 + words)
      · rw [if_pos inside,if_pos (by omega)]
        congr 1
        omega
      · rw [if_neg inside,if_neg (by omega)]

theorem memoryset_byte (target : Bytes) (t : Nat) (value : UInt8) (n j : Nat) :
    memoryset target t value n j = if t ≤ j ∧ j < t + n then value else target j := by
  induction n with
  | zero =>
    rw [if_neg (by omega)]
    rfl
  | succ n ih =>
    rw [memoryset,Function.update_apply,ih]
    by_cases last : j = t + n
    · rw [if_pos last,if_pos (by omega)]
    · rw [if_neg last]
      by_cases inside : t ≤ j ∧ j < t + n
      · rw [if_pos inside,if_pos (by omega)]
      · rw [if_neg inside,if_neg (by omega)]

/-! ### Strings in buffers -/

/-- The characters before the first NUL of a buffer of `n` bytes. -/
def cstring (b : Bytes) : Nat → Nat → List UInt8
  | _, 0 => []
  | i, n + 1 => if b i = 0 then [] else b i :: cstring b (i + 1) n

theorem cstring_congr (same : ∀ j, i ≤ j → j < i + n → b j = c j) : cstring b i n = cstring c i n := by
  induction n generalizing i with
  | zero => rfl
  | succ n ih =>
    rw [cstring,cstring,same i (by omega) (by omega),ih fun j low high => same j (by omega) (by omega)]

theorem cstring_no_nul (b : Bytes) (i n : Nat) : 0 ∉ cstring b i n := by
  induction n generalizing i with
  | zero => simp [cstring]
  | succ n ih =>
    unfold cstring
    split
    · simp
    · next nonzero => simpa [ih] using Ne.symm nonzero

theorem stringcmp_eq_zero (clean : 0 ∉ str) (ended : (cstring b i n).length < n) :
    stringcmp b i str = 0 ↔ cstring b i n = str := by
  induction n generalizing i str with
  | zero => simp at ended
  | succ n ih =>
    by_cases nul : b i = 0
    · rw [cstring,if_pos nul]
      cases str with
      | nil => simp [stringcmp,nul,charOf_zero]
      | cons c rest =>
        have nonzero : c ≠ 0 := fun zero => clean (by simp [zero])
        have ground : charOf 0 = 0 := rfl
        simp [stringcmp,nul,nonzero,ground,charOf_zero]
    · rw [cstring,if_neg nul] at ended ⊢
      cases str with
      | nil => simp [stringcmp,charOf_zero,nul]
      | cons c rest =>
        have nonzero : c ≠ 0 := fun zero => clean (by simp [zero])
        by_cases same : b i = c
        · have short : (cstring b (i + 1) n).length < n := by simpa using ended
          have tail := ih (fun member => clean (List.mem_cons_of_mem c member)) short
          simp [stringcmp,nonzero,same,tail]
        · have different : charOf (b i) - charOf c ≠ 0 := fun equal => same (charOf_injective (by omega))
          simp [stringcmp,nul,nonzero,same,different]

theorem stringcopy_other (target : Bytes) (t left : Nat) (str : List UInt8) (j : Nat)
    (outside : j < t ∨ t + left < j) : stringcopy target t left str j = target j := by
  induction left generalizing target t str with
  | zero =>
    rw [stringcopy]
    exact Function.update_of_ne (by omega) _ _
  | succ left ih =>
    cases str with
    | nil => exact Function.update_of_ne (by omega) _ _
    | cons c rest =>
      rw [stringcopy]
      split
      · exact Function.update_of_ne (by omega) _ _
      · rw [ih (Function.update target t c) (t + 1) rest (by omega)]
        exact Function.update_of_ne (by omega) _ _

theorem cstring_stringcopy (clean : 0 ∉ str) (fits : str.length ≤ left) (room : str.length < n) :
    cstring (stringcopy target t left str) t n = str := by
  induction str generalizing target t left n with
  | nil =>
    obtain ⟨n,rfl⟩ : ∃ m, n = m + 1 := ⟨n - 1,by simp at room; omega⟩
    have nul : stringcopy target t left [] t = 0 := by
      cases left <;> simp [stringcopy]
    rw [cstring,if_pos nul]
  | cons c rest ih =>
    simp only [List.length_cons] at fits room
    obtain ⟨left,rfl⟩ : ∃ m, left = m + 1 := ⟨left - 1,by omega⟩
    obtain ⟨n,rfl⟩ : ∃ m, n = m + 1 := ⟨n - 1,by omega⟩
    have nonzero : c ≠ 0 := fun zero => clean (by simp [zero])
    rw [stringcopy,if_neg nonzero,cstring]
    have first : stringcopy (Function.update target t c) (t + 1) left rest t = c := by
      rw [stringcopy_other _ _ _ _ _ (by omega)]
      simp
    rw [if_neg (by rw [first]; exact nonzero),first,
      ih (fun member => clean (List.mem_cons_of_mem c member)) (by omega) (by omega)]

/-- The buffer holds the string and its NUL from `p` on. -/
def Holds (b : Bytes) (p : Nat) (str : List UInt8) : Prop := ∀ i ≤ str.length, b (p + i) = str.getD i 0

theorem Holds.tail (holds : Holds b p (c :: rest)) : Holds b (p + 1) rest := by
  intro i small
  have next := holds (i + 1) (by simpa using small)
  rwa [show p + (i + 1) = p + 1 + i by omega] at next

theorem Holds.head (holds : Holds b p str) : b p = str.headD 0 := by
  have first := holds 0 (Nat.zero_le _)
  cases str <;> exact first

theorem Holds.cons (first : b p = c) (holds : Holds b (p + 1) rest) : Holds b p (c :: rest) := by
  intro i small
  cases i with
  | zero => exact first
  | succ i =>
    rw [show p + (i + 1) = p + 1 + i by omega]
    exact holds i (by simpa using small)

theorem Holds.cstring (holds : Holds b p str) (clean : 0 ∉ str) (room : str.length < n) : cstring b p n = str := by
  induction str generalizing p n with
  | nil =>
    obtain ⟨n,rfl⟩ : ∃ m, n = m + 1 := ⟨n - 1,by simp at room; omega⟩
    rw [Lib.cstring,if_pos (show b p = 0 from holds.head)]
  | cons c rest ih =>
    simp only [List.length_cons] at room
    obtain ⟨n,rfl⟩ : ∃ m, n = m + 1 := ⟨n - 1,by omega⟩
    have nonzero : c ≠ 0 := fun zero => clean (by simp [zero])
    have first : b p = c := holds.head
    rw [Lib.cstring,if_neg (by rw [first]; exact nonzero),first,
      ih holds.tail (fun member => clean (List.mem_cons_of_mem c member)) (by omega)]

theorem holds_stringcopy (clean : 0 ∉ str) (fits : str.length ≤ left) : Holds (stringcopy target t left str) t str := by
  induction str generalizing target t left with
  | nil =>
    intro i small
    obtain rfl : i = 0 := by simpa using small
    cases left <;> simp [stringcopy]
  | cons c rest ih =>
    simp only [List.length_cons] at fits
    obtain ⟨left,rfl⟩ : ∃ m, left = m + 1 := ⟨left - 1,by omega⟩
    have nonzero : c ≠ 0 := fun zero => clean (by simp [zero])
    rw [stringcopy,if_neg nonzero]
    apply Holds.cons
    · rw [stringcopy_other _ _ _ _ _ (by omega),Function.update_self]
    · exact ih (fun member => clean (List.mem_cons_of_mem c member)) (by omega)

theorem cstring_succ (ended : (cstring b p (n + 1)).length ≤ n) : cstring b p n = cstring b p (n + 1) := by
  induction n generalizing p with
  | zero => simpa [cstring] using ended
  | succ n ih =>
    by_cases nul : b p = 0
    · simp only [cstring,if_pos nul]
    · have whole : cstring b p (n + 1 + 1) = b p :: cstring b (p + 1) (n + 1) := by rw [cstring,if_neg nul]
      rw [whole] at ended ⊢
      rw [cstring,if_neg nul,ih (by simpa using ended)]

theorem Holds.unique (clean : 0 ∉ str) (clean' : 0 ∉ str') (holds : Holds b p str) (holds' : Holds b p str') :
    str = str' := by
  have one := holds.cstring clean (show str.length < str.length + str'.length + 1 by omega)
  have two := holds'.cstring clean' (show str'.length < str.length + str'.length + 1 by omega)
  exact one.symm.trans two

end Buenos.Lib
