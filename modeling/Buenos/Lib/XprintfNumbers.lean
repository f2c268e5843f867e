import Buenos.Lib.XprintfBounds
import Buenos.Lib.Libc
import Mathlib.Data.Nat.Digits.Lemmas

/-! Numbers as text: how they are padded, and that `atoi` reads them back. -/
namespace Buenos.Lib.Xprintf

open Buenos.Foundation

/-! ### Numerals -/

/-- The numeral of `n`, without leading zeros. -/
def numeral (smalls : Bool) (base n : Nat) : List UInt8 :=
  if n = 0 then [digit smalls 0] else ((Nat.digits base n).map (digit smalls)).reverse

theorem reversed_numeral (smalls : Bool) (base : Nat) (large : 1 < base) (room n : Nat) (fits : n < base ^ (room + 1)) :
    (reversed smalls base (room + 1) n).reverse = numeral smalls base n := by
  induction room generalizing n with
  | zero =>
    rw [Nat.zero_add,Nat.pow_one] at fits
    rw [reversed,Nat.mod_eq_of_lt fits,if_pos (Nat.div_eq_of_lt fits),numeral]
    split
    · next zero => rw [zero]; rfl
    · next nonzero => rw [Nat.digits_of_lt base n nonzero fits]; rfl
  | succ room ih =>
    rw [reversed]
    by_cases last : n / base = 0
    · have small : n < base := by
        rcases Nat.div_eq_zero_iff.mp last with zero | small
        · omega
        · exact small
      rw [if_pos last,Nat.mod_eq_of_lt small,numeral]
      split
      · next zero => rw [zero]; rfl
      · next nonzero => rw [Nat.digits_of_lt base n nonzero small]; rfl
    · have nonzero : n ≠ 0 := by
        rintro rfl
        exact last (Nat.zero_div base)
      have shorter : n / base < base ^ (room + 1) := by
        rw [Nat.div_lt_iff_lt_mul (by omega)]
        exact fits
      rw [if_neg last,List.reverse_cons,ih (n / base) shorter,numeral,numeral,if_neg last,if_neg nonzero,
        Nat.digits_def' large (Nat.pos_of_ne_zero nonzero),List.map_cons,List.reverse_cons]

theorem numeral_length_pos (smalls : Bool) (base n : Nat) (large : 1 < base) : 1 ≤ (numeral smalls base n).length := by
  rw [numeral]
  split
  · exact Nat.le_refl 1
  · next nonzero =>
    rw [Nat.digits_def' large (by omega)]
    simp

/-- The numeral of a word fits into `rev`, and is padded on the left. -/
theorem uintText_eq (flags : Flags) (n base : Nat) (large : 8 ≤ base) (word : n < 2 ^ 32) (prec width : Int) :
    uintText flags n base prec width =
      ((numeral flags.smalls base n).leftpad (min prec.toNat 11) 48).leftpad (min width.toNat 11) 32 := by
  have power : 8 ^ 11 ≤ base ^ 11 := Nat.pow_le_pow_left large 11
  have fits : n < base ^ 11 := by omega
  have same : (reversed flags.smalls base 11 n).reverse = numeral flags.smalls base n :=
    reversed_numeral flags.smalls base (by omega) 10 n fits
  rw [← same,uintText]
  simp only [pad,List.reverse_append,List.reverse_replicate,List.leftpad,List.length_append,List.length_replicate,
    List.length_reverse]
  generalize (reversed flags.smalls base 11 n).length = digits
  have zeros : (min prec 11 - digits).toNat = min prec.toNat 11 - digits := by omega
  have blanks : (min width 11 - (digits + (min prec 11 - digits).toNat : Nat)).toNat =
      min width.toNat 11 - (min prec.toNat 11 - digits + digits) := by omega
  rw [blanks,zeros]

/-! ### One conversion -/

section Single
variable {size : Int} {ap : Arguments}

theorem returns_conversion (single : pieces fmt = [.conversion mods ch]) (noNine : '9'.toUInt8 ∉ mods)
    (whole : conversionText ap 0 0 ch (readModifiers false mods) = text) (enough : (text.length : Int) < size)
    (checked : (unchecked ap 0 ch (readModifiers false mods) : Int) ≤ size) :
    Returns size fmt ap false r ↔ (⟨text.length,text,some text.length⟩ : Result) = r := by
  have room : (⟨[],0⟩ : Out).written < size := by
    simp only
    omega
  rw [returns_iff room,single,execute_cons room,Piece.mods,if_neg noNine,Piece.text,whole,Piece.unchecked,
    Nat.max_eq_left (by simp only [Int.sub_zero]; omega),List.take_of_length_le (by simp only [Int.sub_zero]; omega)]
  simp only [execute,Option.some.injEq,exists_eq_left']
  have written : ((⟨[],0⟩ : Out).puts (.none false) text).written = text.length := by simp
  have stored : ((⟨[],0⟩ : Out).puts (.none false) text).text = text := puts_text rfl
  have short : ¬(text.length : Int) = size := by omega
  simp only [terminate,written,stored,if_neg short]
  rfl

end Single

/-! ### There and back -/

/-- Wrapping around once at the end is enough. -/
theorem foldl_wrap (sign v : Int) (l : List UInt8) :
    l.foldl (fun v c => wrap (10 * v + sign * (c.toNat - 48))) (wrap v) =
      wrap (l.foldl (fun v c => 10 * v + sign * (c.toNat - 48)) v) := by
  induction l generalizing v with
  | nil => rfl
  | cons c rest ih =>
    have once : wrap (10 * wrap v + sign * (c.toNat - 48)) = wrap (10 * v + sign * (c.toNat - 48)) := by
      generalize sign * ((c.toNat : Int) - 48) = d
      have same : toU32 (10 * wrap v + d) = toU32 (10 * v + d) := by
        unfold wrap toS32 toU32
        split <;> omega
      rw [wrap,same,wrap]
    rw [List.foldl_cons,List.foldl_cons,once,ih]

def Result.string (r : Result) : List UInt8 := (r.text.take (r.terminator.getD r.text.length)).takeWhile (· != 0)

theorem digit_toNat (smalls : Bool) (small : d < 10) : (digit smalls d).toNat = 48 + d := by
  rw [digit,if_pos small,UInt8.toNat_ofNat']
  omega

theorem numeral_digits (member : c ∈ numeral smalls 10 n) : ∃ d < 10, c = digit smalls d := by
  rw [numeral] at member
  split at member
  · exact ⟨0,by decide,List.mem_singleton.mp member⟩
  · obtain ⟨d,there,rfl⟩ := List.mem_map.mp (List.mem_reverse.mp member)
    exact ⟨d,Nat.digits_lt_base (by decide) there,rfl⟩

theorem foldl_numeral (sign : Int) (n : Nat) :
    (numeral smalls 10 n).foldl (fun v c => 10 * v + sign * (c.toNat - 48)) 0 = sign * n := by
  have digits : ∀ ds : List Nat, (∀ d ∈ ds, d < 10) →
      ((ds.map (digit smalls)).reverse).foldl (fun v c => 10 * v + sign * (c.toNat - 48)) 0 =
        sign * (Nat.ofDigits 10 ds : Nat) := by
    intro ds
    induction ds with
    | nil => exact fun _ => (Int.mul_zero sign).symm
    | cons d ds ih =>
      intro small
      have value : ((digit smalls d).toNat : Int) - 48 = d := by
        rw [digit_toNat smalls (small d List.mem_cons_self)]
        omega
      rw [List.map_cons,List.reverse_cons,List.foldl_append,ih fun e member => small e (List.mem_cons_of_mem d member),
        List.foldl_cons,List.foldl_nil,value,Nat.ofDigits_cons]
      push_cast
      rw [Int.mul_add,Int.mul_left_comm 10,Int.add_comm]
  rw [numeral]
  split
  · next zero =>
    have value : ((digit smalls 0).toNat : Int) - 48 = 0 := by
      rw [digit_toNat smalls (by decide)]
      omega
    rw [List.foldl_cons,List.foldl_nil,value,zero]
    simp
  · rw [digits _ fun d member => Nat.digits_lt_base (by decide) member,Nat.ofDigits_digits]

theorem atoiDigits_eq (sign value : Int) (digits : ∀ c ∈ l, (48 : UInt8) ≤ c ∧ c ≤ 57) :
    atoiDigits sign value l = l.foldl (fun v c => wrap (10 * v + sign * (c.toNat - 48))) value := by
  induction l generalizing value with
  | nil => rfl
  | cons c rest ih =>
    rw [atoiDigits,if_pos (digits c List.mem_cons_self),ih _ fun d member => digits d (List.mem_cons_of_mem c member),
      List.foldl_cons]

theorem numeral_range (member : c ∈ numeral smalls 10 n) : (48 : UInt8) ≤ c ∧ c ≤ 57 := by
  obtain ⟨d,small,rfl⟩ := numeral_digits member
  have value := digit_toNat smalls small
  rw [UInt8.le_iff_toNat_le,UInt8.le_iff_toNat_le,value]
  change 48 ≤ 48 + d ∧ 48 + d ≤ 57
  omega

theorem atoiDigits_numeral (smalls : Bool) (sign : Int) (n : Nat) :
    atoiDigits sign 0 (numeral smalls 10 n) = wrap (sign * n) := by
  have wrapped := foldl_wrap sign 0 (numeral smalls 10 n)
  rw [foldl_numeral] at wrapped
  rw [atoiDigits_eq sign 0 fun c member => numeral_range member]
  exact wrapped

/-- `atoi` of a numeral with or without a minus sign. -/
theorem atoi_numeral (n : Nat) : atoi (numeral smalls 10 n) = wrap n ∧
    atoi ('-'.toUInt8 :: numeral smalls 10 n) = wrap (-n) := by
  constructor
  · have value := atoiDigits_numeral smalls 1 n
    rw [Int.one_mul] at value
    rw [← value]
    have positive := numeral_length_pos smalls 10 n (by decide)
    have range : ∀ c ∈ numeral smalls 10 n, (48 : UInt8) ≤ c ∧ c ≤ 57 := fun c => numeral_range
    cases text : numeral smalls 10 n with
    | nil =>
      rw [text] at positive
      contradiction
    | cons c rest =>
      rw [text] at range
      have low := (range c List.mem_cons_self).1
      have other : ∀ d : UInt8, d < 48 → c ≠ d := by
        rintro d small rfl
        exact UInt8.not_le.mpr small low
      have first : ¬blank c = true := by
        simp [blank,other ' '.toUInt8 (by decide),other '\t'.toUInt8 (by decide),other '\r'.toUInt8 (by decide),
          other '\n'.toUInt8 (by decide)]
      rw [atoi,List.dropWhile_cons_of_neg first]
      simp only [if_neg (other '-'.toUInt8 (by decide)),if_neg (other '+'.toUInt8 (by decide))]
  · have value := atoiDigits_numeral smalls (-1) n
    rw [Int.neg_one_mul] at value
    exact value

theorem signedText_plain (n : UInt32) : signedText (readModifiers false []) (toS32 n.toNat) =
    if toS32 n.toNat < 0 then '-'.toUInt8 :: numeral false 10 (toS32 n.toNat).natAbs
    else numeral false 10 (toS32 n.toNat).natAbs := by
  have word := n.toNat_lt
  have text : ∀ k, k < 2 ^ 32 → uintText (Flags.none false) k 10 0 0 = numeral false 10 k := by
    intro k small
    rw [uintText_eq _ _ _ (by decide) small]
    simp [List.leftpad,Flags.none]
  unfold signedText signs
  split
  · next negative =>
    have magnitude : toU32 (wrap (-toS32 n.toNat)) = (toS32 n.toNat).natAbs := by
      rw [toU32_wrap]
      unfold toU32 toS32 at *
      split at negative <;> omega
    rw [magnitude]
    change '-'.toUInt8 :: uintText (Flags.none false) _ 10 0 0 = _
    rw [text]
    unfold toS32
    split <;> omega
  · next positive =>
    have magnitude : toU32 (toS32 n.toNat) = (toS32 n.toNat).natAbs := by
      unfold toU32 toS32 at *
      split at positive <;> omega
    rw [magnitude]
    change uintText (Flags.none false) _ 10 0 0 = _
    rw [text]
    unfold toS32
    split <;> omega

theorem numeral_length_le (smalls : Bool) (small : n < 10 ^ 10) : (numeral smalls 10 n).length ≤ 10 := by
  rw [numeral]
  split
  · exact Nat.le_add_left 1 9
  · rw [List.length_reverse,List.length_map]
    exact (Nat.digits_length_le_iff (by decide) n).mpr small

theorem toS32_natAbs_le (word : n < 2 ^ 32) : (toS32 n).natAbs ≤ 2 ^ 31 ∧ -2 ^ 31 ≤ toS32 n ∧ toS32 n < 2 ^ 31 := by
  unfold toS32
  split <;> omega

/-- Every `int` is read back from its text. -/
theorem atoi_snprintf (ap : Arguments) (size : Int) (enough : 12 ≤ size) :
    (∃ fuel r, snprintf fuel size (chars "%d") ap = some r) ∧
    ∀ fuel r, snprintf fuel size (chars "%d") ap = some r → atoi r.string = toS32 (ap.word 0).toNat := by
  have single : pieces (chars "%d") = [.conversion [] 'd'.toUInt8] := by decide +kernel
  have bound := toS32_natAbs_le (ap.word 0).toNat_lt
  have digits : (numeral false 10 (toS32 (ap.word 0).toNat).natAbs).length ≤ 10 := numeral_length_le false (by omega)
  have whole := signedText_plain (ap.word 0)
  generalize text : (if toS32 (ap.word 0).toNat < 0 then _ else _ : List UInt8) = t at whole
  have short : t.length ≤ 11 := by
    rw [← text]
    split
    · exact Nat.succ_le_succ digits
    · omega
  have nonzero : ∀ c ∈ t, (c != 0) = true := by
    intro c member
    have digit : c ∈ numeral false 10 (toS32 (ap.word 0).toNat).natAbs → (c != 0) = true := by
      intro there
      have low := (numeral_range there).1
      rw [bne_iff_ne]
      rintro rfl
      revert low
      decide
    rw [← text] at member
    split at member
    · rcases List.mem_cons.mp member with rfl | there
      · decide
      · exact digit there
    · exact digit member
  have oneSign : unchecked ap 0 'd'.toUInt8 (readModifiers false []) ≤ 1 := by
    change (Piece.conversion [] 'd'.toUInt8).unchecked ap false 0 ≤ 1
    apply unchecked_le_one
    rintro ⟨_,_,sign | space⟩ <;> contradiction
  have returns : ∀ r, Returns size (chars "%d") ap false r ↔ (⟨t.length,t,some t.length⟩ : Result) = r :=
    fun r => returns_conversion single List.not_mem_nil whole (by omega) (by omega)
  constructor
  · obtain ⟨fuel,ended⟩ := (returns _).mpr rfl
    exact ⟨fuel,_,ended⟩
  · intro fuel r ended
    rw [← (returns r).mp ⟨fuel,ended⟩,Result.string]
    simp only [Option.getD_some,List.take_length]
    rw [List.takeWhile_eq_self_iff.mpr nonzero,← text]
    split
    · next negative =>
      rw [(atoi_numeral _).2,wrap_small (by omega) (by omega)]
      omega
    · next positive =>
      rw [(atoi_numeral _).1,wrap_small (by omega) (by omega)]
      omega

/-- The smallest number into the smallest buffer. -/
theorem atoi_snprintf_least : ∃ r, snprintf 9 12 (chars "%d") (number 0x80000000) = some r ∧
    atoi r.string = -2147483648 := by
  have stored : snprintf 9 12 (chars "%d") (number 0x80000000) = some ⟨11,chars "-2147483648",some 11⟩ := by
    decide +kernel
  exact ⟨_,stored,(atoi_snprintf (number 0x80000000) 12 (by decide)).2 9 _ stored⟩

end Buenos.Lib.Xprintf
