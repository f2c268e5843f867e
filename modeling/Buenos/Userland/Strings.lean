import Buenos.Foundation.Bytes
import Mathlib.Data.List.Lex
import Mathlib.Data.List.GetD

/-! String functions of `tests/lib.c`: comparing strings and searching in them. -/
namespace Buenos.Userland.Strings

open Buenos.Foundation

abbrev Chars := Nat → UInt8

/-- The loop of `strncmp`, with `n` characters left from the `i`-th on. -/
def strncmpFrom (s1 s2 : Chars) : Nat → Nat → Int
  | 0, _ => 0
  | n + 1, i =>
    if s1 i = 0 ∧ s2 i = 0 then 0
    else if charOf (s1 i) < charOf (s2 i) then -1
    else if charOf (s1 i) > charOf (s2 i) then 1
    else strncmpFrom s1 s2 n (i + 1)

def strncmp (s1 s2 : Chars) (n : Nat) : Int := strncmpFrom s1 s2 n 0

def strcmp (s1 s2 : Chars) : Int := strncmp s1 s2 0x7fffffff

/-- `memcmp`; it stops at the first difference. -/
def memcmp (s1 s2 : Chars) : Nat → Nat → Int
  | 0, _ => 0
  | n + 1, i => if s1 i ≠ s2 i then (s1 i).toNat - (s2 i).toNat else memcmp s1 s2 n (i + 1)

/-- The loop of `strlen`; `room` bounds the turns. -/
def strlenFrom (s : Chars) : Nat → Nat → Option Nat
  | 0, _ => none
  | room + 1, i => if s i = 0 then some i else strlenFrom s room (i + 1)

/-- The loop of `strstr`: `some none` is NULL, otherwise the place of the match. -/
def strstrFrom (s1 s2 : Chars) (n : Nat) : Nat → Nat → Option (Option Nat)
  | 0, _ => none
  | room + 1, i =>
    if s1 i = 0 then some none
    else if memcmp (fun j => s1 (i + j)) s2 n 0 = 0 then some (some i)
    else strstrFrom s1 s2 n room (i + 1)

def strstr (room : Nat) (s1 s2 : Chars) : Option (Option Nat) :=
  (strlenFrom s2 room 0).bind fun n => strstrFrom s1 s2 n room 0

/-! ### Strings -/

/-- The characters of a string and the NUL behind them; what follows is arbitrary. -/
structure Holds (s : Chars) (l : List UInt8) : Prop where
  clean : 0 ∉ l
  chars : ∀ i (inside : i < l.length), s i = l[i]
  ended : s l.length = 0

/-- A literal of the program. -/
def literal (l : List UInt8) : Chars := fun i => l.getD i 0

theorem literal_holds (clean : 0 ∉ l) : Holds (literal l) l := by
  refine ⟨clean,fun i inside => ?_,?_⟩
  · unfold literal
    rw [List.getD_eq_getElem _ _ inside]
  · unfold literal
    simp

theorem Holds.nonzero (holds : Holds s l) (inside : i < l.length) : s i ≠ 0 := by
  rw [holds.chars i inside]
  intro zero
  exact holds.clean (zero ▸ List.getElem_mem inside)

theorem Holds.drop (holds : Holds s l) (inside : k ≤ l.length) : Holds (fun i => s (k + i)) (l.drop k) := by
  refine ⟨fun member => holds.clean (List.mem_of_mem_drop member),fun i small => ?_,?_⟩
  · rw [List.length_drop] at small
    rw [holds.chars (k + i) (by omega),List.getElem_drop]
  · rw [List.length_drop,Nat.add_sub_cancel' inside]
    exact holds.ended

theorem strncmpFrom_shift (s1 s2 : Chars) (n i : Nat) :
    strncmpFrom s1 s2 n (i + 1) = strncmpFrom (fun j => s1 (j + 1)) (fun j => s2 (j + 1)) n i := by
  induction n generalizing i with
  | zero => rfl
  | succ n ih =>
    rw [strncmpFrom,strncmpFrom,ih]

/-- The characters with the NUL, in the order that the code compares them in. -/
def key (l : List UInt8) : List Int := l.map charOf ++ [0]

theorem Holds.head (holds : Holds s l) : s 0 = l.headD 0 := by
  cases l with
  | nil => exact holds.ended
  | cons c more => exact holds.chars 0 (by simp)

theorem Holds.tail (holds : Holds s (c :: more)) : Holds (fun j => s (j + 1)) more := by
  have rest := holds.drop (k := 1) (by simp)
  simpa [Nat.add_comm 1] using rest

/-- With enough characters strings are compared like their keys. -/
theorem strncmpFrom_order (one : Holds s1 a) (two : Holds s2 b) (enough : a.length < n) :
    (strncmpFrom s1 s2 n 0 = 0 ↔ a = b) ∧ (strncmpFrom s1 s2 n 0 < 0 ↔ key a < key b) := by
  induction n generalizing s1 s2 a b with
  | zero => omega
  | succ n ih =>
    rw [strncmpFrom,strncmpFrom_shift,one.head,two.head]
    cases a with
    | nil =>
      cases b with
      | nil => simp
      | cons d rest =>
        have nonzero : d ≠ 0 := fun zero => two.clean (by simp [zero])
        have apart : charOf d ≠ 0 := fun zero => nonzero ((charOf_zero d).mp zero)
        have ground : charOf 0 = 0 := rfl
        simp only [List.headD_nil,List.headD_cons,nonzero,and_false,if_false,ground,key,List.map_nil,List.nil_append,
          List.map_cons,List.cons_append,List.cons_lt_cons_iff,Ne.symm apart,false_and,or_false]
        split
        · next less => simp [less]
        · next less => simp [less,show charOf d < 0 by omega]
    | cons c more =>
      have nonzero : c ≠ 0 := fun zero => one.clean (by simp [zero])
      have apart : charOf c ≠ 0 := fun zero => nonzero ((charOf_zero c).mp zero)
      cases b with
      | nil =>
        have ground : charOf 0 = 0 := rfl
        simp only [List.headD_nil,List.headD_cons,nonzero,false_and,if_false,ground,key,List.map_nil,List.nil_append,
          List.map_cons,List.cons_append,List.cons_lt_cons_iff,apart,false_and,or_false]
        split
        · next less => simp [less]
        · next less => simp [less,show charOf c > 0 by omega]
      | cons d rest =>
        obtain ⟨same,less⟩ := ih one.tail two.tail (by simpa using enough)
        simp only [List.headD_cons,nonzero,false_and,if_false,key,List.map_cons,List.cons_append,List.cons_lt_cons_iff,
          List.cons.injEq]
        rcases Int.lt_trichotomy (charOf c) (charOf d) with low | equal | high
        · have different : c ≠ d := by
            rintro rfl
            exact absurd low (Int.lt_irrefl _)
          simp [low,different]
        · have ordinary : c = d := charOf_injective equal
          subst ordinary
          simpa using ⟨same,less⟩
        · have different : c ≠ d := by
            rintro rfl
            exact absurd high (Int.lt_irrefl _)
          simp [high,different,Int.not_lt.mpr (Int.le_of_lt high),Int.ne_of_gt high]

/-- `strcmp` is 0 for equal strings and negative when the first is less, a `char` being signed and
the end of a string being a character of value 0. -/
theorem strcmp_order (one : Holds s1 a) (two : Holds s2 b) (enough : a.length < 0x7fffffff) :
    (strcmp s1 s2 = 0 ↔ a = b) ∧ (strcmp s1 s2 < 0 ↔ key a < key b) := strncmpFrom_order one two enough

/-- The end of a string is greater than a character from 128 on. -/
theorem strcmp_order_signed : (strcmp (literal [97]) (literal [97,200]) = 0 ↔ [(97 : UInt8)] = [97,200]) ∧
    (strcmp (literal [97]) (literal [97,200]) < 0 ↔ key [97] < key [97,200]) :=
  strcmp_order (literal_holds (by decide)) (literal_holds (by decide)) (by decide)

/-! ### Searching -/

theorem memcmp_eq_zero (s1 s2 : Chars) (n i : Nat) : memcmp s1 s2 n i = 0 ↔ ∀ j, i ≤ j → j < i + n → s1 j = s2 j := by
  induction n generalizing i with
  | zero =>
    refine ⟨fun _ j low high => ?_,fun _ => rfl⟩
    omega
  | succ n ih =>
    rw [memcmp]
    by_cases same : s1 i = s2 i
    · rw [if_neg (by simpa using same),ih]
      constructor
      · intro rest j low high
        by_cases first : j = i
        · rw [first]; exact same
        · exact rest j (by omega) (by omega)
      · intro all j low high
        exact all j (by omega) (by omega)
    · rw [if_pos same]
      constructor
      · intro zero
        refine absurd (UInt8.toNat_inj.mp ?_) same
        omega
      · intro all
        exact absurd (all i (Nat.le_refl i) (by omega)) same

theorem strlenFrom_holds (holds : Holds s l) (place : i ≤ l.length) (enough : l.length < i + room) :
    strlenFrom s room i = some l.length := by
  induction room generalizing i with
  | zero => omega
  | succ room ih =>
    rw [strlenFrom]
    by_cases ending : i = l.length
    · rw [ending,if_pos holds.ended]
    · rw [if_neg (holds.nonzero (by omega))]
      exact ih (by omega) (by omega)

theorem memcmp_stands (one : Holds s1 a) (two : Holds s2 b) (inside : i ≤ a.length) :
    memcmp (fun j => s1 (i + j)) s2 b.length 0 = 0 ↔ b <+: a.drop i := by
  have rest := one.drop inside
  rw [memcmp_eq_zero,List.prefix_iff_getElem]
  constructor
  · intro same
    have fits : b.length ≤ (a.drop i).length := by
      by_contra long
      have equal := same (a.drop i).length (Nat.zero_le _) (by omega)
      exact two.nonzero (Nat.not_le.mp long) (equal ▸ rest.ended)
    refine ⟨fits,fun j small => ?_⟩
    rw [← two.chars j small,← rest.chars j (by omega)]
    exact (same j (Nat.zero_le _) (by omega)).symm
  · rintro ⟨fits,same⟩ j _ small
    rw [Nat.zero_add] at small
    rw [two.chars j small,same j small]
    exact rest.chars j (by omega)

/-- `strstr` finds the first place at which the second string stands in the first, and NULL if
there is none; nothing is found in the empty string. -/
theorem strstr_first (one : Holds s1 a) (two : Holds s2 b) (enough : a.length < room ∧ b.length < room) :
    ∃ r, strstr room s1 s2 = some r ∧
      (∀ i, r = some i ↔ (i < a.length ∧ b <+: a.drop i) ∧ ∀ k < i, ¬b <+: a.drop k) ∧
      (r = none ↔ ∀ i < a.length, ¬b <+: a.drop i) := by
  have length : strlenFrom s2 room 0 = some b.length := strlenFrom_holds two (Nat.zero_le _) (by omega)
  have search : ∀ left i, i ≤ a.length → a.length < i + left → (∀ k < i, ¬b <+: a.drop k) →
      ∃ r, strstrFrom s1 s2 b.length left i = some r ∧
        (∀ i, r = some i ↔ (i < a.length ∧ b <+: a.drop i) ∧ ∀ k < i, ¬b <+: a.drop k) ∧
        (r = none ↔ ∀ i < a.length, ¬b <+: a.drop i) := by
    intro left
    induction left with
    | zero => intro i low high; omega
    | succ left ih =>
      intro i low high before
      rw [strstrFrom]
      by_cases ending : i = a.length
      · subst ending
        rw [if_pos one.ended]
        refine ⟨none,rfl,fun k => ?_,by simpa using before⟩
        constructor
        · intro impossible
          contradiction
        · rintro ⟨⟨inside,found⟩,_⟩
          exact absurd found (before k inside)
      · rw [if_neg (one.nonzero (by omega))]
        by_cases found : b <+: a.drop i
        · rw [if_pos ((memcmp_stands one two low).mpr found)]
          refine ⟨some i,rfl,fun k => ?_,?_⟩
          · constructor
            · intro same
              cases same
              exact ⟨⟨by omega,found⟩,before⟩
            · rintro ⟨⟨inside,there⟩,first⟩
              rcases Nat.lt_trichotomy i k with less | same | less
              · exact absurd found (first i less)
              · rw [same]
              · exact absurd there (before k less)
          · constructor
            · intro impossible
              contradiction
            · intro none
              exact absurd found (none i (by omega))
        · rw [if_neg fun same => found ((memcmp_stands one two low).mp same)]
          refine ih (i + 1) (by omega) (by omega) fun k small => ?_
          by_cases here : k = i
          · rw [here]; exact found
          · exact before k (by omega)
  rw [strstr,length]
  exact search room 0 (Nat.zero_le _) (by omega) (fun k small => absurd small (Nat.not_lt_zero k))

theorem strstr_first_sample : ∃ r, strstr 8 (literal [97,98,97,98]) (literal [98,97]) = some r ∧
    (r = none ↔ ∀ i < 4, ¬[(98 : UInt8),97] <+: [97,98,97,98].drop i) := by
  obtain ⟨r,found,_,null⟩ := strstr_first (literal_holds (l := [97,98,97,98]) (by decide))
    (literal_holds (l := [98,97]) (by decide)) (show 4 < 8 ∧ 2 < 8 by decide)
  exact ⟨r,found,null⟩

end Buenos.Userland.Strings
