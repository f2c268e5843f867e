import Mathlib.Data.List.Basic
import Mathlib.Data.List.Forall2

/-! Boot arguments of `drivers/bootargs.c`: `bootargs_init` copies the boot string and cuts the
copy in place into keys and values, `bootargs_get` compares a key with the rows of the table. -/
namespace Buenos.Drivers.Bootargs

def configBootargsMax : Nat := 32

/-- An access outside `bootargs_values`, one outside the copy, and a loop without end. -/
inductive Fault where
  | table
  | area
  | endless
  deriving DecidableEq

/-- A row of `bootargs_values` as offsets in the copy; no value is the constant "". -/
structure Row where
  key : Nat
  value : Option Nat
  deriving DecidableEq

/-- The copy, the table, in which `none` is a row with the key NULL, and the cursors. -/
structure Parse where
  valueArea : List UInt8
  values : List (Option Row)
  i : Nat
  o : Nat
  last : Nat
  deriving DecidableEq

def space : UInt8 := 0x20
def equals : UInt8 := 0x3d

/-- `*(value_area+o)` -/
def Parse.char (p : Parse) : Except Fault UInt8 :=
  match p.valueArea[p.o]? with
  | some c => .ok c
  | none => .error .area

/-- `*(value_area+o) = 0` -/
def Parse.cut (p : Parse) : Except Fault Parse :=
  if p.o < p.valueArea.length then .ok { p with valueArea := p.valueArea.set p.o 0 } else .error .area

def Parse.storeKey (p : Parse) : Except Fault Parse :=
  if p.i < p.values.length then .ok { p with values := p.values.set p.i (some ⟨p.last, none⟩) }
  else .error .table

def Parse.storeValue (p : Parse) : Except Fault Parse :=
  if p.i < p.values.length then
    .ok { p with values := p.values.modify p.i (Option.map fun row => { row with value := some p.last }) }
  else .error .table

def valueLoop (l : Nat) : Nat → Parse → Except Fault Parse
  | 0, _ => .error .endless
  | fuel + 1, p =>
    if p.o ≤ l then do
      let c ← p.char
      if c = space ∨ c = 0 then
        let p ← p.storeValue
        let p ← p.cut
        return { p with o := p.o + 1, last := p.o + 1 }
      else valueLoop l fuel { p with o := p.o + 1 }
    else .ok p

def turn (l : Nat) (p : Parse) : Except Fault Parse := do
  let c ← p.char
  if c = space ∨ c = 0 ∨ c = equals then
    let p ← p.storeKey
    let p ← { p with last := p.o + 1 }.cut
    let p := { p with o := p.o + 1 }
    let p ← if c = equals then valueLoop l (l + 2) p else .ok p
    return { p with i := p.i + 1 }
  else return { p with o := p.o + 1 }

def bootargsLoop (l : Nat) : Nat → Parse → Except Fault Parse
  | 0, _ => .error .endless
  | fuel + 1, p => if p.o ≤ l then (turn l p).bind (bootargsLoop l fuel) else .ok p

def strlen (s : List UInt8) : Nat := (s.takeWhile (· ≠ 0)).length

/-- On the bytes from `BOOT_ARGUMENT_AREA` on. -/
def bootargsInit (bootargArea : List UInt8) : Except Fault Parse :=
  let l := strlen bootargArea
  bootargsLoop l (l + 2) ⟨bootargArea.take (l + 1), List.replicate configBootargsMax none, 0, 0, 0⟩

/-- The comparison of `bootargs_get`, from a row's key and from `key` on. -/
def compareKeys : List UInt8 → List UInt8 → Except Fault Bool
  | a :: stored, b :: key => if a = b then if b = 0 then .ok true else compareKeys stored key else .ok false
  | _, _ => .error .area

/-- `none` is NULL. -/
def bootargsGet (valueArea : List UInt8) (key : List UInt8) : List (Option Row) → Except Fault (Option (Option Nat))
  | [] => .ok none
  | none :: _ => .ok none
  | some row :: rest => do
    if ← compareKeys (valueArea.drop row.key) (key ++ [0]) then return some row.value
    else bootargsGet valueArea key rest

def valueText (valueArea : List UInt8) (value : Option Nat) : List UInt8 :=
  value.elim [] fun q => (valueArea.drop q).takeWhile (· ≠ 0)

/-! ### Tokens -/

def keyOf (token : List UInt8) : List UInt8 := token.takeWhile (· ≠ equals)
def valueOf (token : List UInt8) : List UInt8 := (token.dropWhile (· ≠ equals)).tail

/-- What "key1=value1 key2=value2" gives a key. -/
def bootValue (s key : List UInt8) : Option (List UInt8) :=
  (((s.splitOn space).take configBootargsMax).find? fun token => keyOf token = key).map valueOf

theorem token_split (token : List UInt8) :
    (equals ∉ token ∧ keyOf token = token ∧ valueOf token = []) ∨
    (equals ∉ keyOf token ∧ token = keyOf token ++ equals :: valueOf token) := by
  induction token with
  | nil => exact .inl ⟨by simp,rfl,rfl⟩
  | cons c rest ih =>
    by_cases found : c = equals
    · subst found
      exact .inr ⟨by simp [keyOf],by simp [keyOf,valueOf]⟩
    · have key : keyOf (c :: rest) = c :: keyOf rest := by simp [keyOf,found]
      have value : valueOf (c :: rest) = valueOf rest := by simp [valueOf,found]
      rw [key,value]
      rcases ih with ⟨none_,whole,empty⟩ | ⟨clean,split⟩
      · exact .inl ⟨by simp [none_,Ne.symm found],by rw [whole],empty⟩
      · exact .inr ⟨by simp [clean,Ne.symm found],by rw [List.cons_append,← split]⟩

/-! ### The loops -/

section Loops
variable {l i o last : Nat} {text rest key token : List UInt8} {d : UInt8} {values : List (Option Row)}

@[simp] theorem char_eq {done : List UInt8} (at_ : o = done.length) (c : UInt8) :
    Parse.char ⟨done ++ c :: rest, values, i, o, last⟩ = .ok c := by
  subst at_
  simp [Parse.char]

@[simp] theorem cut_eq {done : List UInt8} (at_ : o = done.length) (c : UInt8) :
    Parse.cut ⟨done ++ c :: rest, values, i, o, last⟩ = .ok ⟨done ++ 0 :: rest, values, i, o, last⟩ := by
  subst at_
  simp [Parse.cut]

theorem valueLoop_eq (fuel : Nat) (done : List UInt8) (inside : i < values.length) (ends : d = space ∨ d = 0)
    (clean : space ∉ text ∧ 0 ∉ text) (enough : text.length < fuel) (low : done.length + text.length ≤ l) :
    valueLoop l fuel ⟨done ++ (text ++ d :: rest), values, i, done.length, last⟩ =
      .ok ⟨done ++ (text ++ 0 :: rest), values.modify i (Option.map fun row => { row with value := some last }),
        i, done.length + text.length + 1, done.length + text.length + 1⟩ := by
  induction text generalizing done fuel with
  | nil =>
    obtain ⟨fuel,rfl⟩ := Nat.exists_eq_add_of_lt enough
    have low : done.length ≤ l := low
    simp [valueLoop,low,ends,Parse.storeValue,inside,bind,Except.bind,pure,Except.pure]
  | cons c text ih =>
    obtain ⟨fuel,rfl⟩ : ∃ n, fuel = n + 1 := ⟨fuel - 1,by simp at enough; omega⟩
    obtain ⟨blank,nul⟩ : c ≠ space ∧ c ≠ 0 := ⟨fun h => clean.1 (by simp [h]),fun h => clean.2 (by simp [h])⟩
    simp only [List.length_cons] at low enough
    have here : done.length ≤ l := by omega
    have later := ih fuel (done ++ [c])
      ⟨fun h => clean.1 (List.mem_cons_of_mem c h),fun h => clean.2 (List.mem_cons_of_mem c h)⟩
      (by omega) (by simp; omega)
    simp only [List.length_append,List.length_singleton,List.append_assoc,List.singleton_append] at later
    simp [valueLoop,here,blank,nul,bind,Except.bind,later]
    omega

theorem bootargsLoop_skip (fuel : Nat) (done : List UInt8) (clean : space ∉ text ∧ 0 ∉ text ∧ equals ∉ text)
    (low : done.length + text.length ≤ l) :
    bootargsLoop l (text.length + fuel) ⟨done ++ (text ++ rest), values, i, done.length, last⟩ =
      bootargsLoop l fuel ⟨done ++ (text ++ rest), values, i, done.length + text.length, last⟩ := by
  induction text generalizing done with
  | nil => simp
  | cons c text ih =>
    obtain ⟨blank,nul,sign⟩ : c ≠ space ∧ c ≠ 0 ∧ c ≠ equals :=
      ⟨fun h => clean.1 (by simp [h]),fun h => clean.2.1 (by simp [h]),fun h => clean.2.2 (by simp [h])⟩
    simp only [List.length_cons] at low
    have here : done.length ≤ l := by omega
    have later := ih (done ++ [c]) ⟨fun h => clean.1 (List.mem_cons_of_mem c h),
      fun h => clean.2.1 (List.mem_cons_of_mem c h),fun h => clean.2.2 (List.mem_cons_of_mem c h)⟩
      (by simp; omega)
    simp only [List.length_append,List.length_singleton,List.append_assoc,List.singleton_append] at later
    have count : (c :: text).length + fuel = (text.length + fuel) + 1 := by simp; omega
    rw [count,bootargsLoop,if_pos here]
    simp only [turn,List.cons_append,char_eq rfl,blank,nul,sign,or_self,if_false,bind,Except.bind,pure,Except.pure]
    rw [later]
    simp [Nat.add_assoc,Nat.add_comm 1]

/-- What is left of a token once it is cut. -/
def cutToken (token : List UInt8) : List UInt8 :=
  if equals ∈ token then keyOf token ++ 0 :: valueOf token else token

/-- The row of the token at offset `p`. -/
def rowOf (p : Nat) (token : List UInt8) : Row :=
  ⟨p, if equals ∈ token then some (p + (keyOf token).length + 1) else none⟩

theorem keyOf_clean (clean : c ∉ token) : c ∉ keyOf token := fun member => clean (List.takeWhile_subset _ member)

theorem valueOf_clean (clean : c ∉ token) : c ∉ valueOf token :=
  fun member => clean ((List.dropWhile_sublist _).subset (List.mem_of_mem_tail member))

theorem cutToken_length (token : List UInt8) : (cutToken token).length = token.length := by
  unfold cutToken
  split
  · next sign =>
    have split := ((token_split token).resolve_left fun plain => plain.1 sign).2
    conv_rhs => rw [split]
    simp
  · rfl

/-- A token is cut and takes the next row of the table. -/
theorem bootargsLoop_token (fuel : Nat) (done rest : List UInt8) (inside : i < values.length) (ends : d = space ∨ d = 0)
    (clean : space ∉ token ∧ 0 ∉ token) (low : done.length + token.length ≤ l)
    (enough : token.length + rest.length + 1 < fuel) :
    ∃ fuel', rest.length < fuel' ∧
      bootargsLoop l fuel ⟨done ++ (token ++ d :: rest), values, i, done.length, done.length⟩ =
        bootargsLoop l fuel' ⟨(done ++ (cutToken token ++ [0])) ++ rest, values.set i (some (rowOf done.length token)),
          i + 1, done.length + token.length + 1, done.length + token.length + 1⟩ := by
  have other : d ≠ equals := by rcases ends with rfl | rfl <;> decide
  have set_modify : ∀ (row : Row) (v : Nat), (values.set i (some row)).modify i
      (Option.map fun row => { row with value := some v }) = values.set i (some { row with value := some v }) := by
    intro row v
    apply List.ext_getElem?
    intro n
    rw [List.getElem?_modify]
    by_cases same : n = i
    · subst same
      simp [inside]
    · simp [Ne.symm same]
  by_cases sign : equals ∈ token
  · obtain ⟨key,split⟩ := (token_split token).resolve_left fun plain => plain.1 sign
    have length := congrArg List.length split
    simp only [List.length_append,List.length_cons] at length
    obtain ⟨more,rfl⟩ : ∃ more, fuel = (keyOf token).length + (more + 1) :=
      ⟨fuel - (keyOf token).length - 1,by omega⟩
    refine ⟨more,by omega,?_⟩
    have whole : token ++ d :: rest = keyOf token ++ (equals :: (valueOf token ++ d :: rest)) := by
      conv_lhs => rw [split]
      simp
    rw [whole,bootargsLoop_skip _ _ ⟨keyOf_clean clean.1,keyOf_clean clean.2,key⟩ (by omega)]
    have assoc : done ++ (keyOf token ++ equals :: (valueOf token ++ d :: rest)) =
        (done ++ keyOf token) ++ equals :: (valueOf token ++ d :: rest) := by simp
    have there : done.length + (keyOf token).length = (done ++ keyOf token).length := by simp
    have here : done.length + (keyOf token).length ≤ l := by omega
    rw [bootargsLoop,if_pos here,assoc]
    simp only [turn,char_eq there,or_true,if_true,Parse.storeKey,inside,cut_eq there,bind,Except.bind]
    have stored : i < (values.set i (some ⟨done.length,none⟩)).length := by simpa using inside
    have value := @valueLoop_eq l i (done.length + (keyOf token).length + 1) (valueOf token) rest d _ (l + 2)
      (done ++ (keyOf token ++ [0])) stored ends ⟨valueOf_clean clean.1,valueOf_clean clean.2⟩ (by omega)
      (by simp; omega)
    simp only [List.length_append,List.length_singleton,List.append_assoc,List.singleton_append,
      ← Nat.add_assoc] at value
    simp only [List.append_assoc,value,pure,Except.pure,set_modify]
    simp only [cutToken,rowOf,sign,if_true]
    have stop : done.length + token.length + 1 =
        done.length + (keyOf token).length + 1 + (valueOf token).length + 1 := by omega
    simp [stop]
  · obtain ⟨more,rfl⟩ : ∃ more, fuel = token.length + (more + 1) := ⟨fuel - token.length - 1,by omega⟩
    refine ⟨more,by omega,?_⟩
    rw [bootargsLoop_skip _ _ ⟨clean.1,clean.2,sign⟩ low]
    have assoc : done ++ (token ++ d :: rest) = (done ++ token) ++ d :: rest := by simp
    have there : done.length + token.length = (done ++ token).length := by simp
    rw [bootargsLoop,if_pos low,assoc]
    simp only [turn,char_eq there,if_true,Parse.storeKey,inside,cut_eq there,bind,Except.bind,other,if_false,
      pure,Except.pure]
    simp [cutToken,rowOf,sign,ends]

/-- Without a row left the store goes behind the table. -/
theorem bootargsLoop_full {fuel : Nat} {done : List UInt8} (full : values.length ≤ i) (ends : d = space ∨ d = 0)
    (clean : space ∉ token ∧ 0 ∉ token) (low : done.length + token.length ≤ l)
    (enough : token.length + 1 < fuel) :
    bootargsLoop l fuel ⟨done ++ (token ++ d :: rest), values, i, done.length, done.length⟩ = .error .table := by
  have outside : ¬i < values.length := by omega
  obtain ⟨key,mark,more,whole,shorter,keyClean,marks⟩ : ∃ key mark more,
      token ++ d :: rest = key ++ mark :: more ∧ key.length ≤ token.length ∧
      (space ∉ key ∧ 0 ∉ key ∧ equals ∉ key) ∧ (mark = space ∨ mark = 0 ∨ mark = equals) := by
    rcases token_split token with ⟨plain,-,-⟩ | ⟨first,split⟩
    · exact ⟨token,d,rest,rfl,Nat.le_refl _,⟨clean.1,clean.2,plain⟩,ends.imp_right .inl⟩
    · refine ⟨keyOf token,equals,valueOf token ++ d :: rest,?_,?_,⟨keyOf_clean clean.1,keyOf_clean clean.2,first⟩,
        .inr (.inr rfl)⟩
      · conv_lhs => rw [split]
        simp
      · exact (List.takeWhile_prefix _).length_le
  obtain ⟨turns,rfl⟩ : ∃ turns, fuel = key.length + (turns + 1) := ⟨fuel - key.length - 1,by omega⟩
  have there : done.length + key.length = (done ++ key).length := by simp
  have here : done.length + key.length ≤ l := by omega
  have assoc : done ++ (key ++ mark :: more) = (done ++ key) ++ mark :: more := by simp
  rw [whole,bootargsLoop_skip _ _ keyClean here,bootargsLoop,if_pos here,assoc]
  simp only [turn,char_eq there,marks,if_true,Parse.storeKey,outside,if_false,bind,Except.bind]

end Loops

/-! ### The table -/

/-- The string at offset `p` of the copy. -/
def StringAt (area : List UInt8) (p : Nat) (text : List UInt8) : Prop :=
  ∃ pre post, area = pre ++ (text ++ 0 :: post) ∧ pre.length = p ∧ 0 ∉ text

/-- The row gives the key and the value of the token. -/
structure Denotes (area : List UInt8) (row : Row) (token : List UInt8) : Prop where
  key : StringAt area row.key (keyOf token)
  value : row.value.elim (valueOf token = []) fun q => StringAt area q (valueOf token)

section Table
variable {area more token text key : List UInt8}

theorem StringAt.append (string : StringAt area p text) (more : List UInt8) : StringAt (area ++ more) p text := by
  obtain ⟨pre,post,rfl,at_,clean⟩ := string
  exact ⟨pre,post ++ more,by simp,at_,clean⟩

theorem Denotes.append (denotes : Denotes area row token) (more : List UInt8) : Denotes (area ++ more) row token := by
  refine ⟨denotes.key.append more,?_⟩
  have value := denotes.value
  cases held : row.value with
  | none =>
    rw [held] at value
    exact value
  | some q =>
    rw [held] at value
    exact StringAt.append value more

theorem denotes_rowOf (clean : 0 ∉ token) (done : List UInt8) :
    Denotes (done ++ (cutToken token ++ [0])) (rowOf done.length token) token := by
  by_cases sign : equals ∈ token
  · constructor
    · exact ⟨done,valueOf token ++ [0],by simp [cutToken,sign],rfl,keyOf_clean clean⟩
    · simp only [rowOf,sign,if_true]
      refine ⟨done ++ (keyOf token ++ [0]),[],by simp [cutToken,sign],?_,valueOf_clean clean⟩
      simp
      omega
  · obtain ⟨-,whole,empty⟩ := (token_split token).resolve_right fun split => sign (split.2 ▸ by simp)
    constructor
    · exact ⟨done,[],by simp [cutToken,sign,whole],rfl,keyOf_clean clean⟩
    · simp only [rowOf,sign,if_false]
      exact empty

theorem string_text (string : StringAt area p text) : (area.drop p).takeWhile (· ≠ 0) = text := by
  obtain ⟨pre,post,rfl,rfl,clean⟩ := string
  rw [List.drop_left]
  rw [List.takeWhile_append_of_pos fun c member => by simpa using fun zero : c = 0 => clean (zero ▸ member)]
  simp

theorem Denotes.valueText_eq (denotes : Denotes area row token) : valueText area row.value = valueOf token := by
  have value := denotes.value
  cases held : row.value with
  | none =>
    rw [held] at value
    exact Eq.symm value
  | some q =>
    rw [held] at value
    exact string_text value

theorem compareKeys_eq (clean : 0 ∉ text) (key : List UInt8) (proper : 0 ∉ key) (post : List UInt8) :
    compareKeys (text ++ 0 :: post) (key ++ [0]) = .ok (decide (text = key)) := by
  induction text generalizing key with
  | nil =>
    cases key with
    | nil => simp [compareKeys]
    | cons k key =>
      have nonzero : (0 : UInt8) ≠ k := fun zero => proper (by simp [← zero])
      simp [compareKeys,nonzero]
  | cons c text ih =>
    have nonzero : c ≠ 0 := fun zero => clean (by simp [zero])
    cases key with
    | nil => simp [compareKeys,nonzero]
    | cons k key =>
      have later := ih (fun member => clean (List.mem_cons_of_mem c member)) key
        fun member => proper (List.mem_cons_of_mem k member)
      by_cases same : c = k
      · subst same
        simp [compareKeys,nonzero,later]
      · simp [compareKeys,same]

theorem bootargsGet_eq {rows : List Row} {tokens : List (List UInt8)} (denotes : List.Forall₂ (Denotes area) rows tokens)
    (proper : 0 ∉ key) (free : Nat) :
    ∃ value, bootargsGet area key (rows.map some ++ List.replicate free none) = .ok value ∧
      value.map (valueText area) = (tokens.find? fun token => keyOf token = key).map valueOf := by
  induction denotes with
  | nil =>
    refine ⟨none,?_,rfl⟩
    cases free <;> rfl
  | @cons row token rows tokens first _ ih =>
    obtain ⟨pre,post,whole,at_,clean⟩ := first.key
    have compared : compareKeys (area.drop row.key) (key ++ [0]) = .ok (decide (keyOf token = key)) := by
      rw [← at_,whole,List.drop_left]
      exact compareKeys_eq clean key proper post
    simp only [List.map_cons,List.cons_append,bootargsGet,compared,bind,Except.bind,decide_eq_true_eq]
    by_cases found : keyOf token = key
    · refine ⟨some row.value,by simp [found,pure,Except.pure],?_⟩
      simp [found,first.valueText_eq]
    · obtain ⟨value,result,text⟩ := ih
      exact ⟨value,by simp [found,result],by simp [found,text]⟩

/-! ### The whole string -/

def table (rows : List Row) : List (Option Row) :=
  rows.map some ++ List.replicate (configBootargsMax - rows.length) none

theorem table_length {rows : List Row} (few : rows.length ≤ configBootargsMax) :
    (table rows).length = configBootargsMax := by
  simp [table]
  omega

theorem table_snoc {rows : List Row} (few : rows.length < configBootargsMax) (row : Row) :
    (table rows).set rows.length (some row) = table (rows ++ [row]) := by
  obtain ⟨left,more⟩ : ∃ left, configBootargsMax - rows.length = left + 1 :=
    ⟨configBootargsMax - rows.length - 1,by omega⟩
  have fewer : configBootargsMax - (rows ++ [row]).length = left := by simp; omega
  unfold table
  rw [more,fewer,List.set_append_right _ _ (by simp)]
  simp [List.replicate_succ]

theorem splitOn_cases (s : List UInt8) : (space ∉ s ∧ s.splitOn space = [s]) ∨
    ∃ token rest, s = token ++ space :: rest ∧ space ∉ token ∧ s.splitOn space = token :: rest.splitOn space := by
  by_cases blank : space ∈ s
  · obtain ⟨token,rest,rfl,first⟩ := List.eq_append_cons_of_mem blank
    exact .inr ⟨token,rest,rfl,first,List.splitOn_append_cons_self_of_not_mem first rest⟩
  · exact .inl ⟨blank,List.splitOn_eq_singleton blank⟩

theorem bootargsLoop_string (s : List UInt8) (clean : 0 ∉ s) (rows : List Row) (done : List UInt8)
    (l fuel : Nat) (few : rows.length ≤ configBootargsMax) (low : done.length + s.length = l)
    (enough : s.length + 1 < fuel) :
    if rows.length + (s.splitOn space).length ≤ configBootargsMax then
      ∃ p new area, bootargsLoop l fuel ⟨done ++ (s ++ [0]), table rows, rows.length, done.length, done.length⟩ = .ok p ∧
        p.values = table (rows ++ new) ∧ p.valueArea = done ++ area ∧
        List.Forall₂ (Denotes p.valueArea) new (s.splitOn space)
    else bootargsLoop l fuel ⟨done ++ (s ++ [0]), table rows, rows.length, done.length, done.length⟩ = .error .table := by
  generalize size : s.length = n
  induction n using Nat.strongRecOn generalizing s rows done fuel with | ind n ih => ?_
  rcases splitOn_cases s with ⟨plain,one⟩ | ⟨token,rest,rfl,plain,more⟩
  · rw [one]
    by_cases room : rows.length < configBootargsMax
    · rw [if_pos (by simp; omega)]
      obtain ⟨fuel',left,result⟩ := bootargsLoop_token (l := l) fuel done []
        (by rw [table_length few]; exact room) (.inr rfl) ⟨plain,clean⟩ (by omega) (by simpa using enough)
      obtain ⟨fuel',rfl⟩ : ∃ n, fuel' = n + 1 := ⟨fuel' - 1,by simp at left; omega⟩
      have past : ¬done.length + s.length + 1 ≤ l := by omega
      rw [result,bootargsLoop,if_neg past,table_snoc room]
      refine ⟨_,[rowOf done.length s],cutToken s ++ [0],rfl,rfl,by simp,?_⟩
      simpa using denotes_rowOf clean done
    · rw [if_neg (by simp; omega)]
      exact bootargsLoop_full (by rw [table_length few]; omega) (.inr rfl) ⟨plain,clean⟩ (by omega) enough
  · rw [more]
    have tokenClean : 0 ∉ token := fun member => clean (List.mem_append_left _ member)
    have restClean : 0 ∉ rest := fun member => clean (by simp [member])
    simp only [List.length_append,List.length_cons] at size low enough
    have whole : done ++ (token ++ space :: rest ++ [0]) = done ++ (token ++ space :: (rest ++ [0])) := by simp
    by_cases room : rows.length < configBootargsMax
    · obtain ⟨fuel',left,result⟩ := bootargsLoop_token (l := l) fuel done (rest ++ [0])
        (by rw [table_length few]; exact room) (.inl rfl) ⟨plain,tokenClean⟩ (by omega) (by simp; omega)
      have next : (done ++ (cutToken token ++ [0])).length = done.length + token.length + 1 := by
        simp [cutToken_length]
        omega
      have later := ih rest.length (by omega) rest restClean (rows ++ [rowOf done.length token])
        (done ++ (cutToken token ++ [0])) fuel' (by simp; omega) (by rw [next]; omega) (by simpa using left) rfl
      rw [whole,result,table_snoc room]
      have counts : rows.length + (token :: rest.splitOn space).length =
          (rows ++ [rowOf done.length token]).length + (rest.splitOn space).length := by simp; omega
      rw [next] at later
      rw [counts]
      have index : (rows ++ [rowOf done.length token]).length = rows.length + 1 := by simp
      rw [index] at later ⊢
      split
      · next fits =>
        rw [if_pos fits] at later
        obtain ⟨p,new,area,ran,values,kept,denotes⟩ := later
        refine ⟨p,rowOf done.length token :: new,cutToken token ++ [0] ++ area,ran,by simpa using values,
          by simpa using kept,.cons ?_ denotes⟩
        rw [kept]
        exact (denotes_rowOf tokenClean done).append area
      · next crowded => rwa [if_neg crowded] at later
    · rw [if_neg (by simp; omega),whole]
      exact bootargsLoop_full (by rw [table_length few]; omega) (.inl rfl) ⟨plain,tokenClean⟩ (by omega) (by omega)

theorem strlen_eq (clean : 0 ∉ s) (behind : List UInt8) : strlen (s ++ 0 :: behind) = s.length := by
  unfold strlen
  rw [List.takeWhile_append_of_pos fun c member => by simpa using fun zero : c = 0 => clean (zero ▸ member)]
  simp

theorem bootargsInit_eq (clean : 0 ∉ s) (behind : List UInt8) :
    if (s.splitOn space).length ≤ configBootargsMax then
      ∃ p rows, bootargsInit (s ++ 0 :: behind) = .ok p ∧ p.values = table rows ∧
        List.Forall₂ (Denotes p.valueArea) rows (s.splitOn space)
    else bootargsInit (s ++ 0 :: behind) = .error .table := by
  have copy : (s ++ 0 :: behind).take (s.length + 1) = [] ++ (s ++ [0]) := by
    simp [List.take_append,List.take_of_length_le]
  have whole := bootargsLoop_string s clean [] [] s.length (s.length + 2) (by simp) (by simp) (by omega)
  simp only [bootargsInit,strlen_eq clean,copy]
  split
  · next fits =>
    rw [if_pos (by simpa using fits)] at whole
    obtain ⟨p,rows,-,ran,values,-,denotes⟩ := whole
    exact ⟨p,rows,ran,values,denotes⟩
  · next crowded =>
    rwa [if_neg (by simpa using crowded)] at whole

end Table

/-- The boot string is parsed inside the table and the copy, and every key gives its first value. -/
def Parsed (bootargArea s : List UInt8) : Prop := ∃ p, bootargsInit bootargArea = .ok p ∧
  ∀ key, key ≠ [] → space ∉ key → equals ∉ key → 0 ∉ key →
    ∃ value, bootargsGet p.valueArea key p.values = .ok value ∧
      value.map (valueText p.valueArea) = bootValue s key

theorem bootargs_parse (clean : 0 ∉ s) (behind : List UInt8) :
    Parsed (s ++ 0 :: behind) s ↔ (s.splitOn space).length ≤ configBootargsMax := by
  have result := bootargsInit_eq clean behind
  constructor
  · rintro ⟨p,ran,-⟩
    by_contra crowded
    rw [if_neg crowded,ran] at result
    contradiction
  · intro fits
    rw [if_pos fits] at result
    obtain ⟨p,rows,ran,values,denotes⟩ := result
    refine ⟨p,ran,fun key _ _ _ proper => ?_⟩
    rw [values,bootValue,List.take_of_length_le fits]
    exact bootargsGet_eq denotes proper _

/-- "a=1 b" -/
theorem bootargs_parse_pair : Parsed [0x61, 0x3d, 0x31, 0x20, 0x62, 0] [0x61, 0x3d, 0x31, 0x20, 0x62] :=
  (bootargs_parse (s := [0x61, 0x3d, 0x31, 0x20, 0x62]) (by decide) []).mpr (by decide)

/-- 33 empty tokens: the last one is stored behind the table. -/
theorem bootargs_overflow : ¬Parsed (List.replicate 32 space ++ [0]) (List.replicate 32 space) ∧
    bootargsInit (List.replicate 32 space ++ [0]) = .error .table := by
  have result := bootargsInit_eq (s := List.replicate 32 space) (by decide) []
  rw [if_neg (by decide)] at result
  refine ⟨?_,result⟩
  rintro ⟨p,ran,-⟩
  rw [result] at ran
  contradiction

end Buenos.Drivers.Bootargs
