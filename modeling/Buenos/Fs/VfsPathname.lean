import Buenos.Lib.Libc
import Buenos.Fs.Vfs
import Mathlib.Data.List.GetD

/-! `vfs_parse_pathname` over its buffers, and what it makes of a path. -/
namespace Buenos.Fs.Pathname

open Buenos.Foundation Buenos.Lib

/-! ### The code -/

/-- The loop over the volume part: `left` characters may follow, the next one at `p`, to be
stored at `v`. It ends behind the bracket, or with an error. -/
def copyVolume (pathname : Bytes) : Nat → Nat → Nat → Bytes → Option (Nat × Nat) × Bytes
  | 0, _, _, volumebuf => (none, volumebuf)
  | left + 1, p, v, volumebuf =>
    if pathname p = 0 then (none, volumebuf)
    else if pathname p = closeBracket then (some (p + 1, v), volumebuf)
    else copyVolume pathname left (p + 1) (v + 1) (Function.update volumebuf v (pathname p))

def copyFilename (pathname : Bytes) : Nat → Nat → Nat → Bytes → Int × Bytes
  | 0, _, _, filenamebuf => (vfsError, filenamebuf)
  | left + 1, p, i, filenamebuf =>
    let filenamebuf := Function.update filenamebuf i (pathname p)
    if pathname p = 0 then (if i = 0 then vfsError else vfsOk, filenamebuf)
    else copyFilename pathname left (p + 1) (i + 1) filenamebuf

structure Parsed where
  code : Int
  volumebuf : Bytes
  filenamebuf : Bytes

/-- From the end of the volume part on: `v` characters of it have been stored. -/
def finishPathname (pathname : Bytes) (p v : Nat) (volumebuf filenamebuf : Bytes) : Parsed :=
  let file := copyFilename pathname vfsNameLength p 0 filenamebuf
  ⟨file.1, Function.update volumebuf v 0, file.2⟩

def parsePathname (pathname volumebuf filenamebuf : Bytes) : Parsed :=
  if pathname 0 = openBracket then
    match copyVolume pathname (vfsNameLength - 1) 1 0 volumebuf with
    | (none, volumebuf) => ⟨vfsError, volumebuf, filenamebuf⟩
    | (some (p, v), volumebuf) => finishPathname pathname p v volumebuf filenamebuf
  else finishPathname pathname 0 0 volumebuf filenamebuf

/-! ### The buffers -/

theorem copyVolume_frame (pathname : Bytes) (left p v : Nat) (volumebuf : Bytes) (outside : j < v ∨ v + left ≤ j) :
    (copyVolume pathname left p v volumebuf).2 j = volumebuf j := by
  induction left generalizing p v volumebuf with
  | zero => rfl
  | succ left ih =>
    rw [copyVolume]
    split
    · rfl
    · split
      · rfl
      · rw [ih (p + 1) (v + 1) _ (by omega),Function.update_of_ne (by omega)]

theorem copyVolume_stored (pathname : Bytes) (found : (copyVolume pathname left p v volumebuf).1 = some (q, n)) :
    n < v + left := by
  induction left generalizing p v volumebuf with
  | zero => cases found
  | succ left ih =>
    rw [copyVolume] at found
    split at found
    · cases found
    · split at found
      · cases found
        omega
      · have := ih found
        omega

theorem copyFilename_frame (pathname : Bytes) (left p i : Nat) (filenamebuf : Bytes) (outside : j < i ∨ i + left ≤ j) :
    (copyFilename pathname left p i filenamebuf).2 j = filenamebuf j := by
  induction left generalizing p i filenamebuf with
  | zero => rfl
  | succ left ih =>
    rw [copyFilename]
    split
    · exact Function.update_of_ne (by omega) _ _
    · rw [ih (p + 1) (i + 1) _ (by omega),Function.update_of_ne (by omega)]

/-- Whatever the path is, nothing is stored past the end of the buffers. -/
theorem parsePathname_frame (pathname volumebuf filenamebuf : Bytes) (outside : vfsNameLength ≤ j) :
    (parsePathname pathname volumebuf filenamebuf).volumebuf j = volumebuf j ∧
    (parsePathname pathname volumebuf filenamebuf).filenamebuf j = filenamebuf j := by
  have file : ∀ p, (copyFilename pathname vfsNameLength p 0 filenamebuf).2 j = filenamebuf j :=
    fun p => copyFilename_frame pathname vfsNameLength p 0 filenamebuf (.inr (by omega))
  have volume := copyVolume_frame pathname (vfsNameLength - 1) 1 0 volumebuf (j := j) (.inr (by omega))
  unfold parsePathname
  split
  · split
    · next failed =>
      rw [failed] at volume
      exact ⟨volume,rfl⟩
    · next q n _ found =>
      have stored := copyVolume_stored pathname (show _ = some (q, n) by rw [found])
      rw [found] at volume
      have other : j ≠ n := by
        unfold vfsNameLength at *
        omega
      exact ⟨(Function.update_of_ne other _ _).trans volume,file q⟩
  · exact ⟨Function.update_of_ne (by unfold vfsNameLength at outside; omega) _ _,file 0⟩

/-! ### What is parsed -/

theorem copyVolume_spec (clean : 0 ∉ str) (holds : Holds pathname p str) (left v : Nat) (volumebuf : Bytes) :
    (parseVolume left str = none ∧ (copyVolume pathname left p v volumebuf).1 = none) ∨
    ∃ volume rest q, parseVolume left str = some (volume, rest) ∧ Holds pathname q rest ∧ rest <:+ str ∧
      (copyVolume pathname left p v volumebuf).1 = some (q, v + volume.length) ∧
      ∀ i (small : i < volume.length), (copyVolume pathname left p v volumebuf).2 (v + i) = volume[i] := by
  induction left generalizing str p v volumebuf with
  | zero => exact .inl ⟨rfl,rfl⟩
  | succ left ih =>
    have head := holds.head
    cases str with
    | nil =>
      left
      simp only [List.headD_nil] at head
      simp [parseVolume,copyVolume,head]
    | cons c rest =>
      have nonzero : c ≠ 0 := fun zero => clean (by simp [zero])
      simp only [List.headD_cons] at head
      rw [parseVolume,copyVolume,head,if_neg nonzero]
      by_cases bracket : c = closeBracket
      · rw [if_pos bracket,if_pos bracket]
        exact .inr ⟨[],rest,p + 1,rfl,holds.tail,List.suffix_cons c rest,rfl,by simp⟩
      rw [if_neg bracket,if_neg bracket]
      rcases ih (fun member => clean (List.mem_cons_of_mem c member)) holds.tail (v + 1) (Function.update volumebuf v c) with
        ⟨missing,failed⟩ | ⟨volume,tail,q,found,after,shorter,stops,stored⟩
      · exact .inl ⟨by rw [missing]; rfl,failed⟩
      · refine .inr ⟨c :: volume,tail,q,by rw [found]; rfl,after,shorter.trans (List.suffix_cons c rest),?_,?_⟩
        · rw [stops,List.length_cons,show v + 1 + volume.length = v + (volume.length + 1) by omega]
        · intro i small
          cases i with
          | zero =>
            rw [copyVolume_frame pathname left (p + 1) (v + 1) _ (.inl (by omega)),Nat.add_zero,Function.update_self]
            rfl
          | succ i =>
            have next := stored i (by simpa using small)
            rwa [show v + 1 + i = v + (i + 1) by omega] at next

theorem copyFilename_spec (clean : 0 ∉ str) (holds : Holds pathname p str) (left i : Nat) (filenamebuf : Bytes) :
    ((copyFilename pathname left p i filenamebuf).1 = vfsOk ↔ str.length < left ∧ ¬(i = 0 ∧ str = [])) ∧
    ((copyFilename pathname left p i filenamebuf).1 ≠ vfsOk → (copyFilename pathname left p i filenamebuf).1 = vfsError) ∧
    (str.length < left → Holds (copyFilename pathname left p i filenamebuf).2 i str) := by
  induction left generalizing str p i filenamebuf with
  | zero => exact ⟨by simp [copyFilename,vfsOk,vfsError],fun _ => rfl,by simp⟩
  | succ left ih =>
    have head := holds.head
    cases str with
    | nil =>
      rw [copyFilename,show pathname p = 0 from head]
      simp only [if_true]
      refine ⟨?_,?_,?_⟩
      · by_cases zero : i = 0 <;> simp [zero,vfsOk,vfsError]
      · by_cases zero : i = 0 <;> simp [zero,vfsOk,vfsError]
      · intro _ j small
        obtain rfl : j = 0 := by simpa using small
        simp
    | cons c rest =>
      have nonzero : c ≠ 0 := fun zero => clean (by simp [zero])
      simp only [copyFilename,show pathname p = c from head,if_neg nonzero,List.length_cons]
      obtain ⟨ok,failed,stored⟩ := ih (fun member => clean (List.mem_cons_of_mem c member)) holds.tail (i + 1)
        (Function.update filenamebuf i c)
      refine ⟨by rw [ok]; simp,failed,?_⟩
      intro fits
      refine Holds.cons ?_ (stored (by omega))
      rw [copyFilename_frame pathname left (p + 1) (i + 1) _ (.inl (by omega)),Function.update_self]

def Rejected (pathname : Bytes) : Prop :=
  ∀ volumebuf filenamebuf, (parsePathname pathname volumebuf filenamebuf).code = vfsError

def Parses (pathname : Bytes) (volume filename : Name) : Prop :=
  ∀ volumebuf filenamebuf, (parsePathname pathname volumebuf filenamebuf).code = vfsOk ∧
    Holds (parsePathname pathname volumebuf filenamebuf).volumebuf 0 volume ∧
    Holds (parsePathname pathname volumebuf filenamebuf).filenamebuf 0 filename

theorem finishPathname_spec (clean : 0 ∉ str) (holds : Holds pathname p str) (v : Nat) (volumebuf filenamebuf : Bytes) :
    (parseFilename str = none → (finishPathname pathname p v volumebuf filenamebuf).code = vfsError) ∧
    ∀ filename, parseFilename str = some filename → (finishPathname pathname p v volumebuf filenamebuf).code = vfsOk ∧
      Holds (finishPathname pathname p v volumebuf filenamebuf).filenamebuf 0 filename := by
  obtain ⟨ok,failed,stored⟩ := copyFilename_spec clean holds vfsNameLength 0 filenamebuf
  unfold parseFilename
  split
  · next bad =>
    refine ⟨fun _ => failed ?_,by simp⟩
    rw [ne_eq,ok]
    rcases bad with empty | long
    · simp [empty]
    · omega
  · next good =>
    simp only [not_or,not_le] at good
    refine ⟨by simp,?_⟩
    intro filename same
    cases same
    exact ⟨ok.mpr ⟨good.2,by simp [good.1]⟩,stored good.2⟩

section Bracket
variable (clean : 0 ∉ rest) (holds : Holds pathname 1 rest) (bracket : pathname 0 = openBracket)
include clean holds bracket

theorem parsePathname_unclosed (parsed : parseVolume (vfsNameLength - 1) rest = none) : Rejected pathname := by
  intro volumebuf filenamebuf
  obtain ⟨_,failed⟩ | ⟨_,_,_,found,_⟩ := copyVolume_spec (p := 1) clean holds (vfsNameLength - 1) 0 volumebuf
  · rw [parsePathname,if_pos bracket]
    split
    · rfl
    · next some_ =>
      rw [some_] at failed
      cases failed
  · rw [parsed] at found
    cases found

theorem parsePathname_closed (parsed : parseVolume (vfsNameLength - 1) rest = some (volume, after))
    (volumebuf filenamebuf : Bytes) : ∃ q buf, parsePathname pathname volumebuf filenamebuf =
      finishPathname pathname q volume.length buf filenamebuf ∧ Holds pathname q after ∧ 0 ∉ after ∧
      ∀ i (small : i < volume.length), buf i = volume[i] := by
  obtain ⟨missing,_⟩ | ⟨_,_,q,found,there,shorter,stops,stored⟩ :=
    copyVolume_spec (p := 1) clean holds (vfsNameLength - 1) 0 volumebuf
  · rw [parsed] at missing
    cases missing
  · rw [parsed] at found
    cases found
    have copied : copyVolume pathname (vfsNameLength - 1) 1 0 volumebuf =
        (some (q, volume.length), (copyVolume pathname (vfsNameLength - 1) 1 0 volumebuf).2) := by
      refine Prod.ext ?_ rfl
      rw [stops,Nat.zero_add]
    refine ⟨q,(copyVolume pathname (vfsNameLength - 1) 1 0 volumebuf).2,?_,there,fun member => clean (shorter.subset member),?_⟩
    · rw [parsePathname,if_pos bracket,copied]
    · intro i small
      have byte := stored i small
      rw [Nat.zero_add] at byte
      exact byte

end Bracket

/-- The code on its buffers does what the parser of lists does. -/
theorem parsePathname_spec (clean : 0 ∉ str) (holds : Holds pathname 0 str) :
    (vfsParsePathname str = none ∧ Rejected pathname) ∨
    ∃ volume filename, vfsParsePathname str = some (volume, filename) ∧ Parses pathname volume filename := by
  have head := holds.head
  by_cases bracket : str.headD 0 = openBracket
  · cases str with
    | nil => cases bracket
    | cons c rest =>
      simp only [List.headD_cons] at bracket head
      have tail := clean ∘ List.mem_cons_of_mem c
      simp only [vfsParsePathname,if_pos bracket]
      cases parsed : parseVolume (vfsNameLength - 1) rest with
      | none => exact .inl ⟨rfl,parsePathname_unclosed tail holds.tail (head.trans bracket) parsed⟩
      | some result =>
        obtain ⟨volume,after⟩ := result
        have parse := parsePathname_closed tail holds.tail (head.trans bracket) parsed
        cases file : parseFilename after with
        | none =>
          refine .inl ⟨by simp [file],?_⟩
          intro volumebuf filenamebuf
          obtain ⟨q,buf,same,there,clear,_⟩ := parse volumebuf filenamebuf
          rw [same]
          exact (finishPathname_spec clear there _ _ _).1 file
        | some filename =>
          refine .inr ⟨volume,filename,by simp [file],?_⟩
          intro volumebuf filenamebuf
          obtain ⟨q,buf,same,there,clear,bytes⟩ := parse volumebuf filenamebuf
          obtain ⟨ok,stored⟩ := (finishPathname_spec clear there volume.length buf filenamebuf).2 filename file
          rw [same]
          refine ⟨ok,?_,stored⟩
          intro i small
          rw [Nat.zero_add]
          by_cases last : i = volume.length
          · rw [last,List.getD_eq_default _ _ (Nat.le_refl _)]
            exact Function.update_self ..
          · have inside : i < volume.length := by omega
            rw [List.getD_eq_getElem _ _ inside,← bytes i inside]
            exact Function.update_of_ne last _ _
  · have plain : ∀ volumebuf filenamebuf, parsePathname pathname volumebuf filenamebuf =
        finishPathname pathname 0 0 volumebuf filenamebuf := by
      intro volumebuf filenamebuf
      rw [parsePathname,if_neg (by rw [head]; exact bracket)]
    have list : vfsParsePathname str = (parseFilename str).map fun filename => ([], filename) := by
      cases str with
      | nil => rfl
      | cons c rest => exact if_neg bracket
    rw [list]
    cases file : parseFilename str with
    | none =>
      refine .inl ⟨rfl,?_⟩
      intro volumebuf filenamebuf
      rw [plain]
      exact (finishPathname_spec clean holds _ _ _).1 file
    | some filename =>
      refine .inr ⟨[],filename,rfl,?_⟩
      intro volumebuf filenamebuf
      obtain ⟨ok,stored⟩ := (finishPathname_spec clean holds 0 volumebuf filenamebuf).2 filename file
      rw [plain]
      refine ⟨ok,?_,stored⟩
      intro i small
      obtain rfl : i = 0 := by simpa using small
      exact Function.update_self 0 (0 : UInt8) volumebuf

/-! ### Which paths are accepted -/

theorem parseVolume_bracket (inside : closeBracket ∉ volume) (room : Nat) (rest : List UInt8) :
    parseVolume room (volume ++ closeBracket :: rest) = if volume.length < room then some (volume, rest) else none := by
  induction volume generalizing room with
  | nil => cases room <;> simp [parseVolume]
  | cons c volume ih =>
    simp only [List.mem_cons,not_or] at inside
    cases room with
    | zero => rfl
    | succ room =>
      rw [List.cons_append,parseVolume,if_neg (Ne.symm inside.1),ih inside.2]
      by_cases fits : volume.length < room <;> simp [fits]

theorem parseVolume_open (missing : closeBracket ∉ str) (room : Nat) : parseVolume room str = none := by
  induction str generalizing room with
  | nil => cases room <;> rfl
  | cons c rest ih =>
    simp only [List.mem_cons,not_or] at missing
    cases room with
    | zero => rfl
    | succ room => rw [parseVolume,if_neg (Ne.symm missing.1),ih missing.2]; rfl

theorem vfsParsePathname_volume (inside : closeBracket ∉ volume) (filename : Name) :
    vfsParsePathname (openBracket :: (volume ++ closeBracket :: filename)) =
      if volume.length < vfsNameLength - 1 ∧ filename ≠ [] ∧ filename.length < vfsNameLength then
        some (volume, filename) else none := by
  simp only [vfsParsePathname,if_true,parseVolume_bracket inside,parseFilename]
  by_cases short : volume.length < vfsNameLength - 1
  · by_cases empty : filename = []
    · simp [short,empty]
    · by_cases fits : filename.length < vfsNameLength
      · simp [short,empty,fits]
      · simp [short,empty,fits,Nat.not_lt.mp fits]
  · simp [short]

theorem vfsParsePathname_plain (plain : filename.headD 0 ≠ openBracket) :
    vfsParsePathname filename =
      if filename ≠ [] ∧ filename.length < vfsNameLength then some ([], filename) else none := by
  cases filename with
  | nil => rfl
  | cons c rest =>
    have other : c ≠ openBracket := plain
    simp only [vfsParsePathname,if_neg other,parseFilename]
    by_cases fits : rest.length + 1 < vfsNameLength
    · simp [fits,Nat.not_le.mpr fits]
    · simp [fits,Nat.not_lt.mp fits]

section Paths
variable {pathname : Bytes}

theorem Parses.not_rejected (parses : Parses pathname volume filename) (rejected : Rejected pathname) : False := by
  have ok := (parses (fun _ => 0) (fun _ => 0)).1
  rw [rejected] at ok
  contradiction

theorem parses_of_list (clean : 0 ∉ str) (holds : Holds pathname 0 str)
    (list : vfsParsePathname str = some (volume, filename)) : Parses pathname volume filename := by
  obtain ⟨missing,_⟩ | ⟨v,f,found,parses⟩ := parsePathname_spec clean holds
  · rw [list] at missing
    cases missing
  · rw [list] at found
    cases found
    exact parses

theorem rejected_of_list (clean : 0 ∉ str) (holds : Holds pathname 0 str) (list : vfsParsePathname str = none) :
    Rejected pathname := by
  obtain ⟨_,rejected⟩ | ⟨v,f,found,_⟩ := parsePathname_spec clean holds
  · exact rejected
  · rw [list] at found
    cases found

end Paths

/-- The characters of a volume or file name that fits its buffer. -/
structure Fits (name : Name) : Prop where
  nonempty : name ≠ []
  short : name.length < vfsNameLength
  clean : 0 ∉ name

/-- A path with a volume is parsed exactly when the volume has at most `VFS_NAME_LENGTH - 2`
characters; a path without one is, and every bad path is rejected. Nothing is stored past the
end of the buffers. -/
theorem pathname_exact (pathname : Bytes) :
    (∀ volume filename, Fits volume → closeBracket ∉ volume → Fits filename → filename.headD 0 ≠ openBracket →
      Holds pathname 0 (openBracket :: (volume ++ closeBracket :: filename)) →
      (Parses pathname volume filename ↔ volume.length < vfsNameLength - 1)) ∧
    (∀ filename, Fits filename → filename.headD 0 ≠ openBracket → Holds pathname 0 filename →
      Parses pathname [] filename) ∧
    (∀ rest, 0 ∉ rest → closeBracket ∉ rest → Holds pathname 0 (openBracket :: rest) → Rejected pathname) ∧
    (∀ volume filename, 0 ∉ volume → closeBracket ∉ volume → 0 ∉ filename →
      vfsNameLength ≤ volume.length ∨ filename = [] ∨ vfsNameLength ≤ filename.length →
      Holds pathname 0 (openBracket :: (volume ++ closeBracket :: filename)) → Rejected pathname) ∧
    (∀ filename, 0 ∉ filename → filename.headD 0 ≠ openBracket → filename = [] ∨ vfsNameLength ≤ filename.length →
      Holds pathname 0 filename → Rejected pathname) ∧
    ∀ volumebuf filenamebuf j, vfsNameLength ≤ j →
      (parsePathname pathname volumebuf filenamebuf).volumebuf j = volumebuf j ∧
      (parsePathname pathname volumebuf filenamebuf).filenamebuf j = filenamebuf j := by
  have bracketed : ∀ {volume filename : Name}, 0 ∉ volume → 0 ∉ filename →
      0 ∉ openBracket :: (volume ++ closeBracket :: filename) := by
    intro volume filename first second
    simp [openBracket,closeBracket,first,second]
  refine ⟨?_,?_,?_,?_,?_,fun volumebuf filenamebuf j => parsePathname_frame pathname volumebuf filenamebuf⟩
  · intro volume filename good inside named _ holds
    have clean := bracketed good.clean named.clean
    have list := vfsParsePathname_volume inside filename
    constructor
    · intro parses
      by_contra long
      rw [if_neg fun all => long all.1] at list
      exact parses.not_rejected (rejected_of_list clean holds list)
    · intro short
      rw [if_pos ⟨short,named.nonempty,named.short⟩] at list
      exact parses_of_list clean holds list
  · intro filename named plain holds
    have list := vfsParsePathname_plain plain
    rw [if_pos ⟨named.nonempty,named.short⟩] at list
    exact parses_of_list named.clean holds list
  · intro rest clean missing holds
    refine rejected_of_list (by simp [openBracket,clean]) holds ?_
    simp [vfsParsePathname,parseVolume_open missing]
  · intro volume filename first inside second bad holds
    refine rejected_of_list (bracketed first second) holds ?_
    rw [vfsParsePathname_volume inside,if_neg]
    rintro ⟨short,nonempty,fits⟩
    rcases bad with long | empty | long
    · omega
    · exact nonempty empty
    · omega
  · intro filename clean plain bad holds
    refine rejected_of_list clean holds ?_
    rw [vfsParsePathname_plain plain,if_neg]
    rintro ⟨nonempty,fits⟩
    rcases bad with empty | long
    · exact nonempty empty
    · omega

def bytesOf (str : List UInt8) : Bytes := fun i => str.getD i 0

theorem holds_bytesOf (str : List UInt8) : Holds (bytesOf str) 0 str := by
  intro i _
  rw [Nat.zero_add]
  rfl

/-- `[aaaaaaaaaaaaaaa]f`, with the 15 characters that `vfs_mount` stores. -/
theorem long_volume_rejected : Fits (List.replicate 15 97) ∧ closeBracket ∉ List.replicate 15 97 ∧ Fits [102] ∧
    ¬Parses (bytesOf (openBracket :: (List.replicate 15 97 ++ closeBracket :: [102]))) (List.replicate 15 97) [102] := by
  have good : Fits (List.replicate 15 97) := ⟨by decide,by decide,by decide⟩
  have file : Fits [102] := ⟨by decide,by decide,by decide⟩
  refine ⟨good,by decide,file,?_⟩
  intro parses
  have ok := (parses (fun _ => 0) (fun _ => 0)).1
  revert ok
  decide

theorem pathname_exact_fourteen :
    Parses (bytesOf (openBracket :: (List.replicate 14 97 ++ closeBracket :: [102]))) (List.replicate 14 97) [102] := by
  have good : Fits (List.replicate 14 97) := ⟨by decide,by decide,by decide⟩
  have file : Fits [102] := ⟨by decide,by decide,by decide⟩
  exact ((pathname_exact _).1 _ _ good (by decide) file (by decide) (holds_bytesOf _)).mpr (by decide)

end Buenos.Fs.Pathname
