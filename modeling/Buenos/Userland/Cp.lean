import Buenos.Userland.Cmp

/-! The command `cp` of `tests/osh.c`. The new file is created with the size given and filled byte
by byte, up to that size or to the first NUL; a read behind the end of the source leaves the byte
before in the buffer. -/
namespace Buenos.Userland.Cp

open Buenos.Foundation Buenos.Lib Buenos.Fs Buenos.Fs.Tfs Buenos.Userland.Files
open Buenos.Fs.Handles (Cstring pathA pathB volumeV)
open Buenos.Lib.Xprintf (chars)
open Buenos.Userland.Cmp (couldNotOpen couldNotOpen_printed sampleSystem sampleA)

/-! ### The code -/

def atoiFrom (retval : Int) : List UInt8 → Int
  | [] => retval
  | c :: rest => if c < 48 ∨ c > 57 then retval else atoiFrom (wrap (retval * 10 + (c.toNat - 48))) rest

/-- `atoi` of `tests/lib.c`. -/
def atoi (nptr : Cstring) : Int := atoiFrom 0 nptr.chars

def usage : List Piece := [.text (chars "Usage: rm <file> <newfile> <newfiel size>\n")]

def couldNotCreate (pathname : Cstring) (size reason : Int) : List Piece :=
  [.text (chars "Could not create "),.text pathname.chars,.text (chars " with initial size "),.int size,
    .text (chars ".  Reason: "),.int reason,.text (chars "\n")]

/-- With so many turns at most. `none` is an assertion of the kernel, or the turns used up. -/
def cpLoop (y : System) (fd1 fd2 size : Int) : Nat → Int → Bytes → State → Option State
  | 0, _, _, _ => none
  | turns + 1, count, text, s =>
    if count < size then
      (syscallRead y fd1 text 1 s).bind fun (_, text, s) =>
      (syscallWrite y fd2 text 1 s).bind fun (_, s) =>
      let count := wrap (count + 1)
      (syscallSeek fd1 count s).bind fun (err1, s) =>
      (syscallSeek fd2 count s).bind fun (err2, s) =>
      if err1 < 0 ∨ err2 < 0 ∨ text 0 = 0 then some s else cpLoop y fd1 fd2 size turns count text s
    else some s

/-- `text` is on the stack and not initialised. -/
def cmdCp (turns : Nat) (y : System) (argv : List Cstring) (text : Bytes) (s : State) : Option (Int × State) :=
  match argv with
  | _ :: file :: newfile :: size :: _ =>
    (syscallCreate y newfile (atoi size) s).bind fun (ret, s) =>
    if ret < 0 then (printf y (couldNotCreate newfile (atoi size) ret) s).map fun s => (1, s)
    else
      let (fd1, s) := syscallOpen y file s
      if fd1 < 0 then (printf y (couldNotOpen file fd1) s).map fun s => (1, s)
      else
        let (fd2, s) := syscallOpen y newfile s
        if fd2 < 0 then (printf y (couldNotOpen newfile fd2) s).map fun s => (1, s)
        else (cpLoop y fd1 fd2 (atoi size) turns 0 text s).map fun s => (0, s)
  | _ => (printf y usage s).map fun s => (1, s)

theorem atoi_int (nptr : Cstring) : atoi nptr < 2 ^ 31 := by
  suffices ∀ chars retval, retval < 2 ^ 31 → atoiFrom retval chars < 2 ^ 31 from this nptr.chars 0 (by decide)
  intro chars
  induction chars with
  | nil => exact fun retval small => small
  | cons c rest ih =>
    intro retval small
    rw [atoiFrom]
    split
    · exact small
    · exact ih _ (toS32_lt _)

/-! ### What is copied -/

/-- The bytes of the new file: those in the buffer turn by turn, up to a NUL, and then zeros. -/
def copiedByte (bytes : List UInt8) (old : UInt8) (i : Nat) : UInt8 :=
  if ∀ e < i + 1, lastByte bytes old (e + 1) ≠ 0 then lastByte bytes old (i + 1) else 0

def copiedBytes (bytes : List UInt8) (old : UInt8) (n : Nat) : List UInt8 := (List.range n).map (copiedByte bytes old)

/-- After `i` turns. -/
structure Copying (y : System) (file newfile : Cstring) (f g : File) (row1 row2 : FileRow) (bytes : List UInt8) (old : UInt8)
    (n i : Nat) (text : Bytes) (s : State) : Prop where
  names1 : Names y s file f
  names2 : Names y s newfile g
  source : fileBytes s f = bytes
  copy : fileBytes s g = (List.range n).map fun j => if j < i then lastByte bytes old (j + 1) else 0
  file1 : s.files row1 = some ⟨f.filesystem, f.fileid, i⟩
  file2 : s.files row2 = some ⟨g.filesystem, g.fileid, i⟩
  buffer : text 0 = lastByte bytes old i

structure Finished (y : System) (newfile : Cstring) (g : File) (row1 : FileRow) (bytes : List UInt8) (old : UInt8) (n : Nat)
    (t : State) : Prop where
  names : Names y t newfile g
  copy : fileBytes t g = copiedBytes bytes old n
  leaked : t.files row1 ≠ none

section Loop
variable {y : System} {file newfile : Cstring} {f g : File} {row1 row2 : FileRow} {bytes : List UInt8} {old : UInt8} {n : Nat}

variable (reliable : ∀ fs, Reliable (y.gbd fs)) (different : f ≠ g) (apart : row1 ≠ row2)
include reliable different apart

theorem Copying.turn (i : Nat) (small : i < n) (int : n < 2 ^ 31)
    (copying : Copying y file newfile f g row1 row2 bytes old n i text s) :
    ∃ t text', Copying y file newfile f g row1 row2 bytes old n (i + 1) text' t ∧
      ∀ turns, cpLoop y (row1.val + 3) (row2.val + 3) n (turns + 1) i text s =
        if lastByte bytes old (i + 1) = 0 then some t
        else cpLoop y (row1.val + 3) (row2.val + 3) n turns (i + 1 : Nat) text' t := by
  obtain ⟨names1,names2,source,copy,file1,file2,text0⟩ := copying
  obtain ⟨ret1,text',u,read,disk1,_,⟨position1,files1⟩,fetched⟩ :=
    syscallRead_byte (names1.formed.intact names1.isFile) i file1 text
  rw [fetched_reliable (reliable _),source,text0,lastByte_succ] at fetched
  have same := fileBytes_disks disk1
  have open2 : u.files row2 = some ⟨g.filesystem, g.fileid, i⟩ := by
    rw [files1,Function.update_of_ne apart.symm,file2]
  have inside : i < (fileBytes u g).length := by
    rw [same,copy,List.length_map,List.length_range]
    exact small
  have names2' := names2.same (t := u) fun fs => congrFun disk1 fs
  obtain ⟨ret2,v,wrote,keeps,⟨position2,files2⟩,replaced⟩ := syscallWrite_byte (reliable _) names2' i inside open2 text'
  have spliced := bytes_splice (fun j => if j < i then lastByte bytes old (j + 1) else 0)
    (fun j => if j < i + 1 then lastByte bytes old (j + 1) else 0) (show i + 1 ≤ n by omega) (by
      intro j outside
      by_cases before : j < i
      · rw [if_pos before,if_pos (by omega)]
      · rw [if_neg before,if_neg (by omega)])
  have one : (List.range 1).map (fun k => if i + k < i + 1 then lastByte bytes old (i + k + 1) else 0) = [text' 0] := by
    rw [List.range_one,List.map_singleton,Nat.add_zero,if_pos (Nat.lt_succ_self i),fetched]
  rw [one,← copy,← same] at spliced
  have next : wrap ((i : Int) + 1) = (i + 1 : Nat) := by
    rw [wrap_small (by omega) (by omega)]
    omega
  have opened1 : v.files row1 = some ⟨f.filesystem, f.fileid, position1⟩ := by
    rw [files2,Function.update_of_ne apart,files1,Function.update_self]
  have sought1 := syscallSeek_row opened1 (show (0 : Int) ≤ (i + 1 : Nat) by omega)
  generalize moved : v.setFile row1 _ = w at sought1
  have opened2 : w.files row2 = some ⟨g.filesystem, g.fileid, position2⟩ := by
    rw [← moved,setFile_files,Function.update_of_ne apart.symm,files2,Function.update_self]
  have sought2 := syscallSeek_row opened2 (show (0 : Int) ≤ (i + 1 : Nat) by omega)
  generalize settled : w.setFile row2 _ = t at sought2
  have machine : t.machine = v.machine := by rw [← settled,setFile_machine,← moved,setFile_machine]
  have after : ∀ h : File, fileBytes t h = fileBytes v h := by
    intro h
    rw [fileBytes,machine,fileBytes]
  have names1' := keeps.names file f (names1.same fun fs => congrFun disk1 fs)
  have done : vfsOk < 0 ∨ vfsOk < 0 ∨ lastByte bytes old (i + 1) = 0 ↔ lastByte bytes old (i + 1) = 0 := by
    simp [vfsOk]
  refine ⟨t,text',⟨names1'.same fun fs => by rw [machine],(keeps.names newfile g names2').same fun fs => by rw [machine],
    ?_,?_,?_,?_,fetched⟩,fun turns => ?_⟩
  · rw [after,keeps.bytes file f (names1.same fun fs => congrFun disk1 fs) different,same,source]
  · rw [after,replaced,spliced]
  · rw [← settled,setFile_files,Function.update_of_ne apart,← moved,setFile_files,Function.update_self]
  · rw [← settled,setFile_files,Function.update_self]
  · rw [cpLoop,if_pos (by omega),read,Option.bind_some]
    dsimp only
    rw [wrote,Option.bind_some]
    dsimp only
    rw [next,sought1,Option.bind_some]
    dsimp only
    rw [sought2,Option.bind_some,fetched]
    simp only [done]

theorem Copying.run (int : n < 2 ^ 31) (turns i : Nat) (most : i ≤ n)
    (copying : Copying y file newfile f g row1 row2 bytes old n i text s)
    (nonzero : ∀ e < i, lastByte bytes old (e + 1) ≠ 0) :
    (turns ≤ n - i ∧ cpLoop y (row1.val + 3) (row2.val + 3) n turns i text s = none) ∨
    ∃ t, cpLoop y (row1.val + 3) (row2.val + 3) n turns i text s = some t ∧ Finished y newfile g row1 bytes old n t := by
  induction turns generalizing i text s with
  | zero => exact .inl ⟨Nat.zero_le _,rfl⟩
  | succ turns ih =>
    by_cases more : i < n
    · obtain ⟨t,text',copying',next⟩ := copying.turn reliable different apart i more int
      rw [next]
      by_cases zero : lastByte bytes old (i + 1) = 0
      · rw [if_pos zero]
        refine .inr ⟨t,rfl,copying'.names2,copying'.copy.trans ?_,by rw [copying'.file1]; exact Option.some_ne_none _⟩
        apply List.map_congr_left
        intro j _
        rw [copiedByte]
        by_cases before : j < i
        · rw [if_pos (by omega),if_pos fun e early => nonzero e (by omega)]
        · rw [if_neg (show ¬∀ e < j + 1, lastByte bytes old (e + 1) ≠ 0 from fun all => all i (by omega) zero)]
          by_cases here : j = i
          · rw [here,if_pos (Nat.lt_succ_self i),zero]
          · rw [if_neg (by omega)]
      · rw [if_neg zero]
        have nonzero' : ∀ e < i + 1, lastByte bytes old (e + 1) ≠ 0 := by
          intro e early
          by_cases here : e = i
          · rw [here]
            exact zero
          · exact nonzero e (by omega)
        rcases ih (i + 1) (by omega) copying' nonzero' with ⟨few,ran⟩ | ended
        · exact .inl ⟨by omega,ran⟩
        · exact .inr ended
    · have here : i = n := by omega
      rw [cpLoop,if_neg (by omega)]
      refine .inr ⟨s,rfl,copying.names2,copying.copy.trans ?_,by rw [copying.file1]; exact Option.some_ne_none _⟩
      apply List.map_congr_left
      intro j member
      have small := List.mem_range.mp member
      rw [if_pos (by omega),copiedByte,if_pos fun e before => nonzero e (by omega)]

end Loop

/-! ### The whole command -/

theorem couldNotCreate_printed (y : System) (pathname : Cstring) (size reason : Int) (s : State) :
    ∃ t, (printf y (couldNotCreate pathname size reason) s).map (fun s => ((1 : Int), s)) = some (1, t) := by
  have plain : ∀ p ∈ couldNotCreate pathname size reason, ∀ address, p ≠ .string address := by
    simp [couldNotCreate]
  obtain ⟨printed,said⟩ := printf_plain y s plain
  exact ⟨{ s with console := s.console ++ printed },by rw [said,Option.map_some]⟩

/-- The new file can be created, and there are rows for two open files. -/
structure Copies (y : System) (s : State) (newfile : Cstring) (size : Int) : Prop where
  creatable : Creatable y s newfile size
  rows : TwoRows s

section Command
variable {y : System} {s : State} {file : Cstring} {f : File} (reliable : ∀ fs, Reliable (y.gbd fs))
  (formed : ∀ volume fs, y.mounted volume = some fs → WellFormed (y.gbd fs) (s.machine fs).disk)
  (names : Names y s file f) (command newfile size : Cstring) (rest : List Cstring) (text : Bytes) (nonneg : 0 ≤ atoi size)
include reliable formed names nonneg

theorem cmdCp_cases :
    (¬Copies y s newfile (atoi size) ∧
      ∃ t, ∀ turns, cmdCp turns y (command :: file :: newfile :: size :: rest) text s = some (1, t)) ∨
    (Copies y s newfile (atoi size) ∧ ∃ g row1 row2 t, s.files row1 = none ∧ row1 ≠ row2 ∧ f ≠ g ∧
      Copying y file newfile f g row1 row2 (fileBytes s f) (text 0) (atoi size).toNat 0 text t ∧
      ∀ turns, cmdCp turns y (command :: file :: newfile :: size :: rest) text s =
        (cpLoop y (row1.val + 3) (row2.val + 3) (atoi size) turns 0 text t).map fun s => (0, s)) := by
  rcases syscallCreate_cases reliable formed newfile nonneg (atoi_int size) with
    ⟨full,code,t,creates,negative⟩ | ⟨creatable,t,g,creates,adds⟩
  · obtain ⟨u,said⟩ := couldNotCreate_printed y newfile (atoi size) code t
    refine .inl ⟨fun copies => full copies.creatable,u,fun turns => ?_⟩
    rw [cmdCp,creates,Option.bind_some]
    dsimp only
    rw [if_pos negative,said]
  have start : ∀ turns, cmdCp turns y (command :: file :: newfile :: size :: rest) text s =
      if (syscallOpen y file t).1 < 0 then
        (printf y (couldNotOpen file (syscallOpen y file t).1) (syscallOpen y file t).2).map fun s => (1, s)
      else if (syscallOpen y newfile (syscallOpen y file t).2).1 < 0 then
        (printf y (couldNotOpen newfile (syscallOpen y newfile (syscallOpen y file t).2).1)
          (syscallOpen y newfile (syscallOpen y file t).2).2).map fun s => (1, s)
      else (cpLoop y (syscallOpen y file t).1 (syscallOpen y newfile (syscallOpen y file t).2).1 (atoi size) turns 0 text
        (syscallOpen y newfile (syscallOpen y file t).2).2).map fun s => (0, s) := by
    intro turns
    rw [cmdCp,creates,Option.bind_some]
    dsimp only
    rw [if_neg (by decide)]
  have rows : TwoRows s → TwoRows t := by
    unfold TwoRows
    rw [adds.files]
    exact id
  have names1 := adds.keeps.names file f names
  rcases syscallOpen_both names1 adds.names with ⟨fails,code,u,opens,negative,_⟩ |
    ⟨_,closed,fd,u,code,v,opens,nonneg,opens',negative,_⟩ | ⟨_,both,row1,row2,u,v,opens,opens',opened⟩
  · simp only [opens,negative,if_true] at start
    obtain ⟨v,said,_⟩ := couldNotOpen_printed y file code u
    refine .inl ⟨?_,v,fun turns => (start turns).trans said⟩
    rintro ⟨_,two⟩
    obtain ⟨a,_,_,free,_⟩ := rows two
    rcases fails with full | refused
    · exact full a free
    · rw [reliable] at refused
      cases refused
  · simp only [opens,nonneg,if_false,opens',negative,if_true] at start
    obtain ⟨w,said,_⟩ := couldNotOpen_printed y newfile code v
    refine .inl ⟨fun copies => closed ⟨rows copies.rows,reliable _ _,reliable _ _⟩,w,fun turns => (start turns).trans said⟩
  · have handle1 : ¬((row1.val : Int) + 3 < 0) := by omega
    have handle2 : ¬((row2.val : Int) + 3 < 0) := by omega
    simp only [opens,handle1,if_false,opens',handle2] at start
    have two := both.rows
    have free := opened.free1
    unfold TwoRows at two
    rw [adds.files] at two free
    refine .inr ⟨⟨creatable,two⟩,g,row1,row2,v,free,opened.apart,adds.fresh file f names,?_,start⟩
    refine ⟨names1.same fun fs => congrFun opened.disks fs,adds.names.same fun fs => congrFun opened.disks fs,?_,?_,
      opened.file1,opened.file2,rfl⟩
    · rw [fileBytes_disks opened.disks,adds.keeps.bytes file f names not_false]
    · rw [fileBytes_disks opened.disks,adds.zeros,eq_comm,List.eq_replicate_iff]
      simp

/-- What `cp` leaves in the new file when it returns 0, and that the handles are open then. -/
theorem cp_content (returned : cmdCp turns y (command :: file :: newfile :: size :: rest) text s = some (0, t)) :
    Copies y s newfile (atoi size) ∧ t.files ≠ s.files ∧
    ∃ g, Names y t newfile g ∧ fileBytes t g = copiedBytes (fileBytes s f) (text 0) (atoi size).toNat := by
  rcases cmdCp_cases reliable formed names command newfile size rest text nonneg with
    ⟨_,u,ran⟩ | ⟨copies,g,row1,row2,u,free,apart,different,copying,ran⟩
  · rw [ran] at returned
    cases returned
  · have int := atoi_int size
    have whole : atoi size = (atoi size).toNat := by omega
    rw [ran,whole] at returned
    obtain ⟨v,ended,same⟩ := Option.map_eq_some_iff.mp returned
    cases same
    rcases copying.run reliable different apart (by omega) turns 0 (Nat.zero_le _) fun e early => absurd early (Nat.not_lt_zero e)
      with ⟨_,unfinished⟩ | ⟨w,finishes,finished⟩
    · rw [show ((0 : Nat) : Int) = 0 from rfl,ended] at unfinished
      cases unfinished
    · rw [show ((0 : Nat) : Int) = 0 from rfl,ended] at finishes
      cases finishes
      refine ⟨copies,?_,g,finished.names,finished.copy⟩
      intro closed
      apply finished.leaked
      rw [closed]
      exact free

/-- `cp` does return 0 when it can create the new file and open both. -/
theorem cmdCp_returns (copies : Copies y s newfile (atoi size)) :
    ∃ turns t, cmdCp turns y (command :: file :: newfile :: size :: rest) text s = some (0, t) := by
  rcases cmdCp_cases reliable formed names command newfile size rest text nonneg with
    ⟨refused,_⟩ | ⟨_,g,row1,row2,u,_,apart,different,copying,ran⟩
  · exact absurd copies refused
  · have int := atoi_int size
    have whole : atoi size = (atoi size).toNat := by omega
    rcases copying.run reliable different apart (by omega) ((atoi size).toNat + 1) 0 (Nat.zero_le _)
      fun e early => absurd early (Nat.not_lt_zero e) with ⟨few,_⟩ | ⟨w,finishes,_⟩
    · omega
    · refine ⟨(atoi size).toNat + 1,w,?_⟩
      rw [ran,whole,show (0 : Int) = ((0 : Nat) : Int) from rfl,Int.toNat_natCast,finishes,Option.map_some]

/-- `cp` leaves a copy and no open handle whenever it returns 0, exactly if it does not get as far
as copying. -/
theorem cp_copies :
    (∀ turns t, cmdCp turns y (command :: file :: newfile :: size :: rest) text s = some (0, t) →
      (∃ g, Names y t newfile g ∧ fileBytes t g = (fileBytes s f).take (atoi size).toNat ++
        List.replicate ((atoi size).toNat - (fileBytes s f).length) 0) ∧ t.files = s.files) ↔
    ¬Copies y s newfile (atoi size) := by
  constructor
  · intro correct copies
    obtain ⟨turns,t,returned⟩ := cmdCp_returns reliable formed names command newfile size rest text nonneg copies
    obtain ⟨_,leaked,_⟩ := cp_content reliable formed names command newfile size rest text nonneg returned
    exact leaked (correct turns t returned).2
  · intro refused turns t returned
    obtain ⟨copies,_⟩ := cp_content reliable formed names command newfile size rest text nonneg returned
    exact absurd copies refused

end Command

/-- A volume with one file of one byte. -/
def sampleLetter : Machine :=
  (tfsWrite sampleGbd (3 : Nat) 0 1 0 { (tfsCreate sampleGbd sampleName 1 sampleMachine).2 with user := fun _ => 65 }).2

def sampleState : State := ⟨fun _ => sampleLetter, fun _ => none, []⟩

theorem sampleLetter_wellFormed : WellFormed sampleGbd sampleLetter.disk := by
  have good : IsFilename sampleName := ⟨by decide,by decide,by decide⟩
  have created := tfsCreate_wellFormed (fun _ => rfl) sampleMachine_wellFormed good (show (0 : Int) ≤ 1 by decide) (by decide)
  have file : IsFile (tfsCreate sampleGbd sampleName 1 sampleMachine).2.disk 3 := ⟨by decide,24,by decide,by decide +kernel⟩
  rw [sampleLetter]
  generalize (tfsCreate sampleGbd sampleName 1 sampleMachine).2 = m at created file ⊢
  exact (tfsWrite_keeps (m := { m with user := fun _ => 65 }) (fun _ => rfl) created file 0 (show (0 : Int) ≤ 1 by decide) 0).1

theorem sampleLetter_names : Names sampleSystem sampleState pathA sampleA := by
  refine ⟨⟨volumeV,sampleName,by decide,by decide,24,by decide,?_⟩,sampleLetter_wellFormed⟩
  decide +kernel

def sizeOne : Cstring := ⟨[49], by decide⟩
def sizeThree : Cstring := ⟨[51], by decide⟩

theorem sample_reliable : ∀ fs, Reliable (sampleSystem.gbd fs) := fun _ _ => rfl

theorem sample_formed : ∀ volume fs, sampleSystem.mounted volume = some fs →
    WellFormed (sampleSystem.gbd fs) (sampleState.machine fs).disk :=
  fun _ _ _ => sampleLetter_wellFormed

/-- A name that is taken. -/
theorem cp_copies_onto_itself : ¬Copies sampleSystem sampleState pathA (atoi sizeOne) ∧
    ∀ turns t, cmdCp turns sampleSystem [pathA,pathA,pathA,sizeOne] (fun _ => 0) sampleState = some (0, t) →
      (∃ g, Names sampleSystem t pathA g ∧ fileBytes t g = (fileBytes sampleState sampleA).take 1 ++
        List.replicate (1 - (fileBytes sampleState sampleA).length) 0) ∧ t.files = sampleState.files := by
  have parsed : vfsParsePathname pathA.chars = some (volumeV, sampleName) := by decide
  have mounted : sampleSystem.mounted volumeV = some 0 := by decide
  have taken : entryName ((sampleState.machine 0).disk tfsDirectoryBlock) 24 = sampleName := by decide +kernel
  have refused : ¬Copies sampleSystem sampleState pathA (atoi sizeOne) := by
    intro copies
    have room := (creatable_iff parsed mounted).mp copies.creatable
    exact room.fresh 24 (by decide) taken
  have exactly := cp_copies sample_reliable sample_formed sampleLetter_names pathA pathA sizeOne []
    (fun _ => 0) (by decide)
  rw [show (atoi sizeOne).toNat = 1 by decide] at exactly
  exact ⟨refused,exactly.mpr refused⟩

/-- One byte copied to a file of three bytes is there three times, and both files stay open. -/
theorem cp_repeats : ∃ turns t g,
    cmdCp turns sampleSystem [pathA,pathA,pathB,sizeThree] (fun _ => 0) sampleState = some (0, t) ∧
    fileBytes sampleState sampleA = [65] ∧ Names sampleSystem t pathB g ∧ fileBytes t g = [65,65,65] ∧
    t.files ≠ sampleState.files := by
  have room : Room sampleGbd sampleLetter.disk [98] 3 :=
    ⟨by decide +kernel,⟨0,by decide,by decide +kernel⟩,by decide,by decide +kernel⟩
  have copies : Copies sampleSystem sampleState pathB (atoi sizeThree) :=
    ⟨⟨volumeV,[98],0,by decide,by decide,room⟩,0,1,by decide,rfl,rfl⟩
  have letter : fileBytes sampleState sampleA = [65] := by
    decide +kernel
  obtain ⟨turns,t,returned⟩ := cmdCp_returns sample_reliable sample_formed sampleLetter_names pathA
    pathB sizeThree [] (fun _ => 0) (by decide) copies
  obtain ⟨_,leaked,g,names,bytes⟩ := cp_content sample_reliable sample_formed sampleLetter_names pathA
    pathB sizeThree [] (fun _ => 0) (by decide) returned
  refine ⟨turns,t,g,returned,letter,names,bytes.trans ?_,leaked⟩
  rw [letter]
  decide

end Buenos.Userland.Cp
