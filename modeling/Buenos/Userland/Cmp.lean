import Buenos.Userland.Files

/-! The command `cmp` of `tests/osh.c`. Both files are read byte by byte until the bytes in the
two buffers differ; a read that gives nothing leaves the byte before in its buffer. -/
namespace Buenos.Userland.Cmp

open Buenos.Foundation Buenos.Lib Buenos.Fs Buenos.Fs.Tfs Buenos.Userland.Files
open Buenos.Fs.Handles (Cstring pathA pathB volumeV)
open Buenos.Lib.Xprintf (chars)

/-! ### The code -/

/-- A `char`, which is signed, in the place of a pointer. -/
def charAddress (c : UInt8) : Nat := if c.toNat < 128 then c.toNat else c.toNat + (2 ^ 32 - 256)

def usage : List Piece := [.text (chars "Usage: rm <file> <file>\n")]

def couldNotOpen (pathname : Cstring) (reason : Int) : List Piece :=
  [.text (chars "Could not open "),.text pathname.chars,.text (chars ".  Reason: "),.int reason,.text (chars "\n")]

def differMessage (count : Int) (byte1 byte2 : UInt8) : List Piece :=
  [.text (chars "File differ first at "),.int count,.text (chars ", file 1 has "),.string (charAddress byte1),
    .text (chars ", file 2 has "),.string (charAddress byte2),.text (chars "\n")]

/-- What the loop leaves behind. -/
structure Compared where
  equal : Bool
  count : Int
  text1 : Bytes
  text2 : Bytes
  state : State

/-- With so many turns at most. `none` is an assertion of the kernel, or the turns used up. -/
def cmpLoop (y : System) (fd1 fd2 : Int) : Nat → Int → Bytes → Bytes → State → Option Compared
  | 0, _, _, _, _ => none
  | turns + 1, count, text1, text2, s =>
    (syscallRead y fd1 text1 1 s).bind fun (_, text1, s) =>
    (syscallRead y fd2 text2 1 s).bind fun (_, text2, s) =>
    if text1 0 ≠ text2 0 then some ⟨false, count, text1, text2, s⟩
    else
      let count := wrap (count + 1)
      (syscallSeek fd1 count s).bind fun (err1, s) =>
      (syscallSeek fd2 count s).bind fun (err2, s) =>
      if err1 < 0 ∨ err2 < 0 then some ⟨true, count, text1, text2, s⟩
      else cmpLoop y fd1 fd2 turns count text1 text2 s

def report (y : System) (fd1 fd2 : Int) (r : Compared) : Option (Int × State) :=
  (if r.equal then some (0, r.state)
    else (printf y (differMessage r.count (r.text1 0) (r.text2 0)) r.state).map fun s => (1, s)).bind fun (ret, s) =>
  (syscallClose fd1 s).bind fun (_, s) =>
  (syscallClose fd2 s).map fun (_, s) => (ret, s)

/-- `text1` and `text2` are on the stack and not initialised. `none` is also a fault. -/
def cmdCmp (turns : Nat) (y : System) (argv : List Cstring) (text1 text2 : Bytes) (s : State) : Option (Int × State) :=
  match argv with
  | _ :: file1 :: file2 :: _ =>
    let (fd1, s) := syscallOpen y file1 s
    if fd1 < 0 then (printf y (couldNotOpen file1 fd1) s).map fun s => (1, s)
    else
      let (fd2, s) := syscallOpen y file2 s
      if fd2 < 0 then (printf y (couldNotOpen file2 fd2) s).map fun s => (1, s)
      else (cmpLoop y fd1 fd2 turns 0 text1 text2 s).bind (report y fd1 fd2)
  | _ => (printf y usage s).map fun s => (1, s)

/-! ### The bytes compared -/

/-- The first bytes of the buffers, and the requests made to each disk. -/
structure Buffers where
  requested : FsPtr → Nat
  byte1 : UInt8
  byte2 : UInt8

section Bytes
variable (y : System) (f1 f2 : File) (bytes1 bytes2 : List UInt8)

def readTurn (i : Nat) (b : Buffers) : Buffers :=
  let first := b.requested f1.filesystem
  let between := bump b.requested f1.filesystem (requestsFor (y.gbd f1.filesystem).succeeds first bytes1 i)
  let second := between f2.filesystem
  ⟨bump between f2.filesystem (requestsFor (y.gbd f2.filesystem).succeeds second bytes2 i),
    (fetched (y.gbd f1.filesystem).succeeds first bytes1 i).getD b.byte1,
    (fetched (y.gbd f2.filesystem).succeeds second bytes2 i).getD b.byte2⟩

def buffers (b : Buffers) : Nat → Buffers
  | 0 => b
  | i + 1 => readTurn y f1 f2 bytes1 bytes2 i (buffers b i)

def Differs (b : Buffers) (i : Nat) : Prop :=
  (buffers y f1 f2 bytes1 bytes2 b (i + 1)).byte1 ≠ (buffers y f1 f2 bytes1 bytes2 b (i + 1)).byte2

structure DiffersFirst (b : Buffers) (d : Nat) : Prop where
  differs : Differs y f1 f2 bytes1 bytes2 b d
  first : ∀ e < d, ¬Differs y f1 f2 bytes1 bytes2 b e

variable {y f1 f2 bytes1 bytes2} {b : Buffers}

theorem fetched_past (past : bytes.length ≤ i) (succeeds : Nat → Bool) (n : Nat) : fetched succeeds n bytes i = none := by
  rw [fetched,List.getElem?_eq_none past,ite_self]

/-- Behind the ends of both files nothing changes any more. -/
theorem buffers_past (past1 : bytes1.length ≤ i) (past2 : bytes2.length ≤ i) :
    (buffers y f1 f2 bytes1 bytes2 b (i + 1)).byte1 = (buffers y f1 f2 bytes1 bytes2 b i).byte1 ∧
    (buffers y f1 f2 bytes1 bytes2 b (i + 1)).byte2 = (buffers y f1 f2 bytes1 bytes2 b i).byte2 := by
  rw [buffers,readTurn]
  dsimp only
  rw [fetched_past past1,fetched_past past2]
  exact ⟨rfl,rfl⟩

/-- Buffers that ever differ do so by the ends of the files. -/
theorem Differs.early (differs : Differs y f1 f2 bytes1 bytes2 b d) (end1 : bytes1.length ≤ n) (end2 : bytes2.length ≤ n) :
    ∃ e ≤ n, Differs y f1 f2 bytes1 bytes2 b e := by
  induction d with
  | zero => exact ⟨0,Nat.zero_le n,differs⟩
  | succ d ih =>
    by_cases late : n ≤ d
    · have past1 : bytes1.length ≤ d + 1 := by omega
      have past2 : bytes2.length ≤ d + 1 := by omega
      apply ih
      rw [Differs,(buffers_past past1 past2).1,(buffers_past past1 past2).2] at differs
      exact differs
    · exact ⟨d + 1,by omega,differs⟩

end Bytes

/-! ### The loop -/

/-- Both files are open, at these positions, and the buffers are as computed. -/
structure Stage (files : FileRow → Option Entry) (d : FsPtr → Disk) (row1 row2 : FileRow) (f1 f2 : File) (b : Buffers)
    (position1 position2 : Int) (text1 text2 : Bytes) (s : State) : Prop where
  disk : disks s = d
  requested : requests s = b.requested
  file1 : s.files row1 = some ⟨f1.filesystem, f1.fileid, position1⟩
  file2 : s.files row2 = some ⟨f2.filesystem, f2.fileid, position2⟩
  others : ∀ row, row ≠ row1 → row ≠ row2 → s.files row = files row
  byte1 : text1 0 = b.byte1
  byte2 : text2 0 = b.byte2

section Loop
variable {y : System} {files : FileRow → Option Entry} {d : FsPtr → Disk} {row1 row2 : FileRow} {f1 f2 : File} {b : Buffers}

theorem Stage.seek (stage : Stage files d row1 row2 f1 f2 b position1 position2 text1 text2 s) (apart : row1 ≠ row2)
    (nonneg : 0 ≤ count) : ∃ t u, syscallSeek (row1.val + 3) count s = some (vfsOk, t) ∧
      syscallSeek (row2.val + 3) count t = some (vfsOk, u) ∧
      Stage files d row1 row2 f1 f2 b count count text1 text2 u := by
  obtain ⟨disk,requested,file1,file2,others,byte1,byte2⟩ := stage
  have first := syscallSeek_row file1 nonneg
  generalize moved : s.setFile row1 _ = t at first
  have file2' : t.files row2 = some ⟨f2.filesystem, f2.fileid, position2⟩ := by
    rw [← moved,setFile_files,Function.update_of_ne apart.symm,file2]
  refine ⟨t,_,first,syscallSeek_row file2' nonneg,?_,?_,?_,?_,?_,byte1,byte2⟩
  · rw [← disk,← moved]
    rfl
  · rw [← requested,← moved]
    rfl
  · rw [setFile_files,Function.update_of_ne apart,← moved,setFile_files,Function.update_self]
  · rw [setFile_files,Function.update_self]
  · intro row other1 other2
    rw [setFile_files,Function.update_of_ne other2,← moved,setFile_files,Function.update_of_ne other1]
    exact others row other1 other2

/-- A file with its contents. -/
structure Holds (y : System) (d : FsPtr → Disk) (f : File) (bytes : List UInt8) : Prop where
  intact : Intact (y.gbd f.filesystem) (d f.filesystem) f.fileid
  bytes : content (d f.filesystem) f.fileid = bytes

variable (apart : row1 ≠ row2) (holds1 : Holds y d f1 bytes1) (holds2 : Holds y d f2 bytes2)
include apart holds1 holds2

theorem Stage.read (i : Nat) (stage : Stage files d row1 row2 f1 f2 b i i text1 text2 s) :
    ∃ ret1 text1' u ret2 text2' t position1 position2,
      syscallRead y (row1.val + 3) text1 1 s = some (ret1, text1', u) ∧
      syscallRead y (row2.val + 3) text2 1 u = some (ret2, text2', t) ∧
      Stage files d row1 row2 f1 f2 (readTurn y f1 f2 bytes1 bytes2 i b) position1 position2 text1' text2' t := by
  obtain ⟨intact1,rfl⟩ := holds1
  obtain ⟨intact2,rfl⟩ := holds2
  obtain ⟨rfl,requested,file1,file2,others,byte1,byte2⟩ := stage
  obtain ⟨ret1,text1',u,read1,disk1,more1,⟨position1,files1⟩,fetched1⟩ := syscallRead_byte intact1 i file1 text1
  have file2' : u.files row2 = some ⟨f2.filesystem, f2.fileid, i⟩ := by
    rw [files1,Function.update_of_ne apart.symm,file2]
  rw [← disk1] at intact2
  obtain ⟨ret2,text2',t,read2,disk2,more2,⟨position2,files2⟩,fetched2⟩ := syscallRead_byte intact2 i file2' text2
  have same : fileBytes u f2 = content (disks s f2.filesystem) f2.fileid := by rw [← disk1]; rfl
  rw [requested] at more1 fetched1
  rw [same,more1] at more2 fetched2
  refine ⟨ret1,text1',u,ret2,text2',t,position1,position2,read1,read2,disk2.trans disk1,more2,?_,?_,?_,?_,?_⟩
  · rw [files2,Function.update_of_ne apart,files1,Function.update_self]
  · rw [files2,Function.update_self]
  · intro row other1 other2
    rw [files2,Function.update_of_ne other2,files1,Function.update_of_ne other1]
    exact others row other1 other2
  · rw [fetched1,byte1]
    rfl
  · rw [fetched2,byte2]
    rfl

/-- The loop from turn `i` on: it ends in the first turn whose bytes differ, or not at all. -/
theorem Stage.run (turns i : Nat) (small : i < 2 ^ 31)
    (stage : Stage files d row1 row2 f1 f2 (buffers y f1 f2 bytes1 bytes2 b i) i i text1 text2 s) :
    (∃ n text1' text2' t position1 position2, i ≤ n ∧ n < i + turns ∧
      Differs y f1 f2 bytes1 bytes2 b n ∧ (∀ e, i ≤ e → e < n → ¬Differs y f1 f2 bytes1 bytes2 b e) ∧
      cmpLoop y (row1.val + 3) (row2.val + 3) turns i text1 text2 s = some ⟨false, n, text1', text2', t⟩ ∧
      Stage files d row1 row2 f1 f2 (buffers y f1 f2 bytes1 bytes2 b (n + 1)) position1 position2 text1' text2' t) ∨
    (cmpLoop y (row1.val + 3) (row2.val + 3) turns i text1 text2 s = none ∧
      ∀ e, i ≤ e → e < i + turns → e < 2 ^ 31 → ¬Differs y f1 f2 bytes1 bytes2 b e) := by
  induction turns generalizing i text1 text2 s with
  | zero => exact .inr ⟨rfl,fun e low high _ => absurd high (by omega)⟩
  | succ turns ih =>
    obtain ⟨ret1,text1',u,ret2,text2',t,position1,position2,read1,read2,stage'⟩ := stage.read apart holds1 holds2 i
    have read : cmpLoop y (row1.val + 3) (row2.val + 3) (turns + 1) i text1 text2 s =
        if text1' 0 ≠ text2' 0 then some ⟨false, i, text1', text2', t⟩
        else (syscallSeek (row1.val + 3) (wrap (i + 1)) t).bind fun (err1, s) =>
          (syscallSeek (row2.val + 3) (wrap (i + 1)) s).bind fun (err2, s) =>
          if err1 < 0 ∨ err2 < 0 then some ⟨true, wrap (i + 1), text1', text2', s⟩
          else cmpLoop y (row1.val + 3) (row2.val + 3) turns (wrap (i + 1)) text1' text2' s := by
      rw [cmpLoop,read1,Option.bind_some]
      dsimp only
      rw [read2,Option.bind_some]
    by_cases differs : text1' 0 ≠ text2' 0
    · rw [if_pos differs] at read
      rw [stage'.byte1,stage'.byte2] at differs
      exact .inl ⟨i,text1',text2',t,position1,position2,Nat.le_refl i,by omega,differs,
        fun e low high => absurd high (by omega),read,stage'⟩
    · rw [if_neg differs] at read
      rw [stage'.byte1,stage'.byte2] at differs
      by_cases last : i + 1 = 2 ^ 31
      · -- `count` has become negative
        have negative : wrap ((i : Int) + 1) < 0 := by
          rw [show (i : Int) + 1 = 2 ^ 31 by omega]
          decide
        rw [syscallSeek,if_pos negative,Option.bind_none] at read
        refine .inr ⟨read,fun e low _ high => ?_⟩
        rw [show e = i by omega]
        exact differs
      · have next : wrap ((i : Int) + 1) = (i + 1 : Nat) := by
          rw [wrap_small (by omega) (by omega)]
          omega
        obtain ⟨v,w,seek1,seek2,stage''⟩ := stage'.seek apart (show (0 : Int) ≤ (i + 1 : Nat) by omega)
        rw [next,seek1,Option.bind_some] at read
        dsimp only at read
        rw [seek2,Option.bind_some] at read
        dsimp only at read
        rw [if_neg (by decide)] at read
        rw [read]
        have later : ∀ e, i ≤ e → e ≠ i → i + 1 ≤ e := by omega
        rcases ih (i + 1) (by omega) stage'' with
          ⟨n,text1',text2',t,position1,position2,low,high,found,first,ran,final⟩ | ⟨ran,same⟩
        · refine .inl ⟨n,text1',text2',t,position1,position2,by omega,by omega,found,?_,ran,final⟩
          intro e above below
          by_cases here : e = i
          · rw [here]
            exact differs
          · exact first e (later e above here) below
        · refine .inr ⟨ran,fun e above below => ?_⟩
          by_cases here : e = i
          · rw [here]
            exact fun _ => differs
          · exact same e (later e above here) (by omega)

end Loop

/-- The system calls for seeking do not fail, so the loop never ends for equal files. -/
theorem cmpLoop_unequal (ended : cmpLoop y fd1 fd2 turns count text1 text2 s = some r) : r.equal = false := by
  induction turns generalizing count text1 text2 s with
  | zero => cases ended
  | succ turns ih =>
    rw [cmpLoop] at ended
    obtain ⟨⟨ret1,text1',u⟩,_,ended⟩ := Option.bind_eq_some_iff.mp ended
    obtain ⟨⟨ret2,text2',t⟩,_,ended⟩ := Option.bind_eq_some_iff.mp ended
    dsimp only at ended
    split at ended
    · cases ended
      rfl
    · obtain ⟨⟨err1,v⟩,seek1,ended⟩ := Option.bind_eq_some_iff.mp ended
      obtain ⟨⟨err2,w⟩,seek2,ended⟩ := Option.bind_eq_some_iff.mp ended
      have ok : ∀ {fd offset err : Int} {x z : State}, syscallSeek fd offset x = some (err, z) → err = vfsOk := by
        intro fd offset err x z sought
        unfold syscallSeek at sought
        split at sought
        · cases sought
        · obtain ⟨found,_,same⟩ := Option.map_eq_some_iff.mp sought
          exact (congrArg Prod.fst same).symm
      dsimp only at ended
      rw [ok seek1,ok seek2,if_neg (by decide)] at ended
      exact ih ended

theorem report_one (unequal : r.equal = false) (reported : report y fd1 fd2 r = some (ret, t)) : ret = 1 := by
  rw [report,unequal,if_neg Bool.false_ne_true] at reported
  obtain ⟨⟨code,u⟩,printed,reported⟩ := Option.bind_eq_some_iff.mp reported
  obtain ⟨_,_,reported⟩ := Option.bind_eq_some_iff.mp reported
  obtain ⟨_,_,reported⟩ := Option.map_eq_some_iff.mp reported
  obtain ⟨_,_,printed⟩ := Option.map_eq_some_iff.mp printed
  cases printed
  exact (congrArg Prod.fst reported).symm

/-- `cmp` never says that two files are equal. -/
theorem cmdCmp_one (returned : cmdCmp turns y argv text1 text2 s = some (ret, t)) : ret = 1 := by
  have message : ∀ {parts : List Piece} {x : State}, (printf y parts x).map (fun s => ((1 : Int), s)) = some (ret, t) →
      ret = 1 := by
    intro parts x printed
    obtain ⟨_,_,same⟩ := Option.map_eq_some_iff.mp printed
    exact (congrArg Prod.fst same).symm
  unfold cmdCmp at returned
  split at returned
  · dsimp only at returned
    split at returned
    · exact message returned
    · split at returned
      · exact message returned
      · obtain ⟨r,ended,reported⟩ := Option.bind_eq_some_iff.mp returned
        exact report_one (cmpLoop_unequal ended) reported
  · exact message returned

/-! ### The whole command -/

/-- The message about the difference contains no pointer that cannot be followed. -/
def Printable (y : System) (count : Nat) (b : Buffers) : Prop :=
  ∃ printed, vxnprintf y.memory printfRoom (differMessage count b.byte1 b.byte2) = some printed

/-- With nothing at the lowest and the highest addresses, as `tests/ld.userland.script` has it, the
message always faults. -/
theorem not_printable (low : ∀ a < 128, y.memory a = none) (high : ∀ a, 2 ^ 32 - 128 ≤ a → y.memory a = none)
    (count : Nat) (b : Buffers) : ¬Printable y count b := by
  rintro ⟨printed,message⟩
  have missing : y.memory (charAddress b.byte1) = none := by
    have small := b.byte1.toNat_lt
    unfold charAddress
    split
    · exact low _ (by omega)
    · exact high _ (by omega)
  have fault : vxnprintf y.memory printfRoom (differMessage count b.byte1 b.byte2) = none := by
    apply vxnprintf_behind (k := 21) _ fun _ => text_short
    intro left room
    apply vxnprintf_behind (k := 12) _ fun _ => int_short
    intro left room
    apply vxnprintf_behind (k := 13) _ fun _ => text_short
    intro left room
    unfold printfRoom at *
    exact vxnprintf_fault missing (by omega) _
  rw [fault] at message
  cases message

theorem Stage.report (stage : Stage files d row1 row2 f1 f2 b position1 position2 text1 text2 s) (apart : row1 ≠ row2)
    (free1 : files row1 = none) (free2 : files row2 = none) (y : System) (n : Nat) :
    (Printable y n b ∧ ∃ t, report y (row1.val + 3) (row2.val + 3) ⟨false, n, text1, text2, s⟩ = some (1, t) ∧ t.files = files) ∨
    (¬Printable y n b ∧ report y (row1.val + 3) (row2.val + 3) ⟨false, n, text1, text2, s⟩ = none) := by
  obtain ⟨_,_,file1,file2,others,byte1,byte2⟩ := stage
  unfold Cmp.report printf
  dsimp only
  rw [if_neg Bool.false_ne_true,byte1,byte2]
  cases message : vxnprintf y.memory printfRoom (differMessage n b.byte1 b.byte2) with
  | none =>
    refine .inr ⟨?_,rfl⟩
    rintro ⟨printed,same⟩
    rw [message] at same
    cases same
  | some printed =>
    refine .inl ⟨⟨printed,message⟩,?_⟩
    rw [Option.map_some,Option.map_some,Option.bind_some]
    dsimp only
    generalize said : ({ s with console := s.console ++ printed } : State) = u
    have kept : u.files = s.files := by rw [← said]
    rw [syscallClose_row (s := u) (by rw [kept]; exact file1),Option.bind_some]
    dsimp only
    rw [syscallClose_row (s := u.setFile row1 none) (by rw [setFile_files,Function.update_of_ne apart.symm,kept]; exact file2),
      Option.map_some]
    refine ⟨_,rfl,?_⟩
    funext row
    by_cases second : row = row2
    · rw [setFile_files,second,Function.update_self,free2]
    · rw [setFile_files,Function.update_of_ne second,setFile_files]
      by_cases first : row = row1
      · rw [first,Function.update_self,free1]
      · rw [Function.update_of_ne first,kept]
        exact others row first second

def opened (s : State) (f1 f2 : File) (byte1 byte2 : UInt8) : Buffers :=
  ⟨bump (bump (requests s) f1.filesystem 1) f2.filesystem 1, byte1, byte2⟩

theorem couldNotOpen_printed (y : System) (pathname : Cstring) (reason : Int) (s : State) :
    ∃ t, (printf y (couldNotOpen pathname reason) s).map (fun s => ((1 : Int), s)) = some (1, t) ∧ t.files = s.files := by
  have plain : ∀ p ∈ couldNotOpen pathname reason, ∀ address, p ≠ .string address := by
    simp [couldNotOpen]
  obtain ⟨printed,said⟩ := printf_plain y s plain
  exact ⟨{ s with console := s.console ++ printed },by rw [said,Option.map_some],rfl⟩

section Command
variable {y : System} {s : State} {file1 file2 : Cstring} {f1 f2 : File} (names1 : Names y s file1 f1)
  (names2 : Names y s file2 f2) (command : Cstring) (rest : List Cstring) (text1 text2 : Bytes)
include names1 names2

theorem cmdCmp_cases :
    (OpenFails y s f1 ∧ ∃ t, (∀ turns, cmdCmp turns y (command :: file1 :: file2 :: rest) text1 text2 s = some (1, t)) ∧
      t.files = s.files) ∨
    (¬OpenFails y s f1 ∧ ¬BothOpen y s f1 f2 ∧ ∃ t,
      (∀ turns, cmdCmp turns y (command :: file1 :: file2 :: rest) text1 text2 s = some (1, t)) ∧ t.files ≠ s.files) ∨
    (¬OpenFails y s f1 ∧ BothOpen y s f1 f2 ∧ ∃ row1 row2 t, row1 ≠ row2 ∧ s.files row1 = none ∧ s.files row2 = none ∧
      Stage s.files (disks s) row1 row2 f1 f2 (opened s f1 f2 (text1 0) (text2 0)) 0 0 text1 text2 t ∧
      ∀ turns, cmdCmp turns y (command :: file1 :: file2 :: rest) text1 text2 s =
        (cmpLoop y (row1.val + 3) (row2.val + 3) turns 0 text1 text2 t).bind
          (report y (row1.val + 3) (row2.val + 3))) := by
  have start : ∀ turns, cmdCmp turns y (command :: file1 :: file2 :: rest) text1 text2 s =
      if (syscallOpen y file1 s).1 < 0 then
        (printf y (couldNotOpen file1 (syscallOpen y file1 s).1) (syscallOpen y file1 s).2).map fun s => (1, s)
      else if (syscallOpen y file2 (syscallOpen y file1 s).2).1 < 0 then
        (printf y (couldNotOpen file2 (syscallOpen y file2 (syscallOpen y file1 s).2).1)
          (syscallOpen y file2 (syscallOpen y file1 s).2).2).map fun s => (1, s)
      else (cmpLoop y (syscallOpen y file1 s).1 (syscallOpen y file2 (syscallOpen y file1 s).2).1 turns 0 text1 text2
        (syscallOpen y file2 (syscallOpen y file1 s).2).2).bind
          (report y (syscallOpen y file1 s).1 (syscallOpen y file2 (syscallOpen y file1 s).2).1) := by
    intro turns
    rw [cmdCmp]
  rcases syscallOpen_both names1 names2 with ⟨fails,code,t,opens,negative,same⟩ |
    ⟨succeeds,closed,fd,t,code,u,opens,nonneg,opens',negative,leaked⟩ | ⟨succeeds,both,row1,row2,t,u,opens,opens',opened⟩
  · simp only [opens,negative,if_true] at start
    obtain ⟨u,said,kept⟩ := couldNotOpen_printed y file1 code t
    exact .inl ⟨fails,u,fun turns => (start turns).trans said,kept.trans same⟩
  · simp only [opens,nonneg,if_false,opens',negative,if_true] at start
    obtain ⟨v,said,kept⟩ := couldNotOpen_printed y file2 code u
    exact .inr (.inl ⟨succeeds,closed,v,fun turns => (start turns).trans said,fun same => leaked (kept.symm.trans same)⟩)
  · have handle1 : ¬((row1.val : Int) + 3 < 0) := by omega
    have handle2 : ¬((row2.val : Int) + 3 < 0) := by omega
    simp only [opens,handle1,if_false,opens',handle2] at start
    exact .inr (.inr ⟨succeeds,both,row1,row2,u,opened.apart,opened.free1,opened.free2,⟨opened.disks,opened.requested,
      opened.file1,opened.file2,opened.others,rfl,rfl⟩,start⟩)

/-- `cmp` terminates, returns 0 exactly for equal files and closes what it opened, exactly if the
files are not equal and either the first one cannot be opened, or both can be and the bytes in
the buffers differ in some turn, the first time with bytes that can be printed as strings. -/
theorem cmp_decides :
    (∃ turns ret t, cmdCmp turns y (command :: file1 :: file2 :: rest) text1 text2 s = some (ret, t) ∧
      (ret = 0 ↔ fileBytes s f1 = fileBytes s f2) ∧ t.files = s.files) ↔
    fileBytes s f1 ≠ fileBytes s f2 ∧ (OpenFails y s f1 ∨ (BothOpen y s f1 f2 ∧ ∃ d,
      DiffersFirst y f1 f2 (fileBytes s f1) (fileBytes s f2) (opened s f1 f2 (text1 0) (text2 0)) d ∧
      Printable y d (buffers y f1 f2 (fileBytes s f1) (fileBytes s f2) (opened s f1 f2 (text1 0) (text2 0)) (d + 1)))) := by
  have intact1 := names1.formed.intact names1.isFile
  have intact2 := names2.formed.intact names2.isFile
  have holds1 : Holds y (disks s) f1 (fileBytes s f1) := ⟨intact1,rfl⟩
  have holds2 : Holds y (disks s) f2 (fileBytes s f2) := ⟨intact2,rfl⟩
  constructor
  · rintro ⟨turns,ret,t,returned,decides,closed⟩
    have one := cmdCmp_one returned
    have unequal : fileBytes s f1 ≠ fileBytes s f2 := by
      intro equal
      have zero := decides.mpr equal
      omega
    refine ⟨unequal,?_⟩
    rcases cmdCmp_cases names1 names2 command rest text1 text2 with
      ⟨fails,_⟩ | ⟨_,_,u,ran,leaked⟩ | ⟨_,both,row1,row2,u,apart,free1,free2,stage,ran⟩
    · exact .inl fails
    · rw [ran] at returned
      cases returned
      exact absurd closed leaked
    · refine .inr ⟨both,?_⟩
      rw [ran] at returned
      rcases stage.run apart holds1 holds2 turns 0 (by omega) with
        ⟨d,text1',text2',v,_,_,_,_,differs,first,ended,stage'⟩ | ⟨ended,_⟩
      · rw [show (0 : Int) = ((0 : Nat) : Int) from rfl,ended,Option.bind_some] at returned
        rcases stage'.report apart free1 free2 y d with ⟨printable,_⟩ | ⟨_,fault⟩
        · exact ⟨d,⟨differs,fun e before => first e (Nat.zero_le e) before⟩,printable⟩
        · rw [fault] at returned
          cases returned
      · rw [show (0 : Int) = ((0 : Nat) : Int) from rfl,ended] at returned
        cases returned
  · rintro ⟨unequal,condition⟩
    have decides : (1 : Int) = 0 ↔ fileBytes s f1 = fileBytes s f2 := ⟨fun wrong => absurd wrong (by decide),fun equal => absurd equal unequal⟩
    rcases cmdCmp_cases names1 names2 command rest text1 text2 with
      ⟨_,u,ran,kept⟩ | ⟨succeeds,closed,_⟩ | ⟨succeeds,_,row1,row2,u,apart,free1,free2,stage,ran⟩
    · exact ⟨0,1,u,ran 0,decides,kept⟩
    · rcases condition with fails | ⟨both,_⟩
      · exact absurd fails succeeds
      · exact absurd both closed
    · rcases condition with fails | ⟨_,d,⟨differs,first⟩,printable⟩
      · exact absurd fails succeeds
      have early : d < 2 ^ 31 := by
        have end1 : (fileBytes s f1).length ≤ 65024 := (content_length intact1).trans_le intact1.filesize_le
        have end2 : (fileBytes s f2).length ≤ 65024 := (content_length intact2).trans_le intact2.filesize_le
        obtain ⟨e,small,before⟩ := differs.early end1 end2
        by_contra late
        exact first e (by omega) before
      rcases stage.run apart holds1 holds2 (d + 1) 0 (by omega) with
        ⟨n,text1',text2',v,_,_,_,within,found,before,ended,stage'⟩ | ⟨_,same⟩
      · have here : n = d := by
          by_contra other
          rcases Nat.lt_or_gt_of_ne other with less | more
          · exact first n less found
          · exact before d (Nat.zero_le d) more differs
        rw [here] at ended stage'
        rcases stage'.report apart free1 free2 y d with ⟨_,t,reported,kept⟩ | ⟨fault,_⟩
        · refine ⟨d + 1,1,t,?_,decides,kept⟩
          rw [ran,show (0 : Int) = ((0 : Nat) : Int) from rfl,ended,Option.bind_some,reported]
        · exact absurd printable fault
      · exact absurd differs (same d (Nat.zero_le d) (by omega) early)

end Command

/-- A volume with a file of 600 bytes and an empty one. All addresses hold a NUL. -/
def sampleSystem : System :=
  ⟨fun _ => sampleGbd, fun volume => if volume = volumeV then some 0 else none, fun _ => some 0⟩

def sampleMachines : Machine := (tfsCreate sampleGbd [98] 0 sampleFile).2
def sampleState : State := ⟨fun _ => sampleMachines, fun _ => none, []⟩
def sampleA : File := ⟨0, 3⟩
def sampleB : File := ⟨0, 6⟩

theorem sampleMachines_wellFormed : WellFormed sampleGbd sampleMachines.disk := by
  have good : IsFilename [98] := ⟨by decide,by decide,by decide⟩
  rw [sampleMachines]
  exact tfsCreate_wellFormed (fun _ => rfl) sampleFile_wellFormed good (Int.le_refl 0) (by decide)

theorem sampleA_names : Names sampleSystem sampleState pathA sampleA := by
  refine ⟨⟨volumeV,sampleName,by decide,by decide,24,by decide,?_⟩,sampleMachines_wellFormed⟩
  decide +kernel

theorem sampleB_names : Names sampleSystem sampleState pathB sampleB := by
  refine ⟨⟨volumeV,[98],by decide,by decide,23,by decide,?_⟩,sampleMachines_wellFormed⟩
  decide +kernel

/-- The message shows the two bytes of turn 0 as empty strings. -/
theorem cmp_decides_sample : ∃ turns ret t,
    cmdCmp turns sampleSystem [pathA,pathA,pathB] (fun _ => 1) (fun _ => 1) sampleState = some (ret, t) ∧
    (ret = 0 ↔ fileBytes sampleState sampleA = fileBytes sampleState sampleB) ∧ t.files = sampleState.files := by
  have unequal : fileBytes sampleState sampleA ≠ fileBytes sampleState sampleB := by
    decide +kernel
  have both : BothOpen sampleSystem sampleState sampleA sampleB := ⟨⟨0,1,by decide,rfl,rfl⟩,rfl,rfl⟩
  have differs : Differs sampleSystem sampleA sampleB (fileBytes sampleState sampleA) (fileBytes sampleState sampleB)
      (opened sampleState sampleA sampleB 1 1) 0 := by
    unfold Differs
    decide +kernel
  have printed : (vxnprintf sampleSystem.memory printfRoom (differMessage (0 : Nat)
      (buffers sampleSystem sampleA sampleB (fileBytes sampleState sampleA) (fileBytes sampleState sampleB)
        (opened sampleState sampleA sampleB 1 1) 1).byte1
      (buffers sampleSystem sampleA sampleB (fileBytes sampleState sampleA) (fileBytes sampleState sampleB)
        (opened sampleState sampleA sampleB 1 1) 1).byte2)).isSome = true := by
    decide +kernel
  refine (cmp_decides sampleA_names sampleB_names pathA [] (fun _ => 1) (fun _ => 1)).mpr ⟨unequal,.inr ⟨both,0,?_⟩⟩
  exact ⟨⟨differs,fun e before => absurd before (Nat.not_lt_zero e)⟩,Option.isSome_iff_exists.mp printed⟩

/-- A file compared with itself: the command does not return 0. -/
theorem cmp_same_file : Names sampleSystem sampleState pathA sampleA ∧
    ¬∃ turns ret t, cmdCmp turns sampleSystem [pathA,pathA,pathA] (fun _ => 0) (fun _ => 0)
      sampleState = some (ret, t) ∧
      (ret = 0 ↔ fileBytes sampleState sampleA = fileBytes sampleState sampleA) ∧ t.files = sampleState.files := by
  refine ⟨sampleA_names,?_⟩
  rintro ⟨turns,ret,t,returned,decides,_⟩
  have zero := decides.mpr rfl
  have one := cmdCmp_one returned
  omega

end Buenos.Userland.Cmp
