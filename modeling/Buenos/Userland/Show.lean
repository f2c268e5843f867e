import Buenos.Userland.Cmp

/-! The command `show` of `tests/osh.c`. The file is read in pieces of up to 100 bytes and each is
written to the console. A read that fails is repeated. -/
namespace Buenos.Userland.Show

open Buenos.Foundation Buenos.Lib Buenos.Fs Buenos.Fs.Tfs Buenos.Userland.Files
open Buenos.Fs.Handles (Cstring pathA)
open Buenos.Lib.Xprintf (chars)
open Buenos.Userland.Cmp (couldNotOpen couldNotOpen_printed sampleSystem sampleState sampleMachines sampleA sampleA_names)

/-! ### The code -/

def bufferSize : Nat := 100

def usage : List Piece := [.text (chars "Usage: show <file>\n")]

def writeFailed (wr : Int) : List Piece :=
  [.text (chars "\nCall to syscall_write() failed.  Reason: "),.int wr,.text (chars ".\n")]

def readFailed (rd : Int) : List Piece :=
  [.text (chars "\nCall to syscall_read() failed.  Reason: "),.int rd,.text (chars ".\n")]

/-- The turns were not enough, or the command has returned. -/
inductive Progress where
  | running (s : State)
  | returned (ret : Int) (s : State)

/-- `syscall_write` to handle 1: `tty_write` returns when it has taken the whole text. -/
def writeStdout (text : Bytes) (start len : Int) (s : State) : Int × State :=
  (len, { s with console := s.console ++ bytesAt text start.toNat len.toNat })

/-- A message, and the file is closed. -/
def giveUp (y : System) (fd : Int) (message : List Piece) (s : State) : Option (Int × State) :=
  (printf y message s).bind fun s => (syscallClose fd s).map fun (_, s) => (1, s)

/-- The inner loop, from `wr` on, with so many turns at most, and what follows it. -/
def writeLoop (y : System) (fd : Int) (text : Bytes) (rd : Int) (next : State → Option Progress) :
    Nat → Int → State → Option Progress
  | 0, _, s => some (.running s)
  | turns + 1, wr, s =>
    if wr < rd then
      let (thiswr, s) := writeStdout text wr (rd - wr) s
      if thiswr ≤ 0 then (giveUp y fd (writeFailed wr) s).map fun (ret, s) => .returned ret s
      else writeLoop y fd text rd next turns (wr + thiswr) s
    else next s

def finish (y : System) (fd rd : Int) (s : State) : Option (Int × State) :=
  if rd < 0 then giveUp y fd (readFailed rd) s else (syscallClose fd s).map fun (_, s) => (0, s)

/-- The outer loop, with so many turns at most. -/
def showLoop (y : System) (fd : Int) : Nat → Bytes → State → Option Progress
  | 0, _, s => some (.running s)
  | turns + 1, text, s =>
    (syscallRead y fd text bufferSize s).bind fun (rd, text, s) =>
    if rd = 0 then (finish y fd rd s).map fun (ret, s) => .returned ret s
    else writeLoop y fd text rd (showLoop y fd turns text) (bufferSize + 1) 0 s

/-- `text` is on the stack and not initialised; `none` is a panic. -/
def cmdShow (turns : Nat) (y : System) (argv : List Cstring) (text : Bytes) (s : State) : Option Progress :=
  match argv with
  | [_, file] =>
    let (fd, s) := syscallOpen y file s
    if fd < 0 then (printf y (couldNotOpen file fd) s).map (.returned 1) else showLoop y fd turns text s
  | _ => (printf y usage s).map (.returned 1)

/-! ### Reading and writing a piece -/

theorem syscallOpen_console (y : System) (pathname : Cstring) (s : State) : (syscallOpen y pathname s).2.console = s.console := by
  unfold syscallOpen
  split
  · rfl
  · split
    · rfl
    · split
      · rfl
      · dsimp only
        split
        · rfl
        · rfl

theorem writeLoop_piece (y : System) (fd : Int) (text : Bytes) (k turns : Nat) (next : State → Option Progress) (s : State) :
    writeLoop y fd text k next (turns + 2) 0 s = next { s with console := s.console ++ bytesAt text 0 k } := by
  rw [writeLoop]
  by_cases empty : k = 0
  · subst empty
    rw [if_neg (by simp)]
    simp [bytesAt]
  · rw [if_pos (by omega)]
    dsimp only [writeStdout]
    rw [if_neg (by omega),writeLoop,if_neg (by omega)]
    simp

theorem writeLoop_failed (y : System) (fd : Int) (text : Bytes) (negative : rd < 0) (turns : Nat)
    (next : State → Option Progress) (s : State) : writeLoop y fd text rd next (turns + 1) 0 s = next s := by
  rw [writeLoop,if_neg (by omega)]

/-- The next bytes are in the buffer, or the read has failed and the position is where it was. -/
structure ReadsPiece (y : System) (s t : State) (row : FileRow) (f : File) (i n : Nat) (rd : Int) (text : Bytes) : Prop where
  disks : disks t = disks s
  console : t.console = s.console
  files : t.files = Function.update s.files row (some ⟨f.filesystem, f.fileid, (i + rd.toNat : Nat)⟩)
  read : 0 ≤ rd → rd = (min n ((fileBytes s f).length - i) : Nat) ∧
    bytesAt text 0 rd.toNat = ((fileBytes s f).drop i).take rd.toNat
  succeeds : Reliable (y.gbd f.filesystem) → 0 ≤ rd

theorem syscallRead_piece (names : Names y s pathname f) (i n : Nat)
    (here : s.files row = some ⟨f.filesystem, f.fileid, i⟩) (inside : i ≤ (fileBytes s f).length) (text : Bytes) :
    ∃ rd text' t, syscallRead y (row.val + 3) text n s = some (rd, text', t) ∧ ReadsPiece y s t row f i n rd text' := by
  have reads := syscallRead_row here y text (show (0 : Int) ≤ n by omega)
  have disk := tfsRead_disk (y.gbd f.filesystem) f.fileid 0 n i { s.machine f.filesystem with user := text }
  have file := names.isFile
  have length : (fileBytes s f).length = filesize ((s.machine f.filesystem).disk f.fileid) :=
    content_length (names.formed.intact file)
  refine ⟨_,_,_,reads,disks_setMachine (s := s) disk,rfl,?_,?_,?_⟩
  · dsimp only [State.transferred,setFile_files,setMachine_files]
    congr 3
    split
    · omega
    · omega
  · intro succeeded
    have formed : WellFormed (y.gbd f.filesystem).unfailing (s.machine f.filesystem).disk := wellFormed_device names.formed rfl
    rw [length] at inside ⊢
    rw [tfsRead_unfailing succeeded]
    have content := tfsRead_content (m := { s.machine f.filesystem with user := text }) (fun _ => rfl) formed file 0
      (show (0 : Int) ≤ n by omega) (show (0 : Int) ≤ i by omega) (by dsimp only; omega)
    refine ⟨?_,content.stored⟩
    rw [content.returned]
    dsimp only
    omega
  · intro reliable
    rw [length] at inside
    have content := tfsRead_content (m := { s.machine f.filesystem with user := text }) reliable names.formed file 0
      (show (0 : Int) ≤ n by omega) (show (0 : Int) ≤ i by omega) (by dsimp only; omega)
    rw [content.returned]
    dsimp only
    omega

/-! ### The loop -/

/-- The first `i` bytes have been printed since `start`. -/
structure Showing (y : System) (start : State) (file : Cstring) (f : File) (row : FileRow) (i : Nat) (s : State) : Prop where
  names : Names y s file f
  disks : disks s = disks start
  opened : s.files row = some ⟨f.filesystem, f.fileid, i⟩
  others : ∀ other, other ≠ row → s.files other = start.files other
  inside : i ≤ (fileBytes start f).length
  console : s.console = start.console ++ (fileBytes start f).take i

/-- The whole file has been printed and is closed. -/
structure Shown (start : State) (f : File) (row : FileRow) (t : State) : Prop where
  disks : disks t = disks start
  files : t.files = Function.update start.files row none
  console : t.console = start.console ++ fileBytes start f

section Loop
variable {y : System} {start : State} {file : Cstring} {f : File} {row : FileRow}

theorem Showing.turn (showing : Showing y start file f row i s) (text : Bytes) :
    (∃ t, i = (fileBytes start f).length ∧ Shown start f row t ∧
      ∀ turns, showLoop y (row.val + 3) (turns + 1) text s = some (.returned 0 t)) ∨
    ∃ j text' t, Showing y start file f row j t ∧ (Reliable (y.gbd f.filesystem) → i < j) ∧
      ∀ turns, showLoop y (row.val + 3) (turns + 1) text s = showLoop y (row.val + 3) turns text' t := by
  obtain ⟨names,same,opened,others,inside,console⟩ := showing
  have bytes : fileBytes s f = fileBytes start f := fileBytes_disks same f
  obtain ⟨rd,text',t,read,piece⟩ := syscallRead_piece names i bufferSize opened (by rw [bytes]; exact inside) text
  have names' : Names y t file f := names.same fun fs => congrFun piece.disks fs
  have others' : ∀ other, other ≠ row → t.files other = start.files other := by
    intro other apart
    rw [piece.files,Function.update_of_ne apart]
    exact others other apart
  have opened' : t.files row = some ⟨f.filesystem, f.fileid, (i + rd.toNat : Nat)⟩ := by
    rw [piece.files,Function.update_self]
  have loop : ∀ turns, showLoop y (row.val + 3) (turns + 1) text s = if rd = 0 then
        (finish y (row.val + 3) rd t).map fun (ret, s) => .returned ret s
      else writeLoop y (row.val + 3) text' rd (showLoop y (row.val + 3) turns text') (bufferSize + 1) 0 t := by
    intro turns
    rw [showLoop,read,Option.bind_some]
  by_cases failed : rd < 0
  · have none : rd.toNat = 0 := by omega
    rw [none,Nat.add_zero] at opened'
    refine .inr ⟨i,text',t,⟨names',piece.disks.trans same,opened',others',inside,piece.console.trans console⟩,?_,?_⟩
    · intro reliable
      have := piece.succeeds reliable
      omega
    · intro turns
      rw [loop,if_neg (by omega),writeLoop_failed y _ text' failed bufferSize]
  · obtain ⟨count,stored⟩ := piece.read (by omega)
    rw [bytes] at count stored
    by_cases ended : rd = 0
    · subst ended
      have last : i = (fileBytes start f).length := by unfold bufferSize at count; omega
      refine .inl ⟨t.setFile row none,last,⟨?_,?_,?_⟩,?_⟩
      · exact piece.disks.trans same
      · rw [setFile_files]
        funext other
        by_cases mine : other = row
        · rw [mine,Function.update_self,Function.update_self]
        · rw [Function.update_of_ne mine,Function.update_of_ne mine]
          exact others' other mine
      · rw [last,List.take_length] at console
        exact piece.console.trans console
      · intro turns
        rw [loop,if_pos rfl,finish,if_neg (by decide),syscallClose_row opened',Option.map_some,Option.map_some]
    · obtain ⟨k,rfl⟩ := Int.eq_ofNat_of_zero_le (show 0 ≤ rd by omega)
      have more : i + k ≤ (fileBytes start f).length := by omega
      rw [Int.toNat_natCast] at stored opened'
      refine .inr ⟨i + k,text',{ t with console := t.console ++ bytesAt text' 0 k },⟨?_,piece.disks.trans same,opened',others',
        more,?_⟩,fun _ => by omega,?_⟩
      · exact names'.same fun _ => rfl
      · dsimp only
        rw [piece.console,console,stored,List.append_assoc,List.take_add]
      · intro turns
        rw [loop,if_neg ended,bufferSize,writeLoop_piece y _ text' k 99]

theorem Showing.returns (turns : Nat) (showing : Showing y start file f row i s)
    (returned : showLoop y (row.val + 3) turns text s = some (.returned ret t)) : ret = 0 ∧ Shown start f row t := by
  induction turns generalizing i text s with
  | zero => cases returned
  | succ turns ih =>
    rcases showing.turn text with ⟨u,_,shown,ended⟩ | ⟨j,text',u,later,_,next⟩
    · rw [ended] at returned
      cases returned
      exact ⟨rfl,shown⟩
    · rw [next] at returned
      exact ih later returned

/-- On a disk that does not fail it returns after a turn for each piece, and one more. -/
theorem Showing.finishes (reliable : Reliable (y.gbd f.filesystem)) (turns : Nat) (text : Bytes)
    (showing : Showing y start file f row i s) (many : (fileBytes start f).length < i + turns) :
    ∃ t, showLoop y (row.val + 3) turns text s = some (.returned 0 t) := by
  induction turns generalizing i text s with
  | zero =>
    have := showing.inside
    omega
  | succ turns ih =>
    rcases showing.turn text with ⟨u,_,_,ended⟩ | ⟨j,text',u,later,progress,next⟩
    · exact ⟨u,ended turns⟩
    · rw [next]
      have := progress reliable
      exact ih text' later (by omega)

end Loop

/-! ### The whole command -/

section Command
variable {y : System} {s : State} {file : Cstring} {f : File} (names : Names y s file f) (command : Cstring) (text : Bytes)
include names

theorem cmdShow_cases :
    (OpenFails y s f ∧ ∃ t, t.files = s.files ∧ ∀ turns, cmdShow turns y [command,file] text s = some (.returned 1 t)) ∨
    ((y.gbd f.filesystem).succeeds (Files.requests s f.filesystem) = true ∧ ∃ row t, s.files row = none ∧
      t.files = Function.update s.files row (some ⟨f.filesystem, f.fileid, 0⟩) ∧
      Files.requests t = bump (Files.requests s) f.filesystem 1 ∧ disks t = disks s ∧ t.console = s.console ∧
      ∀ turns, cmdShow turns y [command,file] text s = showLoop y (row.val + 3) turns text t) := by
  have console := syscallOpen_console y file s
  rcases syscallOpen_cases names with ⟨fails,code,t,opens,negative,same⟩ | ⟨answered,row,t,opens,opened⟩
  · obtain ⟨u,said,kept⟩ := couldNotOpen_printed y file code t
    refine .inl ⟨fails,u,kept.trans same,fun turns => ?_⟩
    obtain ⟨v,printed,same⟩ := Option.map_eq_some_iff.mp said
    cases same
    rw [cmdShow,opens]
    dsimp only
    rw [if_pos negative,printed]
    rfl
  · rw [opens] at console
    refine .inr ⟨answered,row,t,opened.free,opened.files,opened.requested,opened.disks,console,fun turns => ?_⟩
    rw [cmdShow,opens]
    dsimp only
    rw [if_neg (by omega)]

end Command

theorem tfsRead_refused (refused : g.succeeds m.log.length = false) (fileid : Int) (buffer : Nat) (n offset : Int) :
    (tfsRead g fileid buffer n offset m).1 = vfsError ∧ m.log.length ≤ (tfsRead g fileid buffer n offset m).2.log.length := by
  unfold tfsRead
  split
  · exact ⟨rfl,Nat.le_refl _⟩
  · rw [readBlock_eq,if_neg (by simp [Gbd.ok,refused])]
    exact ⟨rfl,by simp [Machine.refused]⟩

/-- The loop goes on for ever and prints nothing. -/
theorem showLoop_refused {f : File} {i : Int} (opened : s.files row = some ⟨f.filesystem, f.fileid, i⟩)
    (refused : ∀ n, Files.requests s f.filesystem ≤ n → (y.gbd f.filesystem).succeeds n = false) (turns : Nat) (text : Bytes) :
    ∃ t, showLoop y (row.val + 3) turns text s = some (.running t) ∧ t.console = s.console := by
  induction turns generalizing s text with
  | zero => exact ⟨s,rfl,rfl⟩
  | succ turns ih =>
    have fails := tfsRead_refused (m := { s.machine f.filesystem with user := text }) (refused _ (Nat.le_refl _)) f.fileid 0
      bufferSize i
    rw [showLoop,syscallRead_row opened y text (show (0 : Int) ≤ bufferSize by decide),Option.bind_some]
    dsimp only
    generalize tfsRead (y.gbd f.filesystem) f.fileid 0 bufferSize i { s.machine f.filesystem with user := text } = r at fails ⊢
    obtain ⟨error,more⟩ := fails
    rw [error,if_neg (by decide),writeLoop_failed y _ _ (by decide) bufferSize]
    refine ih (s := s.transferred row ⟨f.filesystem, f.fileid, i⟩ r) ?_ (fun n later => refused n ?_) r.2.user
    · dsimp only [State.transferred,setFile_files,setMachine_files]
      rw [error,if_neg (by decide),Function.update_self]
    · have grown : Files.requests (s.transferred row ⟨f.filesystem, f.fileid, i⟩ r) f.filesystem = r.2.log.length := by
        simp [Files.requests,State.transferred]
      rw [grown] at later
      exact Nat.le_trans more later

/-- After the file has been opened no request succeeds any more: after however many turns `show` is
still running, and it has printed nothing, the message about a failing read included. -/
theorem show_hangs (names : Names y s file f) (command : Cstring) (text : Bytes) (opens : ¬OpenFails y s f)
    (refused : ∀ n, Files.requests s f.filesystem < n → (y.gbd f.filesystem).succeeds n = false) (turns : Nat) :
    ∃ t, cmdShow turns y [command,file] text s = some (.running t) ∧ t.console = s.console := by
  rcases cmdShow_cases names command text with ⟨fails,_⟩ | ⟨_,row,t,_,files,requested,_,console,ran⟩
  · exact absurd fails opens
  · rw [ran,← console]
    refine showLoop_refused (f := f) (i := 0) (by rw [files,Function.update_self]) (fun n later => refused n ?_) turns text
    rw [requested,bump,Function.update_self] at later
    exact later

/-- The disk of the sample, with the directory read as its last request. -/
def failingSystem : System :=
  { sampleSystem with gbd := fun _ => { sampleGbd with succeeds := fun n => n ≤ sampleMachines.log.length } }

theorem show_hangs_sample : ∃ t, cmdShow 1000 failingSystem [pathA,pathA] (fun _ => 0) sampleState = some (.running t) ∧
    t.console = [] := by
  have names : Names failingSystem sampleState pathA sampleA :=
    ⟨sampleA_names.found,wellFormed_device sampleA_names.formed rfl⟩
  refine show_hangs names pathA (fun _ => 0) ?_ ?_ 1000
  · rintro (full | refused)
    · exact full 0 rfl
    · exact absurd refused (by simp [failingSystem,Files.requests,sampleState,sampleA])
  · intro n later
    have beyond : sampleMachines.log.length < n := later
    simp [failingSystem,beyond]

end Buenos.Userland.Show
