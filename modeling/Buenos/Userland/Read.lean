import Buenos.Userland.Cp
import Buenos.Userland.LineInput
import Buenos.Userland.Show

/-! The command `read` of `tests/osh.c`: a line from standard input becomes a new file. -/
namespace Buenos.Userland.Read

open Buenos.Foundation Buenos.Lib Buenos.Fs Buenos.Fs.Tfs Buenos.Userland.Files
open Buenos.Fs.Handles (Cstring pathB)
open Buenos.Lib.Xprintf (chars)
open Buenos.Userland.Cmp (couldNotOpen couldNotOpen_printed)
open Buenos.Userland.Cmp (sampleSystem)
open Buenos.Userland.Cp (couldNotCreate sampleState sampleLetter sample_reliable sample_formed)
open Buenos.Userland.LineInput (readline edit edited edited_succ IsNewline Progress readline_good readline_returns)
open Buenos.Userland.Show (giveUp writeFailed)

/-! ### The code -/

def bufferSize : Nat := 100

def usage : List Piece := [.text (chars "Usage: read <file>\n")]

/-- From `syscall_create` on. -/
def store (y : System) (file : Cstring) (text : Bytes) (count : Int) (s : State) : Option (Int × State) :=
  (syscallCreate y file count s).bind fun (ret, s) =>
  if ret < 0 then (printf y (couldNotCreate file count ret) s).map fun s => (1, s)
  else
    let (fd, s) := syscallOpen y file s
    if fd < 0 then (printf y (couldNotOpen file fd) s).map fun s => (1, s)
    else
      (syscallWrite y fd text count s).bind fun (wr, s) =>
      if wr ≤ 0 then giveUp y fd (writeFailed wr) s else (syscallClose fd s).map fun (_, s) => (0, s)

end Buenos.Userland.Read
