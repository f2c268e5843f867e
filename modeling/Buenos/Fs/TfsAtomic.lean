import Buenos.Fs.TfsHandles

/-! Writes that fail. The blocks of a transfer are written one after the other, so a request that
fails in the middle leaves the blocks before it changed. -/
namespace Buenos.Fs.Handles

open Buenos.Foundation Buenos.Lib Buenos.Fs.Tfs

/-- The value `vfs_write` returns, which is that of the driver. -/
def writeResult (g : Gbd) (f : OpenFile) (data : Bytes) (buffer : Nat) (datasize : Int) (s : Session) : Int :=
  (tfsWrite g f.fileid buffer datasize f.seekPosition { s.machine with user := data }).1

structure Untouched (s t : Session) (row : FileRow) (f : OpenFile) : Prop where
  content : content t.machine.disk f.fileid.toNat = content s.machine.disk f.fileid.toNat
  seek : (t.files row).map OpenFile.seekPosition = some f.seekPosition

/-- The bytes a write moves if nothing fails: those up to the end of the file. -/
def available (d : Disk) (f : OpenFile) (datasize : Int) : Nat :=
  min datasize.toNat (filesize (d f.fileid.toNat) - f.seekPosition.toNat)

/-- Where the transfer stops: the number of bytes in the blocks before the first failing request.
The first request of the call is for the inode. -/
def stopsAfter (g : Gbd) (f : OpenFile) (datasize : Int) (s : Session) : Option Nat :=
  if 0 ≤ f.seekPosition ∧ f.seekPosition ≤ filesize (s.machine.disk f.fileid.toNat) ∧
      g.succeeds s.machine.log.length = true then
    cut g.succeeds (s.machine.log.length + 1)
      (transfer f.seekPosition.toNat (available s.machine.disk f datasize))
  else none

/-- What is written before the failing request is what the file has there already. -/
def Harmless (g : Gbd) (f : OpenFile) (data : Bytes) (buffer : Nat) (datasize : Int) (s : Session) : Prop :=
  ∀ w, stopsAfter g f datasize s = some w →
    bytesAt data buffer w = ((content s.machine.disk f.fileid.toNat).drop f.seekPosition.toNat).take w

/-! ### Lemmas -/

theorem transfer_sum (offset k : Nat) : (transfer offset k).sum = k := by
  unfold transfer
  split
  · next zero => exact zero.symm
  · rw [List.sum_cons,pieces_sum]
    omega

/-- A seek position outside the file is refused, whether the inode can be read or not. -/
theorem tfsWrite_beyond {m : Machine} (intact : Intact g m.disk fileid) (buffer : Nat) (n offset : Int)
    (outside : offset < 0 ∨ filesize (m.disk fileid) < offset) :
    (tfsWrite g fileid buffer n offset m).1 = vfsError ∧ (tfsWrite g fileid buffer n offset m).2.disk = m.disk := by
  cases read : g.succeeds m.log.length with
  | false => exact tfsWrite_unread intact buffer n offset read
  | true =>
    have total := (totalblocks_le g).1
    have self := intact.inside fileid List.mem_cons_self
    have bound := intact.filesize_le
    rw [tfsWrite,if_neg (by omega),Int.toNat_natCast,readBlock_eq,ok_inside (by omega),read,if_pos rfl,afterRead_self,
      toS32_small (by omega),if_pos (by omega)]
    exact ⟨rfl,rfl⟩

/-- Replacing bytes in a list by others changes nothing exactly if they are the same. -/
theorem splice_eq_iff (l new : List UInt8) (o : Nat) :
    l.take o ++ new ++ l.drop (o + new.length) = l ↔ new = (l.drop o).take new.length := by
  have whole : l = l.take o ++ (l.drop o).take new.length ++ l.drop (o + new.length) := by
    rw [List.append_assoc,← List.drop_drop,List.take_append_drop,List.take_append_drop]
  constructor
  · intro same
    have both := same.trans whole
    have front := List.append_inj_left' both rfl
    exact List.append_inj_right front rfl
  · intro same
    rw [← same] at whole
    exact whole.symm

theorem vfsWrite_seek (failed : writeResult g f data buffer datasize s < 0) :
    ((vfsWrite g row f data buffer datasize s).files row).map OpenFile.seekPosition = some f.seekPosition := by
  have none_ : ¬0 < (tfsWrite g f.fileid buffer datasize f.seekPosition { s.machine with user := data }).1 := by
    unfold writeResult at failed
    omega
  rw [vfsWrite,setFile_files,if_pos rfl,if_neg none_]
  rfl

section Write
variable {g : Gbd} {s : Session} {f : OpenFile} {n : Nat} (formed : WellFormed g s.machine.disk)
  (file : IsFile s.machine.disk n) (same : f.fileid = n) (data : Bytes) (buffer size : Nat)
include formed file same

theorem refused_untouched (row : FileRow) (refused : ¬(0 ≤ f.seekPosition ∧
    f.seekPosition ≤ filesize (s.machine.disk n) ∧ g.succeeds s.machine.log.length = true)) :
    writeResult g f data buffer size s < 0 ∧ Untouched s (vfsWrite g row f data buffer size s) row f := by
  have intact : Intact g ({ s.machine with user := data } : Machine).disk n := formed.intact file
  have effect : (tfsWrite g n buffer size f.seekPosition { s.machine with user := data }).1 = vfsError ∧
      (tfsWrite g n buffer size f.seekPosition { s.machine with user := data }).2.disk = s.machine.disk := by
    by_cases outside : f.seekPosition < 0 ∨ filesize (s.machine.disk n) < f.seekPosition
    · exact tfsWrite_beyond intact buffer size f.seekPosition outside
    · have unread : g.succeeds s.machine.log.length = false := by
        rw [← Bool.not_eq_true]
        exact fun read => refused ⟨by omega,by omega,read⟩
      exact tfsWrite_unread intact buffer size f.seekPosition unread
  rw [← same] at effect
  have failed : writeResult g f data buffer size s < 0 := by
    rw [writeResult,effect.1]
    decide
  refine ⟨failed,?_,vfsWrite_seek failed⟩
  change content (tfsWrite g f.fileid buffer size f.seekPosition { s.machine with user := data }).2.disk _ = _
  rw [effect.2]

/-- A transfer that begins replaces the bytes up to the failing request. -/
theorem begun_write (offset : Nat) (place : f.seekPosition = offset) (high : offset ≤ filesize (s.machine.disk n))
    (read : g.succeeds s.machine.log.length = true)
    (stop : cut g.succeeds (s.machine.log.length + 1)
      (transfer offset (min size (filesize (s.machine.disk n) - offset))) = c) (row : FileRow) :
    writeResult g f data buffer size s = outcome (min size (filesize (s.machine.disk n) - offset)) c ∧
    ∀ w, c = some w → content (vfsWrite g row f data buffer size s).machine.disk n =
      (content s.machine.disk n).take offset ++ bytesAt data buffer w ++ (content s.machine.disk n).drop (offset + w) := by
  have intact : Intact g ({ s.machine with user := data } : Machine).disk n := formed.intact file
  obtain ⟨code,written⟩ := tfsWrite_cut intact buffer size offset high read rfl
  simp only [stop] at code written
  have bound := cut_le g.succeeds (s.machine.log.length + 1)
    (transfer offset (min size (filesize (s.machine.disk n) - offset)))
  rw [transfer_sum,stop] at bound
  rw [← same,← place] at code
  refine ⟨code,?_⟩
  rintro w rfl
  have fits : offset + w ≤ filesize (s.machine.disk n) := by
    rw [Option.getD_some] at bound
    omega
  rw [← same,← place] at written
  exact written.content_self formed file fits

end Write

/-- A failed write writes nothing if and only if what comes before the failing request is the
same as what the file has there. -/
theorem failed_write_untouched {s : Session} {f : OpenFile} (formed : WellFormed g s.machine.disk)
    (file : IsFile s.machine.disk n) (same : f.fileid = n) (row : FileRow) (data : Bytes) (buffer : Nat)
    (nonneg : 0 ≤ datasize) :
    (writeResult g f data buffer datasize s < 0 → Untouched s (vfsWrite g row f data buffer datasize s) row f) ↔
      Harmless g f data buffer datasize s := by
  obtain ⟨size,rfl⟩ := Int.eq_ofNat_of_zero_le nonneg
  have id : f.fileid.toNat = n := by rw [same,Int.toNat_natCast]
  by_cases begins : 0 ≤ f.seekPosition ∧ f.seekPosition ≤ filesize (s.machine.disk n) ∧
      g.succeeds s.machine.log.length = true
  · obtain ⟨offset,place⟩ := Int.eq_ofNat_of_zero_le begins.1
    have high : offset ≤ filesize (s.machine.disk n) := by omega
    have stop : stopsAfter g f size s = cut g.succeeds (s.machine.log.length + 1)
        (transfer offset (min size (filesize (s.machine.disk n) - offset))) := by
      rw [stopsAfter,id,if_pos begins,available,id,place,Int.toNat_natCast,Int.toNat_natCast]
    obtain ⟨code,bytes⟩ := begun_write formed file same data buffer size offset place high begins.2.2 rfl row
    rw [← stop] at code bytes
    unfold Harmless
    rw [id,place,Int.toNat_natCast]
    cases stopped : stopsAfter g f size s with
    | none =>
      rw [stopped] at code
      refine ⟨nofun,fun _ failed => ?_⟩
      rw [code,outcome] at failed
      exact absurd failed (by simp)
    | some w =>
      have failed : writeResult g f data buffer size s < 0 := by
        rw [code,stopped]
        exact (by decide : vfsError < 0)
      have length : (bytesAt data buffer w).length = w := by simp [bytesAt]
      have iff_ := splice_eq_iff (content s.machine.disk n) (bytesAt data buffer w) offset
      rw [length] at iff_
      constructor
      · rintro untouched w' ⟨⟩
        have kept := (untouched failed).content
        rw [id,bytes w stopped] at kept
        exact iff_.mp kept
      · intro equal _
        refine ⟨?_,vfsWrite_seek failed⟩
        rw [id,bytes w stopped]
        exact iff_.mpr (equal w rfl)
  · have untouched := (refused_untouched formed file same data buffer size row begins).2
    have stop : stopsAfter g f size s = none := by
      rw [stopsAfter,id,if_neg begins]
    refine ⟨fun _ w stopped => ?_,fun _ _ => untouched⟩
    rw [stop] at stopped
    cases stopped

/-! ### A disk that refuses one request -/

def sampleOpen : OpenFile := ⟨3,0,sampleName,[4,5],false⟩
def openSession : Session := ⟨sampleFile,fun row => if row = 0 then some sampleOpen else none⟩

/-- Of the requests of the call, only this one fails. -/
def refusing (request : Nat) : Gbd := ⟨8,fun r => r != sampleFile.log.length + request⟩

theorem refusing_wellFormed (request : Nat) : WellFormed (refusing request) openSession.machine.disk :=
  wellFormed_device sampleFile_wellFormed rfl

theorem sampleOpen_file : IsFile openSession.machine.disk 3 := ⟨by decide,24,by decide,by decide +kernel⟩

/-- The write of the first block is refused. -/
theorem failed_write_untouched_first : writeResult (refusing 1) sampleOpen (fun _ => 1) 0 600 openSession < 0 ∧
    Untouched openSession (vfsWrite (refusing 1) 0 sampleOpen (fun _ => 1) 0 600 openSession) 0 sampleOpen := by
  have failed : writeResult (refusing 1) sampleOpen (fun _ => 1) 0 600 openSession < 0 := by decide +kernel
  have stops : stopsAfter (refusing 1) sampleOpen 600 openSession = some 0 := by decide +kernel
  refine ⟨failed,(failed_write_untouched (refusing_wellFormed 1) sampleOpen_file rfl 0 (fun _ => 1) 0
    (by decide)).mpr ?_ failed⟩
  intro w stopped
  rw [stops] at stopped
  cases stopped
  rfl

/-- The read of the second block is refused, when the first has been written. -/
theorem first_block_written : WellFormed (refusing 2) openSession.machine.disk ∧
    openSession.files 0 = some sampleOpen ∧ IsFile openSession.machine.disk 3 ∧
    writeResult (refusing 2) sampleOpen (fun _ => 1) 0 600 openSession < 0 ∧
    ¬Untouched openSession (vfsWrite (refusing 2) 0 sampleOpen (fun _ => 1) 0 600 openSession) 0 sampleOpen := by
  have before : (content openSession.machine.disk 3)[0]? = some 0 := by decide +kernel
  have after : (content (vfsWrite (refusing 2) 0 sampleOpen (fun _ => 1) 0 600 openSession).machine.disk 3)[0]? =
      some 1 := by decide +kernel
  refine ⟨refusing_wellFormed 2,rfl,sampleOpen_file,by decide +kernel,fun untouched => ?_⟩
  have same : content (vfsWrite (refusing 2) 0 sampleOpen (fun _ => 1) 0 600 openSession).machine.disk 3 =
      content openSession.machine.disk 3 := untouched.content
  rw [same,before] at after
  cases after

end Buenos.Fs.Handles
