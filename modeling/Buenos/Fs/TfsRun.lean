import Buenos.Fs.TfsCreate
import Buenos.Fs.TfsRemove
import Buenos.Fs.TfsTransfer
import Buenos.Foundation.Run

/-! A volume in use: from a well-formed one, such as `tfstool` makes, every sequence of calls
leads to a well-formed one. -/
namespace Buenos.Fs.Tfs

open Buenos.Foundation Buenos.Lib

/-! ### Calls that do not change the directory -/

theorem readBlock_disk (next : Machine → Int × Machine) (same : ∀ z : Machine, z.disk = m.disk → (next z).2.disk = m.disk) :
    (readBlock g block b m next).2.disk = m.disk := by
  unfold readBlock
  dsimp only
  split
  · exact same _ rfl
  · rfl

theorem tfsOpen_disk (g : Gbd) (filename : Name) (m : Machine) : (tfsOpen g filename m).2.disk = m.disk := by
  refine readBlock_disk _ fun z same => ?_
  split
  · exact same
  · exact same

theorem readBlocks_disk (g : Gbd) (b2 bufsize : Int) (left : Nat) (b1 read : Int) (buffer : Nat) (m : Machine) :
    (readBlocks g b2 bufsize left b1 read buffer m).2.disk = m.disk := by
  induction left generalizing b1 read buffer m with
  | zero => rfl
  | succ left ih =>
    refine readBlock_disk _ fun z same => ?_
    split
    · rw [ih]; exact same
    · rw [ih]; exact same

theorem tfsRead_disk (g : Gbd) (fileid : Int) (buffer : Nat) (bufsize offset : Int) (m : Machine) :
    (tfsRead g fileid buffer bufsize offset m).2.disk = m.disk := by
  unfold tfsRead
  split
  · rfl
  refine readBlock_disk _ fun z same => ?_
  split
  · exact same
  unfold readFile
  split
  · exact same
  rw [← same]
  refine readBlock_disk _ fun y later => ?_
  rw [readBlocks_disk]
  exact later

/-! ### Runs -/

/-- The calls of the driver. A write brings the caller's memory along. -/
inductive Call where
  | create (filename : Name) (size : Int)
  | remove (filename : Name)
  | open (filename : Name)
  | read (fileid : Int) (buffer : Nat) (bufsize offset : Int)
  | write (fileid : Int) (data : Bytes) (buffer : Nat) (datasize offset : Int)

/-- `handles` are the files opened and not removed since, with what `tfs_open` returned. -/
structure Volume where
  machine : Machine
  handles : List (Name × Int)

/-- The file of a removed name is gone, and so are its handles. -/
def Volume.closed (v : Volume) (result : Int × Machine) (filename : Name) : Volume :=
  ⟨result.2,if result.1 = vfsOk then v.handles.filter fun h => h.1 ≠ filename else v.handles⟩

def Volume.opened (v : Volume) (result : Int × Machine) (filename : Name) : Volume :=
  ⟨result.2,if 0 ≤ result.1 then (filename, result.1) :: v.handles else v.handles⟩

def perform (g : Gbd) (call : Call) (v : Volume) : Volume :=
  match call with
  | .create filename size => ⟨(tfsCreate g filename size v.machine).2,v.handles⟩
  | .remove filename => v.closed (tfsRemove g filename v.machine) filename
  | .open filename => v.opened (tfsOpen g filename v.machine) filename
  | .read fileid buffer bufsize offset => ⟨(tfsRead g fileid buffer bufsize offset v.machine).2,v.handles⟩
  | .write fileid data buffer datasize offset =>
    ⟨(tfsWrite g fileid buffer datasize offset { v.machine with user := data }).2,v.handles⟩

/-- What the VFS passes on: C strings for names, not empty where the call changes the
directory; sizes and lengths that are not negative; and file ids of open files. -/
def Permitted (call : Call) (v : Volume) : Prop :=
  match call with
  | .create filename size => IsFilename filename ∧ 0 ≤ size ∧ size < 2 ^ 31
  | .remove filename => 0 ∉ filename ∧ filename ≠ []
  | .open filename => 0 ∉ filename
  | .read fileid _ bufsize _ => fileid ∈ v.handles.map (·.2) ∧ 0 ≤ bufsize
  | .write fileid _ _ datasize _ => fileid ∈ v.handles.map (·.2) ∧ 0 ≤ datasize

def volumeStep (g : Gbd) (call : Call) (v : Volume) : Option Volume := some (perform g call v)

/-- The directory has an entry of that name and that inode. -/
def Named (d : Disk) (filename : Name) (fileid : Int) : Prop :=
  ∃ k < tfsMaxFiles, entryName (d tfsDirectoryBlock) k = filename ∧ entryInode (d tfsDirectoryBlock) k ≠ 0 ∧
    fileid = entryInode (d tfsDirectoryBlock) k

/-- Handles are files of the volume, or the 0 of an empty entry that has no name. -/
structure Usable (g : Gbd) (v : Volume) : Prop where
  formed : WellFormed g v.machine.disk
  handles : ∀ h ∈ v.handles, Named v.machine.disk h.1 h.2 ∨ h.2 = 0

theorem tfsOpen_named (reliable : Reliable g) (formed : WellFormed g m.disk) (clean : 0 ∉ filename)
    (opened : 0 ≤ (tfsOpen g filename m).1) :
    Named m.disk filename (tfsOpen g filename m).1 ∨ (filename = [] ∧ (tfsOpen g filename m).1 = 0) := by
  have room := formed.size
  unfold tfsOpen at opened ⊢
  rw [readBlock_ok reliable (show tfsDirectoryBlock < g.blocks by unfold tfsDirectoryBlock; omega)] at opened ⊢
  simp only [afterRead_self] at opened ⊢
  split at opened
  · next k found =>
    obtain ⟨slot,name⟩ := findEntry_some formed clean found
    by_cases used : entryInode (m.disk tfsDirectoryBlock) k = 0
    · exact .inr ⟨name.symm.trans (formed.unnamed k slot used),by rw [used]; rfl⟩
    · obtain ⟨_,inside⟩ := formed.inode_inside slot used
      have total := (totalblocks_le g).2
      exact .inl ⟨k,slot,name,used,toS32_small (by omega)⟩
  · contradiction

theorem Named.create (named : Named d filename fileid) (added : Added g other d d' index inode bs) :
    Named d' filename fileid := by
  obtain ⟨k,slot,name,used,same⟩ := named
  have different : k ≠ index := by
    rintro rfl
    exact used added.vacant
  obtain ⟨number,kept⟩ := added.entries k different
  exact ⟨k,slot,kept.trans name,by rw [number]; exact used,same.trans (by rw [number])⟩

theorem Named.remove (named : Named d filename fileid) (removed : Removed other d d' index)
    (different : filename ≠ other) : Named d' filename fileid := by
  obtain ⟨k,slot,name,used,same⟩ := named
  have apart : k ≠ index := by
    rintro rfl
    exact different (name.symm.trans removed.named)
  obtain ⟨number,kept⟩ := removed.entries k apart
  exact ⟨k,slot,kept.trans name,by rw [number]; exact used,same.trans (by rw [number])⟩

theorem Named.directory (named : Named d filename fileid) (same : d' tfsDirectoryBlock = d tfsDirectoryBlock) :
    Named d' filename fileid := by
  unfold Named at *
  rwa [same]

theorem Named.isFile (named : Named d filename fileid) : ∃ n : Nat, fileid = n ∧ IsFile d n := by
  obtain ⟨k,slot,_,used,same⟩ := named
  exact ⟨_,same,used,k,slot,rfl⟩

theorem Overwritten.wellFormed (written : Overwritten d d' fileid offset k data) (formed : WellFormed g d)
    (file : IsFile d fileid) : WellFormed g d' := by
  have directory := written.system formed file (show tfsDirectoryBlock < 3 by decide)
  have allocation := written.system formed file (show tfsAllocationBlock < 3 by decide)
  have inode : ∀ k, k < tfsMaxFiles → entryInode (d tfsDirectoryBlock) k ≠ 0 →
      d' (entryInode (d tfsDirectoryBlock) k) = d (entryInode (d tfsDirectoryBlock) k) := by
    intro k slot used
    exact written.inode formed file ⟨used,k,slot,rfl⟩
  have blocks : fileBlocks d' = fileBlocks d := by
    funext k
    unfold fileBlocks
    rw [directory]
    by_cases used : k < tfsMaxFiles ∧ entryInode (d tfsDirectoryBlock) k ≠ 0
    · rw [if_pos used,if_pos used,inode k used.1 used.2]
    · rw [if_neg used,if_neg used]
  refine ⟨formed.size,?_,?_,?_,?_,?_,?_,?_,?_,?_⟩
  · rw [allocation]; exact formed.system
  · rw [directory]; exact formed.named
  · rw [directory]; exact formed.unnamed
  · rw [directory]; exact formed.ended
  · rw [directory]; exact formed.distinct
  · rw [blocks]; exact formed.inside
  · rw [allocation,blocks]; exact formed.held
  · rw [allocation,blocks]; exact formed.owned
  · rw [directory]
    intro k slot used
    rw [inode k slot used]
    exact formed.enough k slot used

/-- At whatever offset, a write to a file keeps the volume well formed. -/
theorem tfsWrite_keeps (reliable : Reliable g) (formed : WellFormed g m.disk) (file : IsFile m.disk fileid)
    (buffer : Nat) (nonneg : 0 ≤ n) (offset : Int) :
    WellFormed g (tfsWrite g fileid buffer n offset m).2.disk ∧
      (tfsWrite g fileid buffer n offset m).2.disk tfsDirectoryBlock = m.disk tfsDirectoryBlock ∧
      ∀ f, IsFile m.disk f → (tfsWrite g fileid buffer n offset m).2.disk f = m.disk f := by
  by_cases valid : 0 ≤ offset ∧ offset ≤ filesize (m.disk fileid)
  · obtain ⟨size,rfl⟩ := Int.eq_ofNat_of_zero_le nonneg
    obtain ⟨place,rfl⟩ := Int.eq_ofNat_of_zero_le valid.1
    obtain ⟨_,written⟩ := tfsWrite_effect reliable (formed.intact file) buffer size place (by omega)
    exact ⟨written.wellFormed formed file,written.system formed file (by decide),fun _ other => written.inode formed file other⟩
  · obtain ⟨_,outside⟩ := tfsWrite_outside reliable formed file buffer n offset (by omega)
    rw [outside]
    exact ⟨formed,rfl,fun _ _ => rfl⟩

/-- One call keeps the volume usable. -/
theorem Usable.step (reliable : Reliable g) (usable : Usable g v) (permitted : Permitted call v)
    (next : volumeStep g call v = some w) : Usable g w := by
  obtain ⟨formed,handles⟩ := usable
  injection next with next
  subst next
  cases call with
  | create filename size =>
    obtain ⟨good,nonneg,int⟩ := permitted
    refine ⟨tfsCreate_wellFormed reliable formed good nonneg int,fun h member => ?_⟩
    obtain ⟨_,same⟩ | ⟨index,inode,bs,_,created,_⟩ := tfsCreate_effect reliable formed good size
    · exact (handles h member).imp_left fun named => named.directory (by rw [perform,same])
    · exact (handles h member).imp_left fun named => named.create created.added
  | remove filename =>
    obtain ⟨clean,nonempty⟩ := permitted
    refine ⟨tfsRemove_wellFormed reliable formed clean nonempty,fun h member => ?_⟩
    unfold perform Volume.closed at member ⊢
    dsimp only at member ⊢
    obtain ⟨code,same⟩ | ⟨index,code,removed⟩ := tfsRemove_effect reliable formed clean nonempty
    · rw [if_neg (by rw [code]; decide)] at member
      exact (handles h member).imp_left fun named => named.directory (by rw [same])
    · rw [if_pos code,List.mem_filter,decide_eq_true_eq] at member
      exact (handles h member.1).imp_left fun named => named.remove removed member.2
  | «open» filename =>
    have same := tfsOpen_disk g filename v.machine
    refine ⟨by unfold perform Volume.opened; rwa [same],fun h member => ?_⟩
    unfold perform Volume.opened at member ⊢
    dsimp only at member ⊢
    rw [same]
    split at member
    · next opened =>
      obtain rfl | member := List.mem_cons.mp member
      · exact (tfsOpen_named reliable formed permitted opened).imp_right And.right
      · exact handles h member
    · exact handles h member
  | read fileid buffer bufsize offset =>
    have same := tfsRead_disk g fileid buffer bufsize offset v.machine
    refine ⟨by unfold perform; rwa [same],fun h member => ?_⟩
    unfold perform
    rw [same]
    exact handles h member
  | write fileid data buffer datasize offset =>
    obtain ⟨opened,nonneg⟩ := permitted
    obtain ⟨h,member,rfl⟩ := List.mem_map.mp opened
    obtain named | zero := handles h member
    · obtain ⟨n,same,file⟩ := named.isFile
      have kept := tfsWrite_keeps (m := { v.machine with user := data }) reliable formed file buffer nonneg offset
      rw [← same] at kept
      exact ⟨kept.1,fun h member => (handles h member).imp_left fun named => named.directory kept.2.1⟩
    · have refused : (tfsWrite g h.2 buffer datasize offset { v.machine with user := data }).2.disk = v.machine.disk := by
        rw [tfsWrite,if_pos (by omega)]
      refine ⟨by unfold perform; rwa [refused],fun h member => ?_⟩
      unfold perform
      rw [refused]
      exact handles h member

/-- From a well-formed volume without open files every run of permitted calls leads to a
well-formed volume, and `tfstool` makes well-formed volumes. -/
theorem tfs_volume_invariant (reliable : Reliable g) :
    (∀ calls v final, WellFormed g v.machine.disk → v.handles = [] → Meets (volumeStep g) Permitted calls v →
      run (volumeStep g) calls v = some final → WellFormed g final.machine.disk) ∧
    ∀ volumename d, tfstoolCreatevol g.blocks volumename = some d → WellFormed g d := by
  refine ⟨?_,fun volumename d created => tfstoolCreatevol_wellFormed created⟩
  intro calls v final formed none meets ran
  have usable : Usable g v := ⟨formed,by simp [none]⟩
  exact (run_guarded (fun call v w usable permitted next => usable.step reliable permitted next) usable meets ran).formed

def sampleVolume : Volume := ⟨sampleMachine,[]⟩

def sampleCalls : List Call :=
  [.create sampleName 600,.open sampleName,.write 3 (fun _ => 1) 0 100 500,.remove sampleName]

def sampleOpen : Volume :=
  perform sampleGbd (.open sampleName) (perform sampleGbd (.create sampleName 600) sampleVolume)

theorem sample_opened : (3 : Int) ∈ sampleOpen.handles.map (·.2) := by
  have fileid : (tfsOpen sampleGbd sampleName (tfsCreate sampleGbd sampleName 600 sampleMachine).2).1 = 3 := by
    decide +kernel
  unfold sampleOpen perform Volume.opened sampleVolume
  dsimp only
  rw [fileid]
  decide

theorem sampleCalls_permitted : Meets (volumeStep sampleGbd) Permitted sampleCalls sampleVolume := by
  refine meets_cons ⟨⟨by decide,by decide,by decide⟩,by decide,by decide⟩ rfl ?_
  refine meets_cons (t := sampleOpen) (by unfold Permitted; decide) rfl ?_
  refine meets_cons ⟨sample_opened,by decide⟩ rfl ?_
  exact meets_cons ⟨by decide,by decide⟩ rfl trivial

theorem tfs_volume_invariant_sample : ∃ final, run (volumeStep sampleGbd) sampleCalls sampleVolume = some final ∧
    WellFormed sampleGbd final.machine.disk :=
  ⟨_,rfl,(tfs_volume_invariant (g := sampleGbd) fun _ => rfl).1 sampleCalls sampleVolume _ sampleMachine_wellFormed rfl
    sampleCalls_permitted rfl⟩

end Buenos.Fs.Tfs
