import Buenos.Fs.TfsExact
import Buenos.Fs.VfsMount
import Mathlib.Data.Nat.Count
import Mathlib.Data.Fintype.Fin

/-! Listing the files of a volume by `tfs_filecount` and `tfs_file`, and the mounted volumes by
`vfs_filecount` and `vfs_file`. -/
namespace Buenos.Fs.Listing

open Buenos.Foundation Buenos.Lib Buenos.Fs.Tfs

/-! ### Files of a volume -/

def countFiles (md : Bytes) : Nat → Nat → Int → Int
  | 0, _, filecount => filecount
  | left + 1, i, filecount => countFiles md left (i + 1) (filecount + if entryInode md i ≠ 0 then 1 else 0)

def tfsFilecount (g : Gbd) (m : Machine) : Int × Machine :=
  readBlock g tfsDirectoryBlock .md m fun m => (countFiles (m.memory .md) tfsMaxFiles 0 0, m)

/-- The loop of `tfs_file`: `i2` files have been passed, and it stops as soon as `index` have. -/
def skipFiles (md : Bytes) (index : Int) : Nat → Nat → Int → Nat
  | 0, i, _ => i
  | left + 1, i, i2 =>
    if i2 < index then skipFiles md index left (i + 1) (i2 + if entryInode md i ≠ 0 then 1 else 0) else i

/-- `stringcopy` reads the name up to its NUL, or as many characters as it may store. -/
def tfsFile (g : Gbd) (index : Int) (buffer : Nat) (m : Machine) : Int × Machine :=
  readBlock g tfsDirectoryBlock .md m fun m =>
    let i := skipFiles (m.memory .md) index tfsMaxFiles 0 0
    if i < tfsMaxFiles then
      let name := cstring (m.memory .md) (namePosition i) (vfsNameLength - 1)
      (0, { m with user := stringcopy m.user buffer (vfsNameLength - 1) name })
    else (-1, m)

abbrev Used (md : Bytes) (k : Nat) : Prop := entryInode md k ≠ 0

/-- How many entries below `k` are used. -/
def before (md : Bytes) (k : Nat) : Nat := Nat.count (Used md) k

section Count
variable {md : Bytes}

theorem before_succ (md : Bytes) (k : Nat) : before md (k + 1) = before md k + if Used md k then 1 else 0 :=
  Nat.count_succ _ k

theorem before_step (md : Bytes) (i : Nat) :
    ((before md i : Nat) : Int) + (if entryInode md i ≠ 0 then 1 else 0) = (before md (i + 1) : Nat) := by
  rw [before_succ]
  split <;> simp

theorem before_mono (md : Bytes) (le : k ≤ l) : before md k ≤ before md l := Nat.count_monotone _ le

theorem countFiles_eq (md : Bytes) (left i : Nat) :
    countFiles md left i (before md i) = before md (i + left) := by
  induction left generalizing i with
  | zero => rw [countFiles,Nat.add_zero]
  | succ left ih =>
    rw [countFiles,before_step,ih,show i + (left + 1) = i + 1 + left by omega]

/-- The loop stops at the first entry with `index` files below it, or behind the last entry. -/
theorem skipFiles_spec (md : Bytes) (index : Int) (left i : Nat) (few : ∀ q < i, (before md q : Int) < index) :
    (∀ q < skipFiles md index left i (before md i), (before md q : Int) < index) ∧
    skipFiles md index left i (before md i) ≤ i + left ∧
    (skipFiles md index left i (before md i) < i + left →
      index ≤ before md (skipFiles md index left i (before md i))) := by
  induction left generalizing i with
  | zero => exact ⟨few,Nat.le_refl _,fun small => absurd small (Nat.lt_irrefl _)⟩
  | succ left ih =>
    rw [skipFiles]
    by_cases more : (before md i : Int) < index
    · rw [if_pos more,before_step]
      have rest := ih (i + 1) (by
        intro q small
        by_cases last : q = i
        · rw [last]; exact more
        · exact few q (by omega))
      rwa [show i + 1 + left = i + (left + 1) by omega] at rest
    · rw [if_neg more]
      exact ⟨few,by omega,fun _ => by omega⟩

theorem nth_entry (small : n < before md t) : ∃ k < t, Used md k ∧ before md k = n := by
  induction t with
  | zero => simp [before] at small
  | succ t ih =>
    rw [before_succ] at small
    by_cases below : n < before md t
    · obtain ⟨k,inside,used,count⟩ := ih below
      exact ⟨k,by omega,used,count⟩
    · by_cases used : Used md t
      · rw [if_pos used] at small
        exact ⟨t,by omega,used,by omega⟩
      · rw [if_neg used] at small
        omega

theorem entry_unique (one : Used md k) (two : Used md l) (same : before md k = before md l) : k = l :=
  Nat.count_injective one two same

/-- Where `tfs_file` stops. -/
theorem landing (md : Bytes) (index : Int) :
    (∀ q < skipFiles md index tfsMaxFiles 0 0, (before md q : Int) < index) ∧
    skipFiles md index tfsMaxFiles 0 0 ≤ tfsMaxFiles ∧
    (skipFiles md index tfsMaxFiles 0 0 < tfsMaxFiles → index ≤ before md (skipFiles md index tfsMaxFiles 0 0)) := by
  have start : ((before md 0 : Nat) : Int) = 0 := by simp [before]
  have stops := skipFiles_spec md index tfsMaxFiles 0 (by omega)
  rwa [start,Nat.zero_add] at stops

/-- It stops at the entry looked for when no free entry is right before that one. -/
theorem landing_entry {index : Int} (inside : k < tfsMaxFiles) (count : (before md k : Int) = index) :
    skipFiles md index tfsMaxFiles 0 0 = k ↔ k = 0 ∨ Used md (k - 1) := by
  obtain ⟨low,bound,high⟩ := landing md index
  constructor
  · intro stops
    rw [stops] at low
    by_cases first : k = 0
    · exact .inl first
    · have fewer := low (k - 1) (by omega)
      have step := before_succ md (k - 1)
      rw [Nat.sub_add_cancel (by omega)] at step
      by_contra free
      rw [if_neg fun used => free (.inr used)] at step
      omega
  · intro tight
    have upper : skipFiles md index tfsMaxFiles 0 0 ≤ k := by
      by_contra beyond
      have := low k (by omega)
      omega
    by_contra other
    have earlier : skipFiles md index tfsMaxFiles 0 0 ≤ k - 1 := by omega
    rcases tight with first | previous
    · omega
    · have step := before_succ md (k - 1)
      rw [Nat.sub_add_cancel (by omega),if_pos previous] at step
      have fewer := before_mono md earlier
      have enough := high (by omega)
      omega

/-- Of an index that is one too large it stops behind the directory only if the last entry is used. -/
theorem landing_end {index : Int} (count : index = before md tfsMaxFiles) :
    skipFiles md index tfsMaxFiles 0 0 = tfsMaxFiles ↔ Used md (tfsMaxFiles - 1) := by
  obtain ⟨low,bound,high⟩ := landing md index
  have step := before_succ md (tfsMaxFiles - 1)
  rw [Nat.sub_add_cancel (by decide)] at step
  constructor
  · intro stops
    rw [stops] at low
    have fewer := low (tfsMaxFiles - 1) (by decide)
    by_contra free
    rw [if_neg (not_not.mpr free)] at step
    omega
  · intro used
    rw [if_pos used] at step
    by_contra other
    have enough := high (by omega)
    have fewer := before_mono md (show skipFiles md index tfsMaxFiles 0 0 ≤ tfsMaxFiles - 1 by omega)
    omega

end Count

theorem entryName_clean (md : Bytes) (k : Nat) : 0 ∉ entryName md k := cstring_no_nul _ _ _

/-- The name of the entry with `index` files before it is stored, and any other index refused. -/
structure Lists (g : Gbd) (m : Machine) (index : Int) (buffer : Nat) : Prop where
  found : 0 ≤ index → index < (tfsFilecount g m).1 → (tfsFile g index buffer m).1 = 0 ∧
    ∃ k < tfsMaxFiles, Used (m.disk tfsDirectoryBlock) k ∧ (before (m.disk tfsDirectoryBlock) k : Int) = index ∧
      Holds (tfsFile g index buffer m).2.user buffer (entryName (m.disk tfsDirectoryBlock) k)
  refused : ¬(0 ≤ index ∧ index < (tfsFilecount g m).1) → (tfsFile g index buffer m).1 < 0

/-- The entry looked for does not follow a free one, and one past the last file the directory
ends with a used entry. -/
structure Dense (md : Bytes) (index : Int) : Prop where
  nonneg : 0 ≤ index
  adjacent : ∀ k < tfsMaxFiles, Used md k → (before md k : Int) = index → k = 0 ∨ Used md (k - 1)
  last : index = before md tfsMaxFiles → Used md (tfsMaxFiles - 1)

section Files
variable {g : Gbd} {m : Machine} (reliable : Reliable g) (formed : WellFormed g m.disk)
include reliable formed

theorem tfsFilecount_eq : (tfsFilecount g m).1 = before (m.disk tfsDirectoryBlock) tfsMaxFiles := by
  have room := formed.size
  rw [tfsFilecount,readBlock_ok reliable (show tfsDirectoryBlock < g.blocks by unfold tfsDirectoryBlock; omega),
    afterRead_self]
  have count := countFiles_eq (m.disk tfsDirectoryBlock) tfsMaxFiles 0
  rwa [show ((before (m.disk tfsDirectoryBlock) 0 : Nat) : Int) = 0 by simp [before],Nat.zero_add] at count

theorem tfsFile_eq (index : Int) (buffer : Nat) :
    (skipFiles (m.disk tfsDirectoryBlock) index tfsMaxFiles 0 0 < tfsMaxFiles ∧ (tfsFile g index buffer m).1 = 0 ∧
      Holds (tfsFile g index buffer m).2.user buffer
        (entryName (m.disk tfsDirectoryBlock) (skipFiles (m.disk tfsDirectoryBlock) index tfsMaxFiles 0 0))) ∨
    (skipFiles (m.disk tfsDirectoryBlock) index tfsMaxFiles 0 0 = tfsMaxFiles ∧ (tfsFile g index buffer m).1 = -1) := by
  have room := formed.size
  obtain ⟨_,bound,_⟩ := landing (m.disk tfsDirectoryBlock) index
  unfold tfsFile
  rw [readBlock_ok reliable (show tfsDirectoryBlock < g.blocks by unfold tfsDirectoryBlock; omega)]
  simp only [afterRead_self]
  generalize skipFiles (m.disk tfsDirectoryBlock) index tfsMaxFiles 0 0 = i at bound
  by_cases inside : i < tfsMaxFiles
  · have ended := formed.ended i inside
    have name : cstring (m.disk tfsDirectoryBlock) (namePosition i) (vfsNameLength - 1) =
        entryName (m.disk tfsDirectoryBlock) i := cstring_succ (Nat.le_of_lt_succ ended)
    rw [if_pos inside,name]
    refine .inl ⟨inside,rfl,holds_stringcopy (entryName_clean _ _) ?_⟩
    exact Nat.le_of_lt_succ ended
  · rw [if_neg inside]
    exact .inr ⟨by omega,rfl⟩

theorem lists_iff (index : Int) (buffer : Nat) :
    Lists g m index buffer ↔ Dense (m.disk tfsDirectoryBlock) index := by
  have count := tfsFilecount_eq reliable formed
  obtain ⟨low,bound,high⟩ := landing (m.disk tfsDirectoryBlock) index
  have result := tfsFile_eq reliable formed index buffer
  constructor
  · rintro ⟨found,refused⟩
    rw [count] at found refused
    have nonneg : 0 ≤ index := by
      by_contra negative
      have code := refused (by omega)
      rcases result with ⟨_,zero,_⟩ | ⟨stops,_⟩
      · omega
      · rw [stops] at low
        have := low 0 (by decide)
        omega
    refine ⟨nonneg,?_,?_⟩
    · intro k inside used here
      have small : index < before (m.disk tfsDirectoryBlock) tfsMaxFiles := by
        have := Nat.count_strict_mono (p := Used (m.disk tfsDirectoryBlock)) used inside
        unfold before at here ⊢
        omega
      obtain ⟨zero,l,_,there,same,stored⟩ := found nonneg small
      obtain rfl : l = k := entry_unique there used (by omega)
      rw [← landing_entry inside here]
      rcases result with ⟨stops,_,holds⟩ | ⟨_,failed⟩
      · have name := stored.unique (entryName_clean _ _) (entryName_clean _ _) holds
        by_contra other
        -- a free entry has no name
        have occupied : Used (m.disk tfsDirectoryBlock) (skipFiles (m.disk tfsDirectoryBlock) index tfsMaxFiles 0 0) := by
          refine formed.used stops ?_
          rw [← name]
          exact formed.named l inside there
        exact other (formed.distinct _ _ stops inside occupied there name.symm)
      · omega
    · intro end_
      have code := refused (by omega)
      rw [← landing_end end_]
      rcases result with ⟨_,zero,_⟩ | ⟨stops,_⟩
      · omega
      · exact stops
  · rintro ⟨nonneg,adjacent,last⟩
    constructor
    · intro _ small
      rw [count] at small
      have lower : index.toNat < before (m.disk tfsDirectoryBlock) tfsMaxFiles := by omega
      obtain ⟨k,inside,used,here⟩ := nth_entry lower
      have here : (before (m.disk tfsDirectoryBlock) k : Int) = index := by omega
      have stops := (landing_entry inside here).mpr (adjacent k inside used here)
      rw [stops] at result
      rcases result with ⟨_,zero,holds⟩ | ⟨end_,_⟩
      · exact ⟨zero,k,inside,used,here,holds⟩
      · omega
    · intro outside
      rw [count] at outside
      rcases result with ⟨stops,_,_⟩ | ⟨_,code⟩
      · have enough := high stops
        have fewer := before_mono (m.disk tfsDirectoryBlock) (Nat.le_of_lt stops)
        have whole : index = before (m.disk tfsDirectoryBlock) tfsMaxFiles := by omega
        have end_ := (landing_end whole).mpr (last whole)
        omega
      · omega

/-- Where no index meets a free entry, every file is listed once. -/
theorem lists_all (buffer : Nat) (dense : ∀ index, 0 ≤ index → index < (tfsFilecount g m).1 →
      Dense (m.disk tfsDirectoryBlock) index) (named : Named m.disk name fileid) :
    ∃! index, (0 ≤ index ∧ index < (tfsFilecount g m).1) ∧ Holds (tfsFile g index buffer m).2.user buffer name := by
  obtain ⟨k,inside,rfl,used,-⟩ := named
  have count := tfsFilecount_eq reliable formed
  have small := Nat.count_strict_mono (p := Used (m.disk tfsDirectoryBlock)) used inside
  have lists := fun index nonneg below => (lists_iff reliable formed index buffer).mpr (dense index nonneg below)
  refine ⟨before (m.disk tfsDirectoryBlock) k,⟨⟨by omega,by rw [count]; unfold before; omega⟩,?_⟩,?_⟩
  · obtain ⟨-,l,_,there,same,stored⟩ := (lists (before (m.disk tfsDirectoryBlock) k) (by omega)
      (by rw [count]; unfold before; omega)).found (by omega) (by rw [count]; unfold before; omega)
    obtain rfl : l = k := entry_unique there used (by omega)
    exact stored
  · rintro index ⟨⟨nonneg,below⟩,holds⟩
    obtain ⟨-,l,slot,there,same,stored⟩ := (lists index nonneg below).found nonneg below
    have name := stored.unique (entryName_clean _ _) (entryName_clean _ _) holds
    obtain rfl : l = k := formed.distinct l k slot inside there used name
    exact same.symm

end Files

/-- `tfs_file` lists a file exactly when no free entry is right before it, and refuses an index
past the last file exactly when the directory does not end with a free entry. -/
theorem tfs_file_lists (reliable : Reliable g) (formed : WellFormed g m.disk) (buffer : Nat) :
    (∀ index, Lists g m index buffer ↔ Dense (m.disk tfsDirectoryBlock) index) ∧
    ((∀ index, 0 ≤ index → index < (tfsFilecount g m).1 → Dense (m.disk tfsDirectoryBlock) index) →
      ∀ name fileid, Named m.disk name fileid →
        ∃! index, (0 ≤ index ∧ index < (tfsFilecount g m).1) ∧ Holds (tfsFile g index buffer m).2.user buffer name) :=
  ⟨fun index => lists_iff reliable formed index buffer,fun dense _ _ named => lists_all reliable formed buffer dense named⟩

/-- The only file of the volume is in the last entry, behind free ones. -/
theorem first_file_not_listed : (tfsFilecount sampleGbd sampleFile).1 = 1 ∧
    Named sampleFile.disk sampleName 3 ∧ (tfsFile sampleGbd 0 0 sampleFile).1 = 0 ∧
    Holds (tfsFile sampleGbd 0 0 sampleFile).2.user 0 [] ∧ ¬Lists sampleGbd sampleFile 0 0 := by
  have count : (tfsFilecount sampleGbd sampleFile).1 = 1 := by decide +kernel
  have empty : Holds (tfsFile sampleGbd 0 0 sampleFile).2.user 0 [] := by
    intro i small
    obtain rfl : i = 0 := by simpa using small
    decide +kernel
  refine ⟨count,⟨24,by decide,by decide +kernel,by decide +kernel,by decide +kernel⟩,by decide +kernel,empty,?_⟩
  intro lists
  obtain ⟨_,k,inside,used,_,stored⟩ := lists.found (by decide) (by rw [count]; decide)
  have name := stored.unique (entryName_clean _ _) (by simp) empty
  exact sampleFile_wellFormed.named k inside used name

/-- An index of two is refused there. -/
theorem tfs_file_lists_sample : Lists sampleGbd sampleFile 2 0 := by
  refine ((tfs_file_lists (fun _ => rfl) sampleFile_wellFormed 0).1 2).mpr ⟨by decide,?_,?_⟩
  · intro k inside used two
    exfalso
    revert two
    have few := before_mono (sampleFile.disk tfsDirectoryBlock) (Nat.le_of_lt inside)
    have total : before (sampleFile.disk tfsDirectoryBlock) tfsMaxFiles = 1 := by decide +kernel
    omega
  · intro _
    decide +kernel

/-! ### Mounted volumes -/

open Buenos.Fs.Mount

/-- What `vfs_file` without a volume name copies to the caller: the mount point of the row with
that number, which fits. `none` is a row outside the table. -/
def copiedMountpoint (s : Vfs) (index : Int) : Option Name :=
  if h : 0 ≤ index ∧ index < configMaxFilesystems then some (s.filesystems ⟨index.toNat,by omega⟩).mountpoint else none

theorem returning_afterLookup (answer : DriverCall → Int) (fn : DriverFn) (me : Nat) {whole : Vfs → Int}
    (result : ∀ t : Vfs, t.filesystems = s.filesystems → whole t = code) :
    Ends answer (Returning code s.filesystems) 0 1 1 (afterLookup fn me none whole) s := by
  refine ends_start (ends_lockTable (ends_lockFiles (ends_look ?_)))
  rw [result]
  · exact ends_unlockFiles (ends_unlockTable (returning_finish rfl))
  · rfl

/-- The name of a mounted volume is stored, and any other index refused. -/
structure ListsVolume (s : Vfs) (count index code : Int) : Prop where
  found : 0 ≤ index → index < count → code = 0 ∧ ∃ name, copiedMountpoint s index = some name ∧ mounts s name ≠ none
  refused : ¬(0 ≤ index ∧ index < count) → code < 0 ∧ copiedMountpoint s index ≠ none

/-- The index is below the count and a filesystem is mounted in the row with that number. -/
def RowMounted (s : Vfs) (index : Int) : Prop :=
  0 ≤ index ∧ index < mountCount s ∧ ∃ row : MountRow, (row.val : Int) = index ∧ (s.filesystems row).filesystem ≠ none

theorem copiedMountpoint_row (s : Vfs) (row : MountRow) :
    copiedMountpoint s row.val = some (s.filesystems row).mountpoint := by
  have small := row.isLt
  rw [copiedMountpoint,dif_pos ⟨by omega,by omega⟩]
  rfl

theorem mountCount_le (s : Vfs) : mountCount s ≤ configMaxFilesystems := by
  have bound := List.countP_le_length (p := fun row => (s.filesystems row).filesystem.isSome)
    (l := List.finRange configMaxFilesystems)
  rwa [List.length_finRange] at bound

theorem mounted_row (resting : Resting s) (row : MountRow) (mounted : mounts s (s.filesystems row).mountpoint ≠ none) :
    (s.filesystems row).filesystem ≠ none := by
  obtain ⟨fs,found⟩ := Option.ne_none_iff_exists'.mp mounted
  obtain ⟨other,occupied,same⟩ := mounts_row found
  have named := resting.named other (by simp [occupied])
  rw [← resting.once other row same named,occupied]
  simp

theorem listsVolume_iff (resting : Resting s) (index : Int) :
    ListsVolume s (mountCount s) index 0 ↔ RowMounted s index := by
  have bound := mountCount_le s
  constructor
  · rintro ⟨found,refused⟩
    have inside : 0 ≤ index ∧ index < mountCount s := by
      by_contra outside
      have := (refused outside).1
      omega
    obtain ⟨-,name,copied,mounted⟩ := found inside.1 inside.2
    refine ⟨inside.1,inside.2,⟨index.toNat,by omega⟩,by simp [inside.1],?_⟩
    rw [copiedMountpoint,dif_pos ⟨inside.1,by omega⟩] at copied
    cases copied
    exact mounted_row resting _ mounted
  · rintro ⟨nonneg,below,row,rfl,occupied⟩
    refine ⟨fun _ _ => ⟨rfl,_,copiedMountpoint_row s row,?_⟩,fun outside => absurd ⟨nonneg,below⟩ outside⟩
    obtain ⟨fs,occupied⟩ := Option.ne_none_iff_exists'.mp occupied
    rw [mounts_eq resting occupied]
    simp

theorem rows_below (dense : ∀ index : Int, 0 ≤ index → index < mountCount s → RowMounted s index) (row : MountRow)
    (occupied : (s.filesystems row).filesystem ≠ none) : row.val < mountCount s := by
  have card : mountCount s =
      (Finset.univ.filter fun row : MountRow => (s.filesystems row).filesystem.isSome = true).card := by
    rw [mountCount,List.countP_eq_length_filter,← List.toFinset_card_of_nodup ((List.nodup_finRange _).filter _)]
    congr 1
    ext row
    simp
  by_contra beyond
  have inside : insert row (Finset.univ.filter fun other : MountRow => other.val < mountCount s) ⊆
      Finset.univ.filter fun row : MountRow => (s.filesystems row).filesystem.isSome = true := by
    intro other member
    rw [Finset.mem_filter]
    refine ⟨Finset.mem_univ other,?_⟩
    rcases Finset.mem_insert.mp member with rfl | below
    · exact Option.isSome_iff_ne_none.mpr occupied
    · obtain ⟨-,-,place,same,there⟩ := dense other.val (by omega) (by simpa using below)
      obtain rfl : place = other := Fin.ext (by omega)
      exact Option.isSome_iff_ne_none.mpr there
  have fewer := Finset.card_le_card inside
  have bound := mountCount_le s
  rw [Finset.card_insert_of_notMem (by simpa using beyond),Fin.card_filter_val_lt,← card] at fewer
  omega

/-- A mounted volume is listed at an index exactly when it is in the row with that number. -/
theorem vfs_file_lists (reached : Reached s) (caller : Nat) (answer : DriverCall → Int) :
    (∃ t, Call.run ⟨caller, .filecount none, answer⟩ s = some ((mountCount s : Int), t)) ∧
    (∀ index, ∃ code t, Call.run ⟨caller, .file none index, answer⟩ s = some (code, t) ∧
      (ListsVolume s (mountCount s) index code ↔ RowMounted s index)) ∧
    (∀ i j, RowMounted s i → RowMounted s j → copiedMountpoint s i = copiedMountpoint s j → i = j) ∧
    ((∀ index : Int, 0 ≤ index → index < mountCount s → RowMounted s index) →
      ∀ name, mounts s name ≠ none → ∃ index, RowMounted s index ∧ copiedMountpoint s index = some name) := by
  have resting := reached_resting reached
  refine ⟨?_,?_,?_,?_⟩
  · have same : ∀ t : Vfs, t.filesystems = s.filesystems → (mountCount t : Int) = mountCount s := by
      intro t table
      unfold mountCount
      rw [table]
    obtain ⟨t,ran,-⟩ := returning_afterLookup answer .filecount caller same resting.quiet
    exact ⟨t,ran⟩
  · intro index
    have zero : ∀ t : Vfs, t.filesystems = s.filesystems → (fun _ : Vfs => (0 : Int)) t = 0 := fun _ _ => rfl
    obtain ⟨t,ran,-⟩ := returning_afterLookup answer .file caller zero resting.quiet
    exact ⟨0,t,ran,listsVolume_iff resting index⟩
  · rintro _ _ ⟨-,-,row,rfl,occupied⟩ ⟨-,-,other,rfl,-⟩ same
    rw [copiedMountpoint_row,copiedMountpoint_row,Option.some.injEq] at same
    rw [resting.once row other same (resting.named row occupied)]
  · intro dense name mounted
    obtain ⟨fs,found⟩ := Option.ne_none_iff_exists'.mp mounted
    obtain ⟨row,occupied,rfl⟩ := mounts_row found
    have below := rows_below dense row (by simp [occupied])
    exact ⟨row.val,dense row.val (by omega) (by omega),copiedMountpoint_row s row⟩

theorem vfs_file_lists_one : ∃ s, Reached s ∧ mounts s [97] = some 1 ∧
    ∃ code t, Call.run (quietly (.file none 0)) s = some (code, t) ∧ ListsVolume s (mountCount s) 0 code := by
  have ran : ((run callStep [quietly (.mount 1 [97])] initial.shared).any fun s =>
      decide (mounts s [97] = some 1 ∧ mountCount s = 1 ∧ (s.filesystems 0).filesystem ≠ none)) = true := by
    decide +kernel
  obtain ⟨s,ran,facts⟩ := (Option.any_eq_true _ _).mp ran
  obtain ⟨first,one,occupied⟩ := of_decide_eq_true facts
  have reached : Reached s := ⟨_,by simp [quietly,Admissible,vfsNameLength],ran⟩
  obtain ⟨code,t,returned,lists⟩ := (vfs_file_lists reached 0 fun _ => 0).2.1 0
  exact ⟨s,reached,first,code,t,returned,lists.mpr ⟨by decide,by rw [one]; decide,0,rfl,occupied⟩⟩

/-- Two volumes are mounted and the first of them is unmounted: its name is the one listed. -/
theorem unmounted_volume_listed : ∃ s code t, Reached s ∧ mounts s [97] = none ∧ mounts s [98] = some 2 ∧
    mountCount s = 1 ∧ Call.run (quietly (.file none 0)) s = some (code, t) ∧ copiedMountpoint s 0 = some [97] ∧
    ¬ListsVolume s (mountCount s) 0 code := by
  have ran : ((run callStep [quietly (.mount 1 [97]),quietly (.mount 2 [98]),quietly (.unmount [97])]
      initial.shared).any fun s => decide (mounts s [97] = none ∧ mounts s [98] = some 2 ∧ mountCount s = 1 ∧
        copiedMountpoint s 0 = some [97]) && (Call.run (quietly (.file none 0)) s).isSome) = true := by
    decide +kernel
  obtain ⟨s,ran,facts⟩ := (Option.any_eq_true _ _).mp ran
  obtain ⟨facts,returns⟩ := (Bool.and_eq_true _ _).mp facts
  obtain ⟨gone,second,one,copied⟩ := of_decide_eq_true facts
  obtain ⟨⟨code,t⟩,returned⟩ := Option.isSome_iff_exists.mp returns
  have reached : Reached s := ⟨_,by simp [quietly,Admissible,vfsNameLength],ran⟩
  refine ⟨s,code,t,reached,gone,second,one,returned,copied,?_⟩
  rintro ⟨found,-⟩
  obtain ⟨-,name,same,mounted⟩ := found (by decide) (by rw [one]; decide)
  rw [copied] at same
  cases same
  exact mounted gone

end Buenos.Fs.Listing
