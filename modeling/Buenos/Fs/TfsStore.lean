import Buenos.Fs.Listing
import Buenos.Foundation.Refinement

/-! What a volume is for: a store of named files of fixed sizes and limited room. Every run of
the driver's calls from a new volume gives the answers of the store. -/
namespace Buenos.Fs.FileStore

open Buenos.Foundation Buenos.Lib Buenos.Fs.Tfs Buenos.Fs.Listing

/-! ### The store -/

/-- A file and the number under which it is open. -/
structure File where
  fileid : Int
  content : List UInt8
  deriving DecidableEq

/-- How many blocks hold the content, the file's inode besides. -/
def blocksFor (size : Nat) : Nat := (size + 511) / 512

def blocksOf (entry : Name × File) : Nat := blocksFor entry.2.content.length + 1

/-- `capacity` blocks are there for files. -/
structure Store where
  capacity : Nat
  files : List (Name × File)

def Store.used (s : Store) : Nat := (s.files.map blocksOf).sum

def Store.named (s : Store) (filename : Name) : Option (Name × File) := s.files.find? fun f => f.1 = filename
def Store.opened (s : Store) (fileid : Int) : Option (Name × File) := s.files.find? fun f => f.2.fileid = fileid

/-- A new file needs a name of its own, an entry, an inode and its blocks. -/
def Store.HasRoom (s : Store) (filename : Name) (size : Nat) : Prop :=
  s.named filename = none ∧ s.files.length < tfsMaxFiles ∧ blocksFor size ≤ tfsBlocksMax ∧
    s.used + blocksFor size + 1 ≤ s.capacity

instance (s : Store) (filename : Name) (size : Nat) : Decidable (s.HasRoom filename size) :=
  inferInstanceAs (Decidable (_ ∧ _))

def Store.replace (s : Store) (old new : Name × File) : Store := { s with files := new :: s.files.erase old }

def readAt (content : List UInt8) (n offset : Int) : Int × List UInt8 :=
  if 0 ≤ offset ∧ offset ≤ content.length then
    let read := min n (content.length - offset)
    (read, (content.drop offset.toNat).take read.toNat)
  else (vfsError, [])

def writeAt (content data : List UInt8) (offset : Int) : Int × List UInt8 :=
  if 0 ≤ offset ∧ offset ≤ content.length then
    let written := min (data.length : Int) (content.length - offset)
    (written, content.take offset.toNat ++ data.take written.toNat ++ content.drop (offset.toNat + written.toNat))
  else (vfsError, content)

/-- A call with its answer. For a new file, `fileid` is the number it is opened by from then on. -/
inductive Event where
  | create (filename : Name) (size fileid result : Int)
  | remove (filename : Name) (result : Int)
  | open (filename : Name) (result : Int)
  | read (fileid n offset result : Int) (bytes : List UInt8)
  | write (fileid : Int) (data : List UInt8) (offset result : Int)

/-- The state after an event, none for an answer that the store does not give. -/
def storeStep (e : Event) (s : Store) : Option Store :=
  match e with
  | .create filename size fileid result =>
    if s.HasRoom filename size.toNat then
      if result = vfsOk ∧ fileid ≠ 0 ∧ s.opened fileid = none then
        some { s with files := (filename,⟨fileid,List.replicate size.toNat 0⟩) :: s.files }
      else none
    else if result = vfsError then some s else none
  | .remove filename result =>
    match s.named filename with
    | some f => if result = vfsOk then some { s with files := s.files.erase f } else none
    | none => if result = vfsNotFound then some s else none
  | .open filename result =>
    match s.named filename with
    | some f => if result = f.2.fileid then some s else none
    | none =>
      -- the empty name is that of a free entry
      if result = (if filename = [] ∧ s.files.length < tfsMaxFiles then 0 else vfsNotFound) then some s else none
  | .read fileid n offset result bytes =>
    match s.opened fileid with
    | some f => if (result, bytes) = readAt f.2.content n offset then some s else none
    | none => if result = vfsError ∧ bytes = [] then some s else none
  | .write fileid data offset result =>
    match s.opened fileid with
    | some f =>
      if result = (writeAt f.2.content data offset).1 then
        some (s.replace f (f.1,⟨fileid,(writeAt f.2.content data offset).2⟩))
      else none
    | none => if result = vfsError then some s else none

theorem find?_unique {α : Type} {p : α → Bool} {l : List α} (unique : ∀ x ∈ l, ∀ y ∈ l, p x → p y → x = y)
    {x : α} : l.find? p = some x ↔ x ∈ l ∧ p x = true := by
  constructor
  · intro found
    exact ⟨List.mem_of_find?_eq_some found,List.find?_some found⟩
  · rintro ⟨member,holds⟩
    cases found : l.find? p with
    | none => exact absurd holds (List.find?_eq_none.mp found x member)
    | some y => rw [unique y (List.mem_of_find?_eq_some found) x member (List.find?_some found) holds]

/-- No two files have one name or one number. -/
structure Distinct (s : Store) : Prop where
  once : s.files.Nodup
  names : ∀ f ∈ s.files, ∀ h ∈ s.files, f.1 = h.1 → f = h
  fileids : ∀ f ∈ s.files, ∀ h ∈ s.files, f.2.fileid = h.2.fileid → f = h

section Distinct
variable {s : Store} (distinct : Distinct s)
include distinct

theorem named_iff (filename : Name) : s.named filename = some f ↔ f ∈ s.files ∧ f.1 = filename := by
  have found := find?_unique (p := fun f : Name × File => decide (f.1 = filename)) (x := f)
    fun x one y two alike equal => distinct.names x one y two (by simp_all)
  unfold Store.named
  simpa only [decide_eq_true_eq] using found

theorem opened_iff (fileid : Int) : s.opened fileid = some f ↔ f ∈ s.files ∧ f.2.fileid = fileid := by
  have found := find?_unique (p := fun f : Name × File => decide (f.2.fileid = fileid)) (x := f)
    fun x one y two alike equal => distinct.fileids x one y two (by simp_all)
  unfold Store.opened
  simpa only [decide_eq_true_eq] using found

theorem mem_erase_iff : h ∈ s.files.erase f ↔ h ≠ f ∧ h ∈ s.files := distinct.once.mem_erase_iff

end Distinct

theorem used_erase {s : Store} (member : f ∈ s.files) :
    Store.used { s with files := s.files.erase f } + blocksOf f = s.used ∧
      (s.files.erase f).length + 1 = s.files.length := by
  have perm := List.perm_cons_erase member
  have sum := (perm.map blocksOf).sum_eq
  have length := perm.length_eq
  rw [List.map_cons,List.sum_cons] at sum
  rw [List.length_cons] at length
  refine ⟨?_,length.symm⟩
  unfold Store.used
  dsimp only
  omega

theorem named_none {s : Store} : s.named filename = none ↔ ∀ f ∈ s.files, f.1 ≠ filename := by
  simp [Store.named,List.find?_eq_none]

theorem opened_none {s : Store} : s.opened fileid = none ↔ ∀ f ∈ s.files, f.2.fileid ≠ fileid := by
  simp [Store.opened,List.find?_eq_none]

theorem writeAt_length (content data : List UInt8) (offset : Int) :
    (writeAt content data offset).2.length = content.length := by
  unfold writeAt
  split
  · simp only [List.length_append,List.length_take,List.length_drop]
    omega
  · rfl

/-! ### What the disk holds -/

/-- The disk of a well-formed volume, seen as a store. -/
structure Represents (g : Gbd) (d : Disk) (s : Store) : Prop where
  formed : WellFormed g d
  capacity : s.capacity = totalblocks g - 3
  once : s.files.Nodup
  entries : ∀ f, f ∈ s.files ↔ Named d f.1 f.2.fileid ∧ f.2.content = content d f.2.fileid.toNat
  blocks : ∀ f ∈ s.files, (dataBlocks (d f.2.fileid.toNat)).length = blocksFor f.2.content.length
  count : before (d tfsDirectoryBlock) tfsMaxFiles = s.files.length
  space : (freeIn (totalblocks g) (d tfsAllocationBlock)).card + s.used = s.capacity

theorem Named.unique (formed : WellFormed g d) (one : Named d filename a) (two : Named d filename b) : a = b := by
  obtain ⟨k,inside,name,used,rfl⟩ := one
  obtain ⟨l,small,name',used',rfl⟩ := two
  rw [formed.distinct k l inside small used used' (name.trans name'.symm)]

theorem Named.owner (formed : WellFormed g d) (one : Named d filename a) (two : Named d other a) : filename = other := by
  obtain ⟨k,inside,rfl,used,rfl⟩ := one
  obtain ⟨l,small,rfl,used',same⟩ := two
  by_contra different
  have apart : k ≠ l := by
    rintro rfl
    exact different rfl
  refine formed.held.apart k l apart (entryInode (d tfsDirectoryBlock) k) ?_ ?_
  · rw [fileBlocks_used inside used]
    exact List.mem_cons_self
  · rw [fileBlocks_used small used',show entryInode (d tfsDirectoryBlock) l = entryInode (d tfsDirectoryBlock) k by omega]
    exact List.mem_cons_self

theorem Represents.distinct (represents : Represents g d s) : Distinct s := by
  refine ⟨represents.once,?_,?_⟩
  · intro f one h two same
    obtain ⟨named,bytes⟩ := (represents.entries f).mp one
    obtain ⟨named',bytes'⟩ := (represents.entries h).mp two
    obtain ⟨name,fileid,_⟩ := f
    obtain ⟨name',fileid',_⟩ := h
    dsimp only at same named named' bytes bytes'
    subst same
    cases Named.unique represents.formed named named'
    rw [bytes,bytes']
  · intro f one h two same
    obtain ⟨named,bytes⟩ := (represents.entries f).mp one
    obtain ⟨named',bytes'⟩ := (represents.entries h).mp two
    obtain ⟨name,fileid,_⟩ := f
    obtain ⟨name',fileid',_⟩ := h
    dsimp only at same named named' bytes bytes'
    subst same
    cases Named.owner represents.formed named named'
    rw [bytes,bytes']

theorem Represents.stored (represents : Represents g d s) (named : Named d filename fileid) :
    (filename,⟨fileid,content d fileid.toNat⟩) ∈ s.files := (represents.entries _).mpr ⟨named,rfl⟩

theorem Represents.named_some (represents : Represents g d s) (named : Named d filename fileid) :
    s.named filename = some (filename,⟨fileid,content d fileid.toNat⟩) :=
  (named_iff represents.distinct filename).mpr ⟨represents.stored named,rfl⟩

theorem Represents.named_none (represents : Represents g d s) :
    s.named filename = none ↔ ∀ fileid, ¬Named d filename fileid := by
  rw [FileStore.named_none]
  constructor
  · intro absent fileid named
    exact absent _ (represents.stored named) rfl
  · rintro absent f member rfl
    exact absent _ ((represents.entries f).mp member).1

theorem Represents.opened_some (represents : Represents g d s) (named : Named d filename fileid) :
    s.opened fileid = some (filename,⟨fileid,content d fileid.toNat⟩) :=
  (opened_iff represents.distinct fileid).mpr ⟨represents.stored named,rfl⟩

theorem Represents.opened_zero (represents : Represents g d s) : s.opened 0 = none := by
  rw [opened_none]
  intro f member zero
  obtain ⟨⟨_,_,_,used,same⟩,_⟩ := (represents.entries f).mp member
  omega

theorem free_entry_iff (md : Bytes) :
    (∃ k < tfsMaxFiles, entryInode md k = 0) ↔ before md tfsMaxFiles < tfsMaxFiles := by
  rw [before,Nat.count_eq_card_filter_range]
  constructor
  · rintro ⟨k,inside,free⟩
    have smaller : (Finset.range tfsMaxFiles).filter (Used md) ⊂ Finset.range tfsMaxFiles := by
      refine (Finset.filter_ssubset).mpr ⟨k,Finset.mem_range.mpr inside,?_⟩
      simpa [Used] using free
    simpa using Finset.card_lt_card smaller
  · intro few
    by_contra full
    have all : (Finset.range tfsMaxFiles).filter (Used md) = Finset.range tfsMaxFiles := by
      refine Finset.filter_true_of_mem fun k member => ?_
      intro free
      exact full ⟨k,Finset.mem_range.mp member,free⟩
    rw [all,Finset.card_range] at few
    exact absurd few (Nat.lt_irrefl _)

/-! ### The operations -/

theorem Added.named_iff (added : Added g filename d d' index inode bs) (formed : WellFormed g d) :
    Named d' name fileid ↔ (name = filename ∧ fileid = inode) ∨ Named d name fileid := by
  constructor
  · rintro ⟨k,inside,rfl,used,rfl⟩
    by_cases same : k = index
    · subst same
      exact .inl ⟨added.name,by rw [added.entry]⟩
    · obtain ⟨number,kept⟩ := added.entries k same
      exact .inr ⟨k,inside,kept.symm,by rwa [← number],by rw [number]⟩
  · rintro (⟨rfl,rfl⟩ | named)
    · exact added.named formed
    · exact named.create added

theorem Removed.named_iff (removed : Removed filename d d' index) (formed : WellFormed g d) :
    Named d' name fileid ↔ Named d name fileid ∧ name ≠ filename := by
  constructor
  · rintro ⟨k,inside,rfl,used,rfl⟩
    have apart : k ≠ index := by
      rintro rfl
      exact used removed.entry
    obtain ⟨number,kept⟩ := removed.entries k apart
    rw [number] at used
    refine ⟨⟨k,inside,kept.symm,used,by rw [number]⟩,?_⟩
    rw [kept]
    intro same
    exact apart (formed.distinct k index inside removed.slot used removed.used (same.trans removed.named.symm))
  · rintro ⟨named,different⟩
    exact named.remove removed different

theorem before_add (inside : index < tfsMaxFiles) (vacant : ¬Used md index) (taken : Used md' index)
    (others : ∀ k, k ≠ index → entryInode md' k = entryInode md k) :
    before md' tfsMaxFiles = before md tfsMaxFiles + 1 := by
  have larger : (Finset.range tfsMaxFiles).filter (Used md') = insert index ((Finset.range tfsMaxFiles).filter (Used md)) := by
    ext k
    by_cases same : k = index
    · subst same
      simp [inside,taken]
    · simp [same,Used,others k same]
  rw [before,before,Nat.count_eq_card_filter_range,Nat.count_eq_card_filter_range,larger,
    Finset.card_insert_of_notMem (by simpa using fun _ => by simpa using vacant)]

theorem Removed.allocated (removed : Removed filename d d' index) (formed : WellFormed g d) :
    Allocated (totalblocks g) (fileBlocks d index) (d' tfsAllocationBlock) (d tfsAllocationBlock) := by
  refine ⟨formed.held.once index,?_,?_⟩
  · intro b member
    refine ⟨(formed.inside index b member).2,?_⟩
    rw [removed.bits]
    simp [member]
  · intro b
    rw [removed.bits]
    by_cases member : b ∈ fileBlocks d index
    · simp [member,formed.held.inUse index b member]
    · simp [member]

theorem Removed.content_same (removed : Removed filename d d' index) (formed : WellFormed g d) (file : IsFile d f) :
    d' f = d f ∧ content d' f = content d f := by
  have intact := formed.intact file
  have kept : ∀ b ∈ f :: dataBlocks (d f), d' b = d b := by
    intro b member
    have low := (intact.inside b member).1
    exact removed.others b (by unfold tfsAllocationBlock; omega) (by unfold tfsDirectoryBlock; omega)
  have self := kept f List.mem_cons_self
  have data : ((dataBlocks (d f)).flatMap fun b => bytesAt (d' b) 0 tfsBlockSize) =
      (dataBlocks (d f)).flatMap fun b => bytesAt (d b) 0 tfsBlockSize :=
    List.flatMap_congr fun b member => by rw [kept b (List.mem_cons_of_mem f member)]
  exact ⟨self,by rw [content,self,data,content]⟩

theorem Represents.create (represents : Represents g d s) (created : Created g filename size d d' index inode bs)
    (zeroed : ∀ b ∈ bs, ∀ j < tfsBlockSize, d' b j = 0) (good : IsFilename filename) (nonneg : 0 ≤ size)
    (int : size < 2 ^ 31) :
    Represents g d' { s with files := (filename,⟨inode,List.replicate size.toNat 0⟩) :: s.files } := by
  have formed := represents.formed
  have added := created.added
  have zeros := created.content_new formed nonneg int zeroed
  have high := added.high formed List.mem_cons_self
  have entries : ∀ f, f ∈ (filename,⟨(inode : Int),List.replicate size.toNat 0⟩) :: s.files ↔
      Named d' f.1 f.2.fileid ∧ f.2.content = content d' f.2.fileid.toNat := by
    rintro ⟨name,fileid,bytes⟩
    rw [List.mem_cons,Added.named_iff added formed,represents.entries]
    dsimp only
    constructor
    · rintro (same | ⟨named,rfl⟩)
      · cases same
        exact ⟨.inl ⟨rfl,rfl⟩,zeros.symm⟩
      · obtain ⟨n,rfl,file⟩ := named.isFile
        exact ⟨.inr named,(added.content_other formed file).2.symm⟩
    · rintro ⟨⟨rfl,rfl⟩ | named,rfl⟩
      · exact .inl (by rw [Int.toNat_natCast,zeros])
      · obtain ⟨n,rfl,file⟩ := named.isFile
        exact .inr ⟨named,(added.content_other formed file).2⟩
  have fresh : (filename,⟨(inode : Int),List.replicate size.toNat 0⟩) ∉ s.files := by
    intro member
    obtain ⟨⟨k,inside,name,_⟩,_⟩ := (represents.entries _).mp member
    exact added.fresh k inside name
  have count : bs.length = blocksFor size.toNat := by
    have same := numblocksOf_eq nonneg int created.fits
    rw [created.count]
    unfold blocksFor
    omega
  refine ⟨created.wellFormed formed good nonneg int,represents.capacity,List.nodup_cons.mpr ⟨fresh,represents.once⟩,
    entries,?_,?_,?_⟩
  · intro f member
    obtain rfl | old := List.mem_cons.mp member
    · simp only [Int.toNat_natCast,List.length_replicate]
      rw [added.dataBlocks_new formed,count]
    · rw [← represents.blocks f old]
      obtain ⟨k,inside,_,used,same⟩ := ((represents.entries f).mp old).1
      have kept : d' (entryInode (d tfsDirectoryBlock) k) = d (entryInode (d tfsDirectoryBlock) k) := by
        refine added.kept formed (k := k) ?_
        rw [fileBlocks_used inside used]
        exact List.mem_cons_self
      rw [same,Int.toNat_natCast,kept]
  · have taken : Used (d' tfsDirectoryBlock) index := by
      rw [Used,added.entry]
      omega
    rw [before_add added.slot (by simpa [Used] using added.vacant) taken fun k other => (added.entries k other).1,
      represents.count,List.length_cons]
  · have freed := added.allocated.count
    have space := represents.space
    unfold Store.used at space ⊢
    simp only [List.map_cons,List.sum_cons,blocksOf,List.length_replicate,← count]
    rw [List.length_cons] at freed
    omega

theorem Represents.remove (represents : Represents g d s) (removed : Removed filename d d' index)
    (found : s.named filename = some f) : Represents g d' { s with files := s.files.erase f } := by
  have formed := represents.formed
  have distinct := represents.distinct
  obtain ⟨member,name⟩ := (FileStore.named_iff distinct filename).mp found
  have entries : ∀ h, h ∈ s.files.erase f ↔ Named d' h.1 h.2.fileid ∧ h.2.content = content d' h.2.fileid.toNat := by
    intro h
    rw [mem_erase_iff distinct,Removed.named_iff removed formed,represents.entries]
    constructor
    · rintro ⟨other,named,bytes⟩
      have different : h.1 ≠ filename := fun same =>
        other (distinct.names h ((represents.entries h).mpr ⟨named,bytes⟩) f member (same.trans name.symm))
      obtain ⟨n,same,file⟩ := named.isFile
      refine ⟨⟨named,different⟩,?_⟩
      rw [bytes,same,Int.toNat_natCast,(Removed.content_same removed formed file).2]
    · rintro ⟨⟨named,different⟩,bytes⟩
      obtain ⟨n,same,file⟩ := named.isFile
      rw [same,Int.toNat_natCast,(Removed.content_same removed formed file).2,← Int.toNat_natCast n,← same] at bytes
      refine ⟨?_,named,bytes⟩
      rintro rfl
      exact different name
  obtain ⟨sum,length⟩ := used_erase member
  obtain ⟨⟨k,inside,entry,used,fileid⟩,_⟩ := (represents.entries f).mp member
  have here : k = index :=
    formed.distinct k index inside removed.slot used removed.used (entry.trans (name.trans removed.named.symm))
  subst here
  refine ⟨removed.wellFormed formed,represents.capacity,represents.once.erase f,entries,?_,?_,?_⟩
  · intro h there
    have old := ((mem_erase_iff distinct).mp there).2
    rw [← represents.blocks h old]
    obtain ⟨n,same,file⟩ := ((represents.entries h).mp old).1.isFile
    rw [same,Int.toNat_natCast,(Removed.content_same removed formed file).1]
  · have flipped : before (d tfsDirectoryBlock) tfsMaxFiles = before (d' tfsDirectoryBlock) tfsMaxFiles + 1 :=
      before_add inside (by simp [Used,removed.entry]) used fun l other => (removed.entries l other).1.symm
    have count := represents.count
    dsimp only
    omega
  · have freed := (Removed.allocated removed formed).count
    have blocks := represents.blocks f member
    have space := represents.space
    rw [fileid,Int.toNat_natCast] at blocks
    rw [fileBlocks_used inside used,List.length_cons,blocks] at freed
    unfold blocksOf at sum
    dsimp only at space ⊢
    omega

theorem Represents.write {s : Store} (represents : Represents g d s) (found : s.opened fileid = some f)
    (directory : d' tfsDirectoryBlock = d tfsDirectoryBlock) (allocation : d' tfsAllocationBlock = d tfsAllocationBlock)
    (formed : WellFormed g d') (inodes : ∀ n, IsFile d n → d' n = d n)
    (others : ∀ n : Nat, IsFile d n → (n : Int) ≠ fileid → content d' n = content d n)
    (length : bytes.length = f.2.content.length) (replaced : content d' fileid.toNat = bytes) :
    Represents g d' (s.replace f (f.1,⟨fileid,bytes⟩)) := by
  have distinct := represents.distinct
  obtain ⟨member,rfl⟩ := (opened_iff distinct fileid).mp found
  have named_iff : ∀ {name id}, Named d' name id ↔ Named d name id :=
    ⟨fun named => named.directory directory.symm,fun named => named.directory directory⟩
  have mine := ((represents.entries f).mp member).1
  have apart : ∀ h ∈ s.files, h ≠ f → h.2.fileid ≠ f.2.fileid :=
    fun h there other same => other (distinct.fileids h there f member same)
  have entries : ∀ h, h ∈ (f.1,⟨f.2.fileid,bytes⟩) :: s.files.erase f ↔
      Named d' h.1 h.2.fileid ∧ h.2.content = content d' h.2.fileid.toNat := by
    intro h
    rw [List.mem_cons,mem_erase_iff distinct,named_iff]
    constructor
    · rintro (rfl | ⟨other,there⟩)
      · exact ⟨mine,replaced.symm⟩
      · obtain ⟨named,same⟩ := (represents.entries h).mp there
        obtain ⟨n,number,file⟩ := named.isFile
        refine ⟨named,?_⟩
        rw [same,number,Int.toNat_natCast,others n file (number ▸ apart h there other)]
    · rintro ⟨named,same⟩
      by_cases here : h.2.fileid = f.2.fileid
      · refine .inl ?_
        obtain ⟨name,id,_⟩ := h
        dsimp only at here same named
        subst here
        rw [Named.owner represents.formed named mine,same,replaced]
      · obtain ⟨n,number,file⟩ := named.isFile
        rw [number,Int.toNat_natCast,others n file (number ▸ here),← Int.toNat_natCast n,← number] at same
        refine .inr ⟨?_,(represents.entries h).mpr ⟨named,same⟩⟩
        rintro rfl
        exact here rfl
  obtain ⟨sum,count⟩ := used_erase member
  have kept : ∀ h ∈ s.files, (dataBlocks (d' h.2.fileid.toNat)).length = blocksFor h.2.content.length := by
    intro h there
    obtain ⟨n,number,file⟩ := ((represents.entries h).mp there).1.isFile
    rw [← represents.blocks h there,number,Int.toNat_natCast,inodes n file]
  refine ⟨formed,represents.capacity,List.nodup_cons.mpr ⟨?_,represents.once.erase f⟩,entries,?_,?_,?_⟩
  · intro there
    obtain ⟨other,old⟩ := (mem_erase_iff distinct).mp there
    exact apart _ old other rfl
  · intro h there
    obtain rfl | there := List.mem_cons.mp there
    · exact (kept f member).trans (by rw [length])
    · exact kept h ((mem_erase_iff distinct).mp there).2
  · rw [directory,represents.count]
    unfold Store.replace
    rw [List.length_cons,count]
  · have space := represents.space
    rw [allocation]
    unfold Store.replace Store.used blocksOf at *
    simp only [List.map_cons,List.sum_cons,length] at sum space ⊢
    omega

/-! ### The answers -/

theorem Represents.open_cases (represents : Represents g d s) (handle : Named d filename fileid ∨ fileid = 0) :
    (∃ n : Nat, ∃ bytes, fileid = n ∧ IsFile d n ∧ s.opened fileid = some (filename,⟨fileid,bytes⟩) ∧
      bytes = content d n ∧ bytes.length = filesize (d n)) ∨ (fileid = 0 ∧ s.opened fileid = none) := by
  rcases handle with named | rfl
  · obtain ⟨n,rfl,file⟩ := named.isFile
    refine .inl ⟨n,_,rfl,file,represents.opened_some named,by rw [Int.toNat_natCast],?_⟩
    rw [Int.toNat_natCast,content_eq (represents.formed.intact file).enough]
    simp
  · exact .inr ⟨rfl,represents.opened_zero⟩

theorem Represents.room_iff {s : Store} (represents : Represents g d s) (good : IsFilename filename) (nonneg : 0 ≤ size) :
    s.HasRoom filename size.toNat ↔ Room g d filename size := by
  have free := free_entry_iff (d tfsDirectoryBlock)
  have fresh : s.named filename = none ↔ ∀ k < tfsMaxFiles, entryName (d tfsDirectoryBlock) k ≠ filename := by
    rw [represents.named_none]
    constructor
    · intro absent k inside name
      have used := represents.formed.used inside (name ▸ good.nonempty)
      exact absent _ ⟨k,inside,name,used,rfl⟩
    · rintro absent fileid ⟨k,inside,name,_⟩
      exact absent k inside name
  have space := represents.space
  rw [represents.count] at free
  have blocks : ((blocksFor size.toNat : Nat) : Int) = (size + 511) / 512 := by
    unfold blocksFor
    omega
  constructor
  · rintro ⟨new,entry,small,enough⟩
    exact ⟨fresh.mp new,free.mpr entry,by omega,by omega⟩
  · rintro ⟨new,entry,small,enough⟩
    exact ⟨fresh.mpr new,free.mp entry,by omega,by omega⟩

/-- What the disk of a new volume of `g.blocks` blocks holds. -/
def emptyStore (g : Gbd) : Store := ⟨totalblocks g - 3,[]⟩

/-- A call and what it answers: its value, and what a read leaves in the caller's buffer. -/
def observe (g : Gbd) (call : Call) (v : Volume) : List Event :=
  match call with
  | .create filename size =>
    [.create filename size (tfsOpen g filename (tfsCreate g filename size v.machine).2).1
      (tfsCreate g filename size v.machine).1]
  | .remove filename => [.remove filename (tfsRemove g filename v.machine).1]
  | .open filename => [.open filename (tfsOpen g filename v.machine).1]
  | .read fileid buffer bufsize offset =>
    [.read fileid bufsize offset (tfsRead g fileid buffer bufsize offset v.machine).1
      (bytesAt (tfsRead g fileid buffer bufsize offset v.machine).2.user buffer
        (tfsRead g fileid buffer bufsize offset v.machine).1.toNat)]
  | .write fileid data buffer datasize offset =>
    [.write fileid (bytesAt data buffer datasize.toNat) offset
      (tfsWrite g fileid buffer datasize offset { v.machine with user := data }).1]

section Answers
variable {g : Gbd} {m : Machine} {s : Store} (reliable : Reliable g) (represents : Represents g m.disk s)
include reliable represents

theorem open_answer (clean : 0 ∉ filename) : storeStep (.open filename (tfsOpen g filename m).1) s = some s := by
  have formed := represents.formed
  have room := formed.size
  have free := free_entry_iff (m.disk tfsDirectoryBlock)
  rw [represents.count] at free
  rw [tfsOpen,readBlock_ok reliable (show tfsDirectoryBlock < g.blocks by unfold tfsDirectoryBlock; omega)]
  simp only [afterRead_self]
  cases found : findEntry (m.disk tfsDirectoryBlock) filename with
  | some k =>
    obtain ⟨inside,name⟩ := findEntry_some formed clean found
    by_cases used : entryInode (m.disk tfsDirectoryBlock) k = 0
    · have empty : filename = [] := name.symm.trans (formed.unnamed k inside used)
      have absent : s.named filename = none := by
        rw [represents.named_none]
        rintro fileid ⟨l,small,same,taken,_⟩
        exact formed.named l small taken (same.trans empty)
      have answer : (if filename = [] ∧ s.files.length < tfsMaxFiles then (0 : Int) else vfsNotFound) = 0 :=
        if_pos ⟨empty,free.mp ⟨k,inside,used⟩⟩
      simp only [storeStep,absent]
      rw [answer]
      exact if_pos (by rw [used]; rfl)
    · have small := (formed.inode_inside inside used).2
      have total := (totalblocks_le g).2
      have present := represents.named_some ⟨k,inside,name,used,rfl⟩
      simp only [storeStep,present]
      rw [if_pos (toS32_small (by omega))]
  | none =>
    have missing := findEntry_none formed clean found
    have absent : s.named filename = none := by
      rw [represents.named_none]
      rintro fileid ⟨k,inside,name,_⟩
      exact missing k inside name
    have full : ¬(filename = [] ∧ s.files.length < tfsMaxFiles) := by
      rintro ⟨rfl,few⟩
      obtain ⟨k,inside,unused⟩ := free.mpr few
      exact missing k inside (formed.unnamed k inside unused)
    simp only [storeStep,absent]
    rw [if_neg full,if_pos rfl]

theorem remove_answer (clean : 0 ∉ filename) (nonempty : filename ≠ []) :
    ∃ t, storeStep (.remove filename (tfsRemove g filename m).1) s = some t ∧
      Represents g (tfsRemove g filename m).2.disk t := by
  have formed := represents.formed
  obtain ⟨same,⟨i,_,failed⟩ | ⟨answer,missing⟩⟩ | ⟨index,z,writes,_,freed⟩ := tfsRemove_cases formed clean nonempty (m := m)
  · rw [reliable] at failed
    contradiction
  · have absent : s.named filename = none := by
      rw [represents.named_none]
      rintro fileid ⟨k,inside,name,_⟩
      exact missing k inside name
    refine ⟨s,?_,by rw [same]; exact represents⟩
    simp only [storeStep,absent,answer,if_true]
  · have room := formed.size
    have removed := freed.removed
    have present := represents.named_some ⟨index,removed.slot,removed.named,removed.used,rfl⟩
    rw [writes,writeBlock_ok reliable (show tfsDirectoryBlock < g.blocks by unfold tfsDirectoryBlock; omega)]
    refine ⟨_,?_,represents.remove removed present⟩
    simp only [storeStep,present,if_true]

theorem create_answer (good : IsFilename filename) (nonneg : 0 ≤ size) (int : size < 2 ^ 31) :
    ∃ t, storeStep (.create filename size (tfsOpen g filename (tfsCreate g filename size m).2).1
        (tfsCreate g filename size m).1) s = some t ∧ Represents g (tfsCreate g filename size m).2.disk t := by
  have formed := represents.formed
  obtain ⟨ok,_,refused⟩ := tfs_create_exact reliable formed good nonneg int (m := m)
  by_cases room : Room g m.disk filename size
  · obtain ⟨failed,_⟩ | ⟨index,inode,bs,answer,created,zeroed⟩ := tfsCreate_effect reliable formed good size (m := m)
    · rw [ok.mpr room] at failed
      contradiction
    · have after := represents.create created zeroed good nonneg int
      have named := created.added.named formed
      have fileid := named.tfsOpen reliable after.formed good
      have high := created.added.high formed List.mem_cons_self
      have fresh : s.opened (inode : Int) = none := by
        rw [opened_none]
        intro f member same
        have equal := after.distinct.fileids f (List.mem_cons_of_mem _ member) _ List.mem_cons_self same
        exact (List.nodup_cons.mp after.once).1 (equal ▸ member)
      refine ⟨_,?_,after⟩
      simp only [storeStep]
      rw [if_pos ((represents.room_iff good nonneg).mpr room),fileid,if_pos ⟨answer,by omega,fresh⟩]
  · obtain ⟨answer,same⟩ := refused room
    refine ⟨s,?_,by rw [same]; exact represents⟩
    simp only [storeStep]
    rw [if_neg fun has => room ((represents.room_iff good nonneg).mp has),if_pos answer]

theorem read_answer (handle : Named m.disk filename fileid ∨ fileid = 0) (nonneg : 0 ≤ n) (buffer : Nat) (offset : Int) :
    storeStep (.read fileid n offset (tfsRead g fileid buffer n offset m).1
      (bytesAt (tfsRead g fileid buffer n offset m).2.user buffer (tfsRead g fileid buffer n offset m).1.toNat)) s =
      some s := by
  obtain ⟨k,bytes,rfl,file,opened,rfl,length⟩ | ⟨rfl,unopened⟩ := represents.open_cases handle
  · have formed := represents.formed
    simp only [storeStep,opened,readAt]
    by_cases inside : 0 ≤ offset ∧ offset ≤ filesize (m.disk k)
    · have reads := tfsRead_content reliable formed file buffer nonneg inside.1 inside.2
      have returned := reads.returned
      rw [reads.stored,length,if_pos inside,← returned,if_pos rfl]
    · obtain ⟨refused,_⟩ := tfsRead_outside reliable formed file buffer n offset (by omega)
      rw [refused,length,if_neg inside]
      exact if_pos rfl
  · have refused : (tfsRead g 0 buffer n offset m).1 = vfsError := by
      rw [tfsRead,if_pos (by omega)]
    simp only [storeStep,unopened]
    rw [refused]
    exact if_pos ⟨rfl,rfl⟩

theorem write_answer (handle : Named m.disk filename fileid ∨ fileid = 0) (nonneg : 0 ≤ n) (buffer : Nat) (offset : Int) :
    ∃ t, storeStep (.write fileid (bytesAt m.user buffer n.toNat) offset (tfsWrite g fileid buffer n offset m).1) s =
      some t ∧ Represents g (tfsWrite g fileid buffer n offset m).2.disk t := by
  obtain ⟨k,bytes,rfl,file,opened,rfl,length⟩ | ⟨rfl,unopened⟩ := represents.open_cases handle
  · have formed := represents.formed
    have size : (bytesAt m.user buffer n.toNat).length = n.toNat := by simp [bytesAt]
    obtain ⟨kept,directory,inodes⟩ := tfsWrite_keeps reliable formed file buffer nonneg offset
    simp only [storeStep,opened]
    by_cases inside : 0 ≤ offset ∧ offset ≤ filesize (m.disk k)
    · have writes := tfsWrite_content reliable formed file buffer nonneg inside.1 inside.2
      have returned := writes.returned
      have answer : writeAt (content m.disk k) (bytesAt m.user buffer n.toNat) offset =
          ((tfsWrite g k buffer n offset m).1,content (tfsWrite g k buffer n offset m).2.disk k) := by
        have least : min ((n.toNat : Nat) : Int) (filesize (m.disk k) - offset) = (tfsWrite g k buffer n offset m).1 := by
          rw [returned]
          omega
        have prefix_ : (bytesAt m.user buffer n.toNat).take (tfsWrite g k buffer n offset m).1.toNat =
            bytesAt m.user buffer (tfsWrite g k buffer n offset m).1.toNat := by
          unfold bytesAt
          rw [← List.map_take,List.take_range,Nat.min_eq_left (by omega)]
        rw [writeAt,length,size,if_pos inside,writes.replaced]
        dsimp only
        rw [least,prefix_]
      refine ⟨_,by rw [answer]; exact if_pos rfl,?_⟩
      refine represents.write opened directory writes.allocation kept inodes ?_ ?_ ?_
      · intro other there different
        exact writes.others other there fun same => different (by rw [same])
      · rw [← writeAt_length (content m.disk k) (bytesAt m.user buffer n.toNat) offset,answer]
      · rw [Int.toNat_natCast]
    · obtain ⟨refused,same⟩ := tfsWrite_outside reliable formed file buffer n offset (by omega)
      have answer : writeAt (content m.disk k) (bytesAt m.user buffer n.toNat) offset = (vfsError,content m.disk k) := by
        rw [writeAt,length,if_neg inside]
      refine ⟨_,by rw [answer,refused]; exact if_pos rfl,?_⟩
      rw [same]
      refine represents.write opened rfl rfl formed (fun _ _ => rfl) (fun _ _ _ => rfl) rfl ?_
      rw [Int.toNat_natCast]
  · have refused : tfsWrite g 0 buffer n offset m = (vfsError,m) := by
      rw [tfsWrite,if_pos (by omega)]
    refine ⟨s,?_,by rw [refused]; exact represents⟩
    simp only [storeStep,unopened]
    rw [refused]
    exact if_pos rfl

end Answers

/-! ### Runs -/

/-- The volume is the store, and its handles can be used. -/
def Simulates (g : Gbd) (v : Volume) (s : Store) : Prop := Represents g v.machine.disk s ∧ Usable g v

/-- Each call answers as the store does. -/
theorem Simulates.step (reliable : Reliable g) (simulates : Simulates g v s) (permitted : Permitted call v)
    (next : volumeStep g call v = some w) :
    ∃ t, run storeStep (observe g call v) s = some t ∧ Simulates g w t := by
  obtain ⟨represents,usable⟩ := simulates
  have usable' := usable.step reliable permitted next
  injection next with next
  subst next
  have single : ∀ {e t}, storeStep e s = some t → run storeStep [e] s = some t := by
    intro e t answered
    rw [run_cons,answered]
    rfl
  cases call with
  | create filename size =>
    obtain ⟨good,low,int⟩ := permitted
    obtain ⟨t,answered,after⟩ := create_answer reliable represents good low int
    exact ⟨t,single answered,after,usable'⟩
  | remove filename =>
    obtain ⟨clean,nonempty⟩ := permitted
    obtain ⟨t,answered,after⟩ := remove_answer reliable represents clean nonempty
    exact ⟨t,single answered,after,usable'⟩
  | «open» filename =>
    refine ⟨s,single (open_answer reliable represents permitted),?_,usable'⟩
    unfold perform Volume.opened
    rwa [tfsOpen_disk]
  | read fileid buffer bufsize offset =>
    obtain ⟨handle,nonneg⟩ := permitted
    obtain ⟨h,member,rfl⟩ := List.mem_map.mp handle
    refine ⟨s,single (read_answer reliable represents (usable.handles h member) nonneg buffer offset),?_,usable'⟩
    unfold perform
    rwa [tfsRead_disk]
  | write fileid data buffer datasize offset =>
    obtain ⟨handle,nonneg⟩ := permitted
    obtain ⟨h,member,rfl⟩ := List.mem_map.mp handle
    obtain ⟨t,answered,after⟩ := write_answer (m := { v.machine with user := data }) reliable represents
      (usable.handles h member) nonneg buffer offset
    exact ⟨t,single answered,after,usable'⟩

theorem countAllocated_eq (bat : Bytes) (left i : Nat) (allocated : Int) :
    countAllocated bat left i allocated = allocated + ((List.range' i left).countP fun b => bit bat b : Nat) := by
  induction left generalizing i allocated with
  | zero => simp [countAllocated]
  | succ left ih =>
    rw [countAllocated,ih,List.range'_succ,List.countP_cons,bitmapGet_eq]
    cases bit bat i
    · simp
    · simp only [if_true]
      push_cast
      omega

/-- `tfs_getfree` returns the room of the store in bytes. -/
theorem Represents.getfree {m : Machine} (represents : Represents g m.disk s) (reliable : Reliable g) :
    (tfsGetfree g m).1 = 512 * (s.capacity - s.used) := by
  have room := represents.formed.size
  have total := (totalblocks_le g).2
  have space := represents.space
  have split : ((List.range (totalblocks g)).countP fun b => bit (m.disk tfsAllocationBlock) b) +
      (freeIn (totalblocks g) (m.disk tfsAllocationBlock)).card = totalblocks g := by
    have counted := List.length_eq_countP_add_countP (fun b => bit (m.disk tfsAllocationBlock) b)
      (l := List.range (totalblocks g))
    have free : (freeIn (totalblocks g) (m.disk tfsAllocationBlock)).card =
        (List.range (totalblocks g)).countP fun b => decide ¬bit (m.disk tfsAllocationBlock) b = true := by
      have listed : freeIn (totalblocks g) (m.disk tfsAllocationBlock) =
          ((List.range (totalblocks g)).filter fun b => decide ¬bit (m.disk tfsAllocationBlock) b = true).toFinset := by
        ext b
        simp [freeIn]
      rw [listed,List.toFinset_card_of_nodup (List.nodup_range.filter _),List.countP_eq_length_filter]
    rw [List.length_range] at counted
    omega
  rw [tfsGetfree,readBlock_ok reliable (by unfold tfsAllocationBlock; omega)]
  simp only [afterRead_self]
  rw [countAllocated_eq,← List.range_eq_range']
  rw [show ((totalblocks g : Int) - (0 + ((List.range (totalblocks g)).countP fun b => bit (m.disk tfsAllocationBlock) b : Nat))) *
      tfsBlockSize = 512 * (s.capacity - s.used) by unfold tfsBlockSize; omega]
  exact wrap_small (by omega) (by omega)

theorem emptyStore_represents (created : tfstoolCreatevol g.blocks volumename = some d) : Represents g d (emptyStore g) := by
  have formed := tfstoolCreatevol_wellFormed created
  have unused : ∀ k, entryInode (d tfsDirectoryBlock) k = 0 := by
    unfold tfstoolCreatevol at created
    split at created
    · contradiction
    · injection created with disk
      intro k
      rw [← disk]
      exact word_zero fun _ _ => rfl
  have count : before (d tfsDirectoryBlock) tfsMaxFiles = 0 := by
    rw [before,Nat.count_eq_card_filter_range]
    simp [Used,unused]
  have bits : ∀ b, b < totalblocks g → (bit (d tfsAllocationBlock) b = false ↔ 3 ≤ b) := by
    intro b small
    constructor
    · intro free
      by_contra low
      rw [formed.system b (by omega)] at free
      contradiction
    · intro high
      by_contra taken
      obtain ⟨k,member⟩ := formed.owned b high small (by simpa using taken)
      rw [fileBlocks_free (unused k)] at member
      contradiction
  have free : freeIn (totalblocks g) (d tfsAllocationBlock) = Finset.Ico 3 (totalblocks g) := by
    ext b
    simp only [freeIn,Finset.mem_filter,Finset.mem_range,Finset.mem_Ico]
    constructor
    · rintro ⟨small,clear⟩
      exact ⟨(bits b small).mp clear,small⟩
    · rintro ⟨high,small⟩
      exact ⟨small,(bits b small).mpr high⟩
  refine ⟨formed,rfl,List.nodup_nil,?_,by simp [emptyStore],count,?_⟩
  · intro f
    constructor
    · intro member
      contradiction
    · rintro ⟨⟨k,_,_,used,_⟩,_⟩
      exact absurd (unused k) used
  · rw [free,Nat.card_Ico]
    rfl

/-- From a new volume on, whatever the driver is asked, it answers as the store does; in every
state the store lists the files of the directory with their contents, `tfs_filecount` returns
how many there are and `tfs_getfree` the room that is left. -/
theorem tfs_refines_store (reliable : Reliable g) (created : tfstoolCreatevol g.blocks volumename = some m.disk)
    (meets : Meets (volumeStep g) Permitted calls ⟨m,[]⟩) (ran : run (volumeStep g) calls ⟨m,[]⟩ = some v) :
    ∃ s, run storeStep (traceOf (volumeStep g) (observe g) calls ⟨m,[]⟩) (emptyStore g) = some s ∧
      (∀ f, f ∈ s.files ↔ Named v.machine.disk f.1 f.2.fileid ∧ f.2.content = content v.machine.disk f.2.fileid.toNat) ∧
      (tfsFilecount g v.machine).1 = s.files.length ∧ (tfsGetfree g v.machine).1 = 512 * (s.capacity - s.used) := by
  have empty := emptyStore_represents created
  have initial : Simulates g ⟨m,[]⟩ (emptyStore g) := ⟨empty,empty.formed,by simp⟩
  obtain ⟨s,traced,represents,_⟩ := run_refines
    (fun call v w s simulates permitted next => Simulates.step reliable simulates permitted next) initial meets ran
  refine ⟨s,traced,represents.entries,?_,represents.getfree reliable⟩
  rw [tfsFilecount_eq reliable represents.formed,represents.count]

/-- A file is created, opened, written and removed. -/
theorem tfs_refines_store_sample : ∃ v s, run (volumeStep sampleGbd) sampleCalls sampleVolume = some v ∧
    run storeStep (traceOf (volumeStep sampleGbd) (observe sampleGbd) sampleCalls sampleVolume) (emptyStore sampleGbd) =
      some s ∧ (tfsFilecount sampleGbd v.machine).1 = s.files.length := by
  have created : tfstoolCreatevol sampleGbd.blocks (fun _ => 0) = some sampleMachine.disk := rfl
  obtain ⟨s,traced,_,count,_⟩ := tfs_refines_store (fun _ => rfl) created sampleCalls_permitted rfl
  exact ⟨_,s,rfl,traced,count⟩

end Buenos.Fs.FileStore
