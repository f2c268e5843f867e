import Buenos.Proc.ElfSizes
import Buenos.Proc.LoaderAccess
import Buenos.Vm.AddressSpace
import Buenos.Vm.Pagepool
import Buenos.Fs.TfsRun

/-! `process_start` with the memory it fills. The executable is a file of a TFS volume, and the
TLB is taken to hold what the page table says. -/
namespace Buenos.Proc.Image

open Buenos.Foundation Buenos.Vm
open Buenos.Proc.Access (imagePages Fits segment_page)
open Buenos.Proc.Elf (elfParseHeader totalPages)
open Buenos.Fs.Tfs (Gbd WellFormed IsFile tfsRead tfsWrite bytesAt content Reliable tfsWrite_effect sampleGbd
  sampleFile sampleFile_wellFormed)

/-! ### The statements -/

/-- What the thread works on; `memory` is the physical memory and `seekPosition` that of the
executable's open file. -/
structure Loading where
  pool : Pagepool
  pagetable : Pagetable
  memory : Bytes
  volume : Fs.Tfs.Machine
  seekPosition : Int

def takePage (s : Loading) : Option (Nat × Loading) :=
  match pagepoolGetPhysPage s.pool with
  | none => none
  | some (physPage, pool) => if physPage = 0 then none else some (physPage, { s with pool := pool })

/-- `vm_create_pagetable` on a page that held these contents. -/
def createPagetable (tid : Nat) (page : Nat → TlbEntry) (s : Loading) : Option Loading :=
  (takePage s).map fun (_, s) => { s with pagetable := vmCreatePagetable tid page }

def mapPage (vaddr : Nat) (s : Loading) : Option Loading :=
  (takePage s).bind fun (physPage, s) =>
    (vmMap s.pagetable physPage vaddr true).map fun pagetable => { s with pagetable := pagetable }

def store (vaddr : Nat) (bytes : List UInt8) (s : Loading) : Option Loading :=
  (storeBytes s.pagetable vaddr bytes s.memory).map fun memory => { s with memory := memory }

/-- `memoryset((void *)vaddr, 0, pages*PAGE_SIZE)`; the size is an `int`. -/
def zeroPages (vaddr pages : Nat) (s : Loading) : Option Loading :=
  store vaddr (List.replicate (toS32 (pages * pageSize % 2 ^ 32)).toNat 0) s

def vfsSeek (seekPosition : Int) (s : Loading) : Option Loading :=
  if seekPosition < 0 then none else some { s with seekPosition := seekPosition }

variable (g : Gbd) (fileid : Nat)

/-- What a read that fails in the middle has stored is left out: its caller panics. -/
def vfsRead (vaddr : Nat) (bufsize : Int) (s : Loading) : Option (Int × Loading) :=
  if 0 ≤ bufsize ∧ vaddr ≠ 0 then
    let (ret, volume) := tfsRead g fileid vaddr bufsize s.seekPosition s.volume
    (store vaddr (bytesAt volume.user vaddr ret.toNat) s).map fun s =>
      (ret, { s with
        volume := volume
        seekPosition := if 0 < ret then s.seekPosition + ret else s.seekPosition })
  else none

def copySegment (segment : Segment) (s : Loading) : Option Loading :=
  if 0 < segment.size then
    if pageSize ≤ segment.vaddr then
      (vfsSeek (toS32 segment.location) s).bind fun s =>
        (vfsRead g fileid segment.vaddr (toS32 segment.size) s).bind fun (ret, s) =>
          if ret = toS32 segment.size then some s else none
    else none
  else some s

def protectPage (vaddr : Nat) (s : Loading) : Option Loading :=
  (vmSetDirty s.pagetable vaddr false).map fun pagetable => { s with pagetable := pagetable }

def fillImage (elf : ElfInfo) (s : Loading) : Option Loading :=
  (zeroPages elf.roVaddr elf.roPages s).bind fun s =>
  (zeroPages elf.rwVaddr elf.rwPages s).bind fun s =>
  (zeroPages stackBottom configUserlandStackSize s).bind fun s =>
  (copySegment g fileid (elf.segment false) s).bind fun s =>
  copySegment g fileid (elf.segment true) s

def loadImage (elf : ElfInfo) (s : Loading) : Option Loading :=
  (run mapPage (imagePages elf) s).bind fun s =>
  (fillImage g fileid elf s).bind fun s =>
  run protectPage (segmentPages elf.roVaddr elf.roPages) s

/-- `_tlb_get_maxindex`, from the register `Config1`. -/
def tlbGetMaxindex (config1 : Nat) : Nat := config1 / 2 ^ 25 % 2 ^ 6

def mipsRegisterSp : Nat := 26

structure Context where
  cpuRegs : Nat → Nat
  pc : Nat

def userContext (elf : ElfInfo) : Context :=
  ⟨Function.update (fun _ => 0) mipsRegisterSp userlandStackTop,elf.entryPoint⟩

theorem content_small (d : Fs.Tfs.Disk) (fileid : Nat) : (content d fileid).length < 2 ^ 31 := by
  have blocks : (Fs.Tfs.dataBlocks (d fileid)).length ≤ Fs.Tfs.tfsBlocksMax := by
    rw [Fs.Tfs.dataBlocks]
    apply (List.takeWhile_prefix _).length_le.trans
    rw [List.length_map,List.length_range]
  rw [content,List.length_take,Fs.Tfs.flatMap_bytesAt d _ (by decide),List.length_map,List.length_range]
  apply (Nat.min_le_right _ _).trans_lt
  unfold Fs.Tfs.tfsBlocksMax at blocks
  unfold Fs.Tfs.tfsBlockSize
  omega

/-- Up to the call of `thread_goto_userland`, with the context it is given. `vfs_open` has
returned the file, and `none` is a panic or a TLB exception. -/
def processStart (config1 tid : Nat) (page : Nat → TlbEntry) (s : Loading) : Option (Context × Loading) :=
  (createPagetable tid page s).bind fun s =>
    match elfParseHeader ⟨content s.volume.disk fileid,0,content_small s.volume.disk fileid⟩ with
    | some (some elf) =>
      if pageSize ≤ elf.entryPoint ∧ totalPages elf ≤ tlbGetMaxindex config1 + 1 then
        (loadImage g fileid elf s).map fun s => (userContext elf,s)
      else none
    | _ => none

/-! ### Mapping -/

section Mapping
variable {total reserved : Nat} {s t : Loading} {vaddr : Nat}

theorem takePage_fresh {out : List Nat} {physPage : Nat} (positive : 1 ≤ reserved)
    (invariant : PoolInvariant total reserved ⟨s.pool,out⟩) (taken : takePage s = some (physPage,t)) :
    (t.pagetable = s.pagetable ∧ t.memory = s.memory ∧ t.volume = s.volume) ∧ physPage / pageSize ∉ out ∧
      PoolInvariant total reserved ⟨t.pool,physPage / pageSize :: out⟩ := by
  unfold takePage at taken
  split at taken
  · contradiction
  next addr pool got =>
  split at taken
  · contradiction
  next present =>
  cases taken
  obtain ⟨_,_,_,fresh⟩ := invariant.got positive got present
  have next := poolStep_invariant positive invariant (by rintro physAddr ⟨⟩)
    (show poolStep .get ⟨s.pool,out⟩ = _ by rw [poolStep,got]; rfl)
  simp only [if_neg present] at next
  exact ⟨⟨rfl,rfl,rfl⟩,fresh,next⟩

theorem vmMap_unmapped {pt pt' : Pagetable} {physaddr : Nat} {dirty : Bool} (formed : pt.WellFormed)
    (done : vmMap pt physaddr vaddr dirty = some pt') (half : Half) : ¬pt.Maps vaddr half := by
  rintro ⟨i,inside,named,rfl,valid⟩
  cases vmMap_mapped done with
  | paired j small called invalid =>
    obtain rfl := formed.once i j inside small (named.trans called.symm)
    rw [invalid] at valid
    contradiction
  | appended fresh => exact fresh i inside named

/-- These pages are mapped, to frames of their own. -/
structure Laid (total reserved : Nat) (pages : List Nat) (s : Loading) : Prop where
  formed : s.pagetable.WellFormed
  mapped : ∀ vaddr, (∃ half, s.pagetable.Maps vaddr half) ↔ vaddr / pageSize ∈ pages.map (· / pageSize)
  writable : ∀ vaddr half, s.pagetable.Maps vaddr half → half.d = true
  apart : s.pagetable.Apart
  distinct : (pages.map (· / pageSize)).Nodup
  frames : ∃ out, PoolInvariant total reserved ⟨s.pool,out⟩ ∧ ∀ vaddr half, s.pagetable.Maps vaddr half → half.pfn ∈ out

theorem createPagetable_laid {out : List Nat} {tid : Nat} {page : Nat → TlbEntry} (positive : 1 ≤ reserved)
    (invariant : PoolInvariant total reserved ⟨s.pool,out⟩) (done : createPagetable tid page s = some t) :
    Laid total reserved [] t ∧ t.memory = s.memory ∧ t.volume = s.volume := by
  obtain ⟨⟨physPage,middle⟩,taken,rfl⟩ := Option.map_eq_some_iff.mp done
  obtain ⟨⟨_,memory,volume⟩,_,pool⟩ := takePage_fresh positive invariant taken
  have none : ∀ vaddr half, ¬(vmCreatePagetable tid page).Maps vaddr half := by
    rintro vaddr half ⟨i,inside,_⟩
    exact Nat.not_lt_zero i inside
  refine ⟨⟨vmCreatePagetable_wellFormed tid page,?_,?_,?_,List.nodup_nil,_,pool,?_⟩,memory,volume⟩
  · intro vaddr
    exact iff_of_false (fun ⟨half,maps⟩ => none vaddr half maps) List.not_mem_nil
  · exact fun vaddr half maps => absurd maps (none vaddr half)
  · exact fun vaddr other half half' maps => absurd maps (none vaddr half)
  · exact fun vaddr half maps => absurd maps (none vaddr half)

theorem Laid.mapPage {pages : List Nat} (laid : Laid total reserved pages s) (positive : 1 ≤ reserved)
    (done : mapPage vaddr s = some t) :
    Laid total reserved (pages ++ [vaddr]) t ∧ t.memory = s.memory ∧ t.volume = s.volume := by
  obtain ⟨⟨physPage,middle⟩,taken,rest⟩ := Option.bind_eq_some_iff.mp done
  obtain ⟨pagetable,added,rfl⟩ := Option.map_eq_some_iff.mp rest
  obtain ⟨out,invariant,held⟩ := laid.frames
  obtain ⟨⟨same,memory,volume⟩,fresh,pool⟩ := takePage_fresh positive invariant taken
  simp only [same] at added
  have maps := vmMap_maps laid.formed added
  have unmapped := vmMap_unmapped laid.formed added
  have new : ∀ other half, pagetable.Maps other half → other / pageSize ≠ vaddr / pageSize →
      half.pfn ≠ physPage / pageSize := by
    intro other half there page frame
    obtain ⟨here,_⟩ | ⟨_,old⟩ := (maps other half).mp there
    · exact page here
    · exact fresh (frame ▸ held other half old)
  have mine : ∀ other half, pagetable.Maps other half → other / pageSize = vaddr / pageSize →
      half.pfn = physPage / pageSize := by
    intro other half there page
    obtain ⟨_,rfl⟩ | ⟨other,_⟩ := (maps other half).mp there
    · rfl
    · exact absurd page other
  refine ⟨⟨laid.formed.vmMap added,?_,?_,?_,?_,_,pool,?_⟩,memory,volume⟩
  · intro other
    rw [List.map_append,List.mem_append,List.map_singleton,List.mem_singleton,← laid.mapped other]
    simp only [maps]
    constructor
    · rintro ⟨half,⟨page,_⟩ | ⟨_,old⟩⟩
      · exact .inr page
      · exact .inl ⟨half,old⟩
    · rintro (⟨half,old⟩ | page)
      · refine ⟨half,.inr ⟨fun page => unmapped half (old.page page.symm),old⟩⟩
      · exact ⟨_,.inl ⟨page,rfl⟩⟩
  · intro other half there
    obtain ⟨_,rfl⟩ | ⟨_,old⟩ := (maps other half).mp there
    · rfl
    · exact laid.writable other half old
  · intro one two half half' first second frame
    by_cases here : one / pageSize = vaddr / pageSize <;> by_cases there : two / pageSize = vaddr / pageSize
    · exact here.trans there.symm
    · exact absurd (frame.symm.trans (mine one half first here)) (new two half' second there)
    · exact absurd (frame.trans (mine two half' second there)) (new one half first here)
    · have old := ((maps one half).mp first).resolve_left fun new => here new.1
      have old' := ((maps two half').mp second).resolve_left fun new => there new.1
      exact laid.apart one two half half' old.2 old'.2 frame
  · rw [List.map_append,List.map_singleton]
    apply List.nodup_append.mpr ⟨laid.distinct,List.nodup_singleton _,?_⟩
    rintro page member _ last rfl
    rw [List.mem_singleton.mp last] at member
    obtain ⟨half,old⟩ := (laid.mapped vaddr).mpr member
    exact unmapped half old
  · intro other half there
    obtain ⟨_,rfl⟩ | ⟨_,old⟩ := (maps other half).mp there
    · exact List.mem_cons_self
    · exact List.mem_cons_of_mem _ (held other half old)

theorem Laid.run {pages more : List Nat} (laid : Laid total reserved pages s) (positive : 1 ≤ reserved)
    (ran : run Image.mapPage more s = some t) :
    Laid total reserved (pages ++ more) t ∧ t.memory = s.memory ∧ t.volume = s.volume := by
  induction more generalizing pages s with
  | nil =>
    cases ran
    rw [List.append_nil]
    exact ⟨laid,rfl,rfl⟩
  | cons vaddr rest ih =>
    obtain ⟨middle,first,later⟩ := Option.bind_eq_some_iff.mp ran
    obtain ⟨one,memory,volume⟩ := laid.mapPage positive first
    obtain ⟨all,memory',volume'⟩ := ih one later
    rw [List.append_assoc] at all
    exact ⟨all,memory'.trans memory,volume'.trans volume⟩

end Mapping

/-! ### Filling -/

section Filling
variable {g : Gbd} {fileid : Nat} {s t : Loading} {vaddr : Nat}

/-- What the process sees. -/
def Loading.byte (s : Loading) (vaddr : Nat) : Option UInt8 := loadByte s.pagetable s.memory vaddr

/-- The page table is the same, and these bytes are new. -/
structure Stored (vaddr n : Nat) (bytes : Nat → Option UInt8) (s t : Loading) : Prop where
  pagetable : t.pagetable = s.pagetable
  bytes : ∀ other < 2 ^ 32, t.byte other = if distance vaddr other < n then bytes (distance vaddr other) else s.byte other
  disk : t.volume.disk = s.volume.disk

theorem store_stored {bytes : List UInt8} (formed : s.pagetable.WellFormed) (apart : s.pagetable.Apart)
    (word : vaddr < 2 ^ 32) (short : bytes.length ≤ 2 ^ 32) (done : store vaddr bytes s = some t) :
    Stored vaddr bytes.length (fun i => bytes[i]?) s t := by
  obtain ⟨memory,stored,rfl⟩ := Option.map_eq_some_iff.mp done
  exact ⟨rfl,fun other small => storeBytes_load formed apart word short stored small,rfl⟩

theorem zeroPages_stored {pages : Nat} (formed : s.pagetable.WellFormed) (apart : s.pagetable.Apart)
    (word : vaddr < 2 ^ 32) (few : pages * pageSize < 2 ^ 31) (done : zeroPages vaddr pages s = some t) :
    Stored vaddr (pages * pageSize) (fun _ => some 0) s t := by
  have size : (toS32 (pages * pageSize % 2 ^ 32)).toNat = pages * pageSize := by
    rw [Nat.mod_eq_of_lt (by omega),toS32_small few]
    rfl
  rw [zeroPages,size] at done
  obtain ⟨pagetable,bytes,disk⟩ := store_stored formed apart word (by rw [List.length_replicate]; omega) done
  rw [List.length_replicate] at bytes
  refine ⟨pagetable,fun other small => ?_,disk⟩
  rw [bytes other small]
  split
  · next inside => rw [List.getElem?_replicate,if_pos inside]
  · rfl

theorem vfsRead_some {bufsize ret : Int} (read : vfsRead g fileid vaddr bufsize s = some (ret,t)) :
    0 ≤ bufsize ∧ ret = (tfsRead g fileid vaddr bufsize s.seekPosition s.volume).1 ∧
    t.volume = (tfsRead g fileid vaddr bufsize s.seekPosition s.volume).2 ∧ t.pagetable = s.pagetable ∧
    storeBytes s.pagetable vaddr (bytesAt t.volume.user vaddr ret.toNat) s.memory = some t.memory := by
  unfold vfsRead at read
  generalize tfsRead g fileid vaddr bufsize s.seekPosition s.volume = r at read ⊢
  split at read
  swap
  · contradiction
  next arguments =>
  obtain ⟨middle,stored,same⟩ := Option.map_eq_some_iff.mp read
  obtain ⟨memory,bytes,rfl⟩ := Option.map_eq_some_iff.mp stored
  obtain ⟨rfl,rfl⟩ := Prod.mk.inj same
  exact ⟨arguments.1,rfl,rfl,rfl,bytes⟩

/-- The `int` of a 32-bit number is not negative just when it is the number. -/
theorem toS32_nonneg {n : Nat} (word : n < 2 ^ 32) (nonneg : 0 ≤ toS32 n) : toS32 n = n := by
  unfold toS32 at nonneg ⊢
  split at nonneg <;> omega

theorem copySegment_stored {segment : Segment} (formed : s.pagetable.WellFormed) (apart : s.pagetable.Apart)
    (volume : WellFormed g s.volume.disk) (file : IsFile s.volume.disk fileid) (word : segment.vaddr < 2 ^ 32)
    (size : segment.size < 2 ^ 32) (location : segment.location < 2 ^ 32)
    (done : copySegment g fileid segment s = some t) :
    Stored segment.vaddr segment.size (fun i => (content s.volume.disk fileid)[segment.location + i]?) s t := by
  unfold copySegment at done
  split at done
  swap
  · next empty =>
    cases done
    refine ⟨rfl,fun other _ => ?_,rfl⟩
    rw [if_neg (by omega)]
  split at done
  swap
  · contradiction
  obtain ⟨sought,seek,done⟩ := Option.bind_eq_some_iff.mp done
  obtain ⟨⟨ret,copied⟩,read,done⟩ := Option.bind_eq_some_iff.mp done
  simp only at done
  split at done
  swap
  · contradiction
  next whole =>
  cases done
  unfold vfsSeek at seek
  split at seek
  · contradiction
  next nonneg =>
  cases seek
  obtain ⟨large,returned,transferred,pagetable,stored⟩ := vfsRead_some read
  rw [toS32_nonneg location (by omega)] at returned transferred
  rw [toS32_nonneg size large] at returned transferred whole
  rw [whole] at returned
  obtain ⟨bytes,disk⟩ := Fs.Tfs.tfsRead_whole volume file (Int.natCast_nonneg segment.size)
    (Int.natCast_nonneg segment.location) returned.symm
  rw [← transferred] at bytes disk
  simp only [Int.toNat_natCast] at bytes
  have short : (bytesAt t.volume.user segment.vaddr segment.size).length = segment.size := by
    rw [bytesAt,List.length_map,List.length_range]
  rw [whole,Int.toNat_natCast] at stored
  have load := fun other (small : other < 2 ^ 32) => storeBytes_load formed apart word (by omega) stored small
  refine ⟨pagetable,fun other small => ?_,disk⟩
  rw [Loading.byte,pagetable,load other small,short]
  split
  · next inside => rw [bytes,List.getElem?_take_of_lt inside,List.getElem?_drop]
  · rfl

end Filling

/-! ### Protecting -/

section Protecting
variable {s t : Loading} {pages : List Nat}

/-- The dirty bit of these pages is cleared, and nothing else changes. -/
structure Protected (pages : List Nat) (s t : Loading) : Prop where
  formed : t.pagetable.WellFormed
  mapped : ∀ vaddr, (∃ half, t.pagetable.Maps vaddr half) ↔ ∃ half, s.pagetable.Maps vaddr half
  halves : ∀ vaddr half, t.pagetable.Maps vaddr half → ∃ old, s.pagetable.Maps vaddr old ∧ half.pfn = old.pfn ∧
    half.d = (old.d && !decide (vaddr / pageSize ∈ pages.map (· / pageSize)))
  byte : ∀ vaddr, t.byte vaddr = s.byte vaddr

theorem run_protectPage (formed : s.pagetable.WellFormed) (ran : run protectPage pages s = some t) :
    Protected pages s t := by
  induction pages generalizing s with
  | nil =>
    cases ran
    refine ⟨formed,fun _ => Iff.rfl,fun vaddr half maps => ⟨half,maps,rfl,?_⟩,fun _ => rfl⟩
    simp
  | cons page rest ih =>
    obtain ⟨middle,first,later⟩ := Option.bind_eq_some_iff.mp ran
    obtain ⟨pagetable,cleared,rfl⟩ := Option.map_eq_some_iff.mp first
    have maps := vmSetDirty_maps formed cleared
    have bytes := setDirty_load formed cleared s.memory
    obtain ⟨formed',mapped,halves,byte⟩ := ih (formed.vmSetDirty cleared) later
    refine ⟨formed',fun vaddr => (mapped vaddr).trans ?_,fun vaddr half here => ?_,fun vaddr => (byte vaddr).trans (bytes vaddr)⟩
    · simp only [maps]
      constructor
      · rintro ⟨half,⟨same,old,there,_⟩ | ⟨_,there⟩⟩
        · exact ⟨old,there.page same⟩
        · exact ⟨half,there⟩
      · rintro ⟨half,there⟩
        by_cases same : vaddr / pageSize = page / pageSize
        · exact ⟨_,.inl ⟨same,half,there.page same.symm,rfl⟩⟩
        · exact ⟨half,.inr ⟨same,there⟩⟩
    · obtain ⟨new,there,frame,dirty⟩ := halves vaddr half here
      obtain ⟨same,old,before,rfl⟩ | ⟨other,before⟩ := (maps vaddr new).mp there
      · refine ⟨old,before.page same,frame,dirty.trans ?_⟩
        simp [same]
      · refine ⟨new,before,frame,dirty.trans ?_⟩
        simp [other]

end Protecting

/-! ### The image -/

/-- The image of an executable with these bytes, at the call of `thread_goto_userland`. -/
structure Loaded (elf : ElfInfo) (file : List UInt8) (context : Context) (s : Loading) : Prop where
  mapped : ∀ vaddr, (∃ half, s.pagetable.Maps vaddr half) ↔ vaddr / pageSize ∈ (imagePages elf).map (· / pageSize)
  apart : s.pagetable.Apart
  segments : ∀ w, ∀ i < (elf.segment w).pages * pageSize, s.byte (((elf.segment w).vaddr + i) % 2 ^ 32) =
    if i < (elf.segment w).size then file[(elf.segment w).location + i]? else some 0
  stack : ∀ i < configUserlandStackSize * pageSize, s.byte (stackBottom + i) = some 0
  dirty : ∀ vaddr half, s.pagetable.Maps vaddr half →
    (half.d = false ↔ vaddr / pageSize ∈ (segmentPages elf.roVaddr elf.roPages).map (· / pageSize))
  pc : context.pc = elf.entryPoint
  sp : context.cpuRegs mipsRegisterSp = userlandStackTop

section Loaded
variable {g : Gbd} {fileid : Nat} {s t : Loading} {elf : ElfInfo}

theorem segment_words {file : List UInt8} (result : Elf.Result file elf) (w : Bool) :
    (elf.segment w).location < 2 ^ 32 ∧ (elf.segment w).size < 2 ^ 32 ∧ (elf.segment w).vaddr < 2 ^ 32 := by
  rw [result.segment w]
  cases found : Elf.loaded (Elf.table file Elf.sizeofPhdr) w with
  | none => simp
  | some p =>
    obtain ⟨i,_,rfl⟩ := List.mem_map.mp (List.mem_of_find?_eq_some found)
    simp only [Option.map_some,Option.getD_some,Elf.Phdr.segment,Elf.headerAt,Elf.phdr]
    exact ⟨word_lt _ 1,word_lt _ 4,word_lt _ 2⟩

theorem distance_add {vaddr i : Nat} (word : vaddr < 2 ^ 32) (small : i < 2 ^ 32) :
    distance vaddr ((vaddr + i) % 2 ^ 32) = i := by
  unfold distance
  omega

theorem page_of_distance (base count : Nat) {other : Nat} (aligned : base % pageSize = 0) (word : base < 2 ^ 32)
    (small : other < 2 ^ 32) (inside : distance base other < count * pageSize) :
    other / pageSize ∈ (segmentPages base count).map (· / pageSize) := by
  obtain ⟨page,member,same⟩ := segment_page aligned inside
  have back : (base + distance base other) % 2 ^ 32 = other := by
    unfold distance
    omega
  rw [back] at same
  exact List.mem_map.mpr ⟨page,member,same.symm⟩

theorem Stored.outside {vaddr n other : Nat} {bytes : Nat → Option UInt8} (stored : Stored vaddr n bytes s t)
    (small : other < 2 ^ 32) (far : ¬distance vaddr other < n) : t.byte other = s.byte other :=
  (stored.bytes other small).trans (if_neg far)

theorem stackPages_eq : stackPages = segmentPages stackBottom configUserlandStackSize := by decide

/-- An address is in one part of the image only. -/
structure Parts (elf : ElfInfo) (other : Nat) : Prop where
  stack : distance stackBottom other < configUserlandStackSize * pageSize →
    ¬distance elf.roVaddr other < elf.roPages * pageSize ∧ ¬distance elf.rwVaddr other < elf.rwPages * pageSize
  segments : distance elf.roVaddr other < elf.roPages * pageSize → ¬distance elf.rwVaddr other < elf.rwPages * pageSize

theorem parts {other : Nat} (distinct : ((imagePages elf).map (· / pageSize)).Nodup) (fits : Fits elf)
    (ro : elf.roVaddr < 2 ^ 32) (rw_ : elf.rwVaddr < 2 ^ 32) (small : other < 2 ^ 32) : Parts elf other := by
  rw [imagePages,List.map_append,List.map_append,stackPages_eq] at distinct
  obtain ⟨front,_,last⟩ := List.nodup_append.mp distinct
  obtain ⟨_,_,first⟩ := List.nodup_append.mp front
  have onStack := page_of_distance stackBottom configUserlandStackSize (by decide) (by decide) small
  have onRo := page_of_distance elf.roVaddr elf.roPages fits.1 ro small
  have onRw := page_of_distance elf.rwVaddr elf.rwPages fits.2.1 rw_ small
  constructor
  · intro stack
    constructor
    · intro inside
      exact first _ (onStack stack) _ (onRo inside) rfl
    · intro inside
      exact last _ (List.mem_append_left _ (onStack stack)) _ (onRw inside) rfl
  · intro inside inside'
    exact last _ (List.mem_append_right _ (onRo inside)) _ (onRw inside') rfl

theorem fillImage_bytes {total reserved : Nat} (laid : Laid total reserved (imagePages elf) s)
    (volume : WellFormed g s.volume.disk) (file : IsFile s.volume.disk fileid) (fits : Fits elf)
    (words : ∀ w, (elf.segment w).location < 2 ^ 32 ∧ (elf.segment w).size < 2 ^ 32 ∧ (elf.segment w).vaddr < 2 ^ 32)
    (few : ∀ w, (elf.segment w).pages * pageSize < 2 ^ 31)
    (done : fillImage g fileid elf s = some t) :
    t.pagetable = s.pagetable ∧
    (∀ w, ∀ i < (elf.segment w).pages * pageSize, t.byte (((elf.segment w).vaddr + i) % 2 ^ 32) =
      if i < (elf.segment w).size then (content s.volume.disk fileid)[(elf.segment w).location + i]? else some 0) ∧
    ∀ i < configUserlandStackSize * pageSize, t.byte (stackBottom + i) = some 0 := by
  obtain ⟨s₁,ro,done⟩ := Option.bind_eq_some_iff.mp done
  obtain ⟨s₂,rw_,done⟩ := Option.bind_eq_some_iff.mp done
  obtain ⟨s₃,stack,done⟩ := Option.bind_eq_some_iff.mp done
  obtain ⟨s₄,copyRo,copyRw⟩ := Option.bind_eq_some_iff.mp done
  obtain ⟨_,_,roWord⟩ := words false
  obtain ⟨_,_,rwWord⟩ := words true
  have table : s.pagetable.WellFormed ∧ s.pagetable.Apart := ⟨laid.formed,laid.apart⟩
  have one := zeroPages_stored table.1 table.2 roWord (few false) ro
  rw [← one.pagetable] at table
  have two := zeroPages_stored table.1 table.2 rwWord (few true) rw_
  rw [← two.pagetable] at table
  have three := zeroPages_stored table.1 table.2 (by decide) (by decide) stack
  rw [← three.pagetable] at table
  have disk := three.disk.trans (two.disk.trans one.disk)
  have four := copySegment_stored table.1 table.2 (disk ▸ volume) (disk ▸ file) roWord (words false).2.1 (words false).1 copyRo
  rw [← four.pagetable] at table
  rw [disk] at four
  have disk := four.disk.trans disk
  have five := copySegment_stored table.1 table.2 (disk ▸ volume) (disk ▸ file) rwWord (words true).2.1 (words true).1 copyRw
  rw [disk] at five
  have ranges : ∀ w, (elf.segment w).size ≤ (elf.segment w).pages * pageSize := by
    intro w
    cases w
    · exact fits.2.2.1
    · exact fits.2.2.2
  have ro_ := ranges false
  have rw' := ranges true
  refine ⟨?_,fun w i inside => ?_,fun i inside => ?_⟩
  · rw [five.pagetable,four.pagetable,three.pagetable,two.pagetable,one.pagetable]
  · have small : ((elf.segment w).vaddr + i) % 2 ^ 32 < 2 ^ 32 := Nat.mod_lt _ (by decide)
    have near := distance_add (words w).2.2 (i := i) (by have := few w; omega)
    generalize ((elf.segment w).vaddr + i) % 2 ^ 32 = other at small near ⊢
    have part := parts laid.distinct fits roWord rwWord small
    cases w
    · have here : distance (elf.segment false).vaddr other < (elf.segment false).pages * pageSize := near.trans_lt inside
      have noRw := part.segments here
      have noStack := fun stack => (part.stack stack).1 here
      have noCopy : ¬distance elf.rwVaddr other < elf.rwSize := fun copied => noRw (copied.trans_le rw')
      rw [five.outside small noCopy,four.bytes other small,three.outside small noStack,two.outside small noRw,
        one.bytes other small,if_pos here]
      rw [near]
    · have here : distance (elf.segment true).vaddr other < (elf.segment true).pages * pageSize := near.trans_lt inside
      have noRo := fun inRo => part.segments inRo here
      have noStack := fun stack => (part.stack stack).2 here
      have noCopy : ¬distance elf.roVaddr other < elf.roSize := fun copied => noRo (copied.trans_le ro_)
      rw [five.bytes other small,four.outside small noCopy,three.outside small noStack,two.bytes other small,if_pos here]
      rw [near]
  · have small : stackBottom + i < 2 ^ 32 := by
      unfold configUserlandStackSize pageSize at inside
      have bottom : stackBottom = 0x7fffe000 := by decide
      omega
    have near : distance stackBottom (stackBottom + i) = i := by
      unfold distance
      omega
    generalize stackBottom + i = other at small near ⊢
    have here : distance stackBottom other < configUserlandStackSize * pageSize := near.trans_lt inside
    obtain ⟨noRo,noRw⟩ := (parts laid.distinct fits roWord rwWord small).stack here
    have noCopy : ¬distance elf.roVaddr other < elf.roSize := fun copied => noRo (copied.trans_le ro_)
    have noCopy' : ¬distance elf.rwVaddr other < elf.rwSize := fun copied => noRw (copied.trans_le rw')
    rw [five.outside small noCopy',four.outside small noCopy,three.bytes other small,if_pos here]

theorem userContext_sp (elf : ElfInfo) : (userContext elf).cpuRegs mipsRegisterSp = userlandStackTop := by
  simp [userContext]

theorem loadImage_loaded {total reserved : Nat} (laid : Laid total reserved [] s) (positive : 1 ≤ reserved)
    (volume : WellFormed g s.volume.disk) (file : IsFile s.volume.disk fileid) (fits : Fits elf)
    (words : ∀ w, (elf.segment w).location < 2 ^ 32 ∧ (elf.segment w).size < 2 ^ 32 ∧ (elf.segment w).vaddr < 2 ^ 32)
    (few : ∀ w, (elf.segment w).pages * pageSize < 2 ^ 31) (done : loadImage g fileid elf s = some t) :
    Loaded elf (content s.volume.disk fileid) (userContext elf) t := by
  unfold loadImage at done
  obtain ⟨s₁,mapped,done⟩ := Option.bind_eq_some_iff.mp done
  obtain ⟨s₂,filled,ran⟩ := Option.bind_eq_some_iff.mp done
  obtain ⟨laid,_,same⟩ := laid.run positive mapped
  rw [← same] at volume file ⊢
  rw [List.nil_append] at laid
  obtain ⟨table,segments,stack⟩ := fillImage_bytes laid volume file fits words few filled
  have guarded := run_protectPage (table ▸ laid.formed) ran
  have mapped' := fun vaddr => (guarded.mapped vaddr).trans (table ▸ laid.mapped vaddr)
  refine ⟨mapped',?_,?_,?_,?_,rfl,userContext_sp elf⟩
  · intro one two half half' first second frame
    obtain ⟨old,before,pfn,_⟩ := guarded.halves one half first
    obtain ⟨old',before',pfn',_⟩ := guarded.halves two half' second
    rw [table] at before before'
    exact laid.apart one two old old' before before' (pfn.symm.trans (frame.trans pfn'))
  · intro w i inside
    rw [guarded.byte]
    exact segments w i inside
  · intro i inside
    rw [guarded.byte]
    exact stack i inside
  · intro vaddr half maps
    obtain ⟨old,before,_,dirty⟩ := guarded.halves vaddr half maps
    rw [table] at before
    rw [dirty,laid.writable vaddr old before,Bool.true_and,Bool.not_eq_false',decide_eq_true_iff]

theorem pages_small {file : List UInt8} {config1 : Nat} (result : Elf.Result file elf)
    (rows : totalPages elf ≤ tlbGetMaxindex config1 + 1) (w : Bool) : (elf.segment w).pages * pageSize < 2 ^ 31 := by
  have last : tlbGetMaxindex config1 < 2 ^ 6 := Nat.mod_lt _ (by decide)
  rw [result.total] at rows
  have pages : (elf.segment w).pages ≤ 64 := by
    cases w
    · exact Nat.le_trans (show elf.roPages ≤ _ by omega) (Nat.le_trans rows last)
    · exact Nat.le_trans (show elf.rwPages ≤ _ by omega) (Nat.le_trans rows last)
  unfold pageSize
  omega

/-- Whenever `process_start` gets to `thread_goto_userland`, the memory image is the executable's. -/
theorem process_start_loads {total reserved config1 tid : Nat} {page : Nat → TlbEntry} {out : List Nat} {context : Context}
    (positive : 1 ≤ reserved) (pool : PoolInvariant total reserved ⟨s.pool,out⟩) (volume : WellFormed g s.volume.disk)
    (file : IsFile s.volume.disk fileid)
    (parsed : elfParseHeader ⟨content s.volume.disk fileid,0,content_small s.volume.disk fileid⟩ = some (some elf))
    (fits : Fits elf) (done : processStart g fileid config1 tid page s = some (context,t)) :
    Loaded elf (content s.volume.disk fileid) context t := by
  obtain ⟨s₁,created,done⟩ := Option.bind_eq_some_iff.mp done
  obtain ⟨laid,_,same⟩ := createPagetable_laid positive pool created
  simp only [same,parsed] at done
  split at done
  swap
  · contradiction
  next checks =>
  obtain ⟨after,loaded,equal⟩ := Option.map_eq_some_iff.mp done
  obtain ⟨rfl,rfl⟩ := Prod.mk.inj equal
  have result := Elf.elfParseHeader_accepted parsed
  have few := pages_small result checks.2
  rw [← same] at volume file ⊢
  exact loadImage_loaded laid positive volume file fits (segment_words result) few loaded

end Loaded

/-- One segment of one page, with the headers themselves as its bytes in the file. -/
def headerProgram : List UInt8 := Elf.ehdrBytes 0x1000 52 32 1 ++ Elf.phdrBytes 1 0 0x1000 84 84 5

def programMachine : Fs.Tfs.Machine := { sampleFile with user := Elf.buffer headerProgram }

def programVolume : Fs.Tfs.Machine := (tfsWrite sampleGbd (3 : Nat) 0 (84 : Nat) (0 : Nat) programMachine).2

theorem programVolume_wellFormed : WellFormed sampleGbd programVolume.disk ∧ IsFile programVolume.disk 3 := by
  have formed := sampleFile_wellFormed
  have file : IsFile sampleFile.disk 3 := ⟨by decide,24,by decide,by decide +kernel⟩
  have same : programMachine.disk = sampleFile.disk := by rw [programMachine]
  rw [← same] at formed file
  have reliable : Reliable sampleGbd := fun _ => rfl
  have written := (tfsWrite_effect reliable (formed.intact file) 0 84 0 (Nat.zero_le _)).2
  have directory := written.system formed file (show Fs.Tfs.tfsDirectoryBlock < 3 by decide)
  rw [← programVolume] at written directory
  refine ⟨written.wellFormed formed file,?_⟩
  obtain ⟨name,slot,small,entry⟩ := file
  rw [← directory] at entry
  exact ⟨name,slot,small,entry⟩

def beforeStart : Loading :=
  ⟨pagepoolInit 40 2 fun _ => 0,vmCreatePagetable 0 Access.blank.rows,fun _ => 255,programVolume,0⟩

/-- A TLB with 16 rows. -/
theorem process_start_loads_headers : ∃ context t,
    processStart sampleGbd 3 (15 * 2 ^ 25) 3 Access.blank.rows beforeStart = some (context,t) ∧
    Loaded ⟨0x1000,0,84,1,0x1000,0,0,0,0⟩ (content programVolume.disk 3) context t := by
  have reached : (processStart sampleGbd 3 (15 * 2 ^ 25) 3 Access.blank.rows beforeStart).isSome = true := by
    decide +kernel
  obtain ⟨⟨context,t⟩,done⟩ := Option.isSome_iff_exists.mp reached
  have accepted : (elfParseHeader ⟨content programVolume.disk 3,0,content_small programVolume.disk 3⟩).any fun r =>
      r == some ⟨0x1000,0,84,1,0x1000,0,0,0,0⟩ := by decide +kernel
  obtain ⟨r,parsed,same⟩ := (Option.any_eq_true _ _).mp accepted
  obtain rfl := beq_iff_eq.mp same
  have pool : PoolInvariant 40 2 ⟨beforeStart.pool,[]⟩ := initial_poolInvariant (by decide) fun _ => 0
  have fits : Fits ⟨0x1000,0,84,1,0x1000,0,0,0,0⟩ := ⟨rfl,rfl,by decide,by decide⟩
  obtain ⟨volume,file⟩ := programVolume_wellFormed
  have same : beforeStart.volume = programVolume := by rw [beforeStart]
  rw [← same] at volume file parsed ⊢
  exact ⟨context,t,done,process_start_loads (show 1 ≤ 2 by decide) pool volume file parsed fits done⟩

end Buenos.Proc.Image
