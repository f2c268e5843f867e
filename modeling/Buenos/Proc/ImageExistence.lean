import Buenos.Proc.Image

/-! `process_start` gets to `thread_goto_userland`, with enough free pages and rows of the TLB. -/
namespace Buenos.Proc.Image

open Buenos.Foundation Buenos.Vm
open Buenos.Proc.Access (imagePages Fits segment_page)
open Buenos.Proc.Elf (elfParseHeader totalPages)
open Buenos.Fs.Tfs (Gbd WellFormed IsFile tfsRead content Reliable)

/-! ### Mapping -/

section Mapping
variable {total reserved : Nat} {s t : Loading} {vaddr : Nat}

theorem takePage_some {out : List Nat} (positive : 1 ≤ reserved) (invariant : PoolInvariant total reserved ⟨s.pool,out⟩)
    (free : 0 < s.pool.numFreePages) : ∃ physPage t, takePage s = some (physPage,t) ∧
      t.pool.numFreePages = s.pool.numFreePages - 1 := by
  rcases invariant.get with ⟨_,got⟩ | ⟨p,high,_,_,_,got⟩
  · simp only [pagepoolGetPhysPage,if_pos free] at got
    split at got
    · have count := congrArg Pagepool.numFreePages (Prod.mk.inj (Option.some.inj got)).2
      dsimp only at count
      omega
    · contradiction
  · have nonzero : p * pageSize ≠ 0 := by
      unfold pageSize
      omega
    have taken : takePage s = some (p * pageSize,{ s with pool := { s.pool with
        freePages := Lib.bitmapSet s.pool.freePages p true, numFreePages := s.pool.numFreePages - 1 } }) := by
      simp only [takePage,got]
      exact if_neg nonzero
    exact ⟨_,_,taken,rfl⟩

theorem vmMap_some {pt : Pagetable} (physaddr : Nat) (dirty : Bool) (fresh : ∀ half, ¬pt.Maps vaddr half)
    (room : pt.validCount < pagetableEntries) :
    ∃ pt', vmMap pt physaddr vaddr dirty = some pt' ∧ pt'.validCount ≤ pt.validCount + 1 := by
  unfold vmMap
  cases found : pt.findPair vaddr with
  | none =>
    simp only [if_neg (Nat.not_le_of_lt room)]
    exact ⟨_,rfl,Nat.le_refl _⟩
  | some i =>
    obtain ⟨inside,named⟩ := findPair_some found
    have invalid : ¬((pt.entries i).half vaddr).v = true := fun valid => fresh _ ⟨i,inside,named,rfl,valid⟩
    simp only [if_neg invalid]
    exact ⟨_,rfl,Nat.le_succ _⟩

theorem mapPage_some {pages : List Nat} (laid : Laid total reserved pages s) (positive : 1 ≤ reserved)
    (fresh : vaddr / pageSize ∉ pages.map (· / pageSize)) (free : 0 < s.pool.numFreePages)
    (room : s.pagetable.validCount < pagetableEntries) :
    ∃ t, mapPage vaddr s = some t ∧ t.pool.numFreePages = s.pool.numFreePages - 1 ∧
      t.pagetable.validCount ≤ s.pagetable.validCount + 1 := by
  obtain ⟨out,invariant,_⟩ := laid.frames
  obtain ⟨physPage,middle,taken,left⟩ := takePage_some positive invariant free
  have same := (takePage_fresh positive invariant taken).1.1
  have unmapped : ∀ half, ¬s.pagetable.Maps vaddr half := fun half maps => fresh ((laid.mapped vaddr).mp ⟨half,maps⟩)
  obtain ⟨pagetable,added,count⟩ := vmMap_some physPage true unmapped room
  rw [← same] at added
  have mapped : mapPage vaddr s = some { middle with pagetable := pagetable } := by
    rw [mapPage,taken,Option.bind_some]
    exact Option.map_eq_some_iff.mpr ⟨pagetable,added,rfl⟩
  exact ⟨_,mapped,left,count⟩

theorem run_mapPage_some {pages more : List Nat} (laid : Laid total reserved pages s) (positive : 1 ≤ reserved)
    (distinct : ((pages ++ more).map (· / pageSize)).Nodup) (free : more.length ≤ s.pool.numFreePages)
    (room : s.pagetable.validCount + more.length ≤ pagetableEntries) : ∃ t, run mapPage more s = some t := by
  induction more generalizing pages s with
  | nil => exact ⟨s,rfl⟩
  | cons vaddr rest ih =>
    rw [List.length_cons] at free room
    rw [List.append_cons] at distinct
    have fresh : vaddr / pageSize ∉ pages.map (· / pageSize) := by
      rw [List.map_append,List.map_append] at distinct
      intro member
      have front := (List.nodup_append.mp distinct).1
      exact (List.nodup_append.mp front).2.2 _ member _ (List.mem_singleton_self _) rfl
    obtain ⟨middle,first,left,count⟩ := mapPage_some laid positive fresh (by omega) (by omega)
    obtain ⟨one,_,_⟩ := laid.mapPage positive first
    obtain ⟨t,later⟩ := ih one distinct (by omega) (by omega)
    exact ⟨t,Option.bind_eq_some_iff.mpr ⟨middle,first,later⟩⟩

end Mapping

/-! ### Filling -/

section Filling
variable {g : Gbd} {fileid : Nat} {s : Loading} {vaddr : Nat}

def Writable (vaddr n : Nat) (s : Loading) : Prop :=
  ∀ i < n, ∃ half, s.pagetable.Maps ((vaddr + i) % 2 ^ 32) half ∧ half.d = true

theorem Writable.mono {n k : Nat} (writable : Writable vaddr n s) (less : k ≤ n) : Writable vaddr k s :=
  fun i inside => writable i (inside.trans_le less)

theorem Writable.same {t : Loading} {n : Nat} (writable : Writable vaddr n s) (same : t.pagetable = s.pagetable) :
    Writable vaddr n t := by
  unfold Writable
  rwa [same]

theorem store_some {bytes : List UInt8} (formed : s.pagetable.WellFormed) (word : vaddr < 2 ^ 32)
    (writable : Writable vaddr bytes.length s) : ∃ t, store vaddr bytes s = some t := by
  have stored : ∃ memory, storeBytes s.pagetable vaddr bytes s.memory = some memory :=
    storeBytes_some formed writable word
  obtain ⟨memory,stored⟩ := stored
  exact ⟨_,Option.map_eq_some_iff.mpr ⟨memory,stored,rfl⟩⟩

theorem zeroPages_some {pages : Nat} (formed : s.pagetable.WellFormed) (word : vaddr < 2 ^ 32)
    (few : pages * pageSize < 2 ^ 31) (writable : Writable vaddr (pages * pageSize) s) :
    ∃ t, zeroPages vaddr pages s = some t := by
  apply store_some formed word
  rw [List.length_replicate,Nat.mod_eq_of_lt (by omega),toS32_small few]
  exact writable

theorem vfsRead_whole {n : Nat} (formed : s.pagetable.WellFormed) (word : vaddr < 2 ^ 32) (nonzero : vaddr ≠ 0)
    (whole : (tfsRead g fileid vaddr n s.seekPosition s.volume).1 = n) (writable : Writable vaddr n s) :
    ∃ t, vfsRead g fileid vaddr n s = some ((n : Int),t) := by
  unfold vfsRead
  rw [if_pos ⟨Int.natCast_nonneg n,nonzero⟩]
  generalize tfsRead g fileid vaddr n s.seekPosition s.volume = r at whole ⊢
  obtain ⟨ret,volume⟩ := r
  obtain rfl : ret = n := whole
  have bytes : Writable vaddr (Fs.Tfs.bytesAt volume.user vaddr n).length s := by
    rw [Fs.Tfs.bytesAt,List.length_map,List.length_range]
    exact writable
  obtain ⟨t,stored⟩ := store_some formed word bytes
  simp only [Int.toNat_natCast,stored,Option.map_some]
  exact ⟨_,rfl⟩

theorem copySegment_some {segment : Segment} (reliable : Reliable g) (formed : s.pagetable.WellFormed)
    (volume : WellFormed g s.volume.disk) (file : IsFile s.volume.disk fileid) (word : segment.vaddr < 2 ^ 32)
    (inside : segment.location + segment.size ≤ (content s.volume.disk fileid).length)
    (high : 0 < segment.size → pageSize ≤ segment.vaddr) (writable : Writable segment.vaddr segment.size s) :
    ∃ t, copySegment g fileid segment s = some t := by
  have small := content_small s.volume.disk fileid
  unfold copySegment
  split
  swap
  · exact ⟨s,rfl⟩
  next present =>
  rw [if_pos (high present),toS32_small (show segment.location < 2 ^ 31 by omega),
    toS32_small (show segment.size < 2 ^ 31 by omega)]
  have seek : vfsSeek (segment.location : Int) s = some { s with seekPosition := segment.location } := if_neg (by omega)
  rw [seek,Option.bind_some]
  have length : (content s.volume.disk fileid).length ≤ Fs.Tfs.filesize (s.volume.disk fileid) := by
    rw [content,List.length_take]
    exact Nat.min_le_left _ _
  have reads := Fs.Tfs.tfsRead_content reliable volume file segment.vaddr (Int.natCast_nonneg segment.size)
    (Int.natCast_nonneg segment.location) (by omega)
  have whole : (tfsRead g fileid segment.vaddr segment.size segment.location s.volume).1 = segment.size := by
    rw [reads.returned]
    omega
  have nonzero : segment.vaddr ≠ 0 := by
    have := high present
    unfold pageSize at this
    omega
  obtain ⟨t,read⟩ := vfsRead_whole (s := { s with seekPosition := segment.location }) formed word nonzero whole writable
  rw [read,Option.bind_some]
  exact ⟨t,if_pos rfl⟩

theorem Laid.writable_part {total reserved base count : Nat} {pages : List Nat} (laid : Laid total reserved pages s)
    (aligned : base % pageSize = 0) (part : segmentPages base count ⊆ pages) : Writable base (count * pageSize) s := by
  intro i inside
  obtain ⟨page,member,same⟩ := segment_page aligned inside
  obtain ⟨half,maps⟩ := (laid.mapped ((base + i) % 2 ^ 32)).mpr (List.mem_map.mpr ⟨page,part member,same.symm⟩)
  exact ⟨half,maps,laid.writable _ half maps⟩

theorem fillImage_some {total reserved : Nat} {elf : ElfInfo} (laid : Laid total reserved (imagePages elf) s)
    (reliable : Reliable g) (volume : WellFormed g s.volume.disk) (file : IsFile s.volume.disk fileid) (fits : Fits elf)
    (words : ∀ w, (elf.segment w).location < 2 ^ 32 ∧ (elf.segment w).size < 2 ^ 32 ∧ (elf.segment w).vaddr < 2 ^ 32)
    (few : ∀ w, (elf.segment w).pages * pageSize < 2 ^ 31)
    (inside : ∀ w, (elf.segment w).location + (elf.segment w).size ≤ (content s.volume.disk fileid).length)
    (high : ∀ w, 0 < (elf.segment w).size → pageSize ≤ (elf.segment w).vaddr) :
    ∃ t, fillImage g fileid elf s = some t ∧ t.pagetable = s.pagetable := by
  have ro : Writable elf.roVaddr (elf.roPages * pageSize) s := by
    apply laid.writable_part fits.1
    intro page member
    exact List.mem_append_left _ (List.mem_append_right _ member)
  have rw_ : Writable elf.rwVaddr (elf.rwPages * pageSize) s := by
    apply laid.writable_part fits.2.1
    intro page member
    exact List.mem_append_right _ member
  have stack : Writable stackBottom (configUserlandStackSize * pageSize) s := by
    apply laid.writable_part (by decide)
    intro page member
    rw [← stackPages_eq] at member
    exact List.mem_append_left _ (List.mem_append_left _ member)
  obtain ⟨_,_,roWord⟩ := words false
  obtain ⟨_,_,rwWord⟩ := words true
  have table : s.pagetable.WellFormed ∧ s.pagetable.Apart := ⟨laid.formed,laid.apart⟩
  obtain ⟨s₁,first⟩ := zeroPages_some table.1 roWord (few false) ro
  have one := zeroPages_stored table.1 table.2 roWord (few false) first
  rw [← one.pagetable] at table
  obtain ⟨s₂,second⟩ := zeroPages_some table.1 rwWord (few true) (rw_.same one.pagetable)
  have two := zeroPages_stored table.1 table.2 rwWord (few true) second
  have same := two.pagetable.trans one.pagetable
  rw [← two.pagetable] at table
  obtain ⟨s₃,third⟩ := zeroPages_some table.1 (by decide) (by decide) (stack.same same)
  have three := zeroPages_stored table.1 table.2 (by decide) (by decide) third
  have same := three.pagetable.trans same
  rw [← three.pagetable] at table
  have disk := three.disk.trans (two.disk.trans one.disk)
  rw [← disk] at volume file inside
  obtain ⟨s₄,fourth⟩ := copySegment_some reliable table.1 volume file roWord (inside false) (high false)
    ((ro.mono fits.2.2.1).same same)
  have four := copySegment_stored table.1 table.2 volume file roWord (words false).2.1 (words false).1 fourth
  have same := four.pagetable.trans same
  rw [← four.pagetable] at table
  rw [← four.disk] at volume file inside
  obtain ⟨s₅,fifth⟩ := copySegment_some reliable table.1 volume file rwWord (inside true) (high true)
    ((rw_.mono fits.2.2.2).same same)
  have five := copySegment_stored table.1 table.2 volume file rwWord (words true).2.1 (words true).1 fifth
  refine ⟨s₅,?_,five.pagetable.trans same⟩
  exact Option.bind_eq_some_iff.mpr ⟨s₁,first,Option.bind_eq_some_iff.mpr ⟨s₂,second,
    Option.bind_eq_some_iff.mpr ⟨s₃,third,Option.bind_eq_some_iff.mpr ⟨s₄,fourth,fifth⟩⟩⟩⟩

end Filling

/-! ### Protecting -/

section Protecting
variable {s : Loading} {pages : List Nat}

theorem vmSetDirty_some {pt : Pagetable} {vaddr : Nat} {half : Half} (dirty : Bool) (formed : pt.WellFormed)
    (maps : pt.Maps vaddr half) : ∃ pt', vmSetDirty pt vaddr dirty = some pt' := by
  obtain ⟨i,inside,named,rfl,valid⟩ := maps
  unfold vmSetDirty
  cases found : pt.findPair vaddr with
  | none => exact absurd named (findPair_none found i inside)
  | some j =>
    obtain ⟨inside',named'⟩ := findPair_some found
    obtain rfl := formed.once i j inside inside' (named.trans named'.symm)
    simp only [if_pos valid]
    exact ⟨_,rfl⟩

theorem run_protectPage_some (formed : s.pagetable.WellFormed)
    (mapped : ∀ page ∈ pages, ∃ half, s.pagetable.Maps page half) : ∃ t, run protectPage pages s = some t := by
  induction pages generalizing s with
  | nil => exact ⟨s,rfl⟩
  | cons page rest ih =>
    obtain ⟨half,maps⟩ := mapped page List.mem_cons_self
    obtain ⟨pagetable,cleared⟩ := vmSetDirty_some false formed maps
    have first : protectPage page s = some { s with pagetable := pagetable } :=
      Option.map_eq_some_iff.mpr ⟨pagetable,cleared,rfl⟩
    have one : run protectPage [page] s = some { s with pagetable := pagetable } :=
      Option.bind_eq_some_iff.mpr ⟨_,first,rfl⟩
    have guarded := run_protectPage formed one
    obtain ⟨t,later⟩ := ih guarded.formed fun other member =>
      (guarded.mapped other).mpr (mapped other (List.mem_cons_of_mem _ member))
    exact ⟨t,Option.bind_eq_some_iff.mpr ⟨_,first,later⟩⟩

end Protecting

/-! ### The whole -/

theorem imagePages_length (elf : ElfInfo) :
    (imagePages elf).length = elf.roPages + elf.rwPages + configUserlandStackSize := by
  rw [imagePages,List.length_append,List.length_append,stackPages_eq]
  simp only [segmentPages,List.length_map,List.length_range]
  omega

theorem createPagetable_some {s : Loading} {total reserved : Nat} {out : List Nat} (tid : Nat) (page : Nat → TlbEntry)
    (positive : 1 ≤ reserved) (pool : PoolInvariant total reserved ⟨s.pool,out⟩) (free : 0 < s.pool.numFreePages) :
    ∃ t, createPagetable tid page s = some t ∧ t.pool.numFreePages = s.pool.numFreePages - 1 ∧
      t.pagetable.validCount = 0 := by
  obtain ⟨physPage,middle,taken,left⟩ := takePage_some positive pool free
  exact ⟨_,Option.map_eq_some_iff.mpr ⟨_,taken,rfl⟩,left,rfl⟩

/-- The executables that are loaded: the segments are in the file and on pages of their own. -/
theorem process_start_reaches {g : Gbd} {fileid : Nat} {s : Loading} {elf : ElfInfo} {total reserved config1 tid : Nat}
    {page : Nat → TlbEntry} {out : List Nat} (positive : 1 ≤ reserved)
    (pool : PoolInvariant total reserved ⟨s.pool,out⟩) (free : totalPages elf + 1 ≤ s.pool.numFreePages)
    (rows : totalPages elf ≤ tlbGetMaxindex config1 + 1) (reliable : Reliable g)
    (volume : WellFormed g s.volume.disk) (file : IsFile s.volume.disk fileid)
    (parsed : elfParseHeader ⟨content s.volume.disk fileid,0,content_small s.volume.disk fileid⟩ = some (some elf))
    (entry : pageSize ≤ elf.entryPoint) (fits : Fits elf) (distinct : ((imagePages elf).map (· / pageSize)).Nodup)
    (inside : ∀ w, (elf.segment w).location + (elf.segment w).size ≤ (content s.volume.disk fileid).length)
    (high : ∀ w, 0 < (elf.segment w).size → pageSize ≤ (elf.segment w).vaddr) :
    ∃ context t, processStart g fileid config1 tid page s = some (context,t) := by
  have result := Elf.elfParseHeader_accepted parsed
  have few := pages_small result rows
  have words := segment_words result
  have last : tlbGetMaxindex config1 < 2 ^ 6 := Nat.mod_lt _ (by decide)
  rw [result.total,← imagePages_length] at free
  obtain ⟨s₁,created,left,empty⟩ := createPagetable_some tid page positive pool (by omega)
  obtain ⟨laid,_,same⟩ := createPagetable_laid positive pool created
  have room : s₁.pagetable.validCount + (imagePages elf).length ≤ pagetableEntries := by
    have most := rows
    rw [result.total,← imagePages_length] at most
    unfold pagetableEntries
    omega
  rw [← List.nil_append (imagePages elf)] at distinct
  obtain ⟨s₂,mapped⟩ := run_mapPage_some laid positive distinct (by omega) room
  obtain ⟨laid,_,same'⟩ := laid.run positive mapped
  rw [List.nil_append] at laid
  have volumes := same'.trans same
  rw [← volumes] at volume file inside
  obtain ⟨s₃,filled,table⟩ := fillImage_some laid reliable volume file fits words few inside high
  have readOnly : ∀ page ∈ segmentPages elf.roVaddr elf.roPages, ∃ half, s₃.pagetable.Maps page half := by
    intro page member
    rw [table]
    apply (laid.mapped page).mpr
    exact List.mem_map_of_mem (List.mem_append_left _ (List.mem_append_right _ member))
  obtain ⟨t,guarded⟩ := run_protectPage_some (table ▸ laid.formed) readOnly
  have loaded : loadImage g fileid elf s₁ = some t :=
    Option.bind_eq_some_iff.mpr ⟨s₂,mapped,Option.bind_eq_some_iff.mpr ⟨s₃,filled,guarded⟩⟩
  refine ⟨userContext elf,t,Option.bind_eq_some_iff.mpr ⟨s₁,created,?_⟩⟩
  simp only [same,parsed]
  rw [if_pos ⟨entry,rows⟩,loaded]
  rfl


end Buenos.Proc.Image
