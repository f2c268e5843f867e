import Buenos.Proc.Elf

/-! The sizes of an executable's segments, which come from the file as 32-bit numbers, and the
pages that `process_start` maps for them. -/
namespace Buenos.Proc.Elf

open Buenos.Foundation Buenos.Vm

/-! ### The assertions of `process_start` -/

/-- `elf.ro_pages + elf.rw_pages + CONFIG_USERLAND_STACK_SIZE`. -/
def totalPages (elf : ElfInfo) : Nat := (elf.roPages + elf.rwPages + configUserlandStackSize) % 2 ^ 32

/-- Seek and read a segment that is in the file; `none` is a failing assertion, here or in the
calls. -/
def assertSegment (file : OpenFile) (s : Segment) : Option OpenFile :=
  if s.size = 0 then some file
  else if s.vaddr < pageSize then none
  else (vfsSeek file (toS32 s.location)).bind fun file =>
    if toS32 s.size < 0 then none
    else
      let r := vfsRead file s.size
      if r.1 = toS32 s.size then some r.2.2 else none

def assertImage (maxindex : Nat) (file : OpenFile) (elf : ElfInfo) : Option OpenFile :=
  if elf.entryPoint < pageSize ∨ maxindex + 1 < totalPages elf then none
  else (assertSegment file (elf.segment false)).bind fun file => assertSegment file (elf.segment true)

/-! ### One segment -/

/-- The smallest number of pages with room for `memsz` bytes. -/
def pagesNeeded (memsz : Nat) : Nat := (memsz + (pageSize - 1)) / pageSize

/-- The bytes from `vaddr` on are on the pages that are mapped from there on. -/
def OnPages (vaddr pages size : Nat) : Prop :=
  ∀ k < size, ∃ page ∈ segmentPages vaddr pages, (vaddr + k) % 2 ^ 32 / pageSize = page / pageSize

/-- The memory size is at least a page below `2^32`, and the file size with the start of the
segment inside its first page does not exceed the memory size rounded up. -/
def Phdr.Fits (p : Phdr) : Prop :=
  p.memsz ≤ 2 ^ 32 - pageSize ∧ (p.filesz = 0 ∨ p.vaddr % pageSize + p.filesz ≤ pagesNeeded p.memsz * pageSize)

theorem pagesOf_exact (word : memsz < 2 ^ 32) : pagesOf memsz = pagesNeeded memsz ↔ memsz ≤ 2 ^ 32 - pageSize := by
  unfold pagesOf pagesNeeded pageSize
  omega

theorem onPages_iff (few : pages < 2 ^ 20) :
    OnPages vaddr pages size ↔ size = 0 ∨ vaddr % pageSize + size ≤ pages * pageSize := by
  constructor
  · intro covered
    by_contra outside
    have offset := Nat.mod_lt vaddr (by decide : 0 < pageSize)
    obtain ⟨page,member,same⟩ := covered (pages * pageSize - vaddr % pageSize) (by omega)
    obtain ⟨i,small,rfl⟩ := List.mem_map.mp member
    have := List.mem_range.mp small
    unfold pageSize at *
    omega
  · intro fits k small
    refine ⟨(vaddr + (vaddr % pageSize + k) / pageSize * pageSize) % 2 ^ 32,?_,?_⟩
    · refine List.mem_map.mpr ⟨(vaddr % pageSize + k) / pageSize,List.mem_range.mpr ?_,rfl⟩
      apply Nat.div_lt_of_lt_mul
      rw [Nat.mul_comm]
      omega
    · unfold pageSize
      omega

/-- A segment with the sizes of its header. -/
theorem fits_iff {p : Phdr} (word : p.memsz < 2 ^ 32) :
    p.Fits ↔ pagesOf p.memsz = pagesNeeded p.memsz ∧ p.filesz ≤ pagesOf p.memsz * pageSize ∧
      OnPages p.vaddr (pagesOf p.memsz) p.filesz := by
  have few : p.memsz ≤ 2 ^ 32 - pageSize → pagesNeeded p.memsz < 2 ^ 20 := by
    unfold pagesNeeded pageSize
    omega
  constructor
  · intro ⟨bounded,room⟩
    have pages := (pagesOf_exact word).mpr bounded
    rw [pages,onPages_iff (few bounded)]
    refine ⟨rfl,?_,room⟩
    omega
  · intro ⟨pages,_,covered⟩
    have bounded := (pagesOf_exact word).mp pages
    rw [pages,onPages_iff (few bounded)] at covered
    exact ⟨bounded,covered⟩

/-! ### Both segments -/

theorem headers_word (member : p ∈ table content stride) : p.memsz < 2 ^ 32 := by
  obtain ⟨i,_,rfl⟩ := List.mem_map.mp member
  simp only [headerAt,phdr]
  exact word_lt _ 5

theorem loads_type (p : Phdr) : p.type = ptLoad ↔ ∃ w, p.loads w = true := by
  simp [Phdr.loads]

theorem Table.only (good : Table content stride) (one : p ∈ table content stride) (loads : p.loads w = true)
    (two : q ∈ table content stride) (also_ : q.loads w = true) : q = p := by
  have few := good.once w
  rw [List.countP_eq_length_filter] at few
  have first : p ∈ (table content stride).filter (Phdr.loads w) := List.mem_filter.mpr ⟨one,loads⟩
  have second : q ∈ (table content stride).filter (Phdr.loads w) := List.mem_filter.mpr ⟨two,also_⟩
  obtain ⟨only,single⟩ := List.length_eq_one_iff.mp (Nat.le_antisymm few (List.length_pos_of_mem first))
  rw [single,List.mem_singleton] at first second
  rw [first,second]

/-- The pages of a segment are as many as its memory needs and its bytes go to these pages. -/
structure Exact (content : List UInt8) (elf : ElfInfo) (w : Bool) : Prop where
  pages : ∀ p ∈ table content sizeofPhdr, p.loads w = true → (elf.segment w).pages = pagesNeeded p.memsz
  absent : (∀ p ∈ table content sizeofPhdr, p.loads w = false) → (elf.segment w).pages = 0
  size : (elf.segment w).size ≤ (elf.segment w).pages * pageSize
  copied : OnPages (elf.segment w).vaddr (elf.segment w).pages (elf.segment w).size

theorem Result.exact_iff (result : Result content elf) (w : Bool) :
    Exact content elf w ↔ ∀ p ∈ Elf.table content sizeofPhdr, p.loads w = true → p.Fits := by
  have segment := result.segment w
  cases found : loaded (Elf.table content sizeofPhdr) w with
  | none =>
    have none_ : ∀ p ∈ Elf.table content sizeofPhdr, p.loads w ≠ true := List.find?_eq_none.mp found
    rw [found] at segment
    constructor
    · intro _ p member loads
      exact absurd loads (none_ p member)
    · intro _
      refine ⟨fun p member loads => absurd loads (none_ p member),?_,?_,?_⟩
      · intro _
        rw [segment]
        rfl
      · rw [segment]
        exact Nat.zero_le _
      · rw [segment]
        intro k small
        exact absurd small (Nat.not_lt_zero k)
  | some p =>
    have member := List.mem_of_find?_eq_some found
    have loads : p.loads w = true := by simpa using List.find?_some found
    rw [found] at segment
    have one := fits_iff (headers_word member)
    constructor
    · intro exact_ q other also_
      rw [result.table.only member loads other also_]
      have pages := exact_.pages p member loads
      have size := exact_.size
      have copied := exact_.copied
      rw [segment] at pages size copied
      exact one.mpr ⟨pages,size,copied⟩
    · intro fits
      obtain ⟨pages,size,copied⟩ := one.mp (fits p member loads)
      constructor
      · intro q other also_
        rw [result.table.only member loads other also_,segment]
        exact pages
      · intro none_
        rw [none_ p member] at loads
        cases loads
      · rw [segment]
        exact size
      · rw [segment]
        exact copied

theorem pagesOf_lt (memsz : Nat) : pagesOf memsz < 2 ^ 20 := by
  unfold pagesOf pageSize
  omega

/-- The sum of the pages does not wrap around. -/
theorem Result.total (result : Result content elf) :
    totalPages elf = elf.roPages + elf.rwPages + configUserlandStackSize := by
  have few : ∀ w, (elf.segment w).pages < 2 ^ 20 := by
    intro w
    rw [result.segment w]
    cases loaded (Elf.table content sizeofPhdr) w with
    | none => decide
    | some p => exact pagesOf_lt p.memsz
  have ro : elf.roPages < 2 ^ 20 := few false
  have rw_ : elf.rwPages < 2 ^ 20 := few true
  unfold totalPages configUserlandStackSize
  omega

/-- The sizes of an accepted executable are exact if and only if each loadable header's are. -/
theorem elf_sizes_exact (parsed : elfParseHeader ⟨content,0,small⟩ = some (some elf)) :
    ((∀ w, Exact content elf w) ∧ totalPages elf = elf.roPages + elf.rwPages + configUserlandStackSize) ↔
      ∀ p ∈ table content sizeofPhdr, p.type = ptLoad → p.Fits := by
  have result := elfParseHeader_accepted parsed
  simp only [result.exact_iff,result.total,and_true,loads_type]
  constructor
  · intro fits p member ⟨w,loads⟩
    exact fits w p member loads
  · intro fits w p member loads
    exact fits p member ⟨w,loads⟩

theorem elf_sizes_exact_bss : ∃ elf, elfParseHeader ⟨bssProgram,0,bssProgram_small⟩ = some (some elf) ∧
    (∀ w, Exact bssProgram elf w) ∧ totalPages elf = elf.roPages + elf.rwPages + configUserlandStackSize := by
  have parsed : (elfParseHeader ⟨bssProgram,0,bssProgram_small⟩).any Option.isSome = true := by decide +kernel
  obtain ⟨result,parsed,present⟩ := (Option.any_eq_true _ _).mp parsed
  obtain ⟨elf,rfl⟩ := Option.isSome_iff_exists.mp present
  refine ⟨elf,parsed,(elf_sizes_exact parsed).mpr ?_⟩
  unfold Phdr.Fits
  decide +kernel

/-- One byte in the file and none in memory. -/
def tightProgram : List UInt8 := ehdrBytes 0x1000 52 32 1 ++ phdrBytes 1 0 0x1000 1 0 5

/-- It passes the assertions, and the byte goes to a page that is not mapped. -/
theorem copy_escapes : ∃ elf file, elfParseHeader ⟨tightProgram,0,by decide +kernel⟩ = some (some elf) ∧
    assertImage 15 ⟨tightProgram,0,by decide +kernel⟩ elf = some file ∧
    ¬((∀ w, Exact tightProgram elf w) ∧
      totalPages elf = elf.roPages + elf.rwPages + configUserlandStackSize) := by
  have accepted : (elfParseHeader ⟨tightProgram,0,by decide +kernel⟩).any (fun result => result.any fun elf =>
      (assertImage 15 ⟨tightProgram,0,by decide +kernel⟩ elf).isSome && elf.roSize == 1 && elf.roPages == 0) = true := by
    decide +kernel
  obtain ⟨result,parsed,accepted⟩ := (Option.any_eq_true _ _).mp accepted
  obtain ⟨elf,rfl,accepted⟩ := (Option.any_eq_true _ _).mp accepted
  obtain ⟨accepted,pages⟩ := Bool.and_eq_true_iff.mp accepted
  obtain ⟨passed,size⟩ := Bool.and_eq_true_iff.mp accepted
  obtain ⟨file,passed⟩ := Option.isSome_iff_exists.mp passed
  refine ⟨elf,file,parsed,passed,fun ⟨exact_,_⟩ => ?_⟩
  have fits : elf.roSize ≤ elf.roPages * pageSize := (exact_ false).size
  rw [beq_iff_eq.mp size,beq_iff_eq.mp pages] at fits
  omega

end Buenos.Proc.Elf
