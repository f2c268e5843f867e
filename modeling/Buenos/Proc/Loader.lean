import Buenos.Vm.Tlb

/-! `process_start` of `proc/process.c` as the list of its statements. -/
namespace Buenos.Proc

open Buenos.Vm

def configUserlandStackSize : Nat := 1
def userlandStackTop : Nat := 0x7fffeffc

/-- `elf_info_t`; every field is below `2^32`. -/
structure ElfInfo where
  entryPoint : Nat
  roLocation : Nat
  roSize : Nat
  roPages : Nat
  roVaddr : Nat
  rwLocation : Nat
  rwSize : Nat
  rwPages : Nat
  rwVaddr : Nat
  deriving DecidableEq

structure Segment where
  location : Nat
  size : Nat
  pages : Nat
  vaddr : Nat
  deriving DecidableEq

def ElfInfo.segment (elf : ElfInfo) (writable : Bool) : Segment :=
  if writable then ⟨elf.rwLocation,elf.rwSize,elf.rwPages,elf.rwVaddr⟩
  else ⟨elf.roLocation,elf.roSize,elf.roPages,elf.roVaddr⟩

/-- The statements that concern pages, the TLB or the executable's open file. `map` takes a
page of the pool, `touch` stands for the stores of one `memoryset` or `vfs_read`. -/
inductive Stmt where
  | createPagetable
  | openExecutable
  | assert (holds : Bool)
  | map (vaddr : Nat)
  | fill
  | touch (vaddr size : Nat)
  | setDirty (vaddr : Nat) (dirty : Bool)
  | gotoUserland
  deriving DecidableEq

def segmentPages (base count : Nat) : List Nat :=
  (List.range count).map fun i => (base + i * pageSize) % 2 ^ 32

def stackPages : List Nat :=
  (List.range configUserlandStackSize).map fun i => userlandStackTop / pageSize * pageSize - i * pageSize

def stackBottom : Nat :=
  userlandStackTop / pageSize * pageSize - (configUserlandStackSize - 1) * pageSize

/-- `KERNEL_ASSERT(vaddr >= PAGE_SIZE)` and the read of a segment that is in the file. -/
def copySegment (size vaddr : Nat) : List Stmt :=
  if 0 < size then [.assert (decide (pageSize ≤ vaddr)), .touch vaddr size] else []

def mapImage (maxindex : Nat) (elf : ElfInfo) : List Stmt :=
  [.createPagetable, .openExecutable, .assert (decide (pageSize ≤ elf.entryPoint)),
    .assert (decide (elf.roPages + elf.rwPages + configUserlandStackSize ≤ maxindex + 1))] ++
  stackPages.map .map ++ [.fill] ++ (segmentPages elf.roVaddr elf.roPages).map .map ++
  (segmentPages elf.rwVaddr elf.rwPages).map .map

def fillImage (elf : ElfInfo) : List Stmt :=
  [.touch elf.roVaddr (elf.roPages * pageSize), .touch elf.rwVaddr (elf.rwPages * pageSize),
    .touch stackBottom (configUserlandStackSize * pageSize)] ++
  copySegment elf.roSize elf.roVaddr ++ copySegment elf.rwSize elf.rwVaddr

def protectImage (elf : ElfInfo) : List Stmt :=
  (segmentPages elf.roVaddr elf.roPages).map fun vaddr => .setDirty vaddr false

def processStart (maxindex : Nat) (elf : ElfInfo) : List Stmt :=
  mapImage maxindex elf ++ fillImage elf ++ protectImage elf ++ [.fill, .gotoUserland]

/-- The statement before the last one fills the TLB, and no other enters userland. -/
theorem before_goto (split : processStart maxindex elf = done ++ [stmt, .gotoUserland]) : stmt = .fill := by
  have tail : mapImage maxindex elf ++ fillImage elf ++ protectImage elf ++ [.fill, .gotoUserland] =
      done ++ [stmt, .gotoUserland] := split
  have same := List.append_inj_right' tail rfl
  simpa using same.symm

theorem goto_last (split : processStart maxindex elf = done ++ .gotoUserland :: rest) : rest = [] := by
  have absent : .gotoUserland ∉ mapImage maxindex elf ++ fillImage elf ++ protectImage elf ++ [.fill] := by
    simp only [mapImage,fillImage,protectImage,copySegment,List.mem_append,not_or]
    refine ⟨⟨⟨?_,?_⟩,?_⟩,?_⟩ <;> simp
  have whole : (mapImage maxindex elf ++ fillImage elf ++ protectImage elf ++ [.fill]) ++ [.gotoUserland] =
      done ++ .gotoUserland :: rest := by
    rw [← split]
    simp [processStart]
  obtain ⟨middle,_,last⟩ | ⟨middle,front,last⟩ := List.append_eq_append_iff.mp whole
  · cases middle with
    | nil => simpa using last.symm
    | cons a more => simp at last
  · cases middle with
    | nil => simpa using last
    | cons a more =>
      obtain ⟨rfl,_⟩ := List.cons_eq_cons.mp last
      exact absurd (front ▸ List.mem_append_right done List.mem_cons_self) absent

/-! ### Pages taken -/

def Stmt.takesFrame : Stmt → Bool
  | .map _ => true
  | _ => false

/-- One page for each page of the stack and of the segments. -/
theorem processStart_frames (maxindex : Nat) (elf : ElfInfo) :
    (processStart maxindex elf).countP Stmt.takesFrame =
      configUserlandStackSize + elf.roPages + elf.rwPages := by
  have maps : ∀ pages : List Nat, (pages.map Stmt.map).countP Stmt.takesFrame = pages.length := by
    intro pages
    rw [List.countP_map,List.countP_eq_length.mpr]
    intro page _
    rfl
  have dirty : ∀ pages : List Nat, (pages.map fun vaddr => Stmt.setDirty vaddr false).countP Stmt.takesFrame = 0 := by
    intro pages
    simp [List.countP_map,Function.comp_def,Stmt.takesFrame]
  have copies : ∀ size vaddr, (copySegment size vaddr).countP Stmt.takesFrame = 0 := by
    intro size vaddr
    unfold copySegment
    split <;> simp [Stmt.takesFrame]
  simp only [processStart,mapImage,fillImage,protectImage,List.countP_append,maps,dirty,copies]
  simp [Stmt.takesFrame,stackPages,segmentPages]

end Buenos.Proc
