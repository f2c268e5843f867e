import Buenos.Foundation.Int32
import Buenos.Foundation.Run
import Mathlib.Logic.Function.Basic

/-! The heap of the userland C library in `tests/lib.c`. The headers of the blocks are in the
memory that is handed out. -/
namespace Buenos.Userland

open Buenos.Foundation

/-- `sizeof(free_block_t)` -/
def minAllocSize : Nat := 8

/-- `mem` are the words of the memory by address; `free_block_t` has its size in the first
word and the address of the next free block in the second. -/
structure Heap where
  mem : Nat → Nat
  freeList : Nat

def Heap.set (h : Heap) (addr value : Nat) : Heap := { h with mem := Function.update h.mem addr value }

/-- `block->next` -/
def Heap.next (h : Heap) (block : Nat) : Nat := h.mem (block + 4)

def heapInit (heap heapSize : Nat) (mem : Nat → Nat) : Heap :=
  Heap.set (Heap.set ⟨mem,heap⟩ heap heapSize) (heap + 4) 0

/-- `*prev_p = block`, where `none` is the address of `free_list`. -/
def Heap.link (h : Heap) (prev : Option Nat) (block : Nat) : Heap :=
  match prev with
  | none => { h with freeList := block }
  | some p => h.set (p + 4) block

/-- Big enough for the bookkeeping, and word-aligned. -/
def allocSize (size : Nat) : Nat :=
  if max minAllocSize size % 4 ≠ 0 then (max minAllocSize size / 4 * 4 + 4) % 2 ^ 32 else max minAllocSize size

/-- The loop of `malloc`; `none` if it does not end within the given turns. -/
def mallocLoop (size : Nat) (h : Heap) : Nat → Option Nat → Nat → Option (Nat × Heap)
  | 0, _, _ => none
  | turns + 1, prev, block =>
    if block = 0 then some (0, h)
    else if toS32 (toU32 (h.mem block - size - 4)) ≥ minAllocSize + 4 then
      let left := toU32 (h.mem block - (size + 4))
      some (block + left + 4, (h.set block left).set (block + left) (toU32 (size + 4)))
    else if h.mem block ≥ toU32 (size + 4) then some (block + 4, h.link prev (h.next block))
    else mallocLoop size h turns (some block) (h.next block)

def malloc (turns size : Nat) (h : Heap) : Option (Nat × Heap) :=
  if size = 0 then some (0, h) else mallocLoop (allocSize size) h turns none h.freeList

/-- Put a block between two others, of which either may be missing. -/
def insertBlock (block prev cur : Nat) (h : Heap) : Heap :=
  (if prev = 0 then { h with freeList := block } else h.set (prev + 4) block).set (block + 4) cur

/-- Merge with the previous block; the block to go on with comes first. -/
def mergePrevious (block prev cur : Nat) (h : Heap) : Nat × Heap :=
  if prev ≠ 0 ∧ block - prev = h.mem prev then
    (prev, (h.set prev (toU32 (h.mem prev + h.mem block))).set (prev + 4) cur)
  else (block, h)

def mergeNext (block cur : Nat) (h : Heap) : Heap :=
  if cur ≠ 0 ∧ cur - block = h.mem block then
    let h := h.set block (toU32 (h.mem block + h.mem cur))
    h.set (block + 4) (h.next cur)
  else h

/-- The loop of `free`. -/
def freeLoop (block : Nat) (h : Heap) : Nat → Nat → Nat → Option Heap
  | 0, _, _ => none
  | turns + 1, prev, cur =>
    if cur > block ∨ cur = 0 then
      let (merged, h) := mergePrevious block prev cur (insertBlock block prev cur h)
      some (mergeNext merged cur h)
    else freeLoop block h turns cur (h.next cur)

def free (turns ptr : Nat) (h : Heap) : Option Heap :=
  if ptr = 0 then some h else freeLoop (ptr - 4) h turns 0 h.freeList

/-! ### Programs that use the heap -/

/-- `live` are the pointers that `malloc` returned and that were not freed since. -/
structure Memory where
  heap : Heap
  live : List Nat

inductive Event where
  | malloc (size : Nat)
  | free (ptr : Nat)
  /-- The program writes a word of a block that it has. -/
  | store (ptr addr value : Nat)

def step (turns : Nat) (e : Event) (s : Memory) : Option Memory :=
  match e with
  | .malloc size => (malloc turns size s.heap).map fun (ptr, heap) =>
    ⟨heap,if ptr = 0 then s.live else ptr :: s.live⟩
  | .free ptr =>
    if ptr ∈ s.live then (free turns ptr s.heap).map fun heap => ⟨heap,s.live.erase ptr⟩ else none
  | .store ptr addr value =>
    if ptr ∈ s.live ∧ addr % 4 = 0 ∧ ptr ≤ addr ∧ addr < ptr - 4 + s.heap.mem (ptr - 4) then
      some { s with heap := s.heap.set addr value }
    else none

end Buenos.Userland
