import Buenos.Kernel.Kmalloc
import Buenos.Vm.Pagepool

/-! Kernel memory from boot on: `kmalloc` until `vm_init` of `vm/vm.c`, the page pool from there on. -/
namespace Buenos.Vm.KernelMemory

open Buenos.Foundation Buenos.Lib Buenos.Kernel.Kmalloc

/-! ### The code -/

def kmallocDisable (area : Area) : Area := { area with freeAreaStart := 0xffffffff }

/-- Until `vm_init` there is no pool. `ranges` is what `kmalloc` has returned, and `out` are the
pages handed out and not freed since. -/
structure State where
  area : Area
  ranges : List Range
  pool : Option Pagepool
  out : List Nat

inductive Action where
  | kmalloc (bytes : Int)
  | vmInit
  | pool (call : PoolCall)

/-- `pagepool_init` and `kmalloc_disable`; the pages are counted after the bitmap has been placed. -/
def vmInit (numPages : Nat) (memory : Bytes) (s : State) : Option State :=
  (Kernel.Kmalloc.step (bitmapSizeof numPages) ⟨s.area,s.ranges⟩).map fun t =>
    ⟨kmallocDisable t.area,t.ranges,some (pagepoolInit numPages (kmallocGetReservedPages t.area) memory),[]⟩

/-- `memory` is what is in the memory that the bitmap gets. -/
def step (numPages : Nat) (memory : Bytes) (a : Action) (s : State) : Option State :=
  match a with
  | .kmalloc bytes => (Kernel.Kmalloc.step bytes ⟨s.area,s.ranges⟩).map fun t => { s with area := t.area, ranges := t.ranges }
  | .vmInit => vmInit numPages memory s
  | .pool call =>
    s.pool.bind fun pool => (poolStep call ⟨pool,s.out⟩).map fun t => { s with pool := some t.pool, out := t.out }

/-- What is asked for does not wrap around the address space, and what is freed is memory. -/
def Permitted (numPages : Nat) (a : Action) (s : State) : Prop :=
  match a with
  | .kmalloc bytes => Fits bytes ⟨s.area,s.ranges⟩
  | .vmInit => Fits (bitmapSizeof numPages) ⟨s.area,s.ranges⟩
  | .pool (.free physAddr) => physAddr < numPages * pageSize
  | .pool .get => True

instance (numPages : Nat) (a : Action) (s : State) : Decidable (Permitted numPages a s) :=
  match a with
  | .kmalloc bytes => inferInstanceAs (Decidable (Fits bytes _))
  | .vmInit => inferInstanceAs (Decidable (Fits (bitmapSizeof numPages) _))
  | .pool (.free physAddr) => inferInstanceAs (Decidable (physAddr < numPages * pageSize))
  | .pool .get => instDecidableTrue

/-- After `kmalloc_init`. -/
def boot (numPages kernelEnd : Nat) : State := ⟨kmallocInit numPages kernelEnd,[],none,[]⟩

/-! ### The invariant -/

/-- The addresses of a page in the unmapped segment. -/
def OnPage (p address : Nat) : Prop := kernelBase + p * pageSize ≤ address ∧ address < kernelBase + (p + 1) * pageSize

/-- `kmalloc` is over: the pool has the pages behind the kernel and all ranges. -/
structure Running (numPages kernelEnd memoryEnd : Nat) (s : State) (pool : Pagepool) (reserved : Nat) : Prop where
  here : s.pool = some pool
  disabled : s.area.freeAreaStart = 0xffffffff
  pages : PoolInvariant numPages reserved ⟨pool,s.out⟩
  positive : 1 ≤ reserved
  covers : Covers kernelEnd s.ranges reserved
  disjoint : s.ranges.Pairwise fun a b => ∀ address, ¬(a.Has address ∧ b.Has address)
  inside : ∀ r ∈ s.ranges, kernelEnd ≤ r.start ∧ (r.start + r.bytes : Int) ≤ memoryEnd

def Invariant (numPages kernelEnd memoryEnd : Nat) (s : State) : Prop :=
  (s.pool = none ∧ s.out = [] ∧ ∃ top, Grows kernelEnd memoryEnd ⟨s.area,s.ranges⟩ top) ∨
  ∃ pool reserved, Running numPages kernelEnd memoryEnd s pool reserved

/-- Both parts of memory are used without overlap. -/
structure Apart (numPages kernelEnd memoryEnd : Nat) (s : State) : Prop where
  disjoint : s.ranges.Pairwise fun a b => ∀ address, ¬(a.Has address ∧ b.Has address)
  inside : ∀ r ∈ s.ranges, kernelEnd ≤ r.start ∧ (r.start + r.bytes : Int) ≤ memoryEnd
  once : s.out.Nodup
  pages : ∀ p ∈ s.out, p < numPages ∧ ∀ address, OnPage p address → kernelEnd ≤ address ∧ ∀ r ∈ s.ranges, ¬r.Has address
  disabled : s.pool ≠ none → ∀ bytes, kmalloc bytes s.area = none

theorem kmalloc_disabled (disabled : area.freeAreaStart = 0xffffffff) (bytes : Int) : kmalloc bytes area = none := by
  rw [kmalloc,if_pos (.inl disabled)]

theorem Running.apart (running : Running numPages kernelEnd memoryEnd s pool reserved) :
    Apart numPages kernelEnd memoryEnd s := by
  refine ⟨running.disjoint,running.inside,running.pages.once,fun p member => ?_,fun _ bytes => kmalloc_disabled running.disabled bytes⟩
  obtain ⟨high,low⟩ := running.pages.inside p member
  obtain ⟨kernel,all⟩ := running.covers
  have behind : kernelBase + reserved * pageSize ≤ kernelBase + p * pageSize :=
    Nat.add_le_add_left (Nat.mul_le_mul_right pageSize high) kernelBase
  refine ⟨low,fun address ⟨first,_⟩ => ⟨by omega,fun r range has => ?_⟩⟩
  have := all r range address has
  omega

theorem Invariant.apart (invariant : Invariant numPages kernelEnd memoryEnd s) : Apart numPages kernelEnd memoryEnd s := by
  obtain ⟨early,none,top,grows⟩ | ⟨pool,reserved,running⟩ := invariant
  · refine ⟨grows.disjoint,grows.inside,by rw [none]; exact List.nodup_nil,?_,fun late => absurd early late⟩
    rw [none]
    exact fun p member => absurd member List.not_mem_nil
  · exact running.apart

section Step
variable {numPages kernelEnd : Nat} {memory : Bytes} {s t : State}

theorem memoryEnd_word (numPages kernelEnd : Nat) :
    (kmallocInit numPages kernelEnd).memoryEnd % 4 = 0 ∧ (kmallocInit numPages kernelEnd).memoryEnd < 2 ^ 32 := by
  unfold kmallocInit kernelBase pageSize
  simp only
  omega

theorem reserved_le (grows : Grows kernelEnd (kmallocInit numPages kernelEnd).memoryEnd u top) (base : kernelBase < kernelEnd) :
    1 ≤ kmallocGetReservedPages u.area ∧ kmallocGetReservedPages u.area ≤ numPages := by
  have low := grows.low
  have above := grows.above
  have high := grows.high
  have less : numPages * pageSize % 2 ^ 32 ≤ numPages * pageSize := Nat.mod_le _ _
  have ending : (kmallocInit numPages kernelEnd).memoryEnd = (kernelBase + numPages * pageSize % 2 ^ 32) % 2 ^ 32 := rfl
  have bounded : (kernelBase + numPages * pageSize % 2 ^ 32) % 2 ^ 32 ≤ kernelBase + numPages * pageSize % 2 ^ 32 := Nat.mod_le _ _
  have start : (u.area.freeAreaStart + 2 ^ 32 - kernelBase) % 2 ^ 32 = u.area.freeAreaStart - kernelBase := by
    unfold kernelBase at *
    omega
  rw [kmallocGetReservedPages,start]
  unfold pageSize at *
  split <;> omega

theorem vmInit_running (grows : Grows kernelEnd (kmallocInit numPages kernelEnd).memoryEnd ⟨s.area,s.ranges⟩ top)
    (base : kernelBase < kernelEnd) (fits : Fits (bitmapSizeof numPages) ⟨s.area,s.ranges⟩)
    (next : vmInit numPages memory s = some t) :
    ∃ pool reserved, Running numPages kernelEnd (kmallocInit numPages kernelEnd).memoryEnd t pool reserved := by
  obtain ⟨u,placed,rfl⟩ := Option.map_eq_some_iff.mp next
  obtain ⟨page,small⟩ := memoryEnd_word numPages kernelEnd
  obtain ⟨top,grown⟩ := grows.step page small fits placed
  obtain ⟨positive,enough⟩ := reserved_le grown base
  have allocated := grown.allocated (Nat.le_of_lt base) small
  exact ⟨_,_,rfl,rfl,initial_poolInvariant enough memory,positive,allocated.reserved.1,allocated.disjoint,allocated.inside⟩

theorem step_invariant (base : kernelBase < kernelEnd)
    (invariant : Invariant numPages kernelEnd (kmallocInit numPages kernelEnd).memoryEnd s) (permitted : Permitted numPages a s)
    (next : step numPages memory a s = some t) : Invariant numPages kernelEnd (kmallocInit numPages kernelEnd).memoryEnd t := by
  obtain ⟨page,small⟩ := memoryEnd_word numPages kernelEnd
  obtain ⟨early,none,top,grows⟩ | ⟨pool,reserved,running⟩ := invariant
  · cases a with
    | kmalloc bytes =>
      obtain ⟨u,got,rfl⟩ := Option.map_eq_some_iff.mp next
      exact .inl ⟨early,none,grows.step page small permitted got⟩
    | vmInit => exact .inr (vmInit_running grows base permitted next)
    | pool call =>
      rw [step,early] at next
      contradiction
  · have panics : ∀ bytes, Kernel.Kmalloc.step bytes ⟨s.area,s.ranges⟩ = Option.none := by
      intro bytes
      rw [Kernel.Kmalloc.step,kmalloc_disabled running.disabled]
      rfl
    cases a with
    | kmalloc bytes =>
      rw [step,panics,Option.map_none] at next
      exact absurd next (Option.some_ne_none t).symm
    | vmInit =>
      rw [step,vmInit,panics,Option.map_none] at next
      exact absurd next (Option.some_ne_none t).symm
    | pool call =>
      rw [step,running.here,Option.bind_some] at next
      obtain ⟨u,took,rfl⟩ := Option.map_eq_some_iff.mp next
      have below : ∀ physAddr, call = .free physAddr → physAddr < numPages * pageSize := by
        rintro physAddr rfl
        exact permitted
      exact .inr ⟨u.pool,reserved,rfl,running.disabled,poolStep_invariant running.positive running.pages below took,
        running.positive,running.covers,running.disjoint,running.inside⟩

end Step

/-- From boot on: what `kmalloc` returns and the pages of the pool are memory behind the kernel,
nothing of it is given away twice, and once there is a pool `kmalloc` panics. -/
theorem memory_apart (numPages kernelEnd : Nat) (memory : Bytes) (base : kernelBase < kernelEnd)
    (fits : kernelEnd ≤ (kmallocInit numPages kernelEnd).memoryEnd)
    (meets : Meets (step numPages memory) (Permitted numPages) actions (boot numPages kernelEnd))
    (ran : run (step numPages memory) actions (boot numPages kernelEnd) = some s) :
    Apart numPages kernelEnd (kmallocInit numPages kernelEnd).memoryEnd s := by
  obtain ⟨_,small⟩ := memoryEnd_word numPages kernelEnd
  obtain ⟨word,above,next⟩ := align_spec kernelEnd (by omega)
  have initial : Invariant numPages kernelEnd (kmallocInit numPages kernelEnd).memoryEnd (boot numPages kernelEnd) := by
    have room : align kernelEnd ≤ (kmallocInit numPages kernelEnd).memoryEnd := by omega
    refine .inl ⟨rfl,rfl,kernelEnd,rfl,word,above,next,Nat.le_refl _,room,?_,.inl rfl,.nil,?_,?_⟩
    all_goals exact fun r member => absurd member List.not_mem_nil
  have reached := run_guarded (fun a s t invariant permitted next => step_invariant base invariant permitted next) initial meets ran
  exact reached.apart

/-- 32 pages of memory and a kernel of 16 of them: after two requests and the bitmap the pool starts
with page 17. -/
def sampleActions : List Action := [.kmalloc 8,.kmalloc 3,.vmInit,.pool .get,.pool .get,.pool (.free 69632)]

theorem memory_apart_sample : ∃ s, run (step 32 fun _ => 255) sampleActions (boot 32 0x80010000) = some s ∧ s.out = [18] ∧
    Apart 32 0x80010000 0x80020000 s := by
  have meets : Meets (step 32 fun _ => 255) (Permitted 32) sampleActions (boot 32 0x80010000) := by decide +kernel
  have whole : ((run (step 32 fun _ => 255) sampleActions (boot 32 0x80010000)).any fun s => s.out = [18]) = true := by
    decide +kernel
  obtain ⟨s,ran,out⟩ := (Option.any_eq_true _ _).mp whole
  exact ⟨s,ran,of_decide_eq_true out,memory_apart 32 0x80010000 (fun _ => 255) (by decide) (by decide) meets ran⟩

end Buenos.Vm.KernelMemory
