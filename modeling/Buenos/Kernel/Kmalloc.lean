import Buenos.Foundation.Int32
import Buenos.Foundation.Run
import Buenos.Vm.Tlb
import Mathlib.Order.Bounds.Defs

/-! Permanent kernel memory, `kernel/kmalloc.c`. Addresses are words; a panic is `none`. -/
namespace Buenos.Kernel.Kmalloc

open Buenos.Foundation Buenos.Vm

/-- The two variables of the module. -/
structure Area where
  freeAreaStart : Nat
  memoryEnd : Nat
  deriving DecidableEq

/-- Where the unmapped segment starts. -/
def kernelBase : Nat := 0x80000000

/-- `if (free_area_start & 0x03) { free_area_start += 4; free_area_start &= 0xfffffffc; }` -/
def align (start : Nat) : Nat := if start % 4 ≠ 0 then (start + 4) % 2 ^ 32 / 4 * 4 else start

/-- With as many pages of memory as the device says, and the kernel image up to `kernelEnd`. -/
def kmallocInit (numPages kernelEnd : Nat) : Area :=
  ⟨align kernelEnd,(kernelBase + numPages * pageSize % 2 ^ 32) % 2 ^ 32⟩

def kmalloc (bytes : Int) (area : Area) : Option (Nat × Area) :=
  if area.freeAreaStart = 0xffffffff ∨ area.freeAreaStart = 0 ∨ bytes < 0 then none
  else if (area.freeAreaStart + toU32 bytes) % 2 ^ 32 > area.memoryEnd then none
  else some (area.freeAreaStart, { area with
    freeAreaStart := align ((area.freeAreaStart + toU32 bytes) % 2 ^ 32) })

def kmallocGetReservedPages (area : Area) : Nat :=
  let reserved := (area.freeAreaStart + 2 ^ 32 - kernelBase) % 2 ^ 32
  reserved / pageSize + if reserved % pageSize ≠ 0 then 1 else 0

/-- What a call returned, and how many bytes it was asked for. -/
structure Range where
  start : Nat
  bytes : Int
  deriving DecidableEq

def Range.Has (r : Range) (address : Nat) : Prop := r.start ≤ address ∧ (address : Int) < r.start + r.bytes

structure State where
  area : Area
  ranges : List Range
  deriving DecidableEq

def step (bytes : Int) (s : State) : Option State :=
  (kmalloc bytes s.area).map fun (start, area) => ⟨area,⟨start,bytes⟩ :: s.ranges⟩

/-- That many pages cover the kernel and all the ranges. -/
def Covers (kernelEnd : Nat) (ranges : List Range) (pages : Nat) : Prop :=
  kernelEnd ≤ kernelBase + pages * pageSize ∧
    ∀ r ∈ ranges, ∀ address, r.Has address → address < kernelBase + pages * pageSize

structure Allocated (kernelEnd memoryEnd : Nat) (s : State) : Prop where
  disjoint : s.ranges.Pairwise fun a b => ∀ address, ¬(a.Has address ∧ b.Has address)
  aligned : ∀ r ∈ s.ranges, r.start % 4 = 0
  inside : ∀ r ∈ s.ranges, kernelEnd ≤ r.start ∧ (r.start + r.bytes : Int) ≤ memoryEnd
  reserved : IsLeast {pages | Covers kernelEnd s.ranges pages} (kmallocGetReservedPages s.area)

/-- The end of the new range does not wrap around. -/
def Fits (bytes : Int) (s : State) : Prop := s.area.freeAreaStart + bytes < 2 ^ 32

instance (bytes : Int) (s : State) : Decidable (Fits bytes s) :=
  inferInstanceAs (Decidable ((s.area.freeAreaStart : Int) + bytes < 2 ^ 32))

/-! ### The invariant -/

theorem align_spec (start : Nat) (small : start + 4 ≤ 2 ^ 32) :
    align start % 4 = 0 ∧ start ≤ align start ∧ align start < start + 4 := by
  unfold align
  split <;> omega

/-- `top` is the end of the kernel and the ranges, the free area the first word behind it. -/
structure Grows (kernelEnd memoryEnd : Nat) (s : State) (top : Nat) : Prop where
  ending : s.area.memoryEnd = memoryEnd
  word : s.area.freeAreaStart % 4 = 0
  above : top ≤ s.area.freeAreaStart
  next : s.area.freeAreaStart < top + 4
  low : kernelEnd ≤ top
  high : s.area.freeAreaStart ≤ memoryEnd
  below : ∀ r ∈ s.ranges, ∀ address, r.Has address → address < top
  last : top = kernelEnd ∨ ∃ r ∈ s.ranges, r.Has (top - 1)
  disjoint : s.ranges.Pairwise fun a b => ∀ address, ¬(a.Has address ∧ b.Has address)
  aligned : ∀ r ∈ s.ranges, r.start % 4 = 0
  inside : ∀ r ∈ s.ranges, kernelEnd ≤ r.start ∧ (r.start + r.bytes : Int) ≤ memoryEnd

section Layout
variable {kernelEnd memoryEnd : Nat} {s t : State}

theorem Grows.allocated (grows : Grows kernelEnd memoryEnd s top) (base : kernelBase ≤ kernelEnd)
    (small : memoryEnd < 2 ^ 32) : Allocated kernelEnd memoryEnd s := by
  obtain ⟨ending,word,above,next,low,high,below,last,disjoint,aligned,inside⟩ := grows
  have start : (s.area.freeAreaStart + 2 ^ 32 - kernelBase) % 2 ^ 32 = s.area.freeAreaStart - kernelBase := by
    unfold kernelBase at *
    omega
  refine ⟨disjoint,aligned,inside,?_,?_⟩
  · have room : s.area.freeAreaStart ≤ kernelBase + kmallocGetReservedPages s.area * pageSize := by
      rw [kmallocGetReservedPages,start]
      unfold pageSize
      split <;> omega
    refine ⟨by omega,?_⟩
    intro r member address has
    have := below r member address has
    omega
  · rintro pages ⟨kernel,all⟩
    have covered : top ≤ kernelBase + pages * pageSize := by
      rcases last with rfl | ⟨r,member,has⟩
      · exact kernel
      · have := all r member (top - 1) has
        omega
    rw [kmallocGetReservedPages,start]
    unfold pageSize kernelBase at *
    split <;> omega

/-- A call whose range does not wrap around. -/
theorem Grows.step (grows : Grows kernelEnd memoryEnd s top) (page : memoryEnd % 4 = 0) (small : memoryEnd < 2 ^ 32)
    (fits : Fits bytes s) (next : step bytes s = some t) : ∃ top, Grows kernelEnd memoryEnd t top := by
  obtain ⟨⟨start,area⟩,got,rfl⟩ := Option.map_eq_some_iff.mp next
  unfold kmalloc at got
  split at got
  · contradiction
  next guard =>
  split at got
  · contradiction
  next room =>
  obtain ⟨rfl,rfl⟩ := Prod.mk.inj (Option.some.inj got)
  obtain ⟨ending,word,above,following,low,high,below,last,disjoint,aligned,inside⟩ := grows
  simp only [not_or] at guard
  have words : toU32 bytes = bytes.toNat := by
    unfold Fits at fits
    apply toU32_small <;> omega
  unfold Fits at fits
  have sum : (s.area.freeAreaStart + toU32 bytes) % 2 ^ 32 = s.area.freeAreaStart + bytes.toNat := by
    rw [words,Nat.mod_eq_of_lt (by omega)]
  rw [sum] at room ⊢
  obtain ⟨word',above',next'⟩ := align_spec (s.area.freeAreaStart + bytes.toNat) (by omega)
  have fresh : ∀ r ∈ s.ranges, ∀ address,
      ¬((⟨s.area.freeAreaStart,bytes⟩ : Range).Has address ∧ r.Has address) := by
    rintro r member address ⟨first,second⟩
    have := below r member address second
    have := first.1
    simp only at this
    omega
  have end' : align (s.area.freeAreaStart + bytes.toNat) ≤ memoryEnd := by omega
  by_cases empty : bytes = 0
  · subst empty
    have same : align (s.area.freeAreaStart + (0 : Int).toNat) = s.area.freeAreaStart := if_neg (by simp [word])
    have none : ∀ address, ¬(⟨s.area.freeAreaStart,0⟩ : Range).Has address := by
      rintro address ⟨first,second⟩
      simp only at first second
      omega
    refine ⟨top,ending,?_,?_,?_,low,?_,?_,?_,?_,?_,?_⟩
    · rw [same]; exact word
    · rw [same]; exact above
    · rw [same]; exact following
    · rw [same]; exact high
    · exact List.forall_mem_cons.mpr ⟨fun address has => absurd has (none address),below⟩
    · exact last.imp_right fun ⟨r,member,has⟩ => ⟨r,List.mem_cons_of_mem _ member,has⟩
    · exact List.pairwise_cons.mpr ⟨fresh,disjoint⟩
    · exact List.forall_mem_cons.mpr ⟨word,aligned⟩
    · exact List.forall_mem_cons.mpr ⟨⟨by simp only; omega,by simp only; omega⟩,inside⟩
  · refine ⟨s.area.freeAreaStart + bytes.toNat,ending,word',above',next',by omega,end',?_,.inr ?_,?_,?_,?_⟩
    · refine List.forall_mem_cons.mpr ⟨?_,?_⟩
      · rintro address ⟨_,second⟩
        simp only at second
        omega
      · intro r member address has
        have := below r member address has
        omega
    · refine ⟨_,List.mem_cons_self,?_⟩
      unfold Range.Has
      simp only
      omega
    · exact List.pairwise_cons.mpr ⟨fresh,disjoint⟩
    · exact List.forall_mem_cons.mpr ⟨word,aligned⟩
    · exact List.forall_mem_cons.mpr ⟨⟨by simp only; omega,by simp only; omega⟩,inside⟩

/-- A range that wraps around ends behind the memory. -/
theorem fits_of_inside (next : step bytes s = some t) (small : memoryEnd < 2 ^ 32)
    (allocated : Allocated kernelEnd memoryEnd t) : Fits bytes s := by
  obtain ⟨⟨start,area⟩,got,rfl⟩ := Option.map_eq_some_iff.mp next
  have range := (allocated.inside _ List.mem_cons_self).2
  unfold kmalloc at got
  split at got
  · contradiction
  split at got
  · contradiction
  obtain ⟨rfl,rfl⟩ := Prod.mk.inj (Option.some.inj got)
  unfold Fits
  simp only at range
  omega

end Layout

/-- The ranges that `kmalloc` returns are proper just when none of them wraps around. -/
theorem kmalloc_disjoint (numPages kernelEnd : Nat) (base : kernelBase ≤ kernelEnd)
    (fits : kernelEnd ≤ (kmallocInit numPages kernelEnd).memoryEnd)
    (ran : run step calls ⟨kmallocInit numPages kernelEnd,[]⟩ = some final) :
    Meets step Fits calls ⟨kmallocInit numPages kernelEnd,[]⟩ ↔
      ∀ n s, run step (calls.take n) ⟨kmallocInit numPages kernelEnd,[]⟩ = some s →
        Allocated kernelEnd (kmallocInit numPages kernelEnd).memoryEnd s := by
  have page : (kmallocInit numPages kernelEnd).memoryEnd % 4 = 0 := by
    unfold kmallocInit kernelBase pageSize
    simp only
    omega
  have small : (kmallocInit numPages kernelEnd).memoryEnd < 2 ^ 32 := Nat.mod_lt _ (by decide)
  obtain ⟨word,above,next⟩ := align_spec kernelEnd (by omega)
  have initial : ∃ top, Grows kernelEnd (kmallocInit numPages kernelEnd).memoryEnd
      ⟨kmallocInit numPages kernelEnd,[]⟩ top := by
    refine ⟨kernelEnd,rfl,word,above,next,Nat.le_refl _,?_,?_,.inl rfl,.nil,?_,?_⟩
    · change align kernelEnd ≤ _
      omega
    all_goals exact fun r member => absurd member List.not_mem_nil
  have enough : ∀ s, (∃ top, Grows kernelEnd (kmallocInit numPages kernelEnd).memoryEnd s top) →
      Allocated kernelEnd (kmallocInit numPages kernelEnd).memoryEnd s := by
    rintro s ⟨top,grows⟩
    exact grows.allocated base small
  have exact_ : ∀ bytes s t, (∃ top, Grows kernelEnd (kmallocInit numPages kernelEnd).memoryEnd s top) →
      step bytes s = some t →
      (Fits bytes s → ∃ top, Grows kernelEnd (kmallocInit numPages kernelEnd).memoryEnd t top) ∧
      (Allocated kernelEnd (kmallocInit numPages kernelEnd).memoryEnd t → Fits bytes s) := by
    rintro bytes s t ⟨top,grows⟩ next
    exact ⟨fun ok => grows.step page small ok next,fits_of_inside next small⟩
  exact run_exact enough exact_ initial ran

/-- Two small requests, the second of them not of whole words. -/
theorem kmalloc_disjoint_two : ∃ s, run step [8,3] ⟨kmallocInit 32 0x80010000,[]⟩ = some s ∧
    s.ranges = [⟨0x80010008,3⟩,⟨0x80010000,8⟩] ∧ Allocated 0x80010000 0x80020000 s := by
  have ran : run step [8,3] ⟨kmallocInit 32 0x80010000,[]⟩ =
      some ⟨⟨0x8001000c,0x80020000⟩,[⟨0x80010008,3⟩,⟨0x80010000,8⟩]⟩ := by decide +kernel
  have meets : Meets step Fits [8,3] ⟨kmallocInit 32 0x80010000,[]⟩ := by decide +kernel
  exact ⟨_,ran,rfl,(kmalloc_disjoint 32 0x80010000 (by decide) (by decide) ran).mp meets 2 _ ran⟩

/-- The end of a large range wraps around to 0, and nothing panics. -/
theorem kmalloc_wraps : ∃ s, run step [0x7fff0000] ⟨kmallocInit 4096 0x80010000,[]⟩ = some s ∧
    ¬Allocated 0x80010000 (kmallocInit 4096 0x80010000).memoryEnd s := by
  refine ⟨⟨⟨0,0x81000000⟩,[⟨0x80010000,0x7fff0000⟩]⟩,by decide +kernel,?_⟩
  intro allocated
  have outside := (allocated.inside _ List.mem_cons_self).2
  revert outside
  decide +kernel

end Buenos.Kernel.Kmalloc
