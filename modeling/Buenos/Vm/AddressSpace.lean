import Buenos.Foundation.Bytes
import Buenos.Vm.PageMap

/-! Physical memory as it is seen through a page table whose entries are in the TLB. -/
namespace Buenos.Vm

open Buenos.Foundation

/-- The half of an entry that maps the page of `vaddr`. -/
def Pagetable.lookup (pt : Pagetable) (vaddr : Nat) : Option Half :=
  (pt.findPair vaddr).bind fun i =>
    if ((pt.entries i).half vaddr).v then some ((pt.entries i).half vaddr) else none

def Half.address (half : Half) (vaddr : Nat) : Nat := half.pfn * pageSize + vaddr % pageSize

/-- The byte at an address, `none` if its page is not mapped. -/
def loadByte (pt : Pagetable) (memory : Bytes) (vaddr : Nat) : Option UInt8 :=
  (pt.lookup vaddr).map fun half => memory (half.address vaddr)

/-- A store to a page that is not mapped or is write protected is a TLB exception: `none`. -/
def storeByte (pt : Pagetable) (vaddr : Nat) (b : UInt8) (memory : Bytes) : Option Bytes :=
  match pt.lookup vaddr with
  | none => none
  | some half => if half.d then some (Function.update memory (half.address vaddr) b) else none

/-- One byte after the other, from `vaddr` on. -/
def storeBytes (pt : Pagetable) : Nat → List UInt8 → Bytes → Option Bytes
  | _, [], memory => some memory
  | vaddr, b :: rest, memory => (storeByte pt vaddr b memory).bind (storeBytes pt ((vaddr + 1) % 2 ^ 32) rest)

def distance (vaddr other : Nat) : Nat := (other + 2 ^ 32 - vaddr) % 2 ^ 32

/-- Different pages are in different frames. -/
def Pagetable.Apart (pt : Pagetable) : Prop :=
  ∀ vaddr other half half', pt.Maps vaddr half → pt.Maps other half' → half.pfn = half'.pfn →
    vaddr / pageSize = other / pageSize

section Lookup
variable {pt : Pagetable} {memory memory' : Bytes} {vaddr other : Nat} {half : Half} {b : UInt8}

theorem lookup_eq_some (formed : pt.WellFormed) : pt.lookup vaddr = some half ↔ pt.Maps vaddr half := by
  unfold Pagetable.lookup
  constructor
  · intro found
    obtain ⟨i,here,valid⟩ := Option.bind_eq_some_iff.mp found
    obtain ⟨inside,named⟩ := findPair_some here
    split at valid
    · next v =>
      cases valid
      exact ⟨i,inside,named,rfl,v⟩
    · contradiction
  · rintro ⟨i,inside,named,rfl,valid⟩
    cases found : pt.findPair vaddr with
    | none => exact absurd named (findPair_none found i inside)
    | some j =>
      obtain ⟨small,called⟩ := findPair_some found
      obtain rfl := formed.once i j inside small (named.trans called.symm)
      rw [Option.bind_some,if_pos valid]

theorem loadByte_eq_some (formed : pt.WellFormed) (maps : pt.Maps vaddr half) :
    loadByte pt memory vaddr = some (memory (half.address vaddr)) := by
  rw [loadByte,(lookup_eq_some formed).mpr maps,Option.map_some]

theorem storeByte_load (formed : pt.WellFormed) (apart : pt.Apart) (stored : storeByte pt vaddr b memory = some memory')
    (other : Nat) : loadByte pt memory' other = if other = vaddr then some b else loadByte pt memory other := by
  unfold storeByte at stored
  split at stored
  · contradiction
  next half found =>
  split at stored
  swap
  · contradiction
  cases stored
  have maps := (lookup_eq_some formed).mp found
  split
  · next same =>
    rw [same,loadByte_eq_some formed maps,Function.update_self]
  · next different =>
    cases seen : pt.lookup other with
    | none => rw [loadByte,loadByte,seen]; rfl
    | some half' =>
      have maps' := (lookup_eq_some formed).mp seen
      have address : half'.address other ≠ half.address vaddr := by
        intro same
        unfold Half.address at same
        have frame : half'.pfn = half.pfn := by
          unfold pageSize at same
          omega
        have page := apart other vaddr half' half maps' maps frame
        apply different
        rw [frame] at same
        unfold pageSize at same page
        omega
      rw [loadByte_eq_some formed maps',loadByte_eq_some formed maps',Function.update_of_ne address]

theorem storeBytes_load {bytes : List UInt8} (formed : pt.WellFormed) (apart : pt.Apart) (word : vaddr < 2 ^ 32)
    (short : bytes.length ≤ 2 ^ 32) (stored : storeBytes pt vaddr bytes memory = some memory') (small : other < 2 ^ 32) :
    loadByte pt memory' other =
      if distance vaddr other < bytes.length then bytes[distance vaddr other]? else loadByte pt memory other := by
  induction bytes generalizing vaddr memory with
  | nil =>
    cases stored
    exact (if_neg (Nat.not_lt_zero _)).symm
  | cons b rest ih =>
    obtain ⟨next,first,later⟩ := Option.bind_eq_some_iff.mp stored
    rw [List.length_cons] at short
    rw [ih (Nat.mod_lt _ (by decide)) (by omega) later,storeByte_load formed apart first,List.length_cons]
    by_cases here : other = vaddr
    · subst here
      have near : distance other other = 0 := by unfold distance; omega
      have far : distance ((other + 1) % 2 ^ 32) other = 2 ^ 32 - 1 := by unfold distance; omega
      rw [near,far,if_neg (by omega),if_pos rfl,if_pos (Nat.succ_pos _)]
      rfl
    · have one : distance vaddr other = distance ((vaddr + 1) % 2 ^ 32) other + 1 := by unfold distance; omega
      rw [one,if_neg here,List.getElem?_cons_succ]
      simp only [Nat.add_lt_add_iff_right]

theorem storeBytes_some {bytes : List UInt8} (formed : pt.WellFormed)
    (writable : ∀ i < bytes.length, ∃ half, pt.Maps ((vaddr + i) % 2 ^ 32) half ∧ half.d = true) (word : vaddr < 2 ^ 32) :
    ∃ memory', storeBytes pt vaddr bytes memory = some memory' := by
  induction bytes generalizing vaddr memory with
  | nil => exact ⟨memory,rfl⟩
  | cons b rest ih =>
    obtain ⟨half,maps,dirty⟩ := writable 0 (Nat.succ_pos _)
    rw [Nat.add_zero,Nat.mod_eq_of_lt word] at maps
    have first : storeByte pt vaddr b memory = some (Function.update memory (half.address vaddr) b) := by
      rw [storeByte,(lookup_eq_some formed).mpr maps]
      exact if_pos dirty
    rw [storeBytes,first,Option.bind_some]
    refine ih (fun i inside => ?_) (Nat.mod_lt _ (by decide))
    have later := writable (i + 1) (Nat.succ_lt_succ inside)
    rwa [← Nat.add_assoc,Nat.add_right_comm,← Nat.mod_add_mod] at later

theorem loadByte_iff (formed : pt.WellFormed) :
    loadByte pt memory vaddr = some b ↔ ∃ half, pt.Maps vaddr half ∧ memory (half.address vaddr) = b := by
  rw [loadByte,Option.map_eq_some_iff]
  simp only [lookup_eq_some formed]

theorem setDirty_load {pt' : Pagetable} {dirty : Bool} (formed : pt.WellFormed)
    (done : vmSetDirty pt vaddr dirty = some pt') (memory : Bytes) (other : Nat) :
    loadByte pt' memory other = loadByte pt memory other := by
  have maps := vmSetDirty_maps formed done other
  apply Option.ext
  intro b
  rw [loadByte_iff (formed.vmSetDirty done),loadByte_iff formed]
  constructor
  · rintro ⟨half,here,seen⟩
    rcases (maps half).mp here with ⟨page,old,there,rfl⟩ | ⟨_,there⟩
    · exact ⟨old,there.page page,seen⟩
    · exact ⟨half,there,seen⟩
  · rintro ⟨half,there,seen⟩
    by_cases page : other / pageSize = vaddr / pageSize
    · exact ⟨{ half with d := dirty },(maps _).mpr (.inl ⟨page,half,there.page page.symm,rfl⟩),seen⟩
    · exact ⟨half,(maps _).mpr (.inr ⟨page,there⟩),seen⟩

end Lookup

end Buenos.Vm
