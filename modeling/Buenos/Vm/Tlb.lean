import Mathlib.Data.List.Basic
import Mathlib.Logic.Function.Basic
import Mathlib.Algebra.Group.Nat.Defs

/-! Page tables of `vm/vm.c` and the TLB they are written to by `vm/tlb.c`. Addresses are
natural numbers below `2^32`; a kernel panic is `none`. -/
namespace Buenos.Vm

def pageSize : Nat := 4096
def pagetableEntries : Nat := 340

/-- One page of a pair: `PFN0`, `D0`, `V0` and `G0`, or those of the odd page. -/
structure Half where
  pfn : Nat
  d : Bool
  v : Bool
  g : Bool
  deriving DecidableEq

/-- `tlb_entry_t` -/
structure TlbEntry where
  vpn2 : Nat
  asid : Nat
  even : Half
  odd : Half
  deriving DecidableEq

def TlbEntry.half (e : TlbEntry) (vaddr : Nat) : Half :=
  if vaddr / pageSize % 2 = 0 then e.even else e.odd

def TlbEntry.setHalf (e : TlbEntry) (vaddr : Nat) (half : Half) : TlbEntry :=
  if vaddr / pageSize % 2 = 0 then { e with even := half } else { e with odd := half }

/-- The number of the pair of pages an address is in: `vaddr >> 13`. -/
def pair (vaddr : Nat) : Nat := vaddr / (2 * pageSize)

/-- `pagetable_t`: the first `validCount` entries are in use, the rest is what the page held. -/
structure Pagetable where
  asid : Nat
  validCount : Nat
  entries : Nat → TlbEntry

/-- On a page with these contents. -/
def vmCreatePagetable (asid : Nat) (page : Nat → TlbEntry) : Pagetable := ⟨asid, 0, page⟩

def Pagetable.findPair (pt : Pagetable) (vaddr : Nat) : Option Nat :=
  (List.range pt.validCount).find? fun i => (pt.entries i).vpn2 == pair vaddr

def Pagetable.setEntry (pt : Pagetable) (i : Nat) (e : TlbEntry) : Pagetable :=
  { pt with entries := Function.update pt.entries i e }

/-- The page of `vaddr` in an entry that was in use for its pair only. -/
def pairEntry (e : TlbEntry) (physaddr vaddr : Nat) (dirty : Bool) : TlbEntry :=
  e.setHalf vaddr ⟨physaddr / pageSize, dirty, true, false⟩

/-- A new entry; the other page of the pair is marked invalid and keeps its other fields. -/
def newEntry (e : TlbEntry) (asid physaddr vaddr : Nat) (dirty : Bool) : TlbEntry :=
  let e := { e with vpn2 := pair vaddr, asid := asid % 256
                    even := { e.even with v := false }, odd := { e.odd with v := false } }
  pairEntry e physaddr vaddr dirty

def vmMap (pt : Pagetable) (physaddr vaddr : Nat) (dirty : Bool) : Option Pagetable :=
  match pt.findPair vaddr with
  | some i =>
    if ((pt.entries i).half vaddr).v then none
    else some (pt.setEntry i (pairEntry (pt.entries i) physaddr vaddr dirty))
  | none =>
    if pagetableEntries ≤ pt.validCount then none
    else some { pt.setEntry pt.validCount
        (newEntry (pt.entries pt.validCount) pt.asid physaddr vaddr dirty) with
      validCount := pt.validCount + 1 }

def vmSetDirty (pt : Pagetable) (vaddr : Nat) (dirty : Bool) : Option Pagetable :=
  match pt.findPair vaddr with
  | none => none
  | some i =>
    let half := (pt.entries i).half vaddr
    if half.v then some (pt.setEntry i ((pt.entries i).setHalf vaddr { half with d := dirty }))
    else none

/-! ### The TLB of one CPU -/

/-- The rows `0` to `maxindex` and the ASID field of `EntryHi`. -/
structure Tlb where
  rows : Nat → TlbEntry
  asid : Nat

/-- `_tlb_write` from row `index` on; it stops at the last row. -/
def tlbWrite (maxindex : Nat) (entries : Nat → TlbEntry) : Nat → Nat → (Nat → TlbEntry) → Nat → TlbEntry
  | 0, _, rows => rows
  | num + 1, index, rows =>
    if maxindex < index then rows
    else tlbWrite maxindex (fun i => entries (i + 1)) num (index + 1)
      (Function.update rows index (entries 0))

def tlbSetAsid (tlb : Tlb) (asid : Nat) : Tlb := { tlb with asid := asid % 256 }

/-- A thread without a page table leaves the TLB and its ASID alone. -/
def tlbFill (maxindex : Nat) (pagetable : Option Pagetable) (tlb : Tlb) : Option Tlb :=
  match pagetable with
  | none => some tlb
  | some pt =>
    if pt.validCount ≤ maxindex + 1 then
      some (tlbSetAsid { tlb with rows := tlbWrite maxindex pt.entries pt.validCount 0 tlb.rows } pt.asid)
    else none

/-- The row maps the page of `vaddr` in address space `asid`. -/
def TlbEntry.Maps (e : TlbEntry) (asid vaddr : Nat) : Prop :=
  e.vpn2 = pair vaddr ∧ e.asid = asid ∧ (e.half vaddr).v = true

instance (e : TlbEntry) (asid vaddr : Nat) : Decidable (e.Maps asid vaddr) :=
  inferInstanceAs (Decidable (_ ∧ _))

/-! ### What the operations do -/

theorem tlbWrite_row (fits : index + num ≤ maxindex + 1) (row : Nat) :
    tlbWrite maxindex entries num index rows row =
      if index ≤ row ∧ row < index + num then entries (row - index) else rows row := by
  induction num generalizing entries index rows with
  | zero =>
    rw [if_neg (by omega)]
    rfl
  | succ num ih =>
    rw [tlbWrite,if_neg (by omega),ih (by omega)]
    by_cases first : row = index
    · subst first
      rw [if_neg (by omega),if_pos (by omega)]
      simp
    · by_cases later : index + 1 ≤ row ∧ row < index + 1 + num
      · rw [if_pos later,if_pos (by omega)]
        congr 1
        omega
      · rw [if_neg later,if_neg (by omega),Function.update_of_ne first]

/-- After a fill the first rows are the page table's entries and the others are as before. -/
structure Filled (maxindex : Nat) (pt : Pagetable) (before after : Tlb) : Prop where
  fits : pt.validCount ≤ maxindex + 1
  asid : after.asid = pt.asid % 256
  own : ∀ row, row < pt.validCount → after.rows row = pt.entries row
  others : ∀ row, pt.validCount ≤ row → after.rows row = before.rows row

theorem tlbFill_filled (filled : tlbFill maxindex (some pt) tlb = some tlb') :
    Filled maxindex pt tlb tlb' := by
  simp only [tlbFill] at filled
  split at filled
  · next fits =>
    cases filled
    have bound : 0 + pt.validCount ≤ maxindex + 1 := by omega
    refine ⟨fits,rfl,?_,?_⟩
    · intro i inside
      simpa [tlbSetAsid,inside] using tlbWrite_row bound i
    · intro i outside
      simpa [tlbSetAsid,Nat.not_lt.mpr outside] using tlbWrite_row bound i
  · contradiction

theorem half_setHalf (e : TlbEntry) (vaddr other : Nat) (half : Half) :
    (e.setHalf vaddr half).half other =
      if vaddr / pageSize % 2 = other / pageSize % 2 then half else e.half other := by
  unfold TlbEntry.setHalf TlbEntry.half
  have first := Nat.mod_two_eq_zero_or_one (vaddr / pageSize)
  have second := Nat.mod_two_eq_zero_or_one (other / pageSize)
  obtain first | first := first <;> obtain second | second := second <;> simp [first,second]

@[simp] theorem setHalf_vpn2 (e : TlbEntry) (vaddr : Nat) (half : Half) :
    (e.setHalf vaddr half).vpn2 = e.vpn2 := by
  unfold TlbEntry.setHalf
  split <;> rfl

@[simp] theorem setHalf_asid (e : TlbEntry) (vaddr : Nat) (half : Half) :
    (e.setHalf vaddr half).asid = e.asid := by
  unfold TlbEntry.setHalf
  split <;> rfl

/-- Two addresses are on one page if and only if pair and parity agree. -/
theorem page_eq_iff : vaddr / pageSize = other / pageSize ↔
    pair vaddr = pair other ∧ vaddr / pageSize % 2 = other / pageSize % 2 := by
  unfold pair pageSize
  omega

theorem findPair_some (found : Pagetable.findPair pt vaddr = some i) :
    i < pt.validCount ∧ (pt.entries i).vpn2 = pair vaddr := by
  have named := List.find?_some found
  have member := List.mem_of_find?_eq_some found
  exact ⟨List.mem_range.mp member,by simpa using named⟩

theorem findPair_none (missing : Pagetable.findPair pt vaddr = none) (i : Nat) (inside : i < pt.validCount) :
    (pt.entries i).vpn2 ≠ pair vaddr := by
  have absent := List.find?_eq_none.mp missing i (List.mem_range.mpr inside)
  simpa using absent

/-! ### Well-formed page tables -/

/-- Every entry is of the table's address space, maps a page, and no pair has two entries. -/
structure Pagetable.WellFormed (pt : Pagetable) : Prop where
  asid : ∀ i, i < pt.validCount → (pt.entries i).asid = pt.asid % 256
  maps : ∀ i, i < pt.validCount → (pt.entries i).even.v = true ∨ (pt.entries i).odd.v = true
  once : ∀ i j, i < pt.validCount → j < pt.validCount → (pt.entries i).vpn2 = (pt.entries j).vpn2 → i = j

def Pagetable.Maps (pt : Pagetable) (vaddr : Nat) (half : Half) : Prop :=
  ∃ i, i < pt.validCount ∧ (pt.entries i).vpn2 = pair vaddr ∧ (pt.entries i).half vaddr = half ∧
    half.v = true

/-- What `vm_map` does: the entry of the pair is completed, or a new entry is appended. -/
inductive Mapped (pt : Pagetable) (physaddr vaddr : Nat) (dirty : Bool) : Pagetable → Prop where
  | paired (i : Nat) (inside : i < pt.validCount) (named : (pt.entries i).vpn2 = pair vaddr)
      (invalid : ((pt.entries i).half vaddr).v = false) :
      Mapped pt physaddr vaddr dirty (pt.setEntry i (pairEntry (pt.entries i) physaddr vaddr dirty))
  | appended (fresh : ∀ i, i < pt.validCount → (pt.entries i).vpn2 ≠ pair vaddr) :
      Mapped pt physaddr vaddr dirty { pt.setEntry pt.validCount
          (newEntry (pt.entries pt.validCount) pt.asid physaddr vaddr dirty) with
        validCount := pt.validCount + 1 }

theorem vmMap_mapped (done : vmMap pt physaddr vaddr dirty = some pt') :
    Mapped pt physaddr vaddr dirty pt' := by
  simp only [vmMap] at done
  split at done
  · next i found =>
    split at done
    · contradiction
    · next invalid =>
      cases done
      obtain ⟨inside,named⟩ := findPair_some found
      exact .paired i inside named (by simpa using invalid)
  · next missing =>
    split at done
    · contradiction
    · cases done
      exact .appended (findPair_none missing)

/-- What `vm_set_dirty` does: one valid half changes its dirty bit. -/
theorem vmSetDirty_cases (done : vmSetDirty pt vaddr dirty = some pt') :
    ∃ i, i < pt.validCount ∧ (pt.entries i).vpn2 = pair vaddr ∧ ((pt.entries i).half vaddr).v = true ∧
      pt' = pt.setEntry i ((pt.entries i).setHalf vaddr { (pt.entries i).half vaddr with d := dirty }) := by
  simp only [vmSetDirty] at done
  split at done
  · contradiction
  · next i found =>
    split at done
    · next valid =>
      cases done
      obtain ⟨inside,named⟩ := findPair_some found
      exact ⟨i,inside,named,valid,rfl⟩
    · contradiction

theorem Pagetable.WellFormed.setEntry {pt : Pagetable} {e : TlbEntry} (formed : pt.WellFormed)
    (asid : e.asid = (pt.entries i).asid)
    (same : e.vpn2 = (pt.entries i).vpn2) (maps : e.even.v = true ∨ e.odd.v = true) :
    (pt.setEntry i e).WellFormed := by
  have vpn2s : ∀ j, ((pt.setEntry i e).entries j).vpn2 = (pt.entries j).vpn2 := by
    intro j
    by_cases here : j = i
    · subst here; simpa [Pagetable.setEntry] using same
    · simp [Pagetable.setEntry,Function.update_of_ne here]
  refine ⟨?_,?_,?_⟩
  · intro j inside
    by_cases here : j = i
    · subst here; simpa [Pagetable.setEntry,asid] using formed.asid j inside
    · simpa [Pagetable.setEntry,Function.update_of_ne here] using formed.asid j inside
  · intro j inside
    by_cases here : j = i
    · subst here; simpa [Pagetable.setEntry] using maps
    · simpa [Pagetable.setEntry,Function.update_of_ne here] using formed.maps j inside
  · intro j k first second equal
    rw [vpn2s,vpn2s] at equal
    exact formed.once j k first second equal

theorem setHalf_valid (e : TlbEntry) (vaddr : Nat) (half : Half) (valid : half.v = true) :
    (e.setHalf vaddr half).even.v = true ∨ (e.setHalf vaddr half).odd.v = true := by
  unfold TlbEntry.setHalf
  split
  · exact .inl valid
  · exact .inr valid

theorem Pagetable.WellFormed.vmMap (formed : Pagetable.WellFormed pt)
    (done : Vm.vmMap pt physaddr vaddr dirty = some pt') : pt'.WellFormed := by
  cases vmMap_mapped done with
  | paired i inside named invalid =>
    exact formed.setEntry (setHalf_asid _ _ _) (setHalf_vpn2 _ _ _) (setHalf_valid _ _ _ rfl)
  | appended fresh =>
    refine ⟨?_,?_,?_⟩
    · intro j inside
      by_cases here : j = pt.validCount
      · subst here; simp [Pagetable.setEntry,newEntry,pairEntry]
      · simpa [Pagetable.setEntry,Function.update_of_ne here] using formed.asid j (by dsimp at inside; omega)
    · intro j inside
      by_cases here : j = pt.validCount
      · subst here
        simp only [Pagetable.setEntry,Function.update_self]
        exact setHalf_valid _ _ _ rfl
      · simpa [Pagetable.setEntry,Function.update_of_ne here] using formed.maps j (by dsimp at inside; omega)
    · intro j k first second equal
      dsimp only [Pagetable.setEntry] at first second equal
      by_cases one : j = pt.validCount <;> by_cases two : k = pt.validCount
      · rw [one,two]
      · simp only [one,Function.update_self,Function.update_of_ne two,newEntry,pairEntry,setHalf_vpn2] at equal
        exact absurd equal.symm (fresh k (by omega))
      · simp only [two,Function.update_self,Function.update_of_ne one,newEntry,pairEntry,setHalf_vpn2] at equal
        exact absurd equal (fresh j (by omega))
      · simp only [Function.update_of_ne one,Function.update_of_ne two] at equal
        exact formed.once j k (by omega) (by omega) equal

theorem Pagetable.WellFormed.vmSetDirty (formed : Pagetable.WellFormed pt)
    (done : Vm.vmSetDirty pt vaddr dirty = some pt') : pt'.WellFormed := by
  obtain ⟨i,_,_,valid,rfl⟩ := vmSetDirty_cases done
  exact formed.setEntry (setHalf_asid _ _ _) (setHalf_vpn2 _ _ _) (setHalf_valid _ _ _ valid)

theorem vmCreatePagetable_wellFormed (asid : Nat) (page : Nat → TlbEntry) :
    (vmCreatePagetable asid page).WellFormed := by
  refine ⟨?_,?_,?_⟩ <;> intro i
  · intro inside; exact absurd inside (Nat.not_lt_zero i)
  · intro inside; exact absurd inside (Nat.not_lt_zero i)
  · intro j inside; exact absurd inside (Nat.not_lt_zero i)

theorem vmMap_grows (done : vmMap pt physaddr vaddr dirty = some pt') :
    pt'.asid = pt.asid ∧ pt.validCount ≤ pt'.validCount := by
  cases vmMap_mapped done with
  | paired => exact ⟨rfl,Nat.le_refl _⟩
  | appended => exact ⟨rfl,Nat.le_succ _⟩

theorem vmSetDirty_grows (done : vmSetDirty pt vaddr dirty = some pt') :
    pt'.asid = pt.asid ∧ pt.validCount ≤ pt'.validCount := by
  obtain ⟨i,_,_,_,rfl⟩ := vmSetDirty_cases done
  exact ⟨rfl,Nat.le_refl _⟩

/-! ### The table as a map of pages -/

theorem parity_eq (same : pair other = pair vaddr) :
    vaddr / pageSize % 2 = other / pageSize % 2 ↔ other / pageSize = vaddr / pageSize := by
  rw [page_eq_iff]
  constructor
  · intro parity; exact ⟨same,parity.symm⟩
  · intro both; exact both.2.symm

theorem Pagetable.Maps.page (same : other / pageSize = vaddr / pageSize) (maps : Pagetable.Maps pt vaddr half) :
    pt.Maps other half := by
  obtain ⟨i,inside,named,rfl,valid⟩ := maps
  obtain ⟨pairs,parity⟩ := page_eq_iff.mp same
  exact ⟨i,inside,named.trans pairs.symm,by simp only [TlbEntry.half,parity],valid⟩

theorem vmMap_maps (formed : Pagetable.WellFormed pt) (done : vmMap pt physaddr vaddr dirty = some pt')
    (other : Nat) (half : Half) : pt'.Maps other half ↔
      (other / pageSize = vaddr / pageSize ∧ half = ⟨physaddr / pageSize, dirty, true, false⟩) ∨
      (other / pageSize ≠ vaddr / pageSize ∧ pt.Maps other half) := by
  cases vmMap_mapped done with
  | paired i inside named invalid =>
    constructor
    · rintro ⟨j,small,called,rfl,valid⟩
      by_cases here : j = i
      · subst here
        simp only [Pagetable.setEntry,Function.update_self,pairEntry,setHalf_vpn2,half_setHalf] at called valid ⊢
        have parity := parity_eq (called.symm.trans named)
        by_cases page : other / pageSize = vaddr / pageSize
        · exact .inl ⟨page,by rw [if_pos (parity.mpr page)]⟩
        · rw [if_neg (fun equal => page (parity.mp equal))] at valid ⊢
          exact .inr ⟨page,j,inside,called,rfl,valid⟩
      · simp only [Pagetable.setEntry,Function.update_of_ne here] at called valid ⊢
        refine .inr ⟨?_,j,small,called,rfl,valid⟩
        intro page
        exact here (formed.once j i small inside
          (called.trans ((page_eq_iff.mp page).1.trans named.symm)))
    · rintro (⟨page,rfl⟩ | ⟨page,j,small,called,rfl,valid⟩)
      · obtain ⟨pairs,parity⟩ := page_eq_iff.mp page
        refine ⟨i,inside,?_,?_,rfl⟩
        · simp [Pagetable.setEntry,pairEntry,named,pairs]
        · simp [Pagetable.setEntry,pairEntry,half_setHalf,parity]
      · by_cases here : j = i
        · subst here
          have parity := parity_eq (called.symm.trans named)
          refine ⟨j,inside,?_,?_,valid⟩
          · simp [Pagetable.setEntry,pairEntry,called]
          · simp only [Pagetable.setEntry,pairEntry,Function.update_self,half_setHalf]
            rw [if_neg (fun equal => page (parity.mp equal))]
        · refine ⟨j,small,?_,?_,valid⟩
          · simp [Pagetable.setEntry,Function.update_of_ne here,called]
          · simp [Pagetable.setEntry,Function.update_of_ne here]
  | appended fresh =>
    constructor
    · rintro ⟨j,small,called,rfl,valid⟩
      by_cases here : j = pt.validCount
      · subst here
        simp only [Pagetable.setEntry,Function.update_self,newEntry,pairEntry,setHalf_vpn2,
          half_setHalf] at called valid ⊢
        have parity := parity_eq called.symm
        by_cases page : other / pageSize = vaddr / pageSize
        · exact .inl ⟨page,by rw [if_pos (parity.mpr page)]⟩
        · rw [if_neg (fun equal => page (parity.mp equal))] at valid
          unfold TlbEntry.half at valid
          split at valid <;> contradiction
      · simp only [Pagetable.setEntry,Function.update_of_ne here] at called valid ⊢
        have small : j < pt.validCount := by dsimp at small; omega
        refine .inr ⟨?_,j,small,called,rfl,valid⟩
        intro page
        exact fresh j small (called.trans (page_eq_iff.mp page).1)
    · rintro (⟨page,rfl⟩ | ⟨page,j,small,called,rfl,valid⟩)
      · obtain ⟨pairs,parity⟩ := page_eq_iff.mp page
        refine ⟨pt.validCount,Nat.lt_succ_self _,?_,?_,rfl⟩
        · simp [Pagetable.setEntry,newEntry,pairEntry,pairs]
        · simp [Pagetable.setEntry,newEntry,pairEntry,half_setHalf,parity]
      · have here : j ≠ pt.validCount := by omega
        refine ⟨j,Nat.lt_succ_of_lt small,?_,?_,valid⟩
        · simp [Pagetable.setEntry,Function.update_of_ne here,called]
        · simp [Pagetable.setEntry,Function.update_of_ne here]

end Buenos.Vm
