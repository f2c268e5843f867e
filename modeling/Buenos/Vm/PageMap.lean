import Buenos.Foundation.Run
import Buenos.Vm.Tlb
import Mathlib.Data.Finset.Card

/-! The page table as a map from virtual pages to frames with a dirty bit, call after call. -/
namespace Buenos.Vm

open Buenos.Foundation

/-- Frame and dirty bit of the virtual pages that are mapped. -/
abbrev PageMap := Nat → Option (Nat × Bool)

inductive Call where
  | map (physaddr vaddr : Nat) (dirty : Bool)
  | setDirty (vaddr : Nat) (dirty : Bool)
  deriving DecidableEq

def call : Call → Pagetable → Option Pagetable
  | .map physaddr vaddr dirty, pt => vmMap pt physaddr vaddr dirty
  | .setDirty vaddr dirty, pt => vmSetDirty pt vaddr dirty

/-- What the call does to the map. -/
def PageMap.apply (a : PageMap) : Call → PageMap
  | .map physaddr vaddr dirty => Function.update a (vaddr / pageSize) (some (physaddr / pageSize,dirty))
  | .setDirty vaddr dirty =>
    Function.update a (vaddr / pageSize) ((a (vaddr / pageSize)).map fun frame => (frame.1,dirty))

/-- No page is mapped twice, and the dirty bit is set of mapped pages only. -/
def Legal : List Call → PageMap → Prop
  | [], _ => True
  | .map physaddr vaddr dirty :: rest, a =>
    a (vaddr / pageSize) = none ∧ Legal rest (a.apply (.map physaddr vaddr dirty))
  | .setDirty vaddr dirty :: rest, a =>
    a (vaddr / pageSize) ≠ none ∧ Legal rest (a.apply (.setDirty vaddr dirty))

def pairs : List Call → Finset Nat
  | [] => ∅
  | .map _ vaddr _ :: rest => insert (pair vaddr) (pairs rest)
  | .setDirty _ _ :: rest => pairs rest

/-- The table holds the map. -/
structure Represents (asid : Nat) (pt : Pagetable) (a : PageMap) : Prop where
  created : pt.asid = asid
  room : pt.validCount ≤ pagetableEntries
  once : ∀ i j, i < pt.validCount → j < pt.validCount → (pt.entries i).vpn2 = (pt.entries j).vpn2 → i = j
  space : ∀ i < pt.validCount, (pt.entries i).asid = asid % 256
  valid : ∀ vaddr, (∃ i < pt.validCount, (pt.entries i).vpn2 = pair vaddr ∧ ((pt.entries i).half vaddr).v = true) ↔
    a (vaddr / pageSize) ≠ none
  carried : ∀ i < pt.validCount, ∀ vaddr, (pt.entries i).vpn2 = pair vaddr → ((pt.entries i).half vaddr).v = true →
    a (vaddr / pageSize) = some (((pt.entries i).half vaddr).pfn,((pt.entries i).half vaddr).d)
  nonglobal : ∀ i < pt.validCount, ¬((pt.entries i).even.g = true ∧ (pt.entries i).odd.g = true)

/-! ### One call -/

/-- `vm_set_dirty` changes the dirty bit of the page and leaves the others as they were. -/
theorem vmSetDirty_maps (formed : Pagetable.WellFormed pt) (done : vmSetDirty pt vaddr dirty = some pt')
    (other : Nat) (half : Half) : pt'.Maps other half ↔
      (other / pageSize = vaddr / pageSize ∧ ∃ old, pt.Maps vaddr old ∧ half = { old with d := dirty }) ∨
      (other / pageSize ≠ vaddr / pageSize ∧ pt.Maps other half) := by
  obtain ⟨i,inside,named,valid,rfl⟩ := vmSetDirty_cases done
  constructor
  · rintro ⟨j,small,called,rfl,still⟩
    by_cases here : j = i
    · subst here
      simp only [Pagetable.setEntry,Function.update_self,setHalf_vpn2,half_setHalf] at called still ⊢
      have parity := parity_eq (called.symm.trans named)
      by_cases page : other / pageSize = vaddr / pageSize
      · rw [if_pos (parity.mpr page)]
        exact .inl ⟨page,_,⟨j,inside,named,rfl,valid⟩,rfl⟩
      · rw [if_neg (fun equal => page (parity.mp equal))] at still ⊢
        exact .inr ⟨page,j,inside,called,rfl,still⟩
    · simp only [Pagetable.setEntry,Function.update_of_ne here] at called still ⊢
      refine .inr ⟨?_,j,small,called,rfl,still⟩
      intro page
      exact here (formed.once j i small inside (called.trans ((page_eq_iff.mp page).1.trans named.symm)))
  · rintro (⟨page,old,⟨j,small,called,rfl,still⟩,rfl⟩ | ⟨page,j,small,called,rfl,still⟩)
    · obtain rfl := formed.once j i small inside (called.trans named.symm)
      obtain ⟨pairs,parity⟩ := page_eq_iff.mp page
      refine ⟨j,small,?_,?_,still⟩
      · simp [Pagetable.setEntry,named,pairs]
      · simp [Pagetable.setEntry,half_setHalf,parity]
    · by_cases here : j = i
      · subst here
        have parity := parity_eq (called.symm.trans named)
        refine ⟨j,inside,?_,?_,still⟩
        · simp [Pagetable.setEntry,called]
        · simp only [Pagetable.setEntry,Function.update_self,half_setHalf]
          rw [if_neg (fun equal => page (parity.mp equal))]
      · refine ⟨j,small,?_,?_,still⟩
        · simp [Pagetable.setEntry,Function.update_of_ne here,called]
        · simp [Pagetable.setEntry,Function.update_of_ne here]

/-- Between calls. -/
structure Holds (pt : Pagetable) (a : PageMap) : Prop where
  formed : pt.WellFormed
  maps : ∀ vaddr half, pt.Maps vaddr half → a (vaddr / pageSize) = some (half.pfn,half.d)
  mapped : ∀ vaddr, a (vaddr / pageSize) ≠ none → ∃ half, pt.Maps vaddr half
  nonglobal : ∀ i < pt.validCount, ¬((pt.entries i).even.g = true ∧ (pt.entries i).odd.g = true)

theorem Holds.valid (holds : Holds pt a) (vaddr : Nat) : (∃ half, pt.Maps vaddr half) ↔ a (vaddr / pageSize) ≠ none := by
  constructor
  · intro ⟨half,maps⟩
    rw [holds.maps vaddr half maps]
    exact Option.some_ne_none _
  · exact holds.mapped vaddr

theorem Holds.pair_mapped (holds : Holds pt a) (inside : i < pt.validCount) :
    ∃ vaddr, pair vaddr = (pt.entries i).vpn2 ∧ a (vaddr / pageSize) ≠ none := by
  rcases holds.formed.maps i inside with even | odd
  · have same : pair ((pt.entries i).vpn2 * (2 * pageSize)) = (pt.entries i).vpn2 := by
      unfold pair pageSize
      omega
    have half : (pt.entries i).half ((pt.entries i).vpn2 * (2 * pageSize)) = (pt.entries i).even := by
      unfold TlbEntry.half pageSize
      rw [if_pos (by omega)]
    exact ⟨_,same,(holds.valid _).mp ⟨_,i,inside,same.symm,half,even⟩⟩
  · have same : pair ((pt.entries i).vpn2 * (2 * pageSize) + pageSize) = (pt.entries i).vpn2 := by
      unfold pair pageSize
      omega
    have half : (pt.entries i).half ((pt.entries i).vpn2 * (2 * pageSize) + pageSize) = (pt.entries i).odd := by
      unfold TlbEntry.half pageSize
      rw [if_neg (by omega)]
    exact ⟨_,same,(holds.valid _).mp ⟨_,i,inside,same.symm,half,odd⟩⟩

/-- A mapped page loses its global bit, so the row cannot become global. -/
theorem pairEntry_nonglobal (e : TlbEntry) (physaddr vaddr : Nat) (dirty : Bool) :
    ¬((pairEntry e physaddr vaddr dirty).even.g = true ∧ (pairEntry e physaddr vaddr dirty).odd.g = true) := by
  unfold pairEntry TlbEntry.setHalf
  split <;> simp

theorem setDirty_nonglobal {e : TlbEntry} (before : ¬(e.even.g = true ∧ e.odd.g = true)) (vaddr : Nat) (dirty : Bool) :
    ¬((e.setHalf vaddr { e.half vaddr with d := dirty }).even.g = true ∧
      (e.setHalf vaddr { e.half vaddr with d := dirty }).odd.g = true) := by
  unfold TlbEntry.setHalf TlbEntry.half
  split <;> exact before

theorem Holds.map (holds : Holds pt a) (done : vmMap pt physaddr vaddr dirty = some pt') :
    Holds pt' (a.apply (.map physaddr vaddr dirty)) := by
  have table := vmMap_maps holds.formed done
  constructor
  · exact holds.formed.vmMap done
  · intro other half maps
    rcases (table other half).mp maps with ⟨page,rfl⟩ | ⟨page,maps⟩
    · rw [PageMap.apply,page,Function.update_self]
    · rw [PageMap.apply,Function.update_of_ne page]
      exact holds.maps other half maps
  · intro other there
    by_cases page : other / pageSize = vaddr / pageSize
    · exact ⟨_,(table other _).mpr (.inl ⟨page,rfl⟩)⟩
    · rw [PageMap.apply,Function.update_of_ne page] at there
      obtain ⟨half,maps⟩ := holds.mapped other there
      exact ⟨half,(table other half).mpr (.inr ⟨page,maps⟩)⟩
  · cases vmMap_mapped done with
    | paired i inside named invalid =>
      intro j small
      by_cases here : j = i
      · subst here
        simpa [Pagetable.setEntry] using pairEntry_nonglobal (pt.entries j) physaddr vaddr dirty
      · simpa [Pagetable.setEntry,Function.update_of_ne here] using holds.nonglobal j small
    | appended fresh =>
      intro j small
      by_cases here : j = pt.validCount
      · subst here
        simpa [Pagetable.setEntry,newEntry] using pairEntry_nonglobal _ physaddr vaddr dirty
      · simpa [Pagetable.setEntry,Function.update_of_ne here] using
          holds.nonglobal j (by dsimp at small; omega)

theorem Holds.setDirty (holds : Holds pt a) (done : vmSetDirty pt vaddr dirty = some pt') :
    Holds pt' (a.apply (.setDirty vaddr dirty)) := by
  have table := vmSetDirty_maps holds.formed done
  constructor
  · exact holds.formed.vmSetDirty done
  · intro other half maps
    rcases (table other half).mp maps with ⟨page,old,before,rfl⟩ | ⟨page,maps⟩
    · rw [PageMap.apply,page,Function.update_self,holds.maps vaddr old before]
      rfl
    · rw [PageMap.apply,Function.update_of_ne page]
      exact holds.maps other half maps
  · intro other there
    by_cases page : other / pageSize = vaddr / pageSize
    · rw [PageMap.apply,page,Function.update_self] at there
      have before : a (vaddr / pageSize) ≠ none := by
        intro none_
        simp [none_] at there
      obtain ⟨old,maps⟩ := holds.mapped vaddr before
      exact ⟨_,(table other _).mpr (.inl ⟨page,old,maps,rfl⟩)⟩
    · rw [PageMap.apply,Function.update_of_ne page] at there
      obtain ⟨half,maps⟩ := holds.mapped other there
      exact ⟨half,(table other half).mpr (.inr ⟨page,maps⟩)⟩
  · obtain ⟨i,inside,named,valid,rfl⟩ := vmSetDirty_cases done
    intro j small
    by_cases here : j = i
    · subst here
      simpa [Pagetable.setEntry] using setDirty_nonglobal (holds.nonglobal j small) vaddr dirty
    · simpa [Pagetable.setEntry,Function.update_of_ne here] using holds.nonglobal j small

/-! ### No call panics -/

theorem Holds.count (holds : Holds pt a) (seen : Finset Nat)
    (covered : ∀ vaddr, a (vaddr / pageSize) ≠ none → pair vaddr ∈ seen) :
    (Finset.range pt.validCount).image (fun i => (pt.entries i).vpn2) ⊆ seen ∧
    ((Finset.range pt.validCount).image fun i => (pt.entries i).vpn2).card = pt.validCount := by
  constructor
  · intro vpn2 member
    obtain ⟨i,inside,rfl⟩ := Finset.mem_image.mp member
    obtain ⟨vaddr,same,mapped⟩ := holds.pair_mapped (Finset.mem_range.mp inside)
    rw [← same]
    exact covered vaddr mapped
  · rw [Finset.card_image_of_injOn,Finset.card_range]
    intro i one j two same
    exact holds.formed.once i j (Finset.mem_range.mp one) (Finset.mem_range.mp two) same

theorem Holds.map_some {seen : Finset Nat} (holds : Holds pt a) (free : a (vaddr / pageSize) = none)
    (covered : ∀ vaddr, a (vaddr / pageSize) ≠ none → pair vaddr ∈ seen)
    (few : (insert (pair vaddr) seen).card ≤ pagetableEntries) (physaddr : Nat) (dirty : Bool) :
    ∃ pt', vmMap pt physaddr vaddr dirty = some pt' := by
  unfold vmMap
  split
  · next i found =>
    obtain ⟨inside,named⟩ := findPair_some found
    rw [if_neg]
    · exact ⟨_,rfl⟩
    · intro valid
      exact (holds.valid vaddr).mp ⟨_,i,inside,named,rfl,valid⟩ free
  · next missing =>
    obtain ⟨inside,count⟩ := holds.count seen covered
    have fresh : pair vaddr ∉ (Finset.range pt.validCount).image fun i => (pt.entries i).vpn2 := by
      intro member
      obtain ⟨i,small,same⟩ := Finset.mem_image.mp member
      exact findPair_none missing i (Finset.mem_range.mp small) same
    have larger := Finset.card_le_card (Finset.insert_subset_insert (pair vaddr) inside)
    rw [Finset.card_insert_of_notMem fresh,count] at larger
    rw [if_neg (by omega)]
    exact ⟨_,rfl⟩

theorem Holds.setDirty_some (holds : Holds pt a) (mapped : a (vaddr / pageSize) ≠ none) (dirty : Bool) :
    ∃ pt', vmSetDirty pt vaddr dirty = some pt' := by
  obtain ⟨half,i,inside,named,rfl,valid⟩ := holds.mapped vaddr mapped
  unfold vmSetDirty
  split
  · next missing => exact absurd named (findPair_none missing i inside)
  · next j found =>
    obtain ⟨small,called⟩ := findPair_some found
    obtain rfl := holds.formed.once i j inside small (named.trans called.symm)
    rw [if_pos valid]
    exact ⟨_,rfl⟩

/-! ### All calls -/

theorem Holds.run (seen : Finset Nat) (holds : Holds pt a) (covered : ∀ vaddr, a (vaddr / pageSize) ≠ none → pair vaddr ∈ seen)
    (legal : Legal calls a) (few : (seen ∪ pairs calls).card ≤ pagetableEntries) :
    ∃ pt', Foundation.run call calls pt = some pt' ∧ Holds pt' (calls.foldl PageMap.apply a) ∧
      ∀ vaddr, calls.foldl PageMap.apply a (vaddr / pageSize) ≠ none → pair vaddr ∈ seen ∪ pairs calls := by
  induction calls generalizing pt a seen with
  | nil => exact ⟨pt,rfl,holds,fun vaddr mapped => Finset.mem_union_left _ (covered vaddr mapped)⟩
  | cons c rest ih =>
    cases c with
    | map physaddr vaddr dirty =>
      have same : seen ∪ pairs (.map physaddr vaddr dirty :: rest) = insert (pair vaddr) seen ∪ pairs rest := by
        rw [pairs,Finset.union_insert,Finset.insert_union]
      rw [same] at few ⊢
      have room := Nat.le_trans (Finset.card_le_card Finset.subset_union_left) few
      obtain ⟨next,done⟩ := holds.map_some legal.1 covered room physaddr dirty
      rw [Foundation.run_cons,call,done,Option.bind_some]
      refine ih (insert (pair vaddr) seen) (holds.map done) ?_ legal.2 few
      intro other mapped
      by_cases page : other / pageSize = vaddr / pageSize
      · rw [(page_eq_iff.mp page).1]
        exact Finset.mem_insert_self _ _
      · rw [PageMap.apply,Function.update_of_ne page] at mapped
        exact Finset.mem_insert_of_mem (covered other mapped)
    | setDirty vaddr dirty =>
      obtain ⟨next,done⟩ := holds.setDirty_some legal.1 dirty
      rw [Foundation.run_cons,call,done,Option.bind_some]
      refine ih seen (holds.setDirty done) ?_ legal.2 few
      intro other mapped
      by_cases page : other / pageSize = vaddr / pageSize
      · exact covered other (page ▸ legal.1)
      · rw [PageMap.apply,Function.update_of_ne page] at mapped
        exact covered other mapped

theorem call_asid (c : Call) (pt pt' : Pagetable) (done : call c pt = some pt') : pt'.asid = pt.asid := by
  cases c with
  | map => exact (vmMap_grows done).1
  | setDirty => exact (vmSetDirty_grows done).1

theorem vmCreatePagetable_holds (asid : Nat) (page : Nat → TlbEntry) :
    Holds (vmCreatePagetable asid page) fun _ => none := by
  refine ⟨vmCreatePagetable_wellFormed asid page,?_,fun _ absent => absurd rfl absent,?_⟩
  · rintro vaddr half ⟨i,inside,_⟩
    exact absurd inside (Nat.not_lt_zero i)
  · intro i inside
    exact absurd inside (Nat.not_lt_zero i)

/-- Whatever the page held before, the table holds the map that the calls build. -/
theorem pagetable_represents (asid : Nat) (page : Nat → TlbEntry) (legal : Legal calls fun _ => none)
    (few : (pairs calls).card ≤ pagetableEntries) :
    ∃ pt, run call calls (vmCreatePagetable asid page) = some pt ∧
      Represents asid pt (calls.foldl PageMap.apply fun _ => none) := by
  have start := vmCreatePagetable_holds asid page
  obtain ⟨pt,ran,holds,covered⟩ := start.run ∅ (fun _ absent => absurd rfl absent) legal
    (by rwa [Finset.empty_union])
  rw [Finset.empty_union] at covered
  have created : pt.asid = asid :=
    run_invariant (fun c s t same done => (call_asid c s t done).trans same) rfl ran
  refine ⟨pt,ran,created,?_,holds.formed.once,?_,?_,?_,holds.nonglobal⟩
  · obtain ⟨inside,count⟩ := holds.count (pairs calls) covered
    calc
      pt.validCount = _ := count.symm
      _ ≤ (pairs calls).card := Finset.card_le_card inside
      _ ≤ pagetableEntries := few
  · rw [← created]
    exact holds.formed.asid
  · intro vaddr
    rw [← holds.valid vaddr]
    constructor
    · rintro ⟨i,inside,named,valid⟩
      exact ⟨_,i,inside,named,rfl,valid⟩
    · rintro ⟨_,i,inside,named,rfl,valid⟩
      exact ⟨i,inside,named,valid⟩
  · intro i inside vaddr named valid
    exact holds.maps vaddr _ ⟨i,inside,named,rfl,valid⟩

def pairCalls : List Call := [.map 0x5000 0x3000 true,.map 0x6000 0x2000 true,.setDirty 0x3000 false]

theorem pagetable_represents_pair : ∃ pt,
    run call pairCalls (vmCreatePagetable 7 fun _ => ⟨9,9,⟨9,true,true,true⟩,⟨9,true,true,true⟩⟩) = some pt ∧
    Represents 7 pt (pairCalls.foldl PageMap.apply fun _ => none) := by
  apply pagetable_represents
  · exact ⟨by decide,by decide,by decide,trivial⟩
  · decide

end Buenos.Vm
