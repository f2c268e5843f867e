import Buenos.Foundation.Run
import Buenos.Lib.Bitmap
import Buenos.Vm.Tlb
import Mathlib.Order.Interval.Finset.Nat

/-! The pool of physical pages of `vm/pagepool.c`. A failing assertion is `none`. -/
namespace Buenos.Vm

open Buenos.Foundation Buenos.Lib

structure Pagepool where
  freePages : Bytes
  numPages : Nat
  numFreePages : Int
  staticEnd : Int

/-- `for (i = 0; i < num_res_pages; i++) bitmap_set(pagepool_free_pages, i, 1);` -/
def reservePages : Nat → Nat → Bytes → Bytes
  | 0, _, bitmap => bitmap
  | left + 1, i, bitmap => reservePages left (i + 1) (bitmapSet bitmap i true)

/-- `memory` is what `kmalloc` returned for the bitmap. -/
def pagepoolInit (numPages numResPages : Nat) (memory : Bytes) : Pagepool :=
  ⟨reservePages numResPages 0 (bitmapInit memory numPages),numPages,numPages - numResPages,numResPages⟩

/-- The address of a page, 0 when the pool is empty. It fits its 32 bits for up to `2 ^ 20` pages. -/
def pagepoolGetPhysPage (pool : Pagepool) : Option (Nat × Pagepool) :=
  if 0 < pool.numFreePages then
    let (i, bitmap) := bitmapFindnset pool.freePages pool.numPages
    let numFreePages := pool.numFreePages - 1
    if 0 ≤ i ∧ 0 ≤ numFreePages then
      some (i.toNat * pageSize, { pool with freePages := bitmap, numFreePages := numFreePages })
    else none
  else some (0, pool)

def pagepoolFreePhysPage (pool : Pagepool) (physAddr : Nat) : Option Pagepool :=
  let i := physAddr / pageSize
  if pool.staticEnd ≤ i then
    if bitmapGet pool.freePages i = 1 then
      some { pool with
        freePages := bitmapSet pool.freePages i false
        numFreePages := pool.numFreePages + 1 }
    else none
  else none

/-- Whether a page is marked reserved. -/
def Pagepool.reserved (pool : Pagepool) : Nat → Bool := bit pool.freePages

theorem reserved_bitmapSet (bitmap : Bytes) (n : Nat) (value : Bool) :
    bit (bitmapSet bitmap n value) = Function.update (bit bitmap) n value := by
  funext m
  rw [bit_bitmapSet,Function.update_apply]

theorem getPhysPage_effect (got : pagepoolGetPhysPage pool = some (addr, pool')) (present : addr ≠ 0) :
    addr % pageSize = 0 ∧ pool.reserved (addr / pageSize) = false ∧
      pool'.reserved = Function.update pool.reserved (addr / pageSize) true := by
  simp only [pagepoolGetPhysPage] at got
  split at got
  · split at got
    · next guard =>
      obtain ⟨rfl,rfl⟩ := Prod.mk.inj (Option.some.inj got)
      obtain ⟨n,_,free,_,found⟩ | ⟨_,found⟩ := bitmapFindnset_spec pool.freePages pool.numPages
      · rw [found]
        have index : ((n : Int).toNat * pageSize) / pageSize = n := by simp [pageSize]
        refine ⟨by simp,?_,?_⟩
        · rw [index]; exact free
        · rw [index]; exact reserved_bitmapSet pool.freePages n true
      · rw [found] at guard
        simp at guard
    · contradiction
  · cases got
    exact absurd rfl present

theorem freePhysPage_effect (freed : pagepoolFreePhysPage pool addr = some pool') :
    pool'.reserved = Function.update pool.reserved (addr / pageSize) false := by
  simp only [pagepoolFreePhysPage] at freed
  split at freed
  · split at freed
    · cases freed
      exact reserved_bitmapSet pool.freePages (addr / pageSize) false
    · contradiction
  · contradiction

/-! ### Sequences of calls -/

theorem bit_reservePages (left i : Nat) (bitmap : Bytes) (n : Nat) :
    bit (reservePages left i bitmap) n = (bit bitmap n || decide (i ≤ n ∧ n < i + left)) := by
  induction left generalizing i bitmap with
  | zero =>
    rw [decide_eq_false (by omega),Bool.or_false]
    rfl
  | succ left ih =>
    rw [reservePages,ih,bit_bitmapSet]
    by_cases here : n = i
    · rw [if_pos here,decide_eq_true (show i ≤ n ∧ n < i + (left + 1) by omega),Bool.or_true,Bool.true_or]
    · have same : (i + 1 ≤ n ∧ n < i + 1 + left) ↔ (i ≤ n ∧ n < i + (left + 1)) := by omega
      rw [if_neg here,decide_eq_decide.mpr same]

inductive PoolCall where
  | get
  | free (physAddr : Nat)

/-- `out` are the pages handed out and not freed since. -/
structure PoolState where
  pool : Pagepool
  out : List Nat

def poolStep (call : PoolCall) (s : PoolState) : Option PoolState :=
  match call with
  | .get => (pagepoolGetPhysPage s.pool).map fun (addr, pool) =>
    ⟨pool,if addr = 0 then s.out else addr / pageSize :: s.out⟩
  | .free physAddr => (pagepoolFreePhysPage s.pool physAddr).map fun pool =>
    ⟨pool,s.out.erase (physAddr / pageSize)⟩

/-- The pages below `reserved` are the kernel's, the others are handed out or free. -/
structure PoolInvariant (total reserved : Nat) (s : PoolState) : Prop where
  pages : s.pool.numPages = total
  static : s.pool.staticEnd = reserved
  count : s.pool.numFreePages = (freeIn total s.pool.freePages).card
  bits : ∀ p < total, bit s.pool.freePages p = true ↔ p < reserved ∨ p ∈ s.out
  inside : ∀ p ∈ s.out, reserved ≤ p ∧ p < total
  once : s.out.Nodup

theorem initial_poolInvariant (fits : reserved ≤ total) (memory : Bytes) :
    PoolInvariant total reserved ⟨pagepoolInit total reserved memory,[]⟩ := by
  have bits : ∀ p < total, bit (pagepoolInit total reserved memory).freePages p = decide (p < reserved) := by
    intro p low
    have same : (0 ≤ p ∧ p < 0 + reserved) ↔ p < reserved := by omega
    rw [pagepoolInit,bit_reservePages,bit_bitmapInit memory low,Bool.false_or,decide_eq_decide.mpr same]
  have free : freeIn total (pagepoolInit total reserved memory).freePages = Finset.Ico reserved total := by
    ext p
    simp only [freeIn,Finset.mem_filter,Finset.mem_range,Finset.mem_Ico]
    constructor
    · rintro ⟨low,clear⟩
      rw [bits p low] at clear
      exact ⟨Nat.le_of_not_lt (of_decide_eq_false clear),low⟩
    · rintro ⟨high,low⟩
      rw [bits p low]
      exact ⟨low,decide_eq_false (Nat.not_lt.mpr high)⟩
  refine ⟨rfl,rfl,?_,?_,by simp,List.nodup_nil⟩
  · rw [free,Nat.card_Ico]
    exact (Int.ofNat_sub fits).symm
  · intro p low
    simp [bits p low]

theorem PoolInvariant.get (invariant : PoolInvariant total reserved s) :
    ((∀ p < total, p < reserved ∨ p ∈ s.out) ∧ pagepoolGetPhysPage s.pool = some (0, s.pool)) ∨
    ∃ p, reserved ≤ p ∧ p < total ∧ p ∉ s.out ∧ bit s.pool.freePages p = false ∧
      pagepoolGetPhysPage s.pool = some (p * pageSize, { s.pool with
        freePages := bitmapSet s.pool.freePages p true
        numFreePages := s.pool.numFreePages - 1 }) := by
  by_cases positive : 0 < s.pool.numFreePages
  · have some_free : 0 < (freeIn total s.pool.freePages).card := by
      have := invariant.count
      omega
    obtain ⟨p,low,clear,_,found⟩ | ⟨full,_⟩ := bitmapFindnset_spec s.pool.freePages total
    · have unheld : ¬(p < reserved ∨ p ∈ s.out) := by
        rw [← invariant.bits p low,clear]
        decide
      refine .inr ⟨p,by omega,low,fun member => unheld (.inr member),clear,?_⟩
      simp only [pagepoolGetPhysPage,invariant.pages,found]
      rw [if_pos positive,if_pos (by omega),Int.toNat_natCast]
    · obtain ⟨p,member⟩ := Finset.card_pos.mp some_free
      simp only [freeIn,Finset.mem_filter,Finset.mem_range] at member
      rw [full p member.1] at member
      exact absurd member.2 (by decide)
  · refine .inl ⟨?_,by simp only [pagepoolGetPhysPage,if_neg positive]⟩
    intro p low
    have none_free : (freeIn total s.pool.freePages).card = 0 := by
      have := invariant.count
      omega
    rw [← invariant.bits p low]
    by_contra clear
    have member : p ∈ freeIn total s.pool.freePages := by
      simp [freeIn,low,Bool.not_eq_true _ ▸ clear]
    rw [Finset.card_eq_zero.mp none_free] at member
    simp at member

theorem PoolInvariant.free (invariant : PoolInvariant total reserved s) (below : physAddr < total * pageSize)
    (freed : pagepoolFreePhysPage s.pool physAddr = some pool) :
    physAddr / pageSize ∈ s.out ∧ physAddr / pageSize < total ∧ bit s.pool.freePages (physAddr / pageSize) = true ∧
      pool = { s.pool with
        freePages := bitmapSet s.pool.freePages (physAddr / pageSize) false
        numFreePages := s.pool.numFreePages + 1 } := by
  have low : physAddr / pageSize < total := Nat.div_lt_of_lt_mul (by rwa [Nat.mul_comm])
  simp only [pagepoolFreePhysPage] at freed
  split at freed
  · next high =>
    split at freed
    · next taken =>
      have taken : bit s.pool.freePages (physAddr / pageSize) = true := by
        rw [bitmapGet_eq] at taken
        by_contra clear
        rw [if_neg clear] at taken
        contradiction
      rw [invariant.static] at high
      obtain kernel | member := (invariant.bits _ low).mp taken
      · omega
      · exact ⟨member,low,taken,(Option.some.inj freed).symm⟩
    · contradiction
  · contradiction

theorem poolStep_invariant {call : PoolCall} (positive : 1 ≤ reserved) (invariant : PoolInvariant total reserved s)
    (below : ∀ physAddr, call = .free physAddr → physAddr < total * pageSize) (next : poolStep call s = some t) :
    PoolInvariant total reserved t := by
  cases call with
  | get =>
    obtain ⟨_,same⟩ | ⟨p,high,low,fresh,clear,got⟩ := invariant.get
    · simp only [poolStep,same,Option.map_some,if_true] at next
      cases next
      exact invariant
    · have nonzero : p * pageSize ≠ 0 := by
        unfold pageSize
        omega
      have page : p * pageSize / pageSize = p := Nat.mul_div_cancel p (by decide)
      simp only [poolStep,got,Option.map_some,if_neg nonzero,page] at next
      cases next
      refine ⟨invariant.pages,invariant.static,?_,?_,?_,List.nodup_cons.mpr ⟨fresh,invariant.once⟩⟩
      · have count := invariant.count
        have one := freeIn_bitmapSet low clear
        dsimp only
        omega
      · intro q inside
        dsimp only
        rw [bit_bitmapSet,List.mem_cons]
        by_cases same : q = p
        · simp [same]
        · rw [if_neg same,invariant.bits q inside]
          simp [same]
      · intro q member
        obtain rfl | member := List.mem_cons.mp member
        · exact ⟨high,low⟩
        · exact invariant.inside q member
  | free physAddr =>
    obtain ⟨pool,freed,rfl⟩ := Option.map_eq_some_iff.mp next
    obtain ⟨member,low,taken,rfl⟩ := invariant.free (below physAddr rfl) freed
    refine ⟨invariant.pages,invariant.static,?_,?_,?_,invariant.once.erase _⟩
    · have count := invariant.count
      have one := freeIn_bitmapClear low taken
      dsimp only
      omega
    · intro q inside
      dsimp only
      rw [bit_bitmapSet,invariant.once.mem_erase_iff]
      by_cases same : q = physAddr / pageSize
      · have high := (invariant.inside _ member).1
        rw [if_pos same,same]
        simp only [Bool.false_eq_true,ne_eq,not_true,false_and,or_false,false_iff]
        omega
      · rw [if_neg same,invariant.bits q inside]
        simp [same]
    · intro q kept
      exact invariant.inside q (List.mem_of_mem_erase kept)

theorem PoolInvariant.release (invariant : PoolInvariant total reserved ⟨pool,out⟩) (positive : 1 ≤ reserved)
    (member : p ∈ out) :
    ∃ pool', pagepoolFreePhysPage pool (p * pageSize) = some pool' ∧ PoolInvariant total reserved ⟨pool',out.erase p⟩ := by
  have page : p * pageSize / pageSize = p := Nat.mul_div_cancel p (by decide)
  obtain ⟨high,low⟩ := invariant.inside p member
  have taken := (invariant.bits p low).mpr (.inr member)
  have one : bitmapGet pool.freePages p = 1 := by
    rw [bitmapGet_eq]
    exact if_pos taken
  have static : pool.staticEnd ≤ (p : Int) := invariant.static.trans_le (Int.ofNat_le.mpr high)
  have freed : pagepoolFreePhysPage pool (p * pageSize) = some { pool with
      freePages := bitmapSet pool.freePages p false, numFreePages := pool.numFreePages + 1 } := by
    rw [pagepoolFreePhysPage]
    simp only [page]
    rw [if_pos static,if_pos one]
  have kept := poolStep_invariant positive invariant
    (by rintro physAddr ⟨⟩; exact Nat.mul_lt_mul_of_pos_right low (by decide))
    (show poolStep (.free (p * pageSize)) ⟨pool,out⟩ = _ by rw [poolStep,freed]; rfl)
  rw [page] at kept
  exact ⟨_,freed,kept⟩

theorem PoolInvariant.giveBack (invariant : PoolInvariant total reserved ⟨pool,p :: out⟩) (positive : 1 ≤ reserved) :
    ∃ pool', pagepoolFreePhysPage pool (p * pageSize) = some pool' ∧ PoolInvariant total reserved ⟨pool',out⟩ := by
  have released := invariant.release positive List.mem_cons_self
  rwa [List.erase_cons_head] at released

theorem PoolInvariant.got (invariant : PoolInvariant total reserved ⟨pool,out⟩) (positive : 1 ≤ reserved)
    (got : pagepoolGetPhysPage pool = some (physFrame,pool')) (present : physFrame ≠ 0) :
    ∃ after, pagepoolFreePhysPage pool' physFrame = some after ∧ PoolInvariant total reserved ⟨after,out⟩ ∧
      physFrame / pageSize ∉ out := by
  obtain ⟨_,none⟩ | ⟨p,_,_,fresh,_,found⟩ := invariant.get
  · rw [none] at got
    cases got
    contradiction
  · have taken := poolStep_invariant positive invariant (by rintro physAddr ⟨⟩)
      (show poolStep .get ⟨pool,out⟩ = _ by rw [poolStep,got]; rfl)
    rw [found] at got
    obtain ⟨rfl,rfl⟩ := Prod.mk.inj (Option.some.inj got)
    have page : p * pageSize / pageSize = p := Nat.mul_div_cancel p (by decide)
    simp only [if_neg present,page] at taken
    obtain ⟨after,freed,kept⟩ := taken.giveBack positive
    exact ⟨after,freed,kept,by rw [page]; exact fresh⟩

theorem run_poolInvariant (positive : 1 ≤ reserved) (fits : reserved ≤ total) (memory : Bytes)
    (below : ∀ physAddr, PoolCall.free physAddr ∈ calls → physAddr < total * pageSize)
    (ran : run poolStep calls ⟨pagepoolInit total reserved memory,[]⟩ = some s) : PoolInvariant total reserved s := by
  have meets : Meets poolStep (fun call _ => ∀ physAddr, call = .free physAddr → physAddr < total * pageSize) calls
      ⟨pagepoolInit total reserved memory,[]⟩ := by
    refine meets_of_forall ?_
    rintro call member physAddr rfl
    exact below physAddr member
  exact run_guarded (fun _ _ _ invariant below next => poolStep_invariant positive invariant below next)
    (initial_poolInvariant fits memory) meets ran

/-- The page pool over every sequence of calls that does not panic, and the next page asked for. -/
theorem pagepool_correct (positive : 1 ≤ reserved) (fits : reserved ≤ total) (memory : Bytes)
    (below : ∀ physAddr, PoolCall.free physAddr ∈ calls → physAddr < total * pageSize)
    (ran : run poolStep calls ⟨pagepoolInit total reserved memory,[]⟩ = some s) :
    s.pool.numFreePages = (freeIn total s.pool.freePages).card ∧ (∀ p < reserved, bit s.pool.freePages p = true) ∧
    ∃ addr pool, pagepoolGetPhysPage s.pool = some (addr, pool) ∧
      (addr ≠ 0 → ∃ p, addr = p * pageSize ∧ reserved ≤ p ∧ p < total ∧ p ∉ s.out) ∧
      (addr = 0 ↔ ∀ p < total, p < reserved ∨ p ∈ s.out) := by
  have invariant := run_poolInvariant positive fits memory below ran
  refine ⟨invariant.count,fun p low => (invariant.bits p (by omega)).mpr (.inl low),?_⟩
  obtain ⟨full,got⟩ | ⟨p,high,low,fresh,_,got⟩ := invariant.get
  · exact ⟨0,_,got,fun nonzero => absurd rfl nonzero,fun _ => full,fun _ => rfl⟩
  · refine ⟨_,_,got,fun _ => ⟨p,rfl,high,low,fresh⟩,fun zero => ?_,fun full => ?_⟩
    · unfold pageSize at zero
      omega
    · obtain kernel | member := full p low
      · omega
      · exact absurd member fresh

/-- The 40 pages end inside the second word of the bitmap, whose memory is not zeroed before. -/
theorem pagepool_correct_sample :
    ∃ s, run poolStep [.get,.get,.free 8192] ⟨pagepoolInit 40 2 fun _ => 255,[]⟩ = some s ∧
      s.pool.numFreePages = (freeIn 40 s.pool.freePages).card := by
  have whole : (run poolStep [.get,.get,.free 8192] ⟨pagepoolInit 40 2 fun _ => 255,[]⟩).isSome = true := by
    decide +kernel
  obtain ⟨s,ran⟩ := Option.isSome_iff_exists.mp whole
  have below : ∀ physAddr, PoolCall.free physAddr ∈ [.get,.get,.free 8192] → physAddr < 40 * pageSize := by
    intro physAddr member
    simp only [List.mem_cons,reduceCtorEq,PoolCall.free.injEq,List.not_mem_nil,or_false,false_or] at member
    subst member
    decide
  exact ⟨s,ran,(pagepool_correct (by decide) (by decide) _ below ran).1⟩

end Buenos.Vm
