import Buenos.Proc.Loader
import Buenos.Foundation.Run

/-! The stores of `process_start` to user addresses, one at a time, against the TLB. A
context switch away from the thread and back may come before any of them. -/
namespace Buenos.Proc.Access

open Buenos.Foundation Buenos.Vm

/-- A store to each byte of the range. -/
def expand : Stmt → List Stmt
  | .touch vaddr size => (List.range size).map fun i => .touch ((vaddr + i) % 2 ^ 32) 1
  | stmt => [stmt]

def stores (maxindex : Nat) (elf : ElfInfo) : List Stmt := (processStart maxindex elf).flatMap expand

/-- The thread in `process_start` with what is left to do. Not read by the code: the pages
`mapped` so far and those that were mapped when the TLB was last `filled` from the page
table. -/
structure Loading where
  tlb : Tlb
  pagetable : Option Pagetable
  rest : List Stmt
  mapped : List Nat
  filled : List Nat

/-- `interrupt` switches to other threads, which leave the TLB `other`, and back; `next` is
a statement, with the page the pool gives and what a page table's page held. -/
inductive Event where
  | interrupt (other : Tlb)
  | next (page : Nat → TlbEntry) (physaddr : Nat)

variable (maxindex : Nat)

/-- A store to the address goes through without a TLB exception. -/
def Covered (tlb : Tlb) (vaddr : Nat) : Prop :=
  ∃ row, row < maxindex + 1 ∧ (tlb.rows row).Maps tlb.asid vaddr ∧ ((tlb.rows row).half vaddr).d = true

instance (tlb : Tlb) (vaddr : Nat) : Decidable (Covered maxindex tlb vaddr) :=
  inferInstanceAs (Decidable (∃ row, row < maxindex + 1 ∧ _))

def Loading.fill (s : Loading) (tlb : Tlb) : Option Loading :=
  (tlbFill maxindex s.pagetable tlb).map fun tlb => { s with tlb := tlb, filled := s.mapped }

def Loading.addPage (s : Loading) (pt : Pagetable) (vaddr : Nat) : Loading :=
  { s with pagetable := some pt, mapped := vaddr / pageSize :: s.mapped }

variable (tid : Nat)

def Loading.execute (s : Loading) (page : Nat → TlbEntry) (physaddr : Nat) : Stmt → Option Loading
  | .createPagetable =>
    if s.pagetable.isSome then none
    else some { s with pagetable := some (vmCreatePagetable tid page), tlb := tlbSetAsid s.tlb tid }
  | .openExecutable => some s
  | .assert holds => if holds then some s else none
  | .map vaddr =>
    if physaddr = 0 then none
    else (s.pagetable.bind fun pt => vmMap pt physaddr vaddr true).map fun pt =>
      s.addPage pt vaddr
  | .fill => s.fill maxindex s.tlb
  | .touch vaddr _ => if Covered maxindex s.tlb vaddr then some s else none
  | .setDirty vaddr dirty =>
    (s.pagetable.bind fun pt => vmSetDirty pt vaddr dirty).map fun pt => { s with pagetable := some pt }
  | .gotoUserland => some s

def step : Event → Loading → Option Loading
  | .interrupt other, s => s.fill maxindex other
  | .next page physaddr, s =>
    match s.rest with
    | [] => none
    | stmt :: rest => Loading.execute maxindex tid { s with rest := rest } page physaddr stmt

def start (elf : ElfInfo) (tlb : Tlb) : Loading := ⟨tlb, none, stores maxindex elf, [], []⟩

/-- The other threads leave no row of an earlier process with this thread id. -/
def NoLeftover (a : Event) (s : Loading) : Prop :=
  match a with
  | .interrupt other => ∀ row vaddr, row < maxindex + 1 → (other.rows row).Maps (tid % 256) vaddr →
      vaddr / pageSize ∈ s.filled
  | .next _ _ => True

/-! ### Order of the statements -/

/-- Pages are mapped before any store and write-protected after all of them. -/
def InOrder : Stmt → Stmt → Prop
  | .touch _ _, .map _ => False
  | .setDirty _ _, .touch _ _ => False
  | .setDirty _ _, .map _ => False
  | _, _ => True

def Stmt.Early : Stmt → Prop
  | .touch _ _ | .setDirty _ _ => False
  | _ => True

def Stmt.Storing : Stmt → Prop
  | .touch _ _ | .assert _ => True
  | _ => False

def Stmt.Late : Stmt → Prop
  | .setDirty _ _ | .fill | .gotoUserland => True
  | _ => False

theorem early_inOrder (early : Stmt.Early a) : InOrder a b := by
  cases a <;> trivial

theorem storing_inOrder (first : Stmt.Storing a) (second : Stmt.Storing b ∨ Stmt.Late b) : InOrder a b := by
  cases a <;> first | trivial | exact absurd first id | skip
  cases b <;> first | trivial | simp [Stmt.Storing,Stmt.Late] at second

theorem late_inOrder (first : Stmt.Late a) (second : Stmt.Late b) : InOrder a b := by
  cases a <;> first | trivial | exact absurd first id | skip
  cases b <;> trivial

variable {maxindex tid}

theorem mapImage_early (member : a ∈ mapImage maxindex elf) : Stmt.Early a := by
  simp only [mapImage,List.mem_append,List.mem_cons,List.mem_map,List.not_mem_nil,or_false] at member
  rcases member with (((( rfl | rfl | rfl | rfl) | ⟨v,_,rfl⟩) | rfl) | ⟨v,_,rfl⟩) | ⟨v,_,rfl⟩
  all_goals trivial

theorem expand_whole {stmts : List Stmt} (whole : ∀ a ∈ stmts, ∀ vaddr size, a ≠ .touch vaddr size) :
    stmts.flatMap expand = stmts := by
  induction stmts with
  | nil => rfl
  | cons a rest ih =>
    have single : expand a = [a] := by
      have other := whole a List.mem_cons_self
      cases a <;> first | rfl | exact absurd rfl (other _ _)
    rw [List.flatMap_cons,single,ih fun b member => whole b (List.mem_cons_of_mem a member)]
    rfl

def storedBytes (elf : ElfInfo) : List Stmt := (fillImage elf).flatMap expand

def afterStores (elf : ElfInfo) : List Stmt := protectImage elf ++ [.fill, .gotoUserland]

theorem afterStores_late (member : a ∈ afterStores elf) : Stmt.Late a := by
  simp only [afterStores,protectImage,List.mem_append,List.mem_cons,List.mem_map,List.not_mem_nil,
    or_false] at member
  rcases member with ⟨v,_,rfl⟩ | rfl | rfl
  all_goals trivial

theorem stores_eq (maxindex : Nat) (elf : ElfInfo) :
    stores maxindex elf = mapImage maxindex elf ++ storedBytes elf ++ afterStores elf := by
  have late : (afterStores elf).flatMap expand = afterStores elf := by
    refine expand_whole fun a member vaddr size touch => ?_
    have := afterStores_late member
    rw [touch] at this
    exact this
  have early : (mapImage maxindex elf).flatMap expand = mapImage maxindex elf := by
    refine expand_whole fun a member vaddr size touch => ?_
    have := mapImage_early member
    rw [touch] at this
    exact this
  rw [stores,processStart,List.append_assoc,List.flatMap_append,List.flatMap_append,early]
  exact congrArg _ late

theorem fillImage_storing (member : a ∈ fillImage elf) : Stmt.Storing a := by
  simp only [fillImage,copySegment,List.mem_append,List.mem_cons,List.not_mem_nil,or_false] at member
  rcases member with ((rfl | rfl | rfl) | member) | member
  · trivial
  · trivial
  · trivial
  all_goals
    split at member
    · simp only [List.mem_cons,List.not_mem_nil,or_false] at member
      rcases member with rfl | rfl <;> trivial
    · simp at member

theorem storedBytes_storing (member : a ∈ storedBytes elf) : Stmt.Storing a := by
  obtain ⟨stmt,inside,member⟩ := List.mem_flatMap.mp member
  have storing := fillImage_storing inside
  cases stmt with
  | touch vaddr size =>
    obtain ⟨i,_,rfl⟩ := List.mem_map.mp member
    trivial
  | assert holds => cases List.mem_singleton.mp member; trivial
  | _ => exact absurd storing id

theorem stores_inOrder (maxindex : Nat) (elf : ElfInfo) : (stores maxindex elf).Pairwise InOrder := by
  rw [stores_eq,List.append_assoc]
  refine List.pairwise_append.mpr ⟨?_,List.pairwise_append.mpr ⟨?_,?_,?_⟩,?_⟩
  · exact List.pairwise_of_forall_mem_list fun a first b _ => early_inOrder (mapImage_early first)
  · exact List.pairwise_of_forall_mem_list fun a first b second =>
      storing_inOrder (storedBytes_storing first) (.inl (storedBytes_storing second))
  · exact List.pairwise_of_forall_mem_list fun a first b second =>
      late_inOrder (afterStores_late first) (afterStores_late second)
  · exact fun a first b second =>
      storing_inOrder (storedBytes_storing first) (.inr (afterStores_late second))
  · exact fun a first b _ => early_inOrder (mapImage_early first)

/-! ### The page table and the TLB while stores are left -/

def imagePages (elf : ElfInfo) : List Nat :=
  stackPages ++ segmentPages elf.roVaddr elf.roPages ++ segmentPages elf.rwVaddr elf.rwPages

def Loading.Storing (s : Loading) : Prop := ∃ vaddr size, .touch vaddr size ∈ s.rest

structure TableFacts (s : Loading) (pt : Pagetable) : Prop where
  recorded : ∀ vaddr half, pt.Maps vaddr half → half.d = true ∧ vaddr / pageSize ∈ s.mapped
  present : ∀ vaddr, vaddr / pageSize ∈ s.mapped → ∃ half, pt.Maps vaddr half

structure Invariant (maxindex tid : Nat) (elf : ElfInfo) (s : Loading) : Prop where
  ordered : s.rest.Pairwise InOrder
  origin : ∀ a ∈ s.rest, a ∈ stores maxindex elf
  image : ∀ vaddr ∈ imagePages elf, vaddr / pageSize ∈ s.mapped ∨ .map vaddr ∈ s.rest
  unmapped : s.pagetable = none → s.mapped = []
  subset : ∀ page ∈ s.filled, page ∈ s.mapped
  formed : ∀ pt, s.pagetable = some pt → pt.WellFormed ∧ pt.asid = tid ∧ s.tlb.asid = tid % 256
  table : s.Storing → ∀ pt, s.pagetable = some pt → TableFacts s pt
  covered : s.Storing → ∀ vaddr, vaddr / pageSize ∈ s.filled → Covered maxindex s.tlb vaddr

theorem invariant_start (maxindex tid : Nat) (elf : ElfInfo) (tlb : Tlb) :
    Invariant maxindex tid elf (start maxindex elf tlb) := by
  refine ⟨stores_inOrder maxindex elf,fun _ => id,?_,fun _ => rfl,?_,?_,?_,?_⟩
  · intro vaddr member
    refine .inr ?_
    change _ ∈ stores maxindex elf
    rw [stores_eq]
    have early : .map vaddr ∈ mapImage maxindex elf := by
      simp only [imagePages,List.mem_append] at member
      simpa [mapImage,or_assoc] using member
    exact List.mem_append_left _ (List.mem_append_left _ early)
  · intro page member; simp [start] at member
  · intro pt found; simp [start] at found
  · intro _ pt found; simp [start] at found
  · intro _ vaddr member; simp [start] at member

/-- A fill from the page table covers every page that is mapped. -/
theorem fill_covered (facts : TableFacts s pt) (formed : pt.WellFormed)
    (filled : Filled maxindex pt before tlb) (member : vaddr / pageSize ∈ s.mapped) :
    Covered maxindex tlb vaddr := by
  obtain ⟨half,i,inside,named,same,valid⟩ := facts.present vaddr member
  have dirty := (facts.recorded vaddr half ⟨i,inside,named,same,valid⟩).1
  have fits := filled.fits
  refine ⟨i,by omega,?_,?_⟩
  · rw [filled.own i inside,filled.asid]
    exact ⟨named,formed.asid i inside,same ▸ valid⟩
  · rw [filled.own i inside,same]
    exact dirty

theorem Invariant.fill (invariant : Invariant maxindex tid elf s) (done : s.fill maxindex tlb = some t) :
    Invariant maxindex tid elf t := by
  obtain ⟨tlb',written,rfl⟩ := Option.map_eq_some_iff.mp done
  refine ⟨invariant.ordered,invariant.origin,invariant.image,invariant.unmapped,fun _ => id,?_,?_,?_⟩
  · intro pt found
    have found : s.pagetable = some pt := found
    rw [found] at written
    obtain ⟨formed,asid,_⟩ := invariant.formed pt found
    exact ⟨formed,asid,by rw [(tlbFill_filled written).asid,asid]⟩
  · intro storing pt found
    have facts := invariant.table storing pt found
    exact ⟨facts.recorded,facts.present⟩
  · intro storing vaddr member
    have member : vaddr / pageSize ∈ s.mapped := member
    cases found : s.pagetable with
    | none => simp [invariant.unmapped found] at member
    | some pt =>
      rw [found] at written
      exact fill_covered (invariant.table storing pt found) (invariant.formed pt found).1
        (tlbFill_filled written) member

theorem storing_tail {s : Loading} (here : s.rest = stmt :: rest)
    (storing : Loading.Storing { s with rest := rest }) : s.Storing := by
  obtain ⟨vaddr,size,member⟩ := storing
  exact ⟨vaddr,size,by rw [here]; exact List.mem_cons_of_mem _ member⟩

/-- The next statement is taken off the list; it is no `vm_map`. -/
theorem Invariant.drop (invariant : Invariant maxindex tid elf s) (here : s.rest = stmt :: rest)
    (other : ∀ vaddr, stmt ≠ .map vaddr) : Invariant maxindex tid elf { s with rest := rest } := by
  have storing := storing_tail here
  refine ⟨?_,?_,?_,invariant.unmapped,invariant.subset,invariant.formed,?_,?_⟩
  · have ordered := invariant.ordered
    rw [here] at ordered
    exact ordered.of_cons
  · intro a member
    exact invariant.origin a (by rw [here]; exact List.mem_cons_of_mem _ member)
  · intro vaddr member
    obtain mapped | later := invariant.image vaddr member
    · exact .inl mapped
    · rw [here] at later
      obtain same | later := List.mem_cons.mp later
      · exact absurd same.symm (other vaddr)
      · exact .inr later
  · intro left pt found
    have facts := invariant.table (storing left) pt found
    exact ⟨facts.recorded,facts.present⟩
  · intro left
    exact invariant.covered (storing left)

theorem Invariant.map (invariant : Invariant maxindex tid elf s) (here : s.rest = .map vaddr :: rest)
    (found : s.pagetable = some pt) (done : vmMap pt physaddr vaddr true = some pt') :
    Invariant maxindex tid elf (Loading.addPage { s with rest := rest } pt' vaddr) := by
  obtain ⟨formed,asid,current⟩ := invariant.formed pt found
  have storing : (Loading.addPage { s with rest := rest } pt' vaddr).Storing → s.Storing :=
    storing_tail here
  refine ⟨?_,?_,?_,?_,?_,?_,?_,?_⟩
  · have ordered := invariant.ordered
    rw [here] at ordered
    exact ordered.of_cons
  · intro a member
    exact invariant.origin a (by rw [here]; exact List.mem_cons_of_mem _ member)
  · intro other member
    obtain mapped | later := invariant.image other member
    · exact .inl (List.mem_cons_of_mem _ mapped)
    · rw [here] at later
      obtain same | later := List.mem_cons.mp later
      · cases same; exact .inl List.mem_cons_self
      · exact .inr later
  · intro missing; contradiction
  · intro page member
    exact List.mem_cons_of_mem _ (invariant.subset page member)
  · intro new same
    cases same
    exact ⟨formed.vmMap done,(vmMap_grows done).1.trans asid,current⟩
  · intro left new same
    cases same
    have facts := invariant.table (storing left) pt found
    refine ⟨?_,?_⟩
    · intro other half maps
      obtain ⟨page,rfl⟩ | ⟨_,old⟩ := (vmMap_maps formed done other half).mp maps
      · exact ⟨rfl,by rw [page]; exact List.mem_cons_self⟩
      · obtain ⟨dirty,member⟩ := facts.recorded other half old
        exact ⟨dirty,List.mem_cons_of_mem _ member⟩
    · intro other member
      by_cases page : other / pageSize = vaddr / pageSize
      · exact ⟨_,(vmMap_maps formed done other _).mpr (.inl ⟨page,rfl⟩)⟩
      · obtain same | old := List.mem_cons.mp member
        · exact absurd same page
        · obtain ⟨half,maps⟩ := facts.present other old
          exact ⟨half,(vmMap_maps formed done other half).mpr (.inr ⟨page,maps⟩)⟩
  · intro left other member
    exact invariant.covered (storing left) other member

theorem Invariant.create (invariant : Invariant maxindex tid elf s) (missing : s.pagetable = none) :
    Invariant maxindex tid elf { s with pagetable := some (vmCreatePagetable tid page), tlb := tlbSetAsid s.tlb tid } := by
  have empty := invariant.unmapped missing
  have unfilled : ∀ page, page ∉ s.filled := by
    intro page member
    simpa [empty] using invariant.subset page member
  refine ⟨invariant.ordered,invariant.origin,invariant.image,fun wrong => by contradiction,
    invariant.subset,?_,?_,?_⟩
  · intro pt same
    cases same
    exact ⟨vmCreatePagetable_wellFormed tid page,rfl,rfl⟩
  · intro _ pt same
    cases same
    refine ⟨?_,?_⟩
    · rintro vaddr half ⟨i,inside,_⟩
      exact absurd inside (Nat.not_lt_zero i)
    · intro vaddr member
      have member : vaddr / pageSize ∈ s.mapped := member
      simp [empty] at member
  · intro _ vaddr member
    exact absurd member (unfilled _)

theorem Invariant.setDirty (invariant : Invariant maxindex tid elf s)
    (last : ∀ vaddr size, .touch vaddr size ∉ s.rest) (found : s.pagetable = some pt)
    (done : vmSetDirty pt vaddr dirty = some pt') :
    Invariant maxindex tid elf { s with pagetable := some pt' } := by
  have finished : ¬Loading.Storing { s with pagetable := some pt' } := by
    rintro ⟨vaddr,size,member⟩
    exact last vaddr size member
  refine ⟨invariant.ordered,invariant.origin,invariant.image,fun wrong => by contradiction,
    invariant.subset,?_,fun storing => absurd storing finished,fun storing => absurd storing finished⟩
  intro new same
  cases same
  obtain ⟨formed,asid,current⟩ := invariant.formed pt found
  exact ⟨formed.vmSetDirty done,(vmSetDirty_grows done).1.trans asid,current⟩

theorem step_invariant (invariant : Invariant maxindex tid elf s) (next : step maxindex tid a s = some t) :
    Invariant maxindex tid elf t := by
  cases a with
  | interrupt other => exact invariant.fill next
  | next page physaddr =>
    simp only [step] at next
    split at next
    · contradiction
    · next stmt rest here =>
      have ordered := invariant.ordered
      rw [here] at ordered
      cases stmt with
      | createPagetable =>
        have dropped := invariant.drop here (by simp)
        simp only [Loading.execute] at next
        split at next
        · contradiction
        · next missing => cases next; exact dropped.create (by simpa using missing)
      | openExecutable => cases next; exact invariant.drop here (by simp)
      | assert holds =>
        simp only [Loading.execute] at next
        split at next
        · cases next; exact invariant.drop here (by simp)
        · contradiction
      | map vaddr =>
        simp only [Loading.execute] at next
        split at next
        · contradiction
        · obtain ⟨pt',mapped,rfl⟩ := Option.map_eq_some_iff.mp next
          obtain ⟨pt,found,mapped⟩ := Option.bind_eq_some_iff.mp mapped
          exact invariant.map here found mapped
      | fill => exact (invariant.drop here (by simp)).fill next
      | touch vaddr size =>
        simp only [Loading.execute] at next
        split at next
        · cases next; exact invariant.drop here (by simp)
        · contradiction
      | setDirty vaddr dirty =>
        obtain ⟨pt',changed,rfl⟩ := Option.map_eq_some_iff.mp next
        obtain ⟨pt,found,changed⟩ := Option.bind_eq_some_iff.mp changed
        refine (invariant.drop here (by simp)).setDirty ?_ found changed
        intro other size member
        exact List.rel_of_pairwise_cons ordered member
      | gotoUserland => cases next; exact invariant.drop here (by simp)

/-! ### No other rows -/

/-- Under the thread's ASID the TLB maps nothing but pages of the last fill. -/
def Clean (maxindex tid : Nat) (s : Loading) : Prop :=
  s.Storing → ∀ row vaddr, row < maxindex + 1 → (s.tlb.rows row).Maps (tid % 256) vaddr →
    vaddr / pageSize ∈ s.filled

theorem Clean.fill (invariant : Invariant maxindex tid elf s) (storing : s.Storing)
    (before : ∀ row vaddr, row < maxindex + 1 → (tlb.rows row).Maps (tid % 256) vaddr →
      vaddr / pageSize ∈ s.filled)
    (done : s.fill maxindex tlb = some t) (inside : row < maxindex + 1)
    (maps : (t.tlb.rows row).Maps (tid % 256) vaddr) : vaddr / pageSize ∈ t.filled := by
  obtain ⟨tlb',written,rfl⟩ := Option.map_eq_some_iff.mp done
  change vaddr / pageSize ∈ s.mapped
  cases found : s.pagetable with
  | none =>
    rw [found] at written
    cases written
    exact invariant.subset _ (before row vaddr inside maps)
  | some pt =>
    rw [found] at written
    have filled := tlbFill_filled written
    by_cases own : row < pt.validCount
    · have maps : (tlb'.rows row).Maps (tid % 256) vaddr := maps
      rw [filled.own row own] at maps
      obtain ⟨named,_,valid⟩ := maps
      exact ((invariant.table storing pt found).recorded vaddr _ ⟨row,own,named,rfl,valid⟩).2
    · have maps : (tlb'.rows row).Maps (tid % 256) vaddr := maps
      rw [filled.others row (Nat.not_lt.mp own)] at maps
      exact invariant.subset _ (before row vaddr inside maps)

theorem step_clean (invariant : Invariant maxindex tid elf s) (clean : Clean maxindex tid s)
    (foreign : NoLeftover maxindex tid a s) (next : step maxindex tid a s = some t) :
    Clean maxindex tid t := by
  intro storing row vaddr inside maps
  cases a with
  | interrupt other =>
    have before : s.Storing := by
      obtain ⟨tlb',_,rfl⟩ := Option.map_eq_some_iff.mp next
      exact storing
    exact Clean.fill invariant before foreign next inside maps
  | next page physaddr =>
    simp only [step] at next
    split at next
    · contradiction
    · next stmt rest here =>
      have earlier : Loading.Storing { s with rest := rest } → ∀ row vaddr, row < maxindex + 1 →
          (s.tlb.rows row).Maps (tid % 256) vaddr → vaddr / pageSize ∈ s.filled :=
        fun storing => clean (storing_tail here storing)
      cases stmt with
      | createPagetable | assert | touch =>
        simp only [Loading.execute] at next
        split at next
        all_goals first
          | contradiction
          | (cases next; exact earlier storing row vaddr inside maps)
      | openExecutable | gotoUserland => cases next; exact earlier storing row vaddr inside maps
      | map other =>
        simp only [Loading.execute] at next
        split at next
        · contradiction
        · obtain ⟨pt',_,rfl⟩ := Option.map_eq_some_iff.mp next
          exact earlier storing row vaddr inside maps
      | setDirty other dirty =>
        obtain ⟨pt',_,rfl⟩ := Option.map_eq_some_iff.mp next
        exact earlier storing row vaddr inside maps
      | fill =>
        have dropped := invariant.drop here (by simp)
        have left : Loading.Storing { s with rest := rest } := by
          obtain ⟨tlb',_,rfl⟩ := Option.map_eq_some_iff.mp next
          exact storing
        exact Clean.fill dropped left (earlier left) next inside maps

/-! ### Every store of every run -/

theorem reached_invariant (ran : run (step maxindex tid) events (start maxindex elf tlb) = some s) :
    Invariant maxindex tid elf s :=
  run_invariant (fun _ _ _ invariant next => step_invariant invariant next)
    (invariant_start maxindex tid elf tlb) ran

theorem reached_clean (ran : run (step maxindex tid) events (start maxindex elf tlb) = some s)
    (empty : ∀ row vaddr, row < maxindex + 1 → ¬(tlb.rows row).Maps (tid % 256) vaddr)
    (foreign : Meets (step maxindex tid) (NoLeftover maxindex tid) events (start maxindex elf tlb)) :
    Clean maxindex tid s := by
  have preserved : ∀ a s t, (Invariant maxindex tid elf s ∧ Clean maxindex tid s) →
      NoLeftover maxindex tid a s → step maxindex tid a s = some t →
      (Invariant maxindex tid elf t ∧ Clean maxindex tid t) := by
    intro a s t before foreign next
    exact ⟨step_invariant before.1 next,step_clean before.1 before.2 foreign next⟩
  have first : Clean maxindex tid (start maxindex elf tlb) := by
    intro _ row vaddr inside maps
    exact absurd maps (empty row vaddr inside)
  exact (run_guarded preserved ⟨invariant_start maxindex tid elf tlb,first⟩ foreign ran).2

theorem Invariant.all_mapped (invariant : Invariant maxindex tid elf s)
    (here : s.rest = .touch vaddr size :: later) (member : other ∈ imagePages elf) :
    other / pageSize ∈ s.mapped := by
  obtain mapped | left := invariant.image other member
  · exact mapped
  · have ordered := invariant.ordered
    rw [here] at ordered left
    obtain same | left := List.mem_cons.mp left
    · contradiction
    · exact absurd (List.rel_of_pairwise_cons ordered left) id

theorem Invariant.asid (invariant : Invariant maxindex tid elf s)
    (here : s.rest = .touch vaddr size :: later) : s.tlb.asid = tid % 256 := by
  have member : stackBottom ∈ imagePages elf := by simp [imagePages,stackPages,stackBottom,configUserlandStackSize]
  have stack := invariant.all_mapped here member
  cases found : s.pagetable with
  | none => simp [invariant.unmapped found] at stack
  | some pt => exact (invariant.formed pt found).2.2

/-- The segments start on a page and the part in the file fits into their pages. -/
def Fits (elf : ElfInfo) : Prop :=
  elf.roVaddr % pageSize = 0 ∧ elf.rwVaddr % pageSize = 0 ∧
  elf.roSize ≤ elf.roPages * pageSize ∧ elf.rwSize ≤ elf.rwPages * pageSize

theorem segment_page (aligned : base % pageSize = 0) (inside : i < count * pageSize) :
    ∃ page ∈ segmentPages base count, (base + i) % 2 ^ 32 / pageSize = page / pageSize := by
  refine ⟨(base + i / pageSize * pageSize) % 2 ^ 32,?_,?_⟩
  · have index : i / pageSize < count := Nat.div_lt_of_lt_mul (by rwa [Nat.mul_comm])
    exact List.mem_map.mpr ⟨i / pageSize,List.mem_range.mpr index,rfl⟩
  · unfold pageSize at aligned ⊢
    omega

theorem touch_page (member : .touch vaddr one ∈ expand (.touch base size))
    (covers : ∀ i, i < size → ∃ page ∈ imagePages elf, (base + i) % 2 ^ 32 / pageSize = page / pageSize) :
    ∃ page ∈ imagePages elf, vaddr / pageSize = page / pageSize := by
  obtain ⟨i,inside,same⟩ := List.mem_map.mp member
  cases same
  exact covers i (List.mem_range.mp inside)

theorem stored_page (fits : Fits elf) (member : .touch vaddr one ∈ storedBytes elf) :
    ∃ page ∈ imagePages elf, vaddr / pageSize = page / pageSize := by
  obtain ⟨roAligned,rwAligned,roFits,rwFits⟩ := fits
  have ro : ∀ i, i < elf.roPages * pageSize →
      ∃ page ∈ imagePages elf, (elf.roVaddr + i) % 2 ^ 32 / pageSize = page / pageSize := by
    intro i inside
    obtain ⟨page,member,same⟩ := segment_page roAligned inside
    exact ⟨page,by simp [imagePages,member],same⟩
  have rw_ : ∀ i, i < elf.rwPages * pageSize →
      ∃ page ∈ imagePages elf, (elf.rwVaddr + i) % 2 ^ 32 / pageSize = page / pageSize := by
    intro i inside
    obtain ⟨page,member,same⟩ := segment_page rwAligned inside
    exact ⟨page,by simp [imagePages,member],same⟩
  obtain ⟨stmt,inside,member⟩ := List.mem_flatMap.mp member
  simp only [fillImage,copySegment,List.mem_append,List.mem_cons,List.not_mem_nil,or_false] at inside
  rcases inside with ((rfl | rfl | rfl) | inside) | inside
  · exact touch_page member ro
  · exact touch_page member rw_
  · refine touch_page member fun i small => ⟨stackBottom,?_,?_⟩
    · simp [imagePages,stackPages,stackBottom,configUserlandStackSize]
    · simp only [stackBottom,userlandStackTop,configUserlandStackSize,pageSize] at small ⊢
      omega
  · split at inside
    · simp only [List.mem_cons,List.not_mem_nil,or_false] at inside
      rcases inside with rfl | rfl
      · simp [expand] at member
      · exact touch_page member fun i small => ro i (by omega)
    · simp at inside
  · split at inside
    · simp only [List.mem_cons,List.not_mem_nil,or_false] at inside
      rcases inside with rfl | rfl
      · simp [expand] at member
      · exact touch_page member fun i small => rw_ i (by omega)
    · simp at inside

theorem touch_stored (member : .touch vaddr size ∈ stores maxindex elf) : .touch vaddr size ∈ storedBytes elf := by
  rw [stores_eq] at member
  obtain (early | stored) | late := (List.mem_append.mp member).imp_left List.mem_append.mp
  · exact absurd (mapImage_early early) id
  · exact stored
  · exact absurd (afterStores_late late) id

/-- Any schedule: a store finds its page in the TLB if the TLB has been filled since the
page was mapped, and, without rows of earlier processes with the thread id, only then. The
pages of an executable that fits its segments have all been mapped by then. -/
theorem store_mapped (ran : run (step maxindex tid) events (start maxindex elf tlb) = some s)
    (here : s.rest = .touch vaddr size :: later) :
    (vaddr / pageSize ∈ s.filled → Covered maxindex s.tlb vaddr) ∧
    ((∀ row vaddr, row < maxindex + 1 → ¬(tlb.rows row).Maps (tid % 256) vaddr) →
      Meets (step maxindex tid) (NoLeftover maxindex tid) events (start maxindex elf tlb) →
      (Covered maxindex s.tlb vaddr ↔ vaddr / pageSize ∈ s.filled)) ∧
    (Fits elf → vaddr / pageSize ∈ s.mapped) := by
  have invariant := reached_invariant ran
  have storing : s.Storing := ⟨vaddr,size,by rw [here]; exact List.mem_cons_self⟩
  refine ⟨invariant.covered storing vaddr,?_,?_⟩
  · intro empty foreign
    refine ⟨?_,invariant.covered storing vaddr⟩
    rintro ⟨row,inside,maps,_⟩
    rw [invariant.asid here] at maps
    exact reached_clean ran empty foreign storing row vaddr inside maps
  · intro fits
    have member : .touch vaddr size ∈ stores maxindex elf :=
      invariant.origin _ (by rw [here]; exact List.mem_cons_self)
    obtain ⟨page,inside,same⟩ := stored_page fits (touch_stored member)
    rw [same]
    exact invariant.all_mapped here inside

def codeElf : ElfInfo := ⟨0x10000, 0, 16, 1, 0x10000, 0, 0, 0, 0⟩

def blank : Tlb := ⟨fun _ => ⟨0, 0, ⟨0, false, false, false⟩, ⟨0, false, false, false⟩⟩, 0⟩

def untilStore : List Event := List.replicate 7 (.next blank.rows 0x5000)

theorem store_mapped_interrupted : ∃ s, run (step 15 3) (untilStore ++ [.interrupt blank])
    (start 15 codeElf blank) = some s ∧ s.rest.head? = some (.touch 0x10000 1) ∧
    Covered 15 s.tlb 0x10000 := by
  have ran : ((run (step 15 3) (untilStore ++ [.interrupt blank]) (start 15 codeElf blank)).any fun s =>
      decide (s.rest.head? = some (.touch 0x10000 1) ∧ 0x10000 / pageSize ∈ s.filled)) = true := by
    decide +kernel
  obtain ⟨s,ran,facts⟩ := (Option.any_eq_true _ _).mp ran
  obtain ⟨head,filled⟩ := of_decide_eq_true facts
  obtain ⟨later,here⟩ := List.head?_eq_some_iff.mp head
  exact ⟨s,ran,head,(store_mapped ran here).1 filled⟩

/-- No context switch happens to come between the last `vm_map` and the first store. -/
theorem store_unmapped : ∃ s, run (step 15 3) untilStore (start 15 codeElf blank) = some s ∧
    s.rest.head? = some (.touch 0x10000 1) ∧ ¬Covered 15 s.tlb 0x10000 ∧
    step 15 3 (.next blank.rows 0x5000) s = none := by
  have ran : ((run (step 15 3) untilStore (start 15 codeElf blank)).any fun s =>
      decide (s.rest.head? = some (.touch 0x10000 1) ∧ ¬Covered 15 s.tlb 0x10000 ∧
        (step 15 3 (.next blank.rows 0x5000) s).isNone = true)) = true := by
    decide +kernel
  obtain ⟨s,ran,facts⟩ := (Option.any_eq_true _ _).mp ran
  obtain ⟨head,uncovered,stops⟩ := of_decide_eq_true facts
  exact ⟨s,ran,head,uncovered,Option.isNone_iff_eq_none.mp stops⟩

end Buenos.Proc.Access
