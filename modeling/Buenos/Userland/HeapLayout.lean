import Buenos.Foundation.Chain
import Buenos.Foundation.Tiling
import Buenos.Userland.Heap
import Mathlib.Data.List.Chain
import Mathlib.Data.List.Perm.Basic

/-! The heap as a row of blocks, and the ways in which `malloc` and `free` change it. -/
namespace Buenos.Userland

open Buenos.Foundation

def freeBlocks (blocks : List Block) : List Block := blocks.filter fun b => !b.live
def liveBlocks (blocks : List Block) : List Block := blocks.filter fun b => b.live

/-- Where the free blocks are. -/
def freeAddrs (blocks : List Block) : List Nat := (freeBlocks blocks).map (·.addr)

/-- The blocks fill the heap and have their sizes in the memory. They have room for a header,
unless the whole heap has none. -/
structure Row (lo size : Nat) (mem : Nat → Nat) (blocks : List Block) : Prop where
  tiles : Tiles lo (lo + size) blocks
  header : ∀ b ∈ blocks, mem b.addr = b.size
  words : ∀ b ∈ blocks, b.size % 4 = 0
  large : ∀ b ∈ blocks, 8 ≤ b.size ∨ blocks = [b]

structure Layout (lo size : Nat) (h : Heap) (live : List Nat) (blocks : List Block) : Prop where
  row : Row lo size h.mem blocks
  chain : Chain h.next 0 h.freeList (freeAddrs blocks)
  used : ((liveBlocks blocks).map (·.addr + 4)).Perm live

/-- No two neighbours are free. -/
def Apart (blocks : List Block) : Prop := blocks.IsChain fun a b => a.live = true ∨ b.live = true

@[simp] theorem set_mem_self (h : Heap) (a v : Nat) : (h.set a v).mem a = v := Function.update_self ..

theorem set_mem_of_ne (other : c ≠ a) : (Heap.set h a v).mem c = h.mem c := Function.update_of_ne other ..

section Blocks
variable {lo size : Nat} {mem mem' : Nat → Nat} {h : Heap} {live : List Nat} {blocks front back : List Block} {b x : Block}

theorem liveBlocks_append (front back : List Block) : liveBlocks (front ++ back) = liveBlocks front ++ liveBlocks back :=
  List.filter_append front back

theorem liveBlocks_free (free : b.live = false) : liveBlocks (b :: back) = liveBlocks back := by
  simp [liveBlocks,free]

theorem liveBlocks_live (used : b.live = true) : liveBlocks (b :: back) = b :: liveBlocks back := by
  simp [liveBlocks,used]

theorem freeAddrs_append (front back : List Block) : freeAddrs (front ++ back) = freeAddrs front ++ freeAddrs back := by
  simp [freeAddrs,freeBlocks]

theorem freeAddrs_free (free : b.live = false) : freeAddrs (b :: back) = b.addr :: freeAddrs back := by
  simp [freeAddrs,freeBlocks,free]

theorem freeAddrs_live (used : b.live = true) : freeAddrs (b :: back) = freeAddrs back := by
  simp [freeAddrs,freeBlocks,used]

theorem mem_freeAddrs (member : a ∈ freeAddrs blocks) : ∃ b ∈ blocks, b.addr = a ∧ b.live = false := by
  obtain ⟨b,free,rfl⟩ := List.mem_map.mp member
  obtain ⟨inside,notLive⟩ := List.mem_filter.mp free
  exact ⟨b,inside,rfl,by simpa using notLive⟩

/-! ### Rows -/

theorem Row.others (row : Row lo size mem (front ++ b :: back)) (member : x ∈ front ∨ x ∈ back) :
    8 ≤ x.size ∧ 8 ≤ b.size ∧ (x.addr + x.size ≤ b.addr ∨ b.addr + b.size ≤ x.addr) := by
  have several : ∀ y, front ++ b :: back ≠ [y] := by
    intro y single
    have length := congrArg List.length single
    simp only [List.length_append,List.length_cons,List.length_nil] at length
    rcases member with before | behind
    · have := List.length_pos_of_mem before
      omega
    · have := List.length_pos_of_mem behind
      omega
  have inside : x ∈ front ++ b :: back := by
    rcases member with before | behind
    · exact List.mem_append_left _ before
    · exact List.mem_append_right _ (List.mem_cons_of_mem b behind)
  obtain ⟨first,second⟩ := tiles_split.mp row.tiles
  refine ⟨(row.large x inside).resolve_right (several x),(row.large b (by simp)).resolve_right (several b),?_⟩
  rcases member with before | behind
  · exact .inl (first.inside before).2
  · exact .inr (second.inside behind).1

theorem Row.link_not_header (row : Row lo size mem blocks) (one : b ∈ blocks) (two : x ∈ blocks) :
    x.addr ≠ b.addr + 4 := by
  obtain ⟨front,back,rfl⟩ := List.append_of_mem one
  simp only [List.mem_append,List.mem_cons] at two
  rcases two with before | rfl | behind
  · have := row.others (.inl before)
    omega
  · omega
  · have := row.others (.inr behind)
    omega

theorem Row.disjoint (row : Row lo size mem blocks) (one : b ∈ blocks) (two : x ∈ blocks) (different : x ≠ b) :
    x.addr + x.size ≤ b.addr ∨ b.addr + b.size ≤ x.addr := by
  obtain ⟨front,back,rfl⟩ := List.append_of_mem one
  simp only [List.mem_append,List.mem_cons,different,false_or] at two
  exact (row.others two).2.2

theorem Row.addr_inj (row : Row lo size mem blocks) (one : b ∈ blocks) (two : x ∈ blocks) (same : x.addr = b.addr) :
    x = b := by
  obtain ⟨front,back,rfl⟩ := List.append_of_mem one
  simp only [List.mem_append,List.mem_cons] at two
  rcases two with before | rfl | behind
  · have := row.others (.inl before)
    omega
  · rfl
  · have := row.others (.inr behind)
    omega

theorem Row.replace (row : Row lo size mem (front ++ b :: back)) (news : List Block)
    (tiles : Tiles b.addr (b.addr + b.size) news) (words : ∀ x ∈ news, x.size % 4 = 0) (large : ∀ x ∈ news, 8 ≤ x.size)
    (header : ∀ x ∈ news, mem' x.addr = x.size) (frame : ∀ x, x ∈ front ∨ x ∈ back → mem' x.addr = mem x.addr) :
    Row lo size mem' (front ++ news ++ back) := by
  obtain ⟨first,second⟩ := tiles_split.mp row.tiles
  have cases : ∀ x ∈ front ++ news ++ back, x ∈ news ∨ (x ∈ front ∨ x ∈ back) := by
    intro x member
    simp only [List.mem_append] at member
    tauto
  have old : ∀ x, x ∈ front ∨ x ∈ back → x ∈ front ++ b :: back := by
    intro x member
    simp only [List.mem_append,List.mem_cons]
    tauto
  refine ⟨?_,?_,?_,?_⟩
  · rw [tiles_append]
    refine ⟨_,?_,second⟩
    rw [tiles_append]
    exact ⟨_,first,tiles⟩
  · intro x member
    rcases cases x member with new | other
    · exact header x new
    · rw [frame x other]
      exact row.header x (old x other)
  · intro x member
    rcases cases x member with new | other
    · exact words x new
    · exact row.words x (old x other)
  · intro x member
    rcases cases x member with new | other
    · exact .inl (large x new)
    · exact .inl (row.others other).1

theorem Row.relabel (row : Row lo size mem (front ++ b :: back)) (flag : Bool)
    (same : ∀ x ∈ front ++ b :: back, mem' x.addr = mem x.addr) :
    Row lo size mem' (front ++ ⟨b.addr,b.size,flag⟩ :: back) := by
  have old : ∀ x ∈ front ++ ⟨b.addr,b.size,flag⟩ :: back, ∃ y ∈ front ++ b :: back, y.addr = x.addr ∧ y.size = x.size := by
    intro x member
    simp only [List.mem_append,List.mem_cons] at member
    rcases member with before | rfl | behind
    · exact ⟨x,by simp [before],rfl,rfl⟩
    · exact ⟨b,by simp,rfl,rfl⟩
    · exact ⟨x,by simp [behind],rfl,rfl⟩
  refine ⟨tiles_split.mpr ((tiles_split (b := b)).mp row.tiles),?_,?_,?_⟩
  · intro x member
    obtain ⟨y,inside,addr,size⟩ := old x member
    rw [← addr,← size,same y inside]
    exact row.header y inside
  · intro x member
    obtain ⟨y,inside,_,size⟩ := old x member
    rw [← size]
    exact row.words y inside
  · intro x member
    simp only [List.mem_append,List.mem_cons] at member
    rcases member with before | rfl | behind
    · exact .inl (row.others (.inl before)).1
    · obtain enough | single := row.large b (by simp)
      · exact .inl enough
      · right
        have length := congrArg List.length single
        simp only [List.length_append,List.length_cons,List.length_nil] at length
        rw [List.length_eq_zero_iff.mp (show front.length = 0 by omega),
          List.length_eq_zero_iff.mp (show back.length = 0 by omega)]
        rfl
    · exact .inl (row.others (.inr behind)).1

/-! ### Handing out -/

theorem Layout.split (layout : Layout lo size h live (front ++ b :: back)) (free : b.live = false)
    (whole : k % 4 = 0) (large : 12 ≤ k) (fits : k + 12 ≤ b.size) :
    Layout lo size ((h.set b.addr (b.size - k)).set (b.addr + (b.size - k)) k) ((b.addr + (b.size - k) + 4) :: live)
      (front ++ [⟨b.addr,b.size - k,false⟩,⟨b.addr + (b.size - k),k,true⟩] ++ back) := by
  have word := layout.row.words b (by simp)
  have outside : ∀ x, x ∈ front ∨ x ∈ back → ∀ d < 8, x.addr + d ≠ b.addr ∧ x.addr + d ≠ b.addr + (b.size - k) := by
    intro x member d small
    have := layout.row.others member
    omega
  have kept : ∀ x, x ∈ front ∨ x ∈ back → ∀ d < 8,
      ((h.set b.addr (b.size - k)).set (b.addr + (b.size - k)) k).mem (x.addr + d) = h.mem (x.addr + d) := by
    intro x member d small
    obtain ⟨one,two⟩ := outside x member d small
    rw [set_mem_of_ne two,set_mem_of_ne one]
  refine ⟨?_,?_,?_⟩
  · apply layout.row.replace
    · refine ⟨rfl,rfl,?_⟩
      show b.addr + (b.size - k) + k = b.addr + b.size
      omega
    · intro x member
      simp only [List.mem_cons,List.not_mem_nil,or_false] at member
      rcases member with rfl | rfl
      · dsimp only
        omega
      · exact whole
    · intro x member
      simp only [List.mem_cons,List.not_mem_nil,or_false] at member
      rcases member with rfl | rfl
      · dsimp only
        omega
      · dsimp only
        omega
    · intro x member
      simp only [List.mem_cons,List.not_mem_nil,or_false] at member
      rcases member with rfl | rfl
      · rw [set_mem_of_ne (by dsimp only; omega),set_mem_self]
      · rw [set_mem_self]
    · intro x member
      exact kept x member 0 (by decide)
  · have addresses : freeAddrs (front ++ [⟨b.addr,b.size - k,false⟩,⟨b.addr + (b.size - k),k,true⟩] ++ back) =
        freeAddrs (front ++ b :: back) := by
      simp [freeAddrs,freeBlocks,free]
    rw [addresses]
    apply layout.chain.congr
    intro a member
    obtain ⟨x,inside,rfl,_⟩ := mem_freeAddrs member
    simp only [List.mem_append,List.mem_cons] at inside
    rcases inside with before | rfl | behind
    · exact kept x (.inl before) 4 (by decide)
    · rw [Heap.next,set_mem_of_ne (by omega),set_mem_of_ne (by omega),Heap.next]
    · exact kept x (.inr behind) 4 (by decide)
  · have used := layout.used
    simp only [liveBlocks_append,liveBlocks_free free,List.map_append] at used
    rw [List.append_assoc,liveBlocks_append,List.cons_append,List.singleton_append,liveBlocks_free (by rfl),
      liveBlocks_live (by rfl),List.map_append,List.map_cons]
    exact List.perm_middle.trans (used.cons _)

theorem Layout.take (layout : Layout lo size h live (front ++ b :: back)) (free : b.live = false) :
    Layout lo size (h.link (freeAddrs front).getLast? (h.next b.addr)) ((b.addr + 4) :: live)
      (front ++ ⟨b.addr,b.size,true⟩ :: back) := by
  have chain := layout.chain
  rw [freeAddrs_append,freeAddrs_free free] at chain
  have used : ((liveBlocks (front ++ ⟨b.addr,b.size,true⟩ :: back)).map (·.addr + 4)).Perm ((b.addr + 4) :: live) := by
    have before := layout.used
    simp only [liveBlocks_append,liveBlocks_free free,List.map_append] at before
    rw [liveBlocks_append,liveBlocks_live (by rfl),List.map_append,List.map_cons]
    exact List.perm_middle.trans (before.cons _)
  have remaining : freeAddrs (front ++ ⟨b.addr,b.size,true⟩ :: back) = freeAddrs front ++ freeAddrs back := by
    rw [freeAddrs_append,freeAddrs_live (by rfl)]
  rcases List.eq_nil_or_concat (freeAddrs front) with none_ | ⟨others,p,last⟩
  · rw [none_] at chain remaining ⊢
    refine ⟨layout.row.relabel true fun _ _ => rfl,?_,used⟩
    rw [remaining]
    exact chain.2.2
  · rw [List.concat_eq_append] at last
    have member : p ∈ freeAddrs front := by simp [last]
    obtain ⟨c,inside,rfl,_⟩ := mem_freeAddrs member
    rw [last] at chain remaining ⊢
    rw [List.getLast?_append,List.getLast?_singleton,Option.some_or]
    rw [List.append_assoc] at chain
    have links : (Heap.link h (some c.addr) (h.next b.addr)).next = Function.update h.next c.addr (h.next b.addr) := by
      funext a
      by_cases same : a = c.addr
      · subst same
        rw [Function.update_self]
        exact set_mem_self ..
      · rw [Function.update_of_ne same]
        exact set_mem_of_ne (by omega)
    refine ⟨layout.row.relabel true ?_,?_,used⟩
    · intro x member
      exact set_mem_of_ne (layout.row.link_not_header (by simp [inside]) member)
    · rw [remaining,links,List.append_assoc]
      exact chain.remove

/-! ### Giving back -/

def previousFree (front : List Block) : Nat := (freeAddrs front).getLastD 0
def nextFree (back : List Block) : Nat := (freeAddrs back).headD 0

/-- A block that becomes the first one: only its own link is set. -/
theorem insertBlock_first (h : Heap) (block next : Nat) :
    (insertBlock block 0 next h).next = Function.update h.next block next := by
  funext a
  by_cases same : a = block
  · subst same
    rw [Function.update_self]
    exact set_mem_self ..
  · rw [Function.update_of_ne same]
    exact set_mem_of_ne (by omega)

theorem insertBlock_behind (h : Heap) (block next : Nat) (solid : previous ≠ 0) :
    (insertBlock block previous next h).next = Function.update (Function.update h.next previous block) block next := by
  funext a
  simp only [insertBlock,if_neg solid,Heap.next]
  by_cases same : a = block
  · subst same
    rw [Function.update_self]
    exact set_mem_self ..
  · rw [Function.update_of_ne same,set_mem_of_ne (by omega)]
    by_cases before : a = previous
    · subst before
      rw [Function.update_self]
      exact set_mem_self ..
    · rw [Function.update_of_ne before]
      exact set_mem_of_ne (by omega)

theorem Layout.insert (layout : Layout lo size h live (front ++ b :: back)) (used : b.live = true) (proper : b.addr ≠ 0) :
    Layout lo size (insertBlock b.addr (previousFree front) (nextFree back) h) (live.erase (b.addr + 4))
      (front ++ ⟨b.addr,b.size,false⟩ :: back) := by
  have chain := layout.chain
  rw [freeAddrs_append,freeAddrs_live used] at chain
  have fresh : b.addr ∉ freeAddrs front ++ freeAddrs back := by
    intro member
    have before : freeAddrs (b :: back) = freeAddrs back := freeAddrs_live used
    rw [← before,← freeAddrs_append] at member
    obtain ⟨x,inside,same,free⟩ := mem_freeAddrs member
    rw [layout.row.addr_inj (by simp) inside same,used] at free
    contradiction
  have remaining : ((liveBlocks (front ++ ⟨b.addr,b.size,false⟩ :: back)).map (·.addr + 4)).Perm
      (live.erase (b.addr + 4)) := by
    have before := layout.used
    rw [liveBlocks_append,liveBlocks_live used,List.map_append,List.map_cons] at before
    rw [liveBlocks_append,liveBlocks_free (by rfl),List.map_append]
    exact (List.cons_perm_iff_perm_erase.mp (List.perm_middle.symm.trans before)).2
  have more : freeAddrs (front ++ ⟨b.addr,b.size,false⟩ :: back) = freeAddrs front ++ b.addr :: freeAddrs back := by
    rw [freeAddrs_append,freeAddrs_free (by rfl)]
  rw [previousFree]
  rcases List.eq_nil_or_concat (freeAddrs front) with none_ | ⟨others,p,last⟩
  · rw [none_] at chain fresh more ⊢
    simp only [List.nil_append] at chain fresh more
    refine ⟨layout.row.relabel false ?_,?_,remaining⟩
    · intro x member
      exact set_mem_of_ne (layout.row.link_not_header (by simp) member)
    · rw [more]
      show Chain (insertBlock b.addr 0 (nextFree back) h).next 0 b.addr _
      have pushed := chain.push fresh proper
      rw [chain.first_eq] at pushed
      rw [insertBlock_first]
      exact pushed
  · rw [List.concat_eq_append] at last
    have member : p ∈ freeAddrs front := by simp [last]
    obtain ⟨c,inside,rfl,_⟩ := mem_freeAddrs member
    have inside : c ∈ front ++ b :: back := by simp [inside]
    rw [last] at chain fresh more ⊢
    rw [List.getLastD_concat]
    rw [List.append_assoc] at chain fresh more
    have solid : c.addr ≠ 0 := chain.suffix.2.1
    have following : h.next c.addr = nextFree back := chain.suffix.2.2.first_eq
    refine ⟨layout.row.relabel false ?_,?_,remaining⟩
    · intro x member
      simp only [insertBlock,if_neg solid]
      rw [set_mem_of_ne (layout.row.link_not_header (by simp) member),
        set_mem_of_ne (layout.row.link_not_header inside member)]
    · have inserted := chain.insert fresh proper
      rw [following] at inserted
      rw [more,insertBlock_behind h b.addr (nextFree back) solid]
      simp only [insertBlock,if_neg solid]
      exact inserted

theorem Layout.merge (layout : Layout lo size h live (front ++ b :: x :: back)) (free : b.live = false)
    (also : x.live = false) :
    Layout lo size ((h.set b.addr (b.size + x.size)).set (b.addr + 4) (h.next x.addr)) live
      (front ++ ⟨b.addr,b.size + x.size,false⟩ :: back) := by
  obtain ⟨first,neighbour,second⟩ := tiles_split.mp layout.row.tiles
  have enough := (layout.row.others (x := x) (.inr List.mem_cons_self)).2.1
  have others : ∀ y, y ∈ front ∨ y ∈ back →
      8 ≤ y.size ∧ 8 ≤ b.size ∧ (y.addr + y.size ≤ b.addr ∨ b.addr + b.size ≤ y.addr) := by
    intro y member
    exact layout.row.others (member.imp_right (List.mem_cons_of_mem x))
  refine ⟨⟨?_,?_,?_,?_⟩,?_,?_⟩
  · apply tiles_split.mpr
    refine ⟨first,?_⟩
    show Tiles (b.addr + (b.size + x.size)) _ back
    rw [← Nat.add_assoc]
    exact second
  · intro y member
    simp only [List.mem_append,List.mem_cons] at member
    rcases member with before | rfl | behind
    · have := others y (.inl before)
      rw [set_mem_of_ne (by omega),set_mem_of_ne (by omega)]
      exact layout.row.header y (by simp [before])
    · rw [set_mem_of_ne (by dsimp only; omega),set_mem_self]
    · have := others y (.inr behind)
      rw [set_mem_of_ne (by omega),set_mem_of_ne (by omega)]
      exact layout.row.header y (by simp [behind])
  · intro y member
    simp only [List.mem_append,List.mem_cons] at member
    rcases member with before | rfl | behind
    · exact layout.row.words y (by simp [before])
    · have one := layout.row.words b (by simp)
      have two := layout.row.words x (by simp)
      dsimp only
      omega
    · exact layout.row.words y (by simp [behind])
  · intro y member
    simp only [List.mem_append,List.mem_cons] at member
    rcases member with before | rfl | behind
    · exact .inl (others y (.inl before)).1
    · exact .inl (by dsimp only; omega)
    · exact .inl (others y (.inr behind)).1
  · have chain := layout.chain
    rw [freeAddrs_append,freeAddrs_free free,freeAddrs_free also] at chain
    have smaller : freeAddrs (front ++ ⟨b.addr,b.size + x.size,false⟩ :: back) =
        freeAddrs front ++ b.addr :: freeAddrs back := by
      rw [freeAddrs_append,freeAddrs_free (by rfl)]
    rw [smaller]
    apply chain.remove.congr
    intro a member
    by_cases same : a = b.addr
    · subst same
      rw [Function.update_self]
      exact set_mem_self ..
    · have inside : a ∈ freeAddrs (front ++ b :: x :: back) := by
        rw [freeAddrs_append,freeAddrs_free free,freeAddrs_free also]
        simp only [List.mem_append,List.mem_cons] at member ⊢
        tauto
      obtain ⟨c,place,rfl,_⟩ := mem_freeAddrs inside
      have header := layout.row.link_not_header place (x := b) (by simp)
      rw [Function.update_of_ne same,Heap.next,set_mem_of_ne (by omega),set_mem_of_ne (Ne.symm header),Heap.next]
  · have used := layout.used
    rw [liveBlocks_append,liveBlocks_free free,liveBlocks_free also] at used
    rw [liveBlocks_append,liveBlocks_free (by rfl)]
    exact used

end Blocks

end Buenos.Userland
