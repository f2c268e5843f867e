import Buenos.Userland.HeapLayout

/-! `malloc` and `free` on the row of blocks, and what holds of the heap in every run. -/
namespace Buenos.Userland

open Buenos.Foundation

section Blocks
variable {lo size : Nat} {h h' : Heap} {live : List Nat} {blocks front back : List Block} {b x : Block}

/-- The block is still there, with all that is in it. -/
structure Kept (h h' : Heap) (blocks' : List Block) (x : Block) : Prop where
  present : x ∈ blocks'
  same : ∀ a, x.addr ≤ a → a < x.addr + x.size → h'.mem a = h.mem a

theorem Kept.trans {h'' : Heap} {middle : List Block} (first : Kept h h' middle x) (second : Kept h' h'' blocks x) :
    Kept h h'' blocks x :=
  ⟨second.present,fun a low high => (second.same a low high).trans (first.same a low high)⟩

/-! ### `malloc` -/

/-- The room that a request takes: its size in words, and the header. -/
def need (n : Nat) : Nat := max minAllocSize ((n + 3) / 4 * 4) + 4

theorem allocSize_eq (fits : need n < 2 ^ 32) : allocSize n + 4 = need n := by
  unfold need minAllocSize at fits
  unfold allocSize need minAllocSize
  split <;> omega

theorem need_facts (n : Nat) : need n % 4 = 0 ∧ 12 ≤ need n ∧ n + 4 ≤ need n ∧ need n ≤ max 8 (n + 3) + 4 := by
  unfold need minAllocSize
  omega

/-- The signed comparison with a block of this size comes out right. -/
def Comparable (k block : Nat) : Prop := k ≤ 2 ^ 31 + block ∧ k < 2 ^ 32

theorem comparable_small (small : n ≤ 2 ^ 30) (block : Nat) : Comparable (need n) block := by
  have := need_facts n
  constructor <;> omega

theorem split_fits {mem k : Nat} (comparable : Comparable (k + 4) mem)
    (splits : toS32 (toU32 ((mem : Int) - k - 4)) ≥ minAllocSize + 4) : k + 4 + 12 ≤ mem := by
  obtain ⟨near,fits⟩ := comparable
  unfold toS32 toU32 minAllocSize at splits
  split at splits <;> omega

theorem toU32_nat {n : Nat} (small : n < 2 ^ 32) : toU32 n = n := by
  rw [toU32_small (by omega) (by omega)]
  omega

theorem mallocLoop_skip {k : Nat} (chain : Chain h.next 0 block (passed ++ rest)) (turns : Nat) (prev : Option Nat)
    (few : ∀ a ∈ passed, h.mem a < k + 4 ∧ Comparable (k + 4) (h.mem a)) :
    ∃ start, Chain h.next 0 start rest ∧
      mallocLoop k h (passed.length + turns) prev block = mallocLoop k h turns (passed.getLast?.or prev) start := by
  induction passed generalizing block prev with
  | nil => exact ⟨block,chain,by simp⟩
  | cons a more ih =>
    obtain ⟨rfl,proper,later⟩ := chain
    obtain ⟨less,comparable⟩ := few block List.mem_cons_self
    have bound := comparable.2
    have first : ¬toS32 (toU32 ((h.mem block : Int) - k - 4)) ≥ minAllocSize + 4 := by
      intro splits
      have := split_fits comparable splits
      omega
    have second : ¬h.mem block ≥ toU32 (k + 4) := by
      rw [show (k : Int) + 4 = ((k + 4 : Nat) : Int) from rfl,toU32_nat (by omega)]
      omega
    obtain ⟨start,suffix,loop⟩ := ih later (some block) fun c member => few c (List.mem_cons_of_mem block member)
    refine ⟨start,suffix,?_⟩
    rw [List.length_cons,Nat.add_right_comm,mallocLoop,if_neg proper,if_neg first,if_neg second,loop]
    rw [List.getLast?_cons,Option.some_or]
    cases more.getLast? <;> rfl

theorem first_fit (blocks : List Block) (k : Nat) : (∀ b ∈ freeBlocks blocks, b.size < k) ∨
    ∃ front b back, blocks = front ++ b :: back ∧ b.live = false ∧ k ≤ b.size ∧ ∀ x ∈ freeBlocks front, x.size < k := by
  induction blocks with
  | nil => exact .inl (by simp [freeBlocks])
  | cons c rest ih =>
    by_cases fits : c.live = false ∧ k ≤ c.size
    · exact .inr ⟨[],c,rest,rfl,fits.1,fits.2,by simp [freeBlocks]⟩
    have passed : ∀ others, (∀ x ∈ freeBlocks others, x.size < k) → ∀ x ∈ freeBlocks (c :: others), x.size < k := by
      intro others all x member
      obtain ⟨inside,free⟩ := List.mem_filter.mp member
      rcases List.mem_cons.mp inside with rfl | later
      · by_contra large
        exact fits ⟨by simpa using free,by omega⟩
      · exact all x (List.mem_filter.mpr ⟨later,free⟩)
    obtain all | ⟨front,b,back,rfl,free,large,before⟩ := ih
    · exact .inl (passed rest all)
    · exact .inr ⟨c :: front,b,back,rfl,free,large,passed front before⟩

theorem Row.length_le (row : Row lo size mem blocks) : blocks.length ≤ size + 1 := by
  by_cases single : ∃ b, blocks = [b]
  · obtain ⟨b,rfl⟩ := single
    simp
  have positive : ∀ b ∈ blocks, 1 ≤ b.size := by
    intro b member
    obtain enough | alone := row.large b member
    · omega
    · exact absurd ⟨b,alone⟩ single
  have lengths : ∀ bs start stop, Tiles start stop bs → (∀ b ∈ bs, 1 ≤ b.size) → start + bs.length ≤ stop := by
    intro bs
    induction bs with
    | nil => intro start stop tiles _; exact Nat.le_of_eq tiles
    | cons b rest ih =>
      intro start stop tiles all
      have later := ih _ _ tiles.2 fun c member => all c (List.mem_cons_of_mem b member)
      have first := all b List.mem_cons_self
      rw [List.length_cons]
      omega
  have := lengths blocks lo (lo + size) row.tiles positive
  omega

theorem freeAddrs_length (blocks : List Block) : (freeAddrs blocks).length ≤ blocks.length := by
  rw [freeAddrs,List.length_map]
  exact List.length_filter_le _ _

theorem malloc_cases (layout : Layout lo size h live blocks) (bound : size < 2 ^ 32) (positive : 0 < n)
    (comparable : ∀ b ∈ freeBlocks blocks, Comparable (need n) b.size) :
    ((∀ b ∈ freeBlocks blocks, b.size < need n) ∧ malloc (size + 2) n h = some (0, h)) ∨
    ∃ front b back, blocks = front ++ b :: back ∧ b.live = false ∧ need n ≤ b.size ∧
      ((need n + 12 ≤ b.size ∧ malloc (size + 2) n h = some (b.addr + (b.size - need n) + 4,
        (h.set b.addr (b.size - need n)).set (b.addr + (b.size - need n)) (need n))) ∨
      malloc (size + 2) n h = some (b.addr + 4, h.link (freeAddrs front).getLast? (h.next b.addr))) := by
  have limits := need_facts n
  have sized : ∀ b ∈ freeBlocks blocks, allocSize n + 4 = need n :=
    fun b member => allocSize_eq (comparable b member).2
  have headers : ∀ x ∈ freeBlocks blocks, h.mem x.addr = x.size :=
    fun x member => layout.row.header x (List.mem_filter.mp member).1
  have turns : ∀ front back, blocks = front ++ back → ∃ t, size + 2 = (freeAddrs front).length + (t + 1) := by
    intro front back same
    have one := layout.row.length_le
    have two := freeAddrs_length front
    rw [same,List.length_append] at one
    exact ⟨size + 2 - (freeAddrs front).length - 1,by omega⟩
  rw [malloc,if_neg (by omega)]
  obtain all | ⟨front,b,back,rfl,free,large,before⟩ := first_fit blocks (need n)
  · left
    obtain ⟨t,same⟩ := turns blocks [] (by simp)
    have chain := layout.chain
    rw [← List.append_nil (freeAddrs blocks)] at chain
    obtain ⟨start,ended,loop⟩ := mallocLoop_skip chain (k := allocSize n) (t + 1) none (by
      intro a member
      obtain ⟨x,inside,rfl⟩ := List.mem_map.mp member
      rw [headers x inside,sized x inside]
      exact ⟨all x inside,comparable x inside⟩)
    refine ⟨all,?_⟩
    rw [same,loop,mallocLoop,if_pos (show start = 0 from ended)]
  · right
    refine ⟨front,b,back,rfl,free,large,?_⟩
    obtain ⟨t,same⟩ := turns front (b :: back) rfl
    have chain := layout.chain
    rw [freeAddrs_append,freeAddrs_free free] at chain
    obtain ⟨start,⟨rfl,proper,_⟩,loop⟩ := mallocLoop_skip chain (k := allocSize n) (t + 1) none (by
      intro a member
      obtain ⟨x,inside,rfl⟩ := List.mem_map.mp member
      have place := List.mem_filter.mp inside
      have among : x ∈ freeBlocks (front ++ b :: back) :=
        List.mem_filter.mpr ⟨List.mem_append_left _ place.1,place.2⟩
      rw [headers x among,sized x among]
      exact ⟨before x inside,comparable x among⟩)
    have here : b ∈ freeBlocks (front ++ b :: back) := List.mem_filter.mpr ⟨by simp,by simp [free]⟩
    have sized := sized b here
    have comparable := comparable b here
    have limit := comparable.2
    have header := layout.row.header b (by simp)
    have whole := (layout.row.tiles.inside (b := b) (by simp)).2
    have low := (layout.row.tiles.inside (b := b) (by simp)).1
    rw [same,loop,Option.or_none,mallocLoop,if_neg proper,header]
    split
    · next splits =>
      have fits := split_fits (sized ▸ comparable) splits
      have left : toU32 ((b.size : Int) - (allocSize n + 4)) = b.size - need n := by
        rw [toU32_small (by omega) (by omega)]
        omega
      have size : toU32 ((allocSize n : Int) + 4) = need n := by
        rw [toU32_small (by omega) (by omega)]
        omega
      left
      refine ⟨by omega,?_⟩
      simp only [left,size]
    · have size : toU32 ((allocSize n : Int) + 4) = need n := by
        rw [toU32_small (by omega) (by omega)]
        omega
      right
      rw [size,if_pos large]

theorem Layout.split_kept (layout : Layout lo size h live (front ++ b :: back)) (some_ : 0 < k)
    (fits : k + 12 ≤ b.size) (among : x ∈ front ∨ x ∈ back) (news : List Block) :
    Kept h ((h.set b.addr (b.size - k)).set (b.addr + (b.size - k)) k) (front ++ news ++ back) x := by
  have away := layout.row.others among
  refine ⟨?_,?_⟩
  · rw [List.mem_append,List.mem_append]
    exact among.imp .inl id
  · intro a low high
    rw [set_mem_of_ne (by omega),set_mem_of_ne (by omega)]

theorem Layout.take_kept (layout : Layout lo size h live (front ++ b :: back)) (used : x.live = true)
    (among : x ∈ front ∨ x ∈ back) (taken : Block) (next : Nat) :
    Kept h (h.link (freeAddrs front).getLast? next) (front ++ taken :: back) x := by
  refine ⟨?_,?_⟩
  · rw [List.mem_append,List.mem_cons]
    exact among.imp_right .inr
  · intro a low high
    cases last : (freeAddrs front).getLast? with
    | none => rfl
    | some p =>
      obtain ⟨y,place,rfl,free⟩ := mem_freeAddrs (List.mem_of_getLast? last)
      have apart : x ≠ y := by
        rintro rfl
        rw [used] at free
        contradiction
      have inside : x ∈ front ++ b :: back := by
        simp only [List.mem_append,List.mem_cons]
        tauto
      have large := layout.row.others (.inl place)
      have between := layout.row.disjoint (by simp [place]) inside apart
      exact set_mem_of_ne (by omega)

/-! ### `free` -/

theorem freeLoop_eq (chain : Chain h.next 0 cur (passed ++ rest)) (below : ∀ a ∈ passed, a ≤ block)
    (above : ∀ a ∈ rest, block < a) (turns prev : Nat) :
    freeLoop block h (passed.length + (turns + 1)) prev cur =
      some (mergeNext (mergePrevious block (passed.getLastD prev) (rest.headD 0)
          (insertBlock block (passed.getLastD prev) (rest.headD 0) h)).1 (rest.headD 0)
        (mergePrevious block (passed.getLastD prev) (rest.headD 0)
          (insertBlock block (passed.getLastD prev) (rest.headD 0) h)).2) := by
  induction passed generalizing cur prev with
  | nil =>
    have first := chain.first_eq
    rw [List.nil_append] at first
    subst first
    have stops : rest.headD 0 > block ∨ rest.headD 0 = 0 := by
      cases rest with
      | nil => exact .inr rfl
      | cons a more => exact .inl (above a List.mem_cons_self)
    rw [List.length_nil,Nat.zero_add,freeLoop,if_pos stops]
    rfl
  | cons a more ih =>
    obtain ⟨rfl,proper,later⟩ := chain
    have before := below cur List.mem_cons_self
    rw [List.length_cons,Nat.add_right_comm,freeLoop,if_neg (by omega),
      ih later (fun c member => below c (List.mem_cons_of_mem cur member)),List.getLastD_cons]

theorem apart_split : Apart (front ++ b :: back) ↔ Apart front ∧ Apart back ∧
    (∀ x ∈ front.getLast?, x.live = true ∨ b.live = true) ∧ ∀ y ∈ back.head?, b.live = true ∨ y.live = true := by
  unfold Apart
  rw [List.isChain_append,List.isChain_cons]
  simp only [List.head?_cons,Option.mem_some_iff,forall_eq']
  tauto

theorem Layout.next_free (layout : Layout lo size h live (front ++ b :: back)) (free : b.live = false) :
    h.next b.addr = nextFree back := by
  have chain := layout.chain
  rw [freeAddrs_append,freeAddrs_free free] at chain
  exact chain.suffix.2.2.first_eq

theorem previousFree_mem (some_ : previousFree front ≠ 0) : previousFree front ∈ freeAddrs front := by
  rw [previousFree,List.getLastD_eq_getLast?] at some_ ⊢
  cases last : (freeAddrs front).getLast? with
  | none => rw [last] at some_; exact absurd rfl some_
  | some p => exact List.mem_of_getLast? last

theorem Layout.mergePrevious (layout : Layout lo size h live (front ++ b :: back)) (free : b.live = false)
    (bound : lo + size ≤ 2 ^ 32) (apart : Apart front) :
    ∃ front' b', (Userland.mergePrevious b.addr (previousFree front) (nextFree back) h).1 = b'.addr ∧
      Layout lo size (Userland.mergePrevious b.addr (previousFree front) (nextFree back) h).2 live
        (front' ++ b' :: back) ∧ b'.live = false ∧ Apart front' ∧ (∀ x ∈ front'.getLast?, x.live = true) ∧
      (b'.addr ≤ b.addr ∧ b'.addr + b'.size = b.addr + b.size) ∧ liveBlocks front' = liveBlocks front := by
  unfold Userland.mergePrevious
  rcases List.eq_nil_or_concat front with rfl | ⟨others,x,rfl⟩
  · rw [if_neg (by simp [previousFree,freeAddrs,freeBlocks])]
    exact ⟨[],b,rfl,layout,free,apart,by simp,⟨Nat.le_refl _,rfl⟩,rfl⟩
  rw [List.concat_eq_append] at *
  have neighbours : x.addr + x.size = b.addr := by
    have tiles := layout.row.tiles
    rw [List.append_assoc] at tiles
    exact (tiles_split.mp tiles).2.1.symm
  have before := layout.row.others (x := x) (.inl (by simp))
  cases live : x.live with
  | false =>
    have previous : previousFree (others ++ [x]) = x.addr := by
      rw [previousFree,freeAddrs_append,freeAddrs_free live]
      exact List.getLastD_concat
    have proper : x.addr ≠ 0 := by
      have chain := layout.chain
      rw [List.append_assoc,freeAddrs_append,List.singleton_append,freeAddrs_free live] at chain
      exact chain.suffix.2.1
    have header := layout.row.header x (by simp)
    have other := layout.row.header b (by simp)
    have last := (layout.row.tiles.inside (b := b) (by simp)).2
    have sum : toU32 ((x.size : Int) + b.size) = x.size + b.size := by
      rw [toU32_small (by omega) (by omega)]
      omega
    rw [previous,header,other,if_pos ⟨proper,by omega⟩,sum]
    have following := layout.next_free free
    rw [List.append_assoc] at layout
    have merged := layout.merge live free
    rw [following] at merged
    obtain ⟨front,_,solid,_⟩ := apart_split.mp apart
    refine ⟨others,⟨x.addr,x.size + b.size,false⟩,rfl,merged,rfl,front,?_,?_,?_⟩
    · intro y member
      exact (solid y member).resolve_right (by simp [live])
    · dsimp only
      omega
    · rw [liveBlocks_append,liveBlocks_free live]
      exact (List.append_nil _).symm
  | true =>
    refine ⟨others ++ [x],b,?_⟩
    have away : ¬(previousFree (others ++ [x]) ≠ 0 ∧
        b.addr - previousFree (others ++ [x]) = h.mem (previousFree (others ++ [x]))) := by
      rintro ⟨some_,same⟩
      have member : previousFree (others ++ [x]) ∈ freeAddrs others := by
        have among := previousFree_mem some_
        rwa [freeAddrs_append,freeAddrs_live live,show freeAddrs [] = [] from rfl,List.append_nil] at among
      obtain ⟨c,inside,address,_⟩ := mem_freeAddrs member
      rw [← address,layout.row.header c (by simp [inside])] at same
      have tiles := layout.row.tiles
      rw [List.append_assoc] at tiles
      have earlier := ((tiles_split.mp tiles).1.inside inside).2
      omega
    rw [if_neg away]
    refine ⟨rfl,layout,free,apart,?_,⟨Nat.le_refl _,rfl⟩,rfl⟩
    intro y member
    rw [List.getLast?_append,List.getLast?_singleton,Option.some_or,Option.mem_some_iff] at member
    rw [← member,live]

theorem Layout.mergeNext (layout : Layout lo size h live (front ++ b :: back)) (free : b.live = false)
    (bound : lo + size ≤ 2 ^ 32) (apart : Apart back) :
    ∃ b' back', Layout lo size (Userland.mergeNext b.addr (nextFree back) h) live (front ++ b' :: back') ∧
      b'.live = false ∧ Apart back' ∧ (∀ x ∈ back'.head?, x.live = true) ∧
      (b'.addr = b.addr ∧ b.size ≤ b'.size) ∧ liveBlocks back' = liveBlocks back := by
  unfold Userland.mergeNext
  cases back with
  | nil =>
    rw [if_neg (by simp [nextFree,freeAddrs,freeBlocks])]
    exact ⟨b,[],layout,free,apart,by simp,⟨rfl,Nat.le_refl _⟩,rfl⟩
  | cons x others =>
    obtain ⟨_,neighbours,tiles⟩ := tiles_split.mp layout.row.tiles
    have behind := layout.row.others (x := x) (.inr List.mem_cons_self)
    have header := layout.row.header b (by simp)
    cases live : x.live with
    | false =>
      have following : nextFree (x :: others) = x.addr := by
        rw [nextFree,freeAddrs_free live]
        rfl
      have proper : b.addr ≠ 0 ∧ x.addr ≠ 0 := by
        have chain := layout.chain
        rw [freeAddrs_append,freeAddrs_free free,freeAddrs_free live] at chain
        exact ⟨chain.suffix.2.1,chain.suffix.2.2.2.1⟩
      have other := layout.row.header x (by simp)
      have last := (layout.row.tiles.inside (b := x) (by simp)).2
      have sum : toU32 ((b.size : Int) + x.size) = b.size + x.size := by
        rw [toU32_small (by omega) (by omega)]
        omega
      rw [following,header,other,if_pos ⟨proper.2,by omega⟩,sum]
      have link : (h.set b.addr (b.size + x.size)).next x.addr = h.next x.addr := set_mem_of_ne (by omega)
      obtain ⟨solid,rest⟩ := List.isChain_cons.mp apart
      refine ⟨⟨b.addr,b.size + x.size,false⟩,others,?_,rfl,rest,?_,⟨rfl,Nat.le_add_right _ _⟩,?_⟩
      · simp only [link]
        exact layout.merge free live
      · intro y member
        exact (solid y member).resolve_left (by simp [live])
      · exact (liveBlocks_free live).symm
    | true =>
      refine ⟨b,x :: others,?_,free,apart,by simp [live],⟨rfl,Nat.le_refl _⟩,rfl⟩
      have away : ¬(nextFree (x :: others) ≠ 0 ∧ nextFree (x :: others) - b.addr = h.mem b.addr) := by
        rintro ⟨some_,same⟩
        have member : nextFree (x :: others) ∈ freeAddrs others := by
          rw [nextFree,freeAddrs_live live] at some_ ⊢
          cases addresses : freeAddrs others with
          | nil => rw [addresses] at some_; exact absurd rfl some_
          | cons a more => exact List.mem_cons_self
        obtain ⟨c,inside,address,_⟩ := mem_freeAddrs member
        have later := (tiles.inside inside).1
        rw [← address,header] at same
        omega
      rw [if_neg away]
      exact layout

theorem freed_frame (apart : a ≠ block ∧ a ≠ block + 4) (previous : prev ≠ 0 → a ≠ prev ∧ a ≠ prev + 4) :
    (Userland.mergeNext (Userland.mergePrevious block prev cur (insertBlock block prev cur h)).1 cur
      (Userland.mergePrevious block prev cur (insertBlock block prev cur h)).2).mem a = h.mem a := by
  have inserted : (insertBlock block prev cur h).mem a = h.mem a := by
    unfold insertBlock
    rw [set_mem_of_ne apart.2]
    split
    · rfl
    · next some_ => exact set_mem_of_ne (previous some_).2
  have merged : ∀ g : Heap, (Userland.mergePrevious block prev cur g).2.mem a = g.mem a ∧
      (a ≠ (Userland.mergePrevious block prev cur g).1 ∧ a ≠ (Userland.mergePrevious block prev cur g).1 + 4) := by
    intro g
    unfold Userland.mergePrevious
    split
    · next joins =>
      obtain ⟨one,two⟩ := previous joins.1
      exact ⟨by rw [set_mem_of_ne two,set_mem_of_ne one],one,two⟩
    · exact ⟨rfl,apart⟩
  obtain ⟨same,one,two⟩ := merged (insertBlock block prev cur h)
  unfold Userland.mergeNext
  split
  · dsimp only
    rw [set_mem_of_ne two,set_mem_of_ne one,same,inserted]
  · rw [same,inserted]

/-- A block has gone back: it lies in a free one, and the others in use are as they were. -/
structure Freed (lo size : Nat) (h h' : Heap) (live : List Nat) (blocks blocks' : List Block) (b : Block) : Prop where
  layout : Layout lo size h' (live.erase (b.addr + 4)) blocks'
  apart : Apart blocks'
  nonempty : blocks' ≠ []
  inside : ∃ f ∈ freeBlocks blocks', f.addr ≤ b.addr ∧ b.addr + b.size ≤ f.addr + f.size
  others : ∀ x ∈ liveBlocks blocks, x ≠ b → Kept h h' blocks' x

theorem free_cases (layout : Layout lo size h live blocks) (apart : Apart blocks) (proper : 0 < lo)
    (bound : lo + size ≤ 2 ^ 32) (used : b ∈ liveBlocks blocks) :
    ∃ h' blocks', free (size + 2) (b.addr + 4) h = some h' ∧ Freed lo size h h' live blocks blocks' b := by
  obtain ⟨inside,live⟩ := List.mem_filter.mp used
  obtain ⟨front,back,rfl⟩ := List.append_of_mem inside
  have low := (layout.row.tiles.inside (b := b) (by simp)).1
  have nonzero : b.addr ≠ 0 := by omega
  obtain ⟨first,second⟩ := tiles_split.mp layout.row.tiles
  have below : ∀ a ∈ freeAddrs front, a ≤ b.addr := by
    intro a member
    obtain ⟨x,inside,rfl,_⟩ := mem_freeAddrs member
    have := (first.inside inside).2
    omega
  have above : ∀ a ∈ freeAddrs back, b.addr < a := by
    intro a member
    obtain ⟨x,inside,rfl,_⟩ := mem_freeAddrs member
    have := layout.row.others (.inr inside)
    have := (second.inside inside).1
    omega
  obtain ⟨t,turns⟩ : ∃ t, size + 2 = (freeAddrs front).length + (t + 1) := by
    have one := layout.row.length_le
    have two := freeAddrs_length front
    rw [List.length_append] at one
    exact ⟨size + 2 - (freeAddrs front).length - 1,by omega⟩
  have chain := layout.chain
  rw [freeAddrs_append,freeAddrs_live live] at chain
  obtain ⟨before,behind,_,_⟩ := apart_split.mp apart
  have inserted := layout.insert live nonzero
  obtain ⟨front',b',address,previous,free',before',solid,low',front_live⟩ := inserted.mergePrevious rfl bound before
  obtain ⟨b'',back',next,free'',behind',solid',high',back_live⟩ := previous.mergeNext free' bound behind
  refine ⟨_,front' ++ b'' :: back',?_,next,?_,by simp,⟨b'',?_,?_⟩,?_⟩
  · rw [free,if_neg (by omega),Nat.add_sub_cancel,turns,freeLoop_eq chain below above]
    simp only [previousFree,nextFree] at address ⊢
    rw [address]
  · apply apart_split.mpr
    exact ⟨before',behind',fun x member => .inl (solid x member),fun y member => .inr (solid' y member)⟩
  · exact List.mem_filter.mpr ⟨by simp,by simp [free'']⟩
  · dsimp only at low'
    omega
  · intro x member different
    obtain ⟨among,used⟩ := List.mem_filter.mp member
    simp only [List.mem_append,List.mem_cons,different,false_or] at among
    have kept : x ∈ liveBlocks front' ∨ x ∈ liveBlocks back' := by
      rw [front_live,back_live]
      exact among.imp (fun before => List.mem_filter.mpr ⟨before,used⟩) fun behind => List.mem_filter.mpr ⟨behind,used⟩
    refine ⟨?_,?_⟩
    · rw [List.mem_append,List.mem_cons]
      exact kept.imp (fun before => (List.mem_filter.mp before).1) fun behind => .inr (List.mem_filter.mp behind).1
    · intro a low high
      have away := layout.row.others among
      rw [← address]
      apply freed_frame
      · dsimp only
        omega
      · intro some_
        obtain ⟨y,place,previous,free⟩ := mem_freeAddrs (previousFree_mem some_)
        have block := layout.row.others (.inl place)
        have apart : x ≠ y := by
          rintro rfl
          rw [used] at free
          contradiction
        have between := layout.row.disjoint (by simp [place]) (List.mem_filter.mp member).1 apart
        rw [← previous]
        omega

end Blocks

/-! ### Runs -/

section Runs
variable {lo size : Nat} {s t : Memory} {h' : Heap} {b : Block}

/-- The heap is a row of blocks, no two free ones next to each other. -/
structure Sound (lo size : Nat) (s : Memory) (blocks : List Block) : Prop where
  layout : Layout lo size s.heap s.live blocks
  apart : Apart blocks
  nonempty : blocks ≠ []

theorem initial_sound (whole : size % 4 = 0) (proper : 0 < lo) (mem : Nat → Nat) :
    Sound lo size ⟨heapInit lo size mem,[]⟩ [⟨lo,size,false⟩] := by
  have header : (heapInit lo size mem).mem lo = size := by
    rw [heapInit,set_mem_of_ne (by omega),set_mem_self]
  have link : (heapInit lo size mem).next lo = 0 := set_mem_self ..
  refine ⟨⟨⟨⟨rfl,rfl⟩,?_,?_,?_⟩,⟨rfl,Nat.ne_of_gt proper,link⟩,List.Perm.refl _⟩,List.IsChain.singleton _,by simp⟩
  · intro b member
    rw [List.mem_singleton.mp member]
    exact header
  · intro b member
    rw [List.mem_singleton.mp member]
    exact whole
  · intro b member
    rw [List.mem_singleton.mp member]
    exact .inr rfl

/-- The block for a request of `n` bytes, with the others around it. -/
structure Allocated (lo size n ptr : Nat) (h : Heap) (live : List Nat) (front back : List Block) (b : Block) : Prop where
  sound : Sound lo size ⟨h,ptr :: live⟩ (front ++ b :: back)
  used : b.live = true
  place : b.addr + 4 = ptr
  enough : n + 4 ≤ b.size

/-- What `malloc` does in a sound heap. -/
theorem Sound.malloc {blocks : List Block} (sound : Sound lo size s blocks) (bound : size < 2 ^ 32) (positive : 0 < n)
    (comparable : ∀ b ∈ freeBlocks blocks, Comparable (need n) b.size) :
    ((∀ b ∈ freeBlocks blocks, b.size < need n) ∧ malloc (size + 2) n s.heap = some (0, s.heap)) ∨
    (∃ b ∈ freeBlocks blocks, need n ≤ b.size) ∧ ∃ ptr h front b back,
      malloc (size + 2) n s.heap = some (ptr, h) ∧ Allocated lo size n ptr h s.live front back b ∧
        ∀ x ∈ liveBlocks blocks, x ≠ b ∧ Kept s.heap h (front ++ b :: back) x := by
  obtain ⟨layout,apart,_⟩ := sound
  have facts := need_facts n
  obtain ⟨all,failed⟩ | ⟨front,b,back,rfl,free,large,outcome⟩ := malloc_cases layout bound positive comparable
  · exact .inl ⟨all,failed⟩
  right
  obtain ⟨before,behind,left,right⟩ := apart_split.mp apart
  refine ⟨⟨b,List.mem_filter.mpr ⟨by simp,by simp [free]⟩,large⟩,?_⟩
  have among : ∀ x ∈ liveBlocks (front ++ b :: back), x.live = true ∧ (x ∈ front ∨ x ∈ back) := by
    intro x member
    obtain ⟨inside,used⟩ := List.mem_filter.mp member
    simp only [List.mem_append,List.mem_cons] at inside
    rcases inside with before | rfl | behind
    · exact ⟨used,.inl before⟩
    · simp [free] at used
    · exact ⟨used,.inr behind⟩
  rcases outcome with ⟨fits,result⟩ | result
  · refine ⟨_,_,front ++ [⟨b.addr,b.size - need n,false⟩],⟨b.addr + (b.size - need n),need n,true⟩,back,result,
      ⟨⟨?_,?_,by simp⟩,rfl,rfl,facts.2.2.1⟩,?_⟩
    · have split := layout.split free facts.1 facts.2.1 fits
      simpa using split
    · apply apart_split.mpr
      refine ⟨?_,behind,fun _ _ => .inr rfl,fun _ _ => .inl rfl⟩
      apply apart_split.mpr
      refine ⟨before,List.IsChain.nil,?_,by simp⟩
      intro x member
      exact .inl ((left x member).resolve_right (by simp [free]))
    · intro x member
      have kept := layout.split_kept (by omega) fits (among x member).2
        [⟨b.addr,b.size - need n,false⟩,⟨b.addr + (b.size - need n),need n,true⟩]
      refine ⟨?_,by simpa using kept⟩
      rintro rfl
      have := layout.row.others (among _ member).2
      dsimp only at this
      omega
  · refine ⟨_,_,front,⟨b.addr,b.size,true⟩,back,result,⟨⟨layout.take free,?_,by simp⟩,rfl,rfl,?_⟩,?_⟩
    · apply apart_split.mpr
      exact ⟨before,behind,fun _ _ => .inr rfl,fun _ _ => .inl rfl⟩
    · show n + 4 ≤ b.size
      omega
    · intro x member
      refine ⟨?_,layout.take_kept (among x member).1 (among x member).2 _ _⟩
      rintro rfl
      have := layout.row.others (among _ member).2
      dsimp only at this
      omega

theorem Sound.within {blocks : List Block} (sound : Sound lo size s blocks) (used : b ∈ liveBlocks blocks)
    (list : h'.freeList = s.heap.freeList)
    (same : ∀ a, a < b.addr + 4 ∨ b.addr + b.size ≤ a → h'.mem a = s.heap.mem a) :
    Sound lo size { s with heap := h' } blocks := by
  obtain ⟨layout,apart,nonempty⟩ := sound
  obtain ⟨inside,used⟩ := List.mem_filter.mp used
  have outside : ∀ x ∈ blocks, x ≠ b → ∀ d < 8, x.addr + d < b.addr + 4 ∨ b.addr + b.size ≤ x.addr + d := by
    intro x member different d small
    obtain ⟨front,back,rfl⟩ := List.append_of_mem inside
    simp only [List.mem_append,List.mem_cons,different,false_or] at member
    have := layout.row.others member
    omega
  refine ⟨⟨⟨layout.row.tiles,?_,layout.row.words,layout.row.large⟩,?_,layout.used⟩,apart,nonempty⟩
  · intro x member
    rw [← layout.row.header x member]
    by_cases here : x = b
    · rw [here]
      exact same b.addr (.inl (by omega))
    · exact same x.addr (outside x member here 0 (by decide))
  · rw [list]
    apply layout.chain.congr
    intro a member
    obtain ⟨x,place,rfl,free⟩ := mem_freeAddrs member
    have here : x ≠ b := by
      rintro rfl
      rw [used] at free
      contradiction
    exact same (x.addr + 4) (outside x place here 4 (by decide))

theorem Sound.store {blocks : List Block} (sound : Sound lo size s blocks) (member : ptr ∈ s.live) (low : ptr ≤ addr)
    (high : addr < ptr - 4 + s.heap.mem (ptr - 4)) (value : Nat) :
    Sound lo size { s with heap := s.heap.set addr value } blocks := by
  obtain ⟨b,used,rfl⟩ := List.mem_map.mp (sound.layout.used.mem_iff.mpr member)
  rw [Nat.add_sub_cancel,sound.layout.row.header b (List.mem_filter.mp used).1] at high
  refine sound.within used (show (s.heap.set addr value).freeList = s.heap.freeList from rfl) ?_
  intro a outside
  exact set_mem_of_ne (by omega)

theorem step_sound {blocks : List Block} (proper : 0 < lo) (fits : lo + size ≤ 2 ^ 32) (sound : Sound lo size s blocks)
    (comparable : ∀ n, e = .malloc n → 0 < n → ∀ b ∈ freeBlocks blocks, Comparable (need n) b.size)
    (next : step (size + 2) e s = some t) : ∃ blocks, Sound lo size t blocks := by
  cases e with
  | malloc n =>
    simp only [step] at next
    by_cases positive : 0 < n
    · obtain ⟨_,failed⟩ | ⟨_,ptr,h,front,b,back,done,allocated,_⟩ :=
        sound.malloc (by omega) positive (comparable n rfl positive)
      · rw [failed] at next
        cases next
        exact ⟨blocks,sound⟩
      · rw [done] at next
        have some_ : ptr ≠ 0 := by
          have := allocated.place
          omega
        simp only [Option.map_some,if_neg some_] at next
        cases next
        exact ⟨_,allocated.sound⟩
    · rw [Userland.malloc,if_pos (by omega)] at next
      cases next
      exact ⟨blocks,sound⟩
  | free ptr =>
    simp only [step] at next
    split at next
    · next member =>
      obtain ⟨b,used,rfl⟩ := List.mem_map.mp (sound.layout.used.mem_iff.mpr member)
      obtain ⟨h,others,done,freed⟩ := free_cases sound.layout sound.apart proper fits used
      rw [done] at next
      cases next
      exact ⟨others,freed.layout,freed.apart,freed.nonempty⟩
    · contradiction
  | store ptr addr value =>
    simp only [step] at next
    split at next
    · next good =>
      cases next
      exact ⟨blocks,sound.store good.1 good.2.2.1 good.2.2.2 value⟩
    · contradiction

/-! ### The heap as its users see it -/

/-- Free blocks are in order, with something in use between them. -/
theorem Sound.spaced {blocks : List Block} (sound : Sound lo size s blocks) :
    (freeBlocks blocks).Pairwise fun a c => a.addr + a.size < c.addr := by
  obtain ⟨layout,apart,_⟩ := sound
  by_cases single : ∃ b, blocks = [b]
  · obtain ⟨b,rfl⟩ := single
    cases live : b.live <;> simp [freeBlocks,live]
  have positive : ∀ b ∈ blocks, 0 < b.size := by
    intro b member
    obtain enough | alone := layout.row.large b member
    · omega
    · exact absurd ⟨b,alone⟩ single
  have all : ∀ bs start stop, Tiles start stop bs → Apart bs → (∀ b ∈ bs, 0 < b.size) →
      (freeBlocks bs).Pairwise fun a c => a.addr + a.size < c.addr := by
    intro bs
    induction bs with
    | nil => intro _ _ _ _ _; exact List.Pairwise.nil
    | cons b rest ih =>
      intro start stop tiles apart positive
      obtain ⟨solid,others⟩ := List.isChain_cons.mp apart
      have later := ih _ _ tiles.2 others fun c member => positive c (List.mem_cons_of_mem b member)
      cases live : b.live with
      | true => simpa [freeBlocks,live] using later
      | false =>
        have first : freeBlocks (b :: rest) = b :: freeBlocks rest := by simp [freeBlocks,live]
        rw [first]
        apply List.pairwise_cons.mpr
        refine ⟨?_,later⟩
        intro c member
        obtain ⟨inside,free⟩ := List.mem_filter.mp member
        cases rest with
        | nil => simp at inside
        | cons d more =>
          have used : d.live = true := (solid d rfl).resolve_left (by simp [live])
          obtain ⟨rfl,address,tiles⟩ := tiles
          rcases List.mem_cons.mp inside with rfl | behind
          · simp [used] at free
          · have := (tiles.inside behind).1
            have := positive d (by simp)
            omega
  exact all blocks lo (lo + size) layout.row.tiles apart positive

theorem Sound.aligned {blocks : List Block} (sound : Sound lo size s blocks) (aligned : lo % 4 = 0) (member : b ∈ blocks) :
    b.addr % 4 = 0 := by
  obtain ⟨front,back,rfl⟩ := List.append_of_mem member
  obtain ⟨first,_⟩ := tiles_split.mp sound.layout.row.tiles
  have all : ∀ bs start stop, Tiles start stop bs → (∀ x ∈ bs, x.size % 4 = 0) → start % 4 = 0 → stop % 4 = 0 := by
    intro bs
    induction bs with
    | nil => intro start stop tiles _ low; rw [← tiles]; exact low
    | cons x rest ih =>
      intro start stop tiles words low
      have word := words x List.mem_cons_self
      exact ih _ _ tiles.2 (fun y member => words y (List.mem_cons_of_mem x member)) (by omega)
  exact all front lo b.addr first (fun x inside => sound.layout.row.words x (by simp [inside])) aligned

/-- With nothing in use there is one free block. -/
theorem Sound.empty {blocks : List Block} (sound : Sound lo size s blocks) (none_ : s.live = []) :
    blocks = [⟨lo,size,false⟩] := by
  obtain ⟨layout,apart,nonempty⟩ := sound
  have free : ∀ b ∈ blocks, b.live = false := by
    intro b member
    by_contra live
    have inside : b ∈ liveBlocks blocks := List.mem_filter.mpr ⟨member,by simpa using live⟩
    have used := layout.used.mem_iff.mp (List.mem_map.mpr ⟨b,inside,rfl⟩)
    rw [none_] at used
    simp at used
  match blocks, nonempty with
  | [b], _ =>
    obtain ⟨address,whole⟩ := layout.row.tiles
    have flag := free b List.mem_cons_self
    obtain ⟨addr,length,live⟩ := b
    simp only [Tiles] at address whole flag
    rw [address,flag,show length = size by omega]
  | a :: c :: rest, _ =>
    have solid := (List.isChain_cons_cons.mp apart).1
    rw [free a (by simp),free c (by simp)] at solid
    simp at solid

/-- The block that `malloc` returns has the bytes asked for, and they are in no other block. -/
structure Returned (lo size n ptr : Nat) (h : Heap) (live : List Nat) (blocks : List Block) : Prop where
  layout : Layout lo size h (ptr :: live) blocks
  aligned : ptr % 4 = 0
  payload : ∃ b ∈ blocks, b.live = true ∧ b.addr + 4 = ptr ∧ ptr + n ≤ b.addr + b.size ∧
    ∀ x ∈ blocks, x ≠ b → x.addr + x.size ≤ ptr ∨ ptr + n ≤ x.addr

/-- The answer of `malloc` to a request. -/
def Answers (lo size : Nat) (s : Memory) (blocks : List Block) (n : Nat) : Prop :=
  ∃ ptr h, Userland.malloc (size + 2) n s.heap = some (ptr, h) ∧
    (0 < n → (ptr = 0 ↔ ¬∃ b ∈ freeBlocks blocks, b.size ≥ max 8 ((n + 3) / 4 * 4) + 4)) ∧
    (ptr ≠ 0 → ∃ after, Returned lo size n ptr h s.live after)

theorem Sound.answers {blocks : List Block} (sound : Sound lo size s blocks) (aligned : lo % 4 = 0) (proper : 0 < lo)
    (fits : lo + size ≤ 2 ^ 32) (small : n ≤ 2 ^ 30) : Answers lo size s blocks n := by
  by_cases positive : 0 < n
  · obtain ⟨all,failed⟩ | ⟨⟨c,free,large⟩,ptr,h,front,b,back,done,allocated,_⟩ :=
      sound.malloc (by omega) positive fun b _ => comparable_small small b.size
    · refine ⟨0,_,failed,fun _ => ⟨fun _ => ?_,fun _ => rfl⟩,fun some_ => absurd rfl some_⟩
      rintro ⟨c,free,large⟩
      have less := all c free
      unfold need minAllocSize at less
      omega
    · have place := allocated.place
      have enough := allocated.enough
      refine ⟨ptr,h,done,fun _ => ⟨fun zero => by omega,fun none_ => absurd ⟨c,free,large⟩ none_⟩,fun _ => ?_⟩
      have address := allocated.sound.aligned aligned (b := b) (by simp)
      refine ⟨_,allocated.sound.layout,by omega,b,by simp,allocated.used,place,by omega,?_⟩
      intro x member different
      simp only [List.mem_append,List.mem_cons] at member
      have row := allocated.sound.layout.row
      rcases member with before | same | behind
      · have := row.others (.inl before)
        omega
      · exact absurd same different
      · have := row.others (.inr behind)
        omega
  · refine ⟨0,s.heap,by rw [Userland.malloc,if_pos (by omega)],fun more => absurd more positive,?_⟩
    intro some_
    exact absurd rfl some_

def Tiled (lo size : Nat) (s : Memory) : Prop := ∃ blocks, Sound lo size s blocks

/-- The heap after any sequence of calls. -/
theorem userland_heap {events : List Event} (aligned : lo % 4 = 0) (proper : 0 < lo) (whole : size % 4 = 0)
    (fits : lo + size ≤ 2 ^ 32) (mem : Nat → Nat) (limits : ∀ n, Event.malloc n ∈ events → n ≤ 2 ^ 30)
    (ran : run (step (size + 2)) events ⟨heapInit lo size mem,[]⟩ = some s) :
    ∃ blocks, Layout lo size s.heap s.live blocks ∧
      ((freeBlocks blocks).Pairwise fun a c => a.addr + a.size < c.addr) ∧
      (∀ n ≤ 2 ^ 30, Answers lo size s blocks n) ∧
      (∀ ptr ∈ s.live, (step (size + 2) (.free ptr) s).isSome = true) ∧
      (s.live = [] → blocks = [⟨lo,size,false⟩]) := by
  have meets : Meets (step (size + 2)) (fun e _ => ∀ n, e = .malloc n → n ≤ 2 ^ 30) events
      ⟨heapInit lo size mem,[]⟩ := by
    apply meets_of_forall
    rintro e member n rfl
    exact limits n member
  have initial : Tiled lo size ⟨heapInit lo size mem,[]⟩ := ⟨_,initial_sound whole proper mem⟩
  obtain ⟨blocks,sound⟩ := run_guarded (fun _ _ _ ⟨_,sound⟩ limit next =>
    step_sound proper fits sound (fun n asked _ b _ => comparable_small (limit n asked) b.size) next)
    initial meets ran
  refine ⟨blocks,sound.layout,sound.spaced,fun n small => sound.answers aligned proper fits small,?_,sound.empty⟩
  intro ptr member
  obtain ⟨b,used,rfl⟩ := List.mem_map.mp (sound.layout.used.mem_iff.mpr member)
  obtain ⟨h,_,done,_⟩ := free_cases sound.layout sound.apart proper fits used
  simp only [step,if_pos member,done]
  rfl

theorem userland_heap_three : ∃ s, run (step 258) [.malloc 10,.malloc 20,.free 4340] ⟨heapInit 4096 256 fun _ => 0,[]⟩ = some s ∧
    s.live = [4316] ∧ ∃ blocks, Layout 4096 256 s.heap s.live blocks ∧ ∀ n ≤ 2 ^ 30, Answers 4096 256 s blocks n := by
  obtain ⟨s,ran,live⟩ : ∃ s, run (step 258) [.malloc 10,.malloc 20,.free 4340] ⟨heapInit 4096 256 fun _ => 0,[]⟩ = some s ∧
      s.live = [4316] := ⟨_,rfl,rfl⟩
  obtain ⟨blocks,layout,_,answers,_⟩ := userland_heap (by decide) (by decide) (by decide) (by decide) (fun _ => 0)
    (by simp) ran
  exact ⟨s,ran,live,blocks,layout,answers⟩

end Runs

end Buenos.Userland
