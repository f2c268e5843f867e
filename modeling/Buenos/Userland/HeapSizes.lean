import Buenos.Userland.HeapCalls

/-! Sizes of requests near 2^31 and 2^32: when `malloc` and `calloc` come out as they should. -/
namespace Buenos.Userland

open Buenos.Foundation

/-! ### Small requests -/

theorem fair_small (small : n ≤ 2 ^ 30) (h : Heap) : Fair h n :=
  .inr fun a _ => (comparable_small small (h.mem a)).1

/-! ### What stops the loop at a block that is too small -/

/-- A request that is more than 2^31 bytes larger than a block looks negative, or has become
small by the rounding. -/
theorem unfair_stops {k : Nat} (large : 8 ≤ k) (bound : k < 2 ^ 31) (small : n < 2 ^ 32) (unfair : 2 ^ 31 + k < need n) :
    toS32 (toU32 ((k : Int) - allocSize n - 4)) ≥ minAllocSize + 4 ∨ k ≥ toU32 (allocSize n + 4) := by
  unfold need minAllocSize at unfair
  unfold toS32 toU32 allocSize minAllocSize
  split <;> split <;> omega

theorem mallocLoop_unfair {h : Heap} (chain : Chain h.next 0 block items)
    (sizes : ∀ a ∈ items, 8 ≤ h.mem a ∧ h.mem a < 2 ^ 31) (member : a ∈ items) (small : n < 2 ^ 32)
    (unfair : 2 ^ 31 + h.mem a < need n) (prev : Option Nat) (enough : items.length < turns) :
    ∃ ptr h', mallocLoop (allocSize n) h turns prev block = some (ptr, h') ∧ ptr ≠ 0 := by
  induction items generalizing block prev turns with
  | nil => simp at member
  | cons first rest ih =>
    obtain ⟨rfl,proper,later⟩ := chain
    obtain ⟨t,rfl⟩ := Nat.exists_eq_succ_of_ne_zero (Nat.ne_of_gt (Nat.lt_of_le_of_lt (Nat.zero_le _) enough))
    rw [List.length_cons] at enough
    rw [mallocLoop,if_neg proper]
    split
    · exact ⟨_,_,rfl,by omega⟩
    · next unsplit =>
      split
      · exact ⟨_,_,rfl,by omega⟩
      · next untaken =>
        rcases List.mem_cons.mp member with rfl | behind
        · obtain ⟨large,bound⟩ := sizes a member
          exact absurd (unfair_stops large bound small unfair) (by tauto)
        · exact ih later (fun c inside => sizes c (List.mem_cons_of_mem block inside)) behind (some block) (by omega)

section Sizes
variable {lo size n : Nat} {s : Memory} {blocks : List Block} {b : Block}

/-- Every block has room for a header, as the heap has. -/
theorem Row.room {mem : Nat → Nat} (row : Row lo size mem blocks) (room : 8 ≤ size) (member : b ∈ blocks) : 8 ≤ b.size := by
  obtain large | alone := row.large b member
  · exact large
  · have tiles := row.tiles
    rw [alone] at tiles
    obtain ⟨start,stop⟩ := tiles
    have stop : lo + b.size = lo + size := stop
    omega

theorem Sound.unfair (sound : Sound lo size s blocks) (room : 8 ≤ size) (bound : size < 2 ^ 31) (small : n < 2 ^ 32)
    (unfair : ¬Fair s.heap n) : size < n ∧ ∃ ptr h, Userland.malloc (size + 2) n s.heap = some (ptr, h) ∧ ptr ≠ 0 := by
  unfold Fair at unfair
  push Not at unfair
  obtain ⟨positive,a,⟨l,chain,member⟩,unfair⟩ := unfair
  have same := chain.unique sound.layout.chain
  have sizes : ∀ a ∈ l, 8 ≤ s.heap.mem a ∧ s.heap.mem a < 2 ^ 31 := by
    intro a inside
    rw [same] at inside
    obtain ⟨b,among,rfl,_⟩ := mem_freeAddrs inside
    have whole := (sound.layout.row.tiles.inside among)
    rw [sound.layout.row.header b among]
    exact ⟨sound.layout.row.room room among,by omega⟩
  have short : l.length < size + 2 := by
    have one := sound.layout.row.length_le
    have two := freeAddrs_length blocks
    rw [same]
    omega
  obtain ⟨ptr,h,done,some_⟩ := mallocLoop_unfair chain sizes member small unfair none short
  have limit := (need_facts n).2.2.2
  have least := (sizes a member).1
  exact ⟨by omega,ptr,h,by rw [Userland.malloc,if_neg positive,done],some_⟩

structure Exact (lo size : Nat) (s : Memory) (blocks : List Block) (n ptr : Nat) (h : Heap) : Prop where
  payload : ptr ≠ 0 → ∃ after, Returned lo size n ptr h s.live after
  refused : (∀ b ∈ freeBlocks blocks, b.size < need n) → ptr = 0 ∧ h = s.heap

/-- Every free block is too small, and none looks large enough. -/
def Refuses (h : Heap) (n : Nat) : Prop :=
  n = 0 ∨ ∀ a, OnFreeList h a → h.mem a < need n ∧ need n ≤ 2 ^ 31 + h.mem a

theorem Returned.le (returned : Returned lo size n ptr h live after) : n ≤ size := by
  obtain ⟨b,member,_,place,inside,_⟩ := returned.payload
  have whole := returned.layout.row.tiles.inside member
  omega

theorem Allocated.returned (allocated : Allocated lo size n ptr h live front back b) (aligned : lo % 4 = 0) :
    Returned lo size n ptr h live (front ++ b :: back) := by
  have place := allocated.place
  have enough := allocated.enough
  have address := allocated.sound.aligned aligned (b := b) (by simp)
  refine ⟨allocated.sound.layout,by omega,b,by simp,allocated.used,place,by omega,?_⟩
  intro x member different
  have := allocated.sound.layout.row.disjoint (b := b) (by simp) member different
  omega

theorem Sound.malloc_exact (sound : Sound lo size s blocks) (aligned : lo % 4 = 0) (room : 8 ≤ size) (bound : size < 2 ^ 31)
    (small : n < 2 ^ 32) : (∃ ptr h, Userland.malloc (size + 2) n s.heap = some (ptr, h) ∧ Exact lo size s blocks n ptr h) ↔
      Fair s.heap n := by
  constructor
  · rintro ⟨ptr,h,done,exact_⟩
    by_contra unfair
    obtain ⟨large,other,h',made,some_⟩ := sound.unfair room bound small unfair
    cases done.symm.trans made
    obtain ⟨after,returned⟩ := exact_.payload some_
    exact absurd returned.le (by omega)
  · intro fair
    by_cases positive : 0 < n
    · obtain ⟨_,failed⟩ | ⟨⟨c,free,large⟩,ptr,h,front,b,back,done,allocated,_⟩ :=
        sound.malloc (by omega) positive (sound.comparable bound fair positive)
      · exact ⟨0,s.heap,failed,fun some_ => absurd rfl some_,fun _ => ⟨rfl,rfl⟩⟩
      · exact ⟨ptr,h,done,fun _ => ⟨_,allocated.returned aligned⟩,fun all => absurd (all c free) (by omega)⟩
    · exact ⟨0,s.heap,by rw [Userland.malloc,if_pos (by omega)],fun some_ => absurd rfl some_,fun _ => ⟨rfl,rfl⟩⟩

theorem Sound.calloc_cases (sound : Sound lo size s blocks) (aligned : lo % 4 = 0) (room : 8 ≤ size) (bound : size < 2 ^ 31)
    (product : m * k % 2 ^ 32 = n) :
    (Refuses s.heap n ∧ Userland.calloc (size + 2) m k s.heap = some (0, s.heap)) ∨
    (¬Refuses s.heap n ∧ Fair s.heap n ∧ (∃ b ∈ freeBlocks blocks, need n ≤ b.size) ∧ ∃ ptr h after,
      Userland.calloc (size + 2) m k s.heap = some (ptr, h) ∧ ptr ≠ 0 ∧ Returned lo size n ptr h s.live after) ∨
    (¬Refuses s.heap n ∧ ¬Fair s.heap n ∧ size < n ∧ ∃ ptr h,
      Userland.calloc (size + 2) m k s.heap = some (ptr, h) ∧ ptr ≠ 0) := by
  have small : n < 2 ^ 32 := by omega
  have weaker : Refuses s.heap n → Fair s.heap n := fun refuses => refuses.imp_right fun all a on => (all a on).2
  by_cases fair : Fair s.heap n
  · by_cases positive : 0 < n
    · have comparable := sound.comparable bound fair positive
      obtain ⟨all,failed⟩ | ⟨⟨c,free,large⟩,ptr,h,front,b,back,done,allocated⟩ :=
        sound.calloc aligned (by omega) product positive comparable
      · left
        refine ⟨.inr ((sound.onFreeList fun _ k => k < need n ∧ need n ≤ 2 ^ 31 + k).mpr fun b member => ?_),failed⟩
        exact ⟨all b member,(comparable b member).1⟩
      · right; left
        have start := allocated.place
        refine ⟨?_,fair,⟨c,free,large⟩,ptr,h,_,done,by omega,allocated.returned aligned⟩
        rintro (zero | all)
        · omega
        · have less := ((sound.onFreeList fun _ k => k < need n ∧ need n ≤ 2 ^ 31 + k).mp all c free).1
          omega
    · left
      refine ⟨.inl (by omega),?_⟩
      rw [Userland.calloc,product,Userland.malloc,if_pos (by omega)]
      rfl
  · right; right
    obtain ⟨large,ptr,h,done,some_⟩ := sound.unfair room bound small fair
    refine ⟨fun refuses => fair (weaker refuses),fair,large,ptr,if ptr ≠ 0 then clearLoop ptr n 0 h else h,?_,some_⟩
    rw [Userland.calloc,product,done]
    rfl

theorem Sound.calloc_exact (sound : Sound lo size s blocks) (aligned : lo % 4 = 0) (room : 8 ≤ size)
    (bound : size < 2 ^ 31) (m k : Nat) :
    (∃ ptr h, Userland.calloc (size + 2) m k s.heap = some (ptr, h) ∧ Exact lo size s blocks (m * k) ptr h) ↔
      m * k < 2 ^ 32 ∧ Fair s.heap (m * k) ∨ 2 ^ 32 ≤ m * k ∧ Refuses s.heap (m * k % 2 ^ 32) := by
  have wrong : ∀ ptr h, Userland.calloc (size + 2) m k s.heap = some (ptr, h) → ptr ≠ 0 → size < m * k →
      ¬∃ ptr h, Userland.calloc (size + 2) m k s.heap = some (ptr, h) ∧ Exact lo size s blocks (m * k) ptr h := by
    rintro ptr h done some_ large ⟨other,h',made,exact_⟩
    cases done.symm.trans made
    obtain ⟨after,returned⟩ := exact_.payload some_
    exact absurd returned.le (by omega)
  by_cases fits : m * k < 2 ^ 32
  · have product : m * k % 2 ^ 32 = m * k := Nat.mod_eq_of_lt fits
    have same : (m * k < 2 ^ 32 ∧ Fair s.heap (m * k) ∨ 2 ^ 32 ≤ m * k ∧ Refuses s.heap (m * k % 2 ^ 32)) ↔
        Fair s.heap (m * k) := by
      constructor
      · rintro (⟨_,fair⟩ | ⟨large,_⟩)
        · exact fair
        · omega
      · exact fun fair => .inl ⟨fits,fair⟩
    rw [same]
    obtain ⟨refuses,done⟩ | ⟨_,fair,⟨c,free,room⟩,ptr,h,after,done,some_,returned⟩ | ⟨_,unfair,large,ptr,h,done,some_⟩ :=
      sound.calloc_cases aligned room bound product
    · refine iff_of_true ⟨0,s.heap,done,fun some_ => absurd rfl some_,fun _ => ⟨rfl,rfl⟩⟩ ?_
      exact refuses.imp_right fun all a on => (all a on).2
    · exact iff_of_true ⟨ptr,h,done,fun _ => ⟨after,returned⟩,fun all => absurd (all c free) (by omega)⟩ fair
    · exact iff_of_false (wrong ptr h done some_ large) unfair
  · have same : (m * k < 2 ^ 32 ∧ Fair s.heap (m * k) ∨ 2 ^ 32 ≤ m * k ∧ Refuses s.heap (m * k % 2 ^ 32)) ↔
        Refuses s.heap (m * k % 2 ^ 32) := by
      constructor
      · rintro (⟨small,_⟩ | ⟨_,refuses⟩)
        · exact absurd small fits
        · exact refuses
      · exact fun refuses => .inr ⟨Nat.le_of_not_lt fits,refuses⟩
    rw [same]
    obtain ⟨refuses,done⟩ | ⟨room,_,_,ptr,h,_,done,some_,_⟩ | ⟨room,_,_,ptr,h,done,some_⟩ :=
      sound.calloc_cases aligned room bound (rfl : m * k % 2 ^ 32 = _)
    · exact iff_of_true ⟨0,s.heap,done,fun some_ => absurd rfl some_,fun _ => ⟨rfl,rfl⟩⟩ refuses
    · exact iff_of_false (wrong ptr h done some_ (by omega)) room
    · exact iff_of_false (wrong ptr h done some_ (by omega)) room

/-- In every run of fair calls, a request is answered with the bytes it asks for exactly when it
is fair, and a product that does not fit only when nothing can be returned for its remainder. -/
theorem allocation_sizes {calls : List Call} (aligned : lo % 4 = 0) (proper : 0 < lo) (whole : size % 4 = 0)
    (room : 8 ≤ size) (fits : lo + size ≤ 2 ^ 31) (mem : Nat → Nat)
    (fair : Meets (callStep (size + 2)) Call.fair calls ⟨heapInit lo size mem,[]⟩)
    (ran : run (callStep (size + 2)) calls ⟨heapInit lo size mem,[]⟩ = some s) :
    ∃ blocks, Layout lo size s.heap s.live blocks ∧
      (∀ n < 2 ^ 32, (∃ ptr h, malloc (size + 2) n s.heap = some (ptr, h) ∧ Exact lo size s blocks n ptr h) ↔
        Fair s.heap n) ∧
      ∀ m < 2 ^ 32, ∀ n < 2 ^ 32,
        (∃ ptr h, calloc (size + 2) m n s.heap = some (ptr, h) ∧ Exact lo size s blocks (m * n) ptr h) ↔
          m * n < 2 ^ 32 ∧ Fair s.heap (m * n) ∨ 2 ^ 32 ≤ m * n ∧ Refuses s.heap (m * n % 2 ^ 32) := by
  obtain ⟨blocks,sound⟩ := calls_sound aligned proper whole fits mem fair ran
  exact ⟨blocks,sound.layout,fun n small => sound.malloc_exact aligned room (by omega) small,
    fun m _ n _ => sound.calloc_exact aligned room (by omega) m n⟩

theorem allocation_sizes_two : ∃ s blocks,
    run (callStep 258) [.event (.malloc 10),.calloc 3 5] ⟨heapInit 4096 256 fun _ => 0,[]⟩ = some s ∧
      Layout 4096 256 s.heap s.live blocks ∧
      ∃ ptr h, malloc 258 20 s.heap = some (ptr, h) ∧ Exact 4096 256 s blocks 20 ptr h := by
  obtain ⟨s,ran⟩ : ∃ s,
      run (callStep 258) [.event (.malloc 10),.calloc 3 5] ⟨heapInit 4096 256 fun _ => 0,[]⟩ = some s := ⟨_,rfl⟩
  have fair : Meets (callStep 258) Call.fair [.event (.malloc 10),.calloc 3 5] ⟨heapInit 4096 256 fun _ => 0,[]⟩ := by
    refine ⟨fair_small (by decide) _,?_⟩
    split
    · trivial
    · refine ⟨fair_small (by decide) _,?_⟩
      split <;> trivial
  obtain ⟨blocks,layout,exactly,_⟩ :=
    allocation_sizes (by decide) (by decide) (by decide) (by decide) (by decide) (fun _ => 0) fair ran
  exact ⟨s,blocks,ran,layout,(exactly 20 (by decide)).mpr (fair_small (by decide) s.heap)⟩

/-- The largest size wraps to 0 and is answered with the last word of the heap, as the header of
a block without any byte. -/
theorem request_wraps : ∃ ptr h, malloc 258 (2 ^ 32 - 1) (heapInit 4096 256 fun _ => 0) = some (ptr, h) ∧
    ptr = 4096 + 256 ∧ ¬∃ after, Returned 4096 256 (2 ^ 32 - 1) ptr h [] after := by
  refine ⟨4352,_,rfl,rfl,?_⟩
  rintro ⟨after,returned⟩
  exact absurd returned.le (by decide)

end Sizes

end Buenos.Userland
