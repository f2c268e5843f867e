import Buenos.Userland.HeapRun

/-! `calloc` and `realloc` of `tests/lib.c`, which go through the bytes of their blocks. -/
namespace Buenos.Userland

open Buenos.Foundation

/-! ### Bytes -/

def byteWeight (addr : Nat) : Nat := 256 ^ (3 - addr % 4)

def Heap.byte (h : Heap) (addr : Nat) : Nat := h.mem (addr / 4 * 4) / byteWeight addr % 256

def Heap.setByte (h : Heap) (addr value : Nat) : Heap :=
  h.set (addr / 4 * 4) (h.mem (addr / 4 * 4) - h.byte addr * byteWeight addr + value * byteWeight addr)

/-! ### The functions -/

/-- `ptr[i] = 0` from the `i`-th byte on. -/
def clearLoop (ptr : Nat) : Nat → Nat → Heap → Heap
  | 0, _, h => h
  | left + 1, i, h => clearLoop ptr left (i + 1) (h.setByte (ptr + i) 0)

def calloc (turns nmemb size : Nat) (h : Heap) : Option (Nat × Heap) :=
  (malloc turns (nmemb * size % 2 ^ 32) h).map fun (ptr, h) =>
    (ptr, if ptr ≠ 0 then clearLoop ptr (nmemb * size % 2 ^ 32) 0 h else h)

/-- `new_ptr[i] = ((byte*)ptr)[i]` from the `i`-th byte on. The addresses read are listed, which
the code does not do. -/
def copyLoop (newPtr ptr : Nat) : Nat → Nat → Heap × List Nat → Heap × List Nat
  | 0, _, s => s
  | left + 1, i, (h, reads) =>
    copyLoop newPtr ptr left (i + 1) (h.setByte (newPtr + i) (h.byte (ptr + i)), reads ++ [ptr + i])

/-- The new pointer, the heap and the bytes that were read as data. -/
def realloc (turns ptr size : Nat) (h : Heap) : Option (Nat × Heap × List Nat) :=
  if ptr = 0 then (malloc turns size h).map fun (newPtr, h) => (newPtr, h, [])
  else if size = 0 then (free turns ptr h).map fun h => (0, h, [])
  else (malloc turns size h).bind fun (newPtr, h) =>
    if newPtr ≠ 0 then
      let (h, reads) := copyLoop newPtr ptr size 0 (h, [])
      (free turns ptr h).map fun h => (newPtr, h, reads)
    else some (newPtr, h, [])

inductive Call where
  | event (e : Event)
  | calloc (nmemb size : Nat)
  | realloc (ptr size : Nat)

def callStep (turns : Nat) (call : Call) (s : Memory) : Option Memory :=
  match call with
  | .event e => step turns e s
  | .calloc nmemb size => (calloc turns nmemb size s.heap).map fun (ptr, heap) =>
    ⟨heap,if ptr = 0 then s.live else ptr :: s.live⟩
  | .realloc ptr size =>
    if ptr = 0 ∨ ptr ∈ s.live then
      (realloc turns ptr size s.heap).map fun (newPtr, heap, _) =>
        ⟨heap,if newPtr ≠ 0 then newPtr :: s.live.erase ptr else if size = 0 then s.live.erase ptr else s.live⟩
    else none

/-! ### What the loops leave -/

section Bytes
variable {h : Heap} {a b : Nat}

theorem byte_lt (h : Heap) (addr : Nat) : h.byte addr < 256 := Nat.mod_lt _ (by decide)

theorem setByte_mem_of_ne (other : c ≠ a / 4 * 4) (value : Nat) : (h.setByte a value).mem c = h.mem c :=
  set_mem_of_ne other

theorem byteWeight_cases (addr : Nat) : (addr % 4 = 0 ∧ byteWeight addr = 16777216) ∨ (addr % 4 = 1 ∧ byteWeight addr = 65536) ∨
    (addr % 4 = 2 ∧ byteWeight addr = 256) ∨ (addr % 4 = 3 ∧ byteWeight addr = 1) := by
  unfold byteWeight
  obtain lane | lane | lane | lane : addr % 4 = 0 ∨ addr % 4 = 1 ∨ addr % 4 = 2 ∨ addr % 4 = 3 := by omega
  all_goals rw [lane]; simp

theorem byte_setByte_self (small : value < 256) : (h.setByte a value).byte a = value := by
  unfold Heap.byte Heap.setByte
  rw [set_mem_self]
  unfold Heap.byte
  generalize h.mem (a / 4 * 4) = w
  obtain ⟨_,one⟩ | ⟨_,one⟩ | ⟨_,one⟩ | ⟨_,one⟩ := byteWeight_cases a <;> rw [one] <;> omega

theorem byte_setByte_of_ne (other : b ≠ a) (value : Nat) (small : value < 256) :
    (h.setByte a value).byte b = h.byte b := by
  by_cases same : b / 4 * 4 = a / 4 * 4
  · unfold Heap.byte Heap.setByte
    rw [same,set_mem_self]
    unfold Heap.byte
    generalize h.mem (a / 4 * 4) = w
    obtain ⟨one,here⟩ | ⟨one,here⟩ | ⟨one,here⟩ | ⟨one,here⟩ := byteWeight_cases a <;>
      obtain ⟨two,there⟩ | ⟨two,there⟩ | ⟨two,there⟩ | ⟨two,there⟩ := byteWeight_cases b <;>
      rw [here,there] <;> omega
  · unfold Heap.byte
    rw [setByte_mem_of_ne same]

theorem byte_congr {h' : Heap} (same : h'.mem (a / 4 * 4) = h.mem (a / 4 * 4)) : h'.byte a = h.byte a := by
  unfold Heap.byte
  rw [same]

theorem clearLoop_mem (aligned : p % 4 = 0) (left i : Nat) (h : Heap) :
    (clearLoop p left i h).freeList = h.freeList ∧
      ∀ c, c < p ∨ p + (i + left) ≤ c → (clearLoop p left i h).mem c = h.mem c := by
  induction left generalizing i h with
  | zero => exact ⟨rfl,fun _ _ => rfl⟩
  | succ left ih =>
    obtain ⟨list,rest⟩ := ih (i + 1) (h.setByte (p + i) 0)
    refine ⟨list,?_⟩
    intro c outside
    rw [clearLoop,rest c (by omega),setByte_mem_of_ne (by omega)]

theorem copyLoop_mem (aligned : q % 4 = 0) (ptr left i : Nat) (h : Heap) (reads : List Nat) :
    (copyLoop q ptr left i (h, reads)).1.freeList = h.freeList ∧
      ∀ c, c < q ∨ q + (i + left) ≤ c → (copyLoop q ptr left i (h, reads)).1.mem c = h.mem c := by
  induction left generalizing i h reads with
  | zero => exact ⟨rfl,fun _ _ => rfl⟩
  | succ left ih =>
    obtain ⟨list,rest⟩ := ih (i + 1) (h.setByte (q + i) (h.byte (ptr + i))) (reads ++ [ptr + i])
    refine ⟨list,?_⟩
    intro c outside
    rw [copyLoop,rest c (by omega),setByte_mem_of_ne (by omega)]

theorem copyLoop_reads (newPtr ptr left i : Nat) (h : Heap) (reads : List Nat) :
    a ∈ (copyLoop newPtr ptr left i (h, reads)).2 ↔ a ∈ reads ∨ (ptr + i ≤ a ∧ a < ptr + (i + left)) := by
  induction left generalizing i h reads with
  | zero =>
    rw [copyLoop]
    exact ⟨.inl,fun either => either.resolve_right (by omega)⟩
  | succ left ih =>
    rw [copyLoop,ih,List.mem_append,List.mem_singleton,or_assoc]
    apply or_congr_right
    omega

/-- A byte that the loop does not overwrite stays, whatever it has copied before. -/
theorem copyLoop_byte_outside (newPtr ptr left i : Nat) (h : Heap) (reads : List Nat)
    (outside : c < newPtr + i ∨ newPtr + (i + left) ≤ c) :
    (copyLoop newPtr ptr left i (h, reads)).1.byte c = h.byte c := by
  induction left generalizing i h reads with
  | zero => rfl
  | succ left ih => rw [copyLoop,ih _ _ _ (by omega),byte_setByte_of_ne (by omega) _ (byte_lt h _)]

/-- Where the old bytes lie outside of the new block they are copied. -/
theorem copyLoop_byte (newPtr ptr left i : Nat) (h : Heap) (reads : List Nat) (first : i ≤ j) (last : j < i + left)
    (apart : ptr + j < newPtr + i ∨ newPtr + (i + left) ≤ ptr + j) :
    (copyLoop newPtr ptr left i (h, reads)).1.byte (newPtr + j) = h.byte (ptr + j) := by
  induction left generalizing i h reads with
  | zero => omega
  | succ left ih =>
    rw [copyLoop]
    by_cases here : j = i
    · rw [here,copyLoop_byte_outside _ _ _ _ _ _ (.inl (by omega)),byte_setByte_self (byte_lt h _)]
    · rw [ih (i + 1) _ _ (by omega) (by omega) (by omega),byte_setByte_of_ne (by omega) _ (byte_lt h _)]

end Bytes

/-! ### The calls keep the heap sound -/

section Calls
variable {lo size n : Nat} {s t : Memory} {blocks : List Block} {b : Block}

theorem Sound.calloc (sound : Sound lo size s blocks) (aligned : lo % 4 = 0) (bound : size < 2 ^ 32)
    (product : nmemb * k % 2 ^ 32 = n) (positive : 0 < n) (comparable : ∀ b ∈ freeBlocks blocks, Comparable (need n) b.size) :
    ((∀ b ∈ freeBlocks blocks, b.size < need n) ∧ calloc (size + 2) nmemb k s.heap = some (0, s.heap)) ∨
    (∃ b ∈ freeBlocks blocks, need n ≤ b.size) ∧ ∃ ptr h front b back,
      calloc (size + 2) nmemb k s.heap = some (ptr, h) ∧ Allocated lo size n ptr h s.live front back b := by
  unfold Userland.calloc
  rw [product]
  obtain ⟨all,failed⟩ | ⟨room,ptr,h,front,b,back,done,allocated,_⟩ := sound.malloc bound positive comparable
  · rw [failed]
    exact .inl ⟨all,rfl⟩
  · rw [done]
    have start := allocated.place
    have enough := allocated.enough
    have word := allocated.sound.aligned aligned (b := b) (by simp)
    obtain ⟨list,rest⟩ := clearLoop_mem (p := ptr) (by omega) n 0 h
    refine .inr ⟨room,ptr,clearLoop ptr n 0 h,front,b,back,?_,?_,allocated.used,start,enough⟩
    · rw [Option.map_some]
      dsimp only
      rw [if_pos (by omega)]
    · refine allocated.sound.within (List.mem_filter.mpr ⟨by simp,allocated.used⟩) list ?_
      intro a outside
      exact rest a (by omega)

/-- What `realloc` has done when it returns a new block. -/
structure Reallocated (lo size n : Nat) (s : Memory) (blocks : List Block) (b : Block) (q : Nat) (h : Heap)
    (after : List Block) : Prop where
  sound : Sound lo size ⟨h,q :: s.live.erase (b.addr + 4)⟩ after
  payload : ∃ c ∈ liveBlocks after, c.addr + 4 = q ∧ n + 4 ≤ c.size
  bytes : ∀ i < min (b.size - 4) n, h.byte (q + i) = s.heap.byte (b.addr + 4 + i)
  freed : ∃ f ∈ freeBlocks after, f.addr ≤ b.addr ∧ b.addr + b.size ≤ f.addr + f.size
  others : ∀ x ∈ liveBlocks blocks, x ≠ b → Kept s.heap h after x

/-- The bytes read as data are those that the new block has room for. -/
theorem Sound.realloc (sound : Sound lo size s blocks) (aligned : lo % 4 = 0) (proper : 0 < lo)
    (fits : lo + size ≤ 2 ^ 32) (used : b ∈ liveBlocks blocks) (positive : 0 < n)
    (comparable : ∀ b ∈ freeBlocks blocks, Comparable (need n) b.size) :
    ((∀ b ∈ freeBlocks blocks, b.size < need n) ∧
      realloc (size + 2) (b.addr + 4) n s.heap = some (0, s.heap, [])) ∨
    (∃ b ∈ freeBlocks blocks, need n ≤ b.size) ∧ ∃ q h reads after,
      realloc (size + 2) (b.addr + 4) n s.heap = some (q, h, reads) ∧ q ≠ 0 ∧
        Reallocated lo size n s blocks b q h after ∧ ∀ a, a ∈ reads ↔ b.addr + 4 ≤ a ∧ a < b.addr + 4 + n := by
  unfold Userland.realloc
  rw [if_neg (by omega),if_neg (by omega)]
  obtain ⟨all,failed⟩ | ⟨room,q,h,front,c,back,done,allocated,others⟩ := sound.malloc (by omega) positive comparable
  · rw [failed]
    exact .inl ⟨all,rfl⟩
  refine .inr ⟨room,?_⟩
  have start := allocated.place
  have enough := allocated.enough
  have new : c ∈ liveBlocks (front ++ c :: back) := List.mem_filter.mpr ⟨by simp,allocated.used⟩
  have word := allocated.sound.aligned aligned (List.mem_filter.mp new).1
  obtain ⟨different,old⟩ := others b used
  have still : b ∈ liveBlocks (front ++ c :: back) := List.mem_filter.mpr ⟨old.present,(List.mem_filter.mp used).2⟩
  have between := allocated.sound.layout.row.disjoint (List.mem_filter.mp new).1 old.present different
  obtain ⟨list,rest⟩ := copyLoop_mem (q := q) (by omega) (b.addr + 4) n 0 h []
  have reads := fun a => copyLoop_reads (a := a) q (b.addr + 4) n 0 h []
  have copied := fun j last apart => copyLoop_byte (j := j) q (b.addr + 4) n 0 h [] (Nat.zero_le j) last apart
  generalize copies : copyLoop q (b.addr + 4) n 0 (h, []) = made at list rest reads copied
  obtain ⟨h₂,listed⟩ := made
  have sound₂ : Sound lo size ⟨h₂,q :: s.live⟩ (front ++ c :: back) := by
    refine allocated.sound.within new list ?_
    intro a outside
    exact rest a (by omega)
  obtain ⟨h₃,after,freed,result⟩ := free_cases sound₂.layout sound₂.apart proper fits still
  refine ⟨q,h₃,listed,after,?_,by omega,⟨?_,?_,?_,result.inside,?_⟩,?_⟩
  · rw [done,Option.bind_some]
    dsimp only
    rw [if_pos (by omega),copies]
    dsimp only at freed ⊢
    rw [freed,Option.map_some]
  · have kept := result.layout
    have apart : q ≠ b.addr + 4 := by
      intro same
      exact different (allocated.sound.layout.row.addr_inj (List.mem_filter.mp new).1 old.present (by omega))
    rw [List.erase_cons_tail (by simpa using apart)] at kept
    exact ⟨kept,result.apart,result.nonempty⟩
  · exact ⟨c,List.mem_filter.mpr ⟨(result.others c new (Ne.symm different)).present,allocated.used⟩,start,enough⟩
  · intro i small
    have kept := result.others c new (Ne.symm different)
    rw [byte_congr (kept.same _ (by omega) (by omega)),copied i (by omega) (by omega)]
    exact byte_congr (old.same _ (by omega) (by omega))
  · intro x member other
    obtain ⟨apart,kept⟩ := others x member
    have later := result.others x (List.mem_filter.mpr ⟨kept.present,(List.mem_filter.mp member).2⟩) other
    have away := allocated.sound.layout.row.disjoint (List.mem_filter.mp new).1 kept.present apart
    have inside : Kept h h₂ (front ++ c :: back) x := ⟨kept.present,fun a low high => rest a (by omega)⟩
    exact (kept.trans inside).trans later
  · intro a
    rw [reads a]
    simp

/-! ### Runs of calls -/

/-- The address of a block of the free list, as the links in the memory have it. -/
def OnFreeList (h : Heap) (a : Nat) : Prop := ∃ l, Chain h.next 0 h.freeList l ∧ a ∈ l

/-- The request is for nothing, or less than 2^31 bytes larger than every free block. -/
def Fair (h : Heap) (n : Nat) : Prop := n = 0 ∨ ∀ a, OnFreeList h a → need n ≤ 2 ^ 31 + h.mem a

/-- What the call asks `malloc` for is fair. -/
def Call.fair (call : Call) (s : Memory) : Prop :=
  match call with
  | .event (.malloc n) => Fair s.heap n
  | .event _ => True
  | .calloc nmemb size => Fair s.heap (nmemb * size % 2 ^ 32)
  | .realloc _ size => Fair s.heap size

theorem Sound.onFreeList (sound : Sound lo size s blocks) (property : Nat → Nat → Prop) :
    (∀ a, OnFreeList s.heap a → property a (s.heap.mem a)) ↔ ∀ b ∈ freeBlocks blocks, property b.addr b.size := by
  constructor
  · intro all b member
    rw [← sound.layout.row.header b (List.mem_filter.mp member).1]
    exact all b.addr ⟨_,sound.layout.chain,List.mem_map.mpr ⟨b,member,rfl⟩⟩
  · rintro all a ⟨l,chain,member⟩
    rw [chain.unique sound.layout.chain] at member
    obtain ⟨b,free,rfl⟩ := List.mem_map.mp member
    rw [sound.layout.row.header b (List.mem_filter.mp free).1]
    exact all b free

theorem Sound.comparable (sound : Sound lo size s blocks) (bound : size < 2 ^ 31) (fair : Fair s.heap n)
    (positive : 0 < n) : ∀ b ∈ freeBlocks blocks, Comparable (need n) b.size := by
  have near := (sound.onFreeList fun _ k => need n ≤ 2 ^ 31 + k).mp
    (fair.resolve_left (Nat.ne_of_gt positive))
  intro b member
  have here := near b member
  have inside := (sound.layout.row.tiles.inside (List.mem_filter.mp member).1)
  exact ⟨here,by omega⟩

theorem Sound.zero_not_live (sound : Sound lo size s blocks) : 0 ∉ s.live := by
  intro member
  obtain ⟨b,_,zero⟩ := List.mem_map.mp (sound.layout.used.mem_iff.mpr member)
  omega

theorem callStep_sound (aligned : lo % 4 = 0) (proper : 0 < lo) (fits : lo + size ≤ 2 ^ 31)
    (sound : Sound lo size s blocks) (fair : call.fair s) (next : callStep (size + 2) call s = some t) :
    ∃ blocks, Sound lo size t blocks := by
  have bound : size < 2 ^ 31 := by omega
  cases call with
  | event e =>
    refine step_sound proper (by omega) sound ?_ next
    rintro n rfl positive
    exact sound.comparable bound fair positive
  | calloc nmemb k =>
    simp only [callStep] at next
    by_cases positive : 0 < nmemb * k % 2 ^ 32
    · obtain ⟨_,failed⟩ | ⟨_,ptr,h,front,b,back,done,allocated⟩ :=
        sound.calloc aligned (by omega) rfl positive (sound.comparable bound fair positive)
      · rw [failed] at next
        cases next
        exact ⟨blocks,sound⟩
      · have start := allocated.place
        rw [done,Option.map_some] at next
        dsimp only at next
        rw [if_neg (by omega)] at next
        cases next
        exact ⟨_,allocated.sound⟩
    · rw [calloc,malloc,if_pos (by omega)] at next
      cases next
      exact ⟨blocks,sound⟩
  | realloc ptr k =>
    simp only [callStep] at next
    obtain ⟨valid,next⟩ := Option.ite_none_right_eq_some.mp next
    obtain ⟨⟨q,h,reads⟩,done,next⟩ := Option.map_eq_some_iff.mp next
    obtain rfl | member := valid
    · rw [realloc,if_pos rfl] at done
      rw [List.erase_of_not_mem sound.zero_not_live,ite_self] at next
      by_cases positive : 0 < k
      · obtain ⟨_,failed⟩ | ⟨_,ptr,h,front,b,back,made,allocated,_⟩ :=
          sound.malloc (by omega) positive (sound.comparable bound fair positive)
        · rw [failed] at done
          cases done
          cases next
          exact ⟨blocks,sound⟩
        · have start := allocated.place
          rw [made] at done
          cases done
          rw [if_pos (by omega)] at next
          cases next
          exact ⟨_,allocated.sound⟩
      · rw [malloc,if_pos (by omega)] at done
        cases done
        cases next
        exact ⟨blocks,sound⟩
    · obtain ⟨b,used,rfl⟩ := List.mem_map.mp (sound.layout.used.mem_iff.mpr member)
      by_cases positive : 0 < k
      · obtain ⟨_,failed⟩ | ⟨_,ptr,h,reads,after,made,some_,moved,_⟩ :=
          sound.realloc aligned proper (by omega) used positive (sound.comparable bound fair positive)
        · rw [failed] at done
          cases done
          rw [if_neg (by simp),if_neg (by omega)] at next
          cases next
          exact ⟨blocks,sound⟩
        · rw [made] at done
          cases done
          rw [if_pos some_] at next
          cases next
          exact ⟨after,moved.sound⟩
      · obtain ⟨h,others,made,freed⟩ := free_cases sound.layout sound.apart proper (by omega) used
        rw [realloc,if_neg (by omega),if_pos (by omega),made] at done
        cases done
        rw [if_neg (by simp),if_pos (by omega)] at next
        cases next
        exact ⟨others,freed.layout,freed.apart,freed.nonempty⟩

/-- The heap after any calls of which each asks for what is fair when it is made. -/
theorem calls_sound {calls : List Call} (aligned : lo % 4 = 0) (proper : 0 < lo) (whole : size % 4 = 0)
    (fits : lo + size ≤ 2 ^ 31) (mem : Nat → Nat)
    (fair : Meets (callStep (size + 2)) Call.fair calls ⟨heapInit lo size mem,[]⟩)
    (ran : run (callStep (size + 2)) calls ⟨heapInit lo size mem,[]⟩ = some s) : ∃ blocks, Sound lo size s blocks := by
  have initial : Tiled lo size ⟨heapInit lo size mem,[]⟩ := ⟨_,initial_sound whole proper mem⟩
  have preserved : ∀ (call : Call) s t, Tiled lo size s → call.fair s → callStep (size + 2) call s = some t →
      Tiled lo size t := by
    rintro call s t ⟨blocks,sound⟩ fair next
    exact callStep_sound aligned proper fits sound fair next
  exact run_guarded preserved initial fair ran

end Calls

end Buenos.Userland
