import Buenos.Userland.HeapSizes

/-! `realloc` reads as many bytes from the old block as the new one has, and moves the data. -/
namespace Buenos.Userland

open Buenos.Foundation

section Realloc
variable {lo size n : Nat} {s : Memory} {blocks : List Block} {b : Block}

/-- The block is moved to a new one, and nothing is read as data that is not in it; or nothing
has happened. -/
def Moves (lo size : Nat) (s : Memory) (blocks : List Block) (b : Block) (n : Nat) : Prop :=
  ∃ q h reads, realloc (size + 2) (b.addr + 4) n s.heap = some (q, h, reads) ∧
    (q ≠ 0 → (∃ after, Reallocated lo size n s blocks b q h after) ∧
      ∀ a ∈ reads, b.addr + 4 ≤ a ∧ a < b.addr + b.size) ∧
    (q = 0 → h = s.heap ∧ reads = [])

theorem Sound.moves (sound : Sound lo size s blocks) (aligned : lo % 4 = 0) (proper : 0 < lo) (fits : lo + size ≤ 2 ^ 31)
    (used : b ∈ liveBlocks blocks) (large : 4 ≤ b.size) (positive : 0 < n) (small : n ≤ 2 ^ 30) :
    Moves lo size s blocks b n ↔ n ≤ b.size - 4 ∨ ∀ f ∈ freeBlocks blocks, f.size < need n := by
  obtain ⟨all,failed⟩ | ⟨⟨c,free,room⟩,q,h,reads,after,done,some_,moved,read⟩ :=
    sound.realloc aligned proper (by omega) used positive (sound.comparable (by omega) (fair_small small s.heap) positive)
  · exact iff_of_true ⟨0,s.heap,[],failed,fun some_ => absurd rfl some_,fun _ => ⟨rfl,rfl⟩⟩ (.inr all)
  · constructor
    · rintro ⟨other,h',reads',made,result,_⟩
      cases done.symm.trans made
      have last := (result some_).2 (b.addr + 4 + (n - 1)) ((read _).mpr (by omega))
      exact .inl (by omega)
    · rintro (short | all)
      · refine ⟨q,h,reads,done,fun _ => ⟨⟨after,moved⟩,?_⟩,fun zero => absurd zero some_⟩
        intro a listed
        have within := (read a).mp listed
        omega
      · exact absurd (all c free) (by omega)

/-- In every run of fair calls, for every block in use. -/
theorem realloc_moves {calls : List Call} (aligned : lo % 4 = 0) (proper : 0 < lo) (whole : size % 4 = 0)
    (room : 8 ≤ size) (fits : lo + size ≤ 2 ^ 31) (mem : Nat → Nat)
    (fair : Meets (callStep (size + 2)) Call.fair calls ⟨heapInit lo size mem,[]⟩)
    (ran : run (callStep (size + 2)) calls ⟨heapInit lo size mem,[]⟩ = some s) :
    ∃ blocks, Layout lo size s.heap s.live blocks ∧ Apart blocks ∧
      ∀ p ∈ s.live, ∃ b ∈ liveBlocks blocks, b.addr + 4 = p ∧ ∀ n, 0 < n → n ≤ 2 ^ 30 →
        (Moves lo size s blocks b n ↔ n ≤ b.size - 4 ∨ ∀ f ∈ freeBlocks blocks, f.size < need n) := by
  obtain ⟨blocks,sound⟩ := calls_sound aligned proper whole fits mem fair ran
  refine ⟨blocks,sound.layout,sound.apart,?_⟩
  intro p member
  obtain ⟨b,used,place⟩ := List.mem_map.mp (sound.layout.used.mem_iff.mpr member)
  have large := sound.layout.row.room room (List.mem_filter.mp used).1
  exact ⟨b,used,place,fun n positive small => sound.moves aligned proper fits used (by omega) positive small⟩

def twoBlocks : List Call := [.event (.malloc 8),.event (.malloc 8)]

theorem twoBlocks_fair : Meets (callStep 258) Call.fair twoBlocks ⟨heapInit 4096 256 fun _ => 0,[]⟩ := by
  refine ⟨fair_small (by decide) _,?_⟩
  split
  · trivial
  · refine ⟨fair_small (by decide) _,?_⟩
    split <;> trivial

theorem realloc_moves_shrink : ∃ s blocks, run (callStep 258) twoBlocks ⟨heapInit 4096 256 fun _ => 0,[]⟩ = some s ∧
    Layout 4096 256 s.heap s.live blocks ∧ ∃ b ∈ liveBlocks blocks, b.addr + 4 = 4332 ∧ Moves 4096 256 s blocks b 4 := by
  obtain ⟨s,ran,live⟩ : ∃ s, run (callStep 258) twoBlocks ⟨heapInit 4096 256 fun _ => 0,[]⟩ = some s ∧
      s.live = [4332,4344] ∧ s.heap.mem 4328 = 12 := ⟨_,rfl,rfl,rfl⟩
  obtain ⟨blocks,layout,_,all⟩ := realloc_moves (by decide) (by decide) (by decide) (by decide) (by decide) (fun _ => 0)
    twoBlocks_fair ran
  obtain ⟨b,used,start,moves⟩ := all 4332 (by simp [live.1])
  have header := layout.row.header b (List.mem_filter.mp used).1
  rw [show b.addr = 4328 by omega,live.2] at header
  exact ⟨s,blocks,ran,layout,b,used,start,(moves 4 (by decide) (by decide)).mpr (.inl (by omega))⟩

/-- A block of 8 bytes grows to 16, and the other block in use is read with it. -/
theorem realloc_reads_on : ∃ s, run (callStep 258) twoBlocks ⟨heapInit 4096 256 fun _ => 0,[]⟩ = some s ∧
    4332 ∈ s.live ∧ 4344 ∈ s.live ∧ (∃ q h reads, realloc 258 4332 16 s.heap = some (q, h, reads) ∧ 4344 ∈ reads) ∧
    ∀ blocks b, Layout 4096 256 s.heap s.live blocks → b ∈ liveBlocks blocks → b.addr + 4 = 4332 →
      ¬Moves 4096 256 s blocks b 16 := by
  obtain ⟨s,ran,live,size,moved⟩ : ∃ s, run (callStep 258) twoBlocks ⟨heapInit 4096 256 fun _ => 0,[]⟩ = some s ∧
      s.live = [4332,4344] ∧ s.heap.mem 4328 = 12 ∧
      ((realloc 258 4332 16 s.heap).any fun r => decide (r.1 ≠ 0 ∧ 4344 ∈ r.2.2)) = true :=
    ⟨_,rfl,rfl,rfl,by decide +kernel⟩
  obtain ⟨⟨q,h,reads⟩,done,facts⟩ := (Option.any_eq_true _ _).mp moved
  obtain ⟨some_,listed⟩ := of_decide_eq_true facts
  refine ⟨s,ran,by simp [live],by simp [live],⟨q,h,reads,done,listed⟩,?_⟩
  rintro blocks b layout used start ⟨q',h',reads',made,result,_⟩
  have header := layout.row.header b (List.mem_filter.mp used).1
  rw [show b.addr = 4328 by omega,size] at header
  rw [start,done] at made
  cases made
  have within := (result some_).2 4344 listed
  omega

end Realloc

end Buenos.Userland
