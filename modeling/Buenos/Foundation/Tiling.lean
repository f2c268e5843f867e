import Mathlib.Data.List.Basic

/-! Blocks that lie one after the other and fill an interval. -/
namespace Buenos.Foundation

structure Block where
  addr : Nat
  size : Nat
  live : Bool
  deriving DecidableEq

/-- The blocks fill the addresses from `start` up to `stop`, in order. -/
def Tiles : Nat → Nat → List Block → Prop
  | start, stop, [] => start = stop
  | start, stop, b :: rest => b.addr = start ∧ Tiles (start + b.size) stop rest

variable {start stop : Nat} {b c : Block} {bs front back : List Block}

theorem tiles_append : Tiles start stop (front ++ back) ↔ ∃ middle, Tiles start middle front ∧ Tiles middle stop back := by
  induction front generalizing start with
  | nil =>
    constructor
    · intro tiles
      exact ⟨start,rfl,tiles⟩
    · rintro ⟨_,rfl,tiles⟩
      exact tiles
  | cons b rest ih =>
    constructor
    · rintro ⟨here,later⟩
      obtain ⟨middle,first,second⟩ := ih.mp later
      exact ⟨middle,⟨here,first⟩,second⟩
    · rintro ⟨middle,⟨here,first⟩,second⟩
      exact ⟨here,ih.mpr ⟨middle,first,second⟩⟩

/-- Before and behind one of the blocks. -/
theorem tiles_split : Tiles start stop (front ++ b :: back) ↔
    Tiles start b.addr front ∧ Tiles (b.addr + b.size) stop back := by
  rw [tiles_append]
  constructor
  · rintro ⟨_,first,rfl,second⟩
    exact ⟨first,second⟩
  · rintro ⟨first,second⟩
    exact ⟨b.addr,first,rfl,second⟩

theorem Tiles.le (tiles : Tiles start stop bs) : start ≤ stop := by
  induction bs generalizing start with
  | nil => exact Nat.le_of_eq tiles
  | cons b rest ih => exact Nat.le_trans (Nat.le_add_right _ _) (ih tiles.2)

theorem Tiles.inside (tiles : Tiles start stop bs) (member : b ∈ bs) : start ≤ b.addr ∧ b.addr + b.size ≤ stop := by
  obtain ⟨front,back,rfl⟩ := List.append_of_mem member
  obtain ⟨first,second⟩ := tiles_split.mp tiles
  exact ⟨first.le,second.le⟩

end Buenos.Foundation
