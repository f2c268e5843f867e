import Mathlib.Data.List.Basic

/-! Ring buffers: `count` elements from `head` on in an array of `size` places. -/
namespace Buenos.Foundation

variable {α : Type} {size head count : Nat}

/-- The elements in the order in which they were put in. -/
def ring (size : Nat) (buf : Nat → α) (head count : Nat) : List α :=
  (List.range count).map fun k => buf ((head + k) % size)

@[simp] theorem ring_empty (buf : Nat → α) : ring size buf head 0 = [] := rfl

theorem ring_place_ne (k l : Nat) (less : k < l) (fits : l < size) : (head + k) % size ≠ (head + l) % size := by
  intro same
  have whole := Nat.sub_mod_eq_zero_of_mod_eq same.symm
  rw [Nat.add_sub_add_left,Nat.mod_eq_of_lt (by omega)] at whole
  omega

theorem ring_push (buf : Nat → α) (x : α) (room : count < size) :
    ring size (Function.update buf ((head + count) % size) x) head (count + 1) = ring size buf head count ++ [x] := by
  unfold ring
  rw [List.range_succ,List.map_append]
  congr 1
  · apply List.map_congr_left
    intro k member
    apply Function.update_of_ne
    exact ring_place_ne k count (List.mem_range.mp member) room
  · simp

theorem ring_pop (buf : Nat → α) (low : head < size) :
    ring size buf head (count + 1) = buf head :: ring size buf ((head + 1) % size) count := by
  unfold ring
  rw [List.range_succ_eq_map,List.map_cons,List.map_map,Nat.add_zero,Nat.mod_eq_of_lt low]
  congr 1
  apply List.map_congr_left
  intro k _
  show buf ((head + (k + 1)) % size) = buf (((head + 1) % size + k) % size)
  rw [Nat.mod_add_mod,Nat.add_assoc,Nat.add_comm 1 k]

end Buenos.Foundation
