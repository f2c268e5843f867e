import Mathlib.Data.List.Count
import Mathlib.Data.List.Nodup

/-! How the number of items that satisfy a predicate changes with the predicate. -/
namespace Buenos.Foundation

theorem countP_add_one {α : Type} {l : List α} {before after : α → Bool} {x : α} (nodup : l.Nodup)
    (member : x ∈ l) (out : before x = false) (now : after x = true)
    (others : ∀ y ∈ l, y ≠ x → after y = before y) : l.countP after = l.countP before + 1 := by
  induction l with
  | nil => simp at member
  | cons y rest ih =>
    obtain ⟨fresh,nodup⟩ := List.nodup_cons.mp nodup
    by_cases same : y = x
    · subst same
      have tail : rest.countP after = rest.countP before := by
        refine List.countP_congr fun z inside => ?_
        rw [others z (List.mem_cons_of_mem y inside) (by rintro rfl; exact fresh inside)]
      simp [out,now,tail]
    · have inside : x ∈ rest := by simpa [Ne.symm same] using member
      have tail := ih nodup inside fun z there => others z (List.mem_cons_of_mem y there)
      rw [List.countP_cons,List.countP_cons,others y List.mem_cons_self same,tail]
      omega

theorem countP_drop {α : Type} [DecidableEq α] {l items : List α} {before after : α → Bool}
    (nodup : l.Nodup) (distinct : items.Nodup) (inside : ∀ x ∈ items, x ∈ l ∧ before x = true)
    (others : ∀ y ∈ l, after y = (before y && !decide (y ∈ items))) :
    l.countP after + items.length = l.countP before := by
  induction items generalizing after with
  | nil =>
    have same : l.countP after = l.countP before := List.countP_congr fun y there => by
      rw [others y there]; simp
    simpa using same
  | cons x rest ih =>
    obtain ⟨fresh,distinct⟩ := List.nodup_cons.mp distinct
    obtain ⟨member,held⟩ := inside x List.mem_cons_self
    let between : α → Bool := fun y => before y && !decide (y ∈ rest)
    have step : l.countP between + rest.length = l.countP before :=
      ih distinct (fun y there => inside y (List.mem_cons_of_mem x there)) fun _ _ => rfl
    have one : l.countP between = l.countP after + 1 := by
      refine countP_add_one nodup member (by rw [others x member]; simp) (by simp [between,held,fresh]) ?_
      intro y there apart
      rw [others y there]
      simp [between,apart]
    simp only [List.length_cons]
    omega

theorem countP_le_add {α : Type} [DecidableEq α] {l lost : List α} {before after : α → Bool} (nodup : l.Nodup)
    (kept : ∀ x ∈ l, before x = true → after x = true ∨ x ∈ lost) :
    l.countP before ≤ l.countP after + lost.length := by
  induction l generalizing lost with
  | nil => simp
  | cons x rest ih =>
    obtain ⟨fresh,nodup⟩ := List.nodup_cons.mp nodup
    rw [List.countP_cons,List.countP_cons]
    by_cases stays : before x = true → after x = true
    · have tail := ih nodup fun y inside => kept y (List.mem_cons_of_mem x inside)
      by_cases held : before x = true
      · rw [if_pos held,if_pos (stays held)]
        omega
      · rw [if_neg held]
        omega
    · obtain ⟨held,gone⟩ := Classical.not_imp.mp stays
      have member : x ∈ lost := (kept x List.mem_cons_self held).resolve_left gone
      have others : ∀ y ∈ rest, before y = true → after y = true ∨ y ∈ lost.erase x := by
        intro y inside holds
        have apart : y ≠ x := by rintro rfl; exact fresh inside
        exact (kept y (List.mem_cons_of_mem x inside) holds).imp_right (List.mem_erase_of_ne apart).mpr
      have tail := ih nodup others
      have shorter := List.length_erase_of_mem member
      have positive := List.length_pos_of_mem member
      rw [if_pos held,if_neg gone]
      omega

end Buenos.Foundation
