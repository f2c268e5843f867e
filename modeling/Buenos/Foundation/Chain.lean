import Mathlib.Data.List.Nodup
import Mathlib.Logic.Function.Basic

/-! Linked lists through arrays of links: `next` sends an index to its successor and `nil`
ends a list. Nothing here names a particular table. -/
namespace Buenos.Foundation

variable {ι : Type} {next next' prev prev' : ι → ι} {nil first x p : ι} {items pre post : List ι}

/-- Following `next` from `first` visits `items` in order and ends at `nil`. -/
def Chain (next : ι → ι) (nil : ι) : ι → List ι → Prop
  | first, [] => first = nil
  | first, x :: rest => first = x ∧ x ≠ nil ∧ Chain next nil (next x) rest

theorem Chain.congr (chain : Chain next nil first items) (same : ∀ x ∈ items, next' x = next x) :
    Chain next' nil first items := by
  induction items generalizing first with
  | nil => exact chain
  | cons x rest ih =>
    obtain ⟨here,proper,later⟩ := chain
    refine ⟨here,proper,?_⟩
    rw [same x List.mem_cons_self]
    exact ih later fun y member => same y (List.mem_cons_of_mem x member)

theorem Chain.unique {others : List ι} (chain : Chain next nil first items)
    (other : Chain next nil first others) : items = others := by
  induction items generalizing first others with
  | nil =>
    cases others with
    | nil => rfl
    | cons y rest => exact absurd (other.1.symm.trans chain) other.2.1
  | cons x rest ih =>
    cases others with
    | nil => exact absurd (chain.1.symm.trans other) chain.2.1
    | cons y more =>
      obtain rfl : x = y := chain.1.symm.trans other.1
      rw [ih chain.2.2 other.2.2]

theorem Chain.suffix (chain : Chain next nil first (pre ++ x :: post)) : Chain next nil x (x :: post) := by
  induction pre generalizing first with
  | nil => exact ⟨rfl,chain.2⟩
  | cons y rest ih => exact ih chain.2.2

theorem Chain.first_eq (chain : Chain next nil first items) : first = items.headD nil := by
  cases items with
  | nil => exact chain
  | cons x rest => exact chain.1

theorem Chain.drop (chain : Chain next nil first (pre ++ post)) : Chain next nil (post.headD nil) post := by
  induction pre generalizing first with
  | nil => exact chain.first_eq ▸ chain
  | cons y rest ih => exact ih chain.2.2

theorem Chain.nodup (chain : Chain next nil first items) : items.Nodup := by
  induction items generalizing first with
  | nil => exact List.nodup_nil
  | cons x rest ih =>
    refine List.nodup_cons.mpr ⟨fun member => ?_,ih chain.2.2⟩
    -- the list from the second occurrence would be as long as the list from the first
    obtain ⟨between,after,rfl⟩ := List.append_of_mem member
    have whole : Chain next nil x (x :: (between ++ x :: after)) := ⟨rfl,chain.2⟩
    have split : Chain next nil x ((x :: between) ++ x :: after) := whole
    have part : Chain next nil x (x :: after) := split.suffix
    have lengths := congrArg List.length (whole.unique part)
    simp at lengths
    omega

theorem Chain.nil_not_mem (chain : Chain next nil first items) : nil ∉ items := by
  induction items generalizing first with
  | nil => simp
  | cons x rest ih => simpa [Ne.symm chain.2.1] using ih chain.2.2

variable [DecidableEq ι]

theorem Chain.push (chain : Chain next nil first items) (fresh : x ∉ items) (proper : x ≠ nil) :
    Chain (Function.update next x first) nil x (x :: items) := by
  refine ⟨rfl,proper,?_⟩
  rw [Function.update_self]
  refine chain.congr fun y member => ?_
  have apart : y ≠ x := by rintro rfl; exact fresh member
  simp [apart]

theorem Chain.snoc {last : ι} (chain : Chain next nil first (pre ++ [last])) (fresh : x ∉ pre ++ [last])
    (proper : x ≠ nil) :
    Chain (Function.update (Function.update next x nil) last x) nil first (pre ++ [last,x]) := by
  induction pre generalizing first with
  | nil =>
    have apart : x ≠ last := by simpa using fresh
    exact ⟨chain.1,chain.2.1,by simp,proper,by simp [apart,Chain]⟩
  | cons y rest ih =>
    have nodup := chain.nodup
    have other : y ≠ last := by rintro rfl; simp at nodup
    have apart : y ≠ x := by rintro rfl; simp at fresh
    refine ⟨chain.1,chain.2.1,?_⟩
    simpa [other,apart] using ih chain.2.2 fun member => fresh (List.mem_cons_of_mem y member)

theorem Chain.insert (chain : Chain next nil first (pre ++ p :: post)) (fresh : x ∉ pre ++ p :: post) (proper : x ≠ nil) :
    Chain (Function.update (Function.update next p x) x (next p)) nil first (pre ++ p :: x :: post) := by
  induction pre generalizing first with
  | nil =>
    obtain ⟨here,solid,later⟩ := chain
    have apart : p ≠ x := by rintro rfl; simp at fresh
    have nodup : (p :: post).Nodup := Chain.nodup (show Chain next nil p _ from ⟨rfl,solid,later⟩)
    refine ⟨here,solid,by simp [apart],proper,?_⟩
    rw [Function.update_self]
    apply later.congr
    intro y member
    have one : y ≠ x := by rintro rfl; simp [member] at fresh
    have two : y ≠ p := by rintro rfl; simp [member] at nodup
    simp [one,two]
  | cons y rest ih =>
    have nodup := chain.nodup
    have one : y ≠ x := by rintro rfl; simp at fresh
    have two : y ≠ p := by rintro rfl; simp at nodup
    refine ⟨chain.1,chain.2.1,?_⟩
    have behind := ih chain.2.2 fun member => fresh (List.mem_cons_of_mem y member)
    simpa [one,two] using behind

theorem Chain.remove (chain : Chain next nil first (pre ++ p :: x :: post)) :
    Chain (Function.update next p (next x)) nil first (pre ++ p :: post) := by
  induction pre generalizing first with
  | nil =>
    obtain ⟨here,proper,second,_,later⟩ := chain
    have nodup : (p :: x :: post).Nodup :=
      Chain.nodup (show Chain next nil p _ from ⟨rfl,proper,second,‹_›,later⟩)
    refine ⟨here,proper,?_⟩
    rw [Function.update_self]
    refine later.congr fun y member => ?_
    have apart : y ≠ p := by rintro rfl; simp [member] at nodup
    simp [apart]
  | cons y rest ih =>
    have nodup := chain.nodup
    have other : y ≠ p := by rintro rfl; simp at nodup
    refine ⟨chain.1,chain.2.1,?_⟩
    simpa [other] using ih chain.2.2

/-! ### Backward links -/

/-- `prev` leads from each item to the one before it and from the first to `before`. -/
def Back (prev : ι → ι) : ι → List ι → Prop
  | _, [] => True
  | before, x :: rest => prev x = before ∧ Back prev x rest

omit [DecidableEq ι] in
theorem Back.congr {before : ι} (back : Back prev before items) (same : ∀ x ∈ items, prev' x = prev x) :
    Back prev' before items := by
  induction items generalizing before with
  | nil => trivial
  | cons x rest ih =>
    refine ⟨(same x List.mem_cons_self).trans back.1,?_⟩
    exact ih back.2 fun y member => same y (List.mem_cons_of_mem x member)

omit [DecidableEq ι] in
theorem Back.at {before : ι} (back : Back prev before (pre ++ p :: x :: post)) : prev x = p := by
  induction pre generalizing before with
  | nil => exact back.2.1
  | cons y rest ih => exact ih back.2

theorem Back.remove {before : ι} (back : Back prev before (pre ++ p :: x :: post))
    (nodup : (pre ++ p :: x :: post).Nodup) (redirected : ∀ y ∈ pre ++ p :: post, prev' y =
      if some y = post.head? then p else prev y) : Back prev' before (pre ++ p :: post) := by
  induction pre generalizing before with
  | nil =>
    have here := redirected p (by simp)
    have apart : some p ≠ post.head? := by
      cases post with
      | nil => simp
      | cons y rest =>
        intro same
        obtain rfl : p = y := by simpa using same
        simp at nodup
    refine ⟨by rw [here,if_neg apart]; exact back.1,?_⟩
    cases post with
    | nil => trivial
    | cons y rest =>
      refine ⟨by simpa using redirected y (by simp),back.2.2.2.congr fun z member => ?_⟩
      have different : z ≠ y := by rintro rfl; simp [member] at nodup
      simpa [different] using redirected z (by simp [member])
  | cons y rest ih =>
    have here := redirected y (by simp)
    have apart : some y ≠ post.head? := by
      cases post with
      | nil => simp
      | cons z more =>
        intro same
        obtain rfl : y = z := by simpa using same
        simp at nodup
    refine ⟨by rw [here,if_neg apart]; exact back.1,?_⟩
    exact ih back.2 (List.nodup_cons.mp nodup).2 fun z member => redirected z (List.mem_cons_of_mem y member)

end Buenos.Foundation
