import Mathlib.Data.List.Nodup
import Mathlib.Logic.Function.Basic

/-! Who holds which resource. A resource is in `used` or free, and every holder has a list
of the ones it took and has not given back. -/
namespace Buenos.Foundation

variable {R : Type} {used : R → Bool} {held : Nat → List R}

/-- Held resources are in use and have one holder. -/
structure Ledger (used : R → Bool) (held : Nat → List R) : Prop where
  inUse : ∀ p, ∀ r ∈ held p, used r = true
  once : ∀ p, (held p).Nodup
  apart : ∀ p q, p ≠ q → ∀ r ∈ held p, r ∉ held q

theorem Ledger.free_unheld (ledger : Ledger used held) (free : used r = false) (p : Nat) : r ∉ held p := by
  intro member
  rw [ledger.inUse p r member] at free
  contradiction

theorem Ledger.perm (ledger : Ledger used held) (same : ∀ p, (held' p).Perm (held p)) : Ledger used held' := by
  refine ⟨?_,?_,?_⟩
  · intro p r member
    exact ledger.inUse p r ((same p).mem_iff.mp member)
  · intro p
    exact (same p).nodup_iff.mpr (ledger.once p)
  · intro p q different r member other
    exact ledger.apart p q different r ((same p).mem_iff.mp member) ((same q).mem_iff.mp other)

theorem Ledger.forget (ledger : Ledger used held) (p : Nat) (smaller : kept.Sublist (held p)) :
    Ledger used (Function.update held p kept) := by
  have subset : ∀ q, (Function.update held p kept q).Sublist (held q) := by
    intro q
    by_cases mine : q = p
    · subst mine; simpa using smaller
    · simp [Function.update_of_ne mine]
  refine ⟨?_,?_,?_⟩
  · intro q r member
    exact ledger.inUse q r ((subset q).subset member)
  · intro q
    exact (ledger.once q).sublist (subset q)
  · intro q u different r member other
    exact ledger.apart q u different r ((subset q).subset member) ((subset u).subset other)

theorem Ledger.giveAll {used' : R → Bool} {held' : Nat → List R} (ledger : Ledger used held)
    (after : ∀ r, r ∉ held p → used' r = used r) (mine : held' p = [])
    (others : ∀ q, q ≠ p → held' q = held q) : Ledger used' held' := by
  refine ⟨?_,?_,?_⟩
  · intro q r member
    by_cases same : q = p
    · subst same; simp [mine] at member
    · rw [others q same] at member
      rw [after r (ledger.apart q p same r member)]
      exact ledger.inUse q r member
  · intro q
    by_cases same : q = p
    · subst same; simp [mine]
    · rw [others q same]; exact ledger.once q
  · intro q u different r member
    by_cases same : q = p
    · subst same; simp [mine] at member
    · by_cases theirs : u = p
      · subst theirs; simp [mine]
      · rw [others q same] at member
        rw [others u theirs]
        exact ledger.apart q u different r member

variable [DecidableEq R]

theorem Ledger.take (ledger : Ledger used held) (free : used r = false) (p : Nat) :
    Ledger (Function.update used r true) (Function.update held p (r :: held p)) := by
  have unheld := ledger.free_unheld free
  refine ⟨?_,?_,?_⟩
  · intro q other member
    by_cases same : other = r
    · subst same; simp
    · rw [Function.update_of_ne same]
      by_cases mine : q = p
      · subst mine
        simp only [Function.update_self,List.mem_cons,same,false_or] at member
        exact ledger.inUse q other member
      · rw [Function.update_of_ne mine] at member
        exact ledger.inUse q other member
  · intro q
    by_cases mine : q = p
    · subst mine
      simpa using ⟨unheld q,ledger.once q⟩
    · simpa [Function.update_of_ne mine] using ledger.once q
  · intro q u different other member
    by_cases mine : q = p
    · subst mine
      rw [Function.update_of_ne different.symm]
      simp only [Function.update_self,List.mem_cons] at member
      obtain rfl | member := member
      · exact unheld u
      · exact ledger.apart q u different other member
    · rw [Function.update_of_ne mine] at member
      by_cases theirs : u = p
      · subst theirs
        simp only [Function.update_self,List.mem_cons,not_or]
        exact ⟨fun same => unheld q (same ▸ member),ledger.apart q u different other member⟩
      · rw [Function.update_of_ne theirs]
        exact ledger.apart q u different other member

theorem Ledger.give (ledger : Ledger used held) (member : r ∈ held p) (smaller : kept.Sublist (held p))
    (gone : r ∉ kept) : Ledger (Function.update used r false) (Function.update held p kept) := by
  have forgotten := ledger.forget p smaller
  refine ⟨?_,forgotten.once,forgotten.apart⟩
  intro q other inside
  have different : other ≠ r := by
    rintro rfl
    by_cases mine : q = p
    · subst mine; rw [Function.update_self] at inside; exact gone inside
    · rw [Function.update_of_ne mine] at inside
      exact ledger.apart q p mine other inside member
  rw [Function.update_of_ne different]
  exact forgotten.inUse q other inside

theorem Ledger.takeAll {used' : R → Bool} {held' : Nat → List R} {rs : List R} (ledger : Ledger used held)
    (empty : held p = []) (free : ∀ r ∈ rs, used r = false) (nodup : rs.Nodup)
    (after : ∀ r, used' r = (used r || decide (r ∈ rs))) (mine : held' p = rs)
    (others : ∀ q, q ≠ p → held' q = held q) : Ledger used' held' := by
  have apart : ∀ q, q ≠ p → ∀ r ∈ rs, r ∉ held' q := by
    intro q other r member
    rw [others q other]
    exact ledger.free_unheld (free r member) q
  refine ⟨?_,?_,?_⟩
  · intro q r member
    rw [after r]
    by_cases same : q = p
    · subst same; rw [mine] at member; simp [member]
    · rw [others q same] at member; simp [ledger.inUse q r member]
  · intro q
    by_cases same : q = p
    · subst same; rwa [mine]
    · rw [others q same]; exact ledger.once q
  · intro q u different r member
    by_cases same : q = p
    · subst same
      rw [mine] at member
      exact apart u different.symm r member
    · by_cases theirs : u = p
      · subst theirs
        rw [mine]
        intro taken
        exact apart q same r taken member
      · rw [others q same] at member
        rw [others u theirs]
        exact ledger.apart q u different r member

end Buenos.Foundation
