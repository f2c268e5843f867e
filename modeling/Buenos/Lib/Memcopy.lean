import Buenos.Lib.Libc

/-! `memcopy` in one memory, where its ranges may overlap. A pointer is a number modulo
`2 ^ 32`. The loops go forward, and the distance of two aligned addresses is a multiple of
four, so no word is read in part before and in part after it was written. -/
namespace Buenos.Lib.Memory

open Buenos.Foundation

def address (p : Nat) : Nat := p % 2 ^ 32

/-- `t[i] = s[i]` for the next `left` values of `i`. -/
def copyBytes (t s : Nat) : Nat → Nat → Bytes → Bytes
  | 0, _, memory => memory
  | left + 1, i, memory =>
    copyBytes t s left (i + 1) (Function.update memory (address (t + i)) (memory (address (s + i))))

/-- `*tgt = *src; tgt++; src++;`, `left` times. -/
def copyWords : Nat → Nat → Nat → Bytes → Bytes
  | 0, _, _, memory => memory
  | left + 1, tgt, src, memory =>
    copyWords left (tgt + 4) (src + 4) (setWord memory (address tgt / 4) (word memory (address src / 4)))

def memcopy (buflen : Int) (target source : Nat) (memory : Bytes) : Bytes :=
  if target % 4 ≠ 0 ∨ source % 4 ≠ 0 then copyBytes target source buflen.toNat 0 memory
  else
    let words := (buflen.tdiv 4).toNat
    copyBytes (target + 4 * words) (source + 4 * words) (buflen.tmod 4).toNat 0 (copyWords words target source memory)

/-! ### Words and bytes -/

theorem copyBytes_add (t s m n i : Nat) (memory : Bytes) :
    copyBytes t s (m + n) i memory = copyBytes t s n (i + m) (copyBytes t s m i memory) := by
  induction m generalizing i memory with
  | zero => rw [Nat.zero_add,Nat.add_zero,copyBytes]
  | succ m ih => rw [Nat.add_right_comm m 1 n,copyBytes,copyBytes,ih,Nat.add_assoc i 1 m,Nat.add_comm 1 m]

theorem copyBytes_shift (t s k left i : Nat) (memory : Bytes) :
    copyBytes (t + k) (s + k) left i memory = copyBytes t s left (k + i) memory := by
  induction left generalizing i memory with
  | zero => rfl
  | succ left ih => rw [copyBytes,copyBytes,ih,Nat.add_assoc t,Nat.add_assoc s,Nat.add_assoc k]

/-- One word between aligned addresses is four bytes, also where the two words are the same. -/
theorem word_bytes (t s : Nat) (target : t % 4 = 0) (source : s % 4 = 0) (memory : Bytes) :
    setWord memory (address t / 4) (word memory (address s / 4)) = copyBytes t s 4 0 memory := by
  funext j
  have places : ∀ p, p % 4 = 0 → address p % 4 = 0 ∧ ∀ i < 4, address (p + i) = address p + i := by
    intro p aligned
    unfold address
    constructor
    · omega
    · intro i small
      omega
  obtain ⟨there,tgt⟩ := places t target
  obtain ⟨here,src⟩ := places s source
  rw [setWord_word]
  simp only [copyBytes,Nat.add_zero,Nat.zero_add,Nat.reduceAdd,tgt 1 (by decide),tgt 2 (by decide),tgt 3 (by decide),
    src 1 (by decide),src 2 (by decide),src 3 (by decide)]
  generalize address t = p at there
  generalize address s = q at here
  -- the bytes written so far are none of those still to be read
  have unread : q + 1 ≠ p ∧ q + 2 ≠ p ∧ q + 2 ≠ p + 1 ∧ q + 3 ≠ p ∧ q + 3 ≠ p + 1 ∧ q + 3 ≠ p + 2 := by omega
  obtain ⟨second,third,third',last,last',last''⟩ := unread
  simp only [Function.update_apply,if_neg second,if_neg third,if_neg third',if_neg last,if_neg last',if_neg last'']
  by_cases inside : j / 4 = p / 4
  · have cases : j = p ∨ j = p + 1 ∨ j = p + 2 ∨ j = p + 3 := by omega
    have aligned : 4 * (q / 4) = q := by omega
    rw [if_pos inside,aligned]
    rcases cases with rfl | rfl | rfl | rfl
    · simp [there]
    all_goals
      simp [Nat.add_mod,there]
  · rw [if_neg inside,if_neg (by omega),if_neg (by omega),if_neg (by omega),if_neg (by omega)]

/-- The loop over the words is the loop over their bytes. -/
theorem copyWords_eq (n t s : Nat) (target : t % 4 = 0) (source : s % 4 = 0) (memory : Bytes) :
    copyWords n t s memory = copyBytes t s (4 * n) 0 memory := by
  induction n generalizing t s memory with
  | zero => rfl
  | succ n ih =>
    rw [copyWords,ih _ _ (by omega) (by omega),word_bytes t s target source,copyBytes_shift,
      show 4 * (n + 1) = 4 + 4 * n by omega,copyBytes_add]

theorem copyBytes_other (t s left i : Nat) (memory : Bytes) (outside : ∀ k, i ≤ k → k < i + left → j ≠ address (t + k)) :
    copyBytes t s left i memory j = memory j := by
  induction left generalizing i memory with
  | zero => rfl
  | succ left ih =>
    rw [copyBytes,ih _ _ fun k low high => outside k (by omega) (by omega)]
    exact Function.update_of_ne (outside i (by omega) (by omega)) _ _

theorem words_and_tail (buflen : Int) (positive : 0 ≤ buflen) :
    4 * (buflen.tdiv 4).toNat + (buflen.tmod 4).toNat = buflen.toNat := by
  obtain ⟨n,rfl⟩ := Int.eq_ofNat_of_zero_le positive
  rw [show (n : Int).tdiv 4 = ((n / 4 : Nat) : Int) from rfl,show (n : Int).tmod 4 = ((n % 4 : Nat) : Int) from rfl]
  simp only [Int.toNat_natCast]
  omega

/-- The copy is the loop over the bytes, whatever the alignment. -/
theorem memcopy_bytes (buflen : Int) (positive : 0 ≤ buflen) (target source : Nat) (memory : Bytes) :
    memcopy buflen target source memory = copyBytes target source buflen.toNat 0 memory := by
  rw [memcopy]
  split
  · rfl
  · next aligned =>
    dsimp only
    have lengths := words_and_tail buflen positive
    generalize (buflen.tdiv 4).toNat = words at lengths ⊢
    rw [copyWords_eq words target source (by omega) (by omega),copyBytes_shift,← lengths,copyBytes_add]
    simp

/-- The copy is the plain loop over the bytes also where the two ranges overlap, and nothing
outside the target changes. -/
theorem memcopy_eq_loop (buflen : Int) (positive : 0 ≤ buflen) (target source : Nat)
    (inside : target + buflen ≤ 2 ^ 32) (inside' : source + buflen ≤ 2 ^ 32) (memory : Bytes) :
    memcopy buflen target source memory = copyBytes target source buflen.toNat 0 memory ∧
    ∀ j : Nat, j < target ∨ target + buflen ≤ j → memcopy buflen target source memory j = memory j := by
  have same := memcopy_bytes buflen positive target source memory
  refine ⟨same,fun j outside => ?_⟩
  rw [same]
  apply copyBytes_other
  intro k low high
  unfold address
  omega

/-- Five bytes to the next word: the first of them is copied twice. -/
theorem memcopy_eq_loop_overlap : memcopy 5 4 0 (fun j => UInt8.ofNat j) = copyBytes 4 0 5 0 (fun j => UInt8.ofNat j) ∧
    ∀ j : Nat, j < 4 ∨ (4 : Nat) + (5 : Int) ≤ j → memcopy 5 4 0 (fun j => UInt8.ofNat j) j = UInt8.ofNat j :=
  memcopy_eq_loop 5 (by decide) 4 0 (by decide) (by decide) fun j => UInt8.ofNat j

/-- Forward, and with no byte read after it was written, the bytes are those of the source before. -/
theorem copyBytes_apart (apart : t ≤ s ∨ s + n ≤ t) (inside : t + n ≤ 2 ^ 32) (inside' : s + n ≤ 2 ^ 32)
    (memory : Bytes) (j : Nat) :
    copyBytes t s n 0 memory j = if t ≤ j ∧ j < t + n then memory (s + (j - t)) else memory j := by
  induction n generalizing j with
  | zero =>
    rw [if_neg (by omega)]
    rfl
  | succ n ih =>
    have before := ih (by omega) (by omega) (by omega)
    have tgt : address (t + n) = t + n := Nat.mod_eq_of_lt (by omega)
    have src : address (s + n) = s + n := Nat.mod_eq_of_lt (by omega)
    have unwritten : copyBytes t s n 0 memory (s + n) = memory (s + n) := by
      rw [before,if_neg (by omega)]
    rw [copyBytes_add]
    simp only [copyBytes,Nat.zero_add]
    rw [tgt,src,unwritten,Function.update_apply,before]
    by_cases last : j = t + n
    · rw [if_pos last,if_pos (by omega),last]
      congr 1
      omega
    · rw [if_neg last]
      by_cases earlier : t ≤ j ∧ j < t + n
      · rw [if_pos earlier,if_pos (by omega)]
      · rw [if_neg earlier,if_neg (by omega)]

/-- Between two objects, and to lower addresses, the copy is that of `lib/libc.c` on separate
buffers. -/
theorem memcopy_objects (buflen : Int) (positive : 0 ≤ buflen) (target source : Nat)
    (apart : target ≤ source ∨ source + buflen ≤ target)
    (inside : target + buflen ≤ 2 ^ 32) (inside' : source + buflen ≤ 2 ^ 32) (memory : Bytes) :
    memcopy buflen target source memory = Lib.memcopy buflen memory target memory source := by
  funext j
  rw [memcopy_bytes buflen positive,copyBytes_apart (by omega) (by omega) (by omega),memcopy_byte]

end Buenos.Lib.Memory
