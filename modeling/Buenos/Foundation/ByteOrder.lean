import Buenos.Foundation.Bytes

/-! Words in the memory of a machine of either byte order. -/
namespace Buenos.Foundation

inductive ByteOrder where
  | big
  | little
  deriving DecidableEq

namespace ByteOrder

def load (o : ByteOrder) (b : Bytes) (i : Nat) : Nat :=
  match o with
  | big => word b i
  | little => (b (4 * i)).toNat + (b (4 * i + 1)).toNat * 2 ^ 8 + (b (4 * i + 2)).toNat * 2 ^ 16 +
      (b (4 * i + 3)).toNat * 2 ^ 24

def store (o : ByteOrder) (b : Bytes) (i value : Nat) : Bytes :=
  match o with
  | big => setWord b i value
  | little => fun j => if j / 4 = i then UInt8.ofNat (value / 2 ^ (8 * (j % 4))) else b j

def swap (x : Nat) : Nat :=
  x % 2 ^ 8 * 2 ^ 24 + x / 2 ^ 8 % 2 ^ 8 * 2 ^ 16 + x / 2 ^ 16 % 2 ^ 8 * 2 ^ 8 + x / 2 ^ 24 % 2 ^ 8

def htonl (o : ByteOrder) (x : Nat) : Nat :=
  match o with
  | big => x
  | little => swap x

def ntohl (o : ByteOrder) (x : Nat) : Nat := o.htonl x

@[simp] theorem ntohl_load (o : ByteOrder) (b : Bytes) (i : Nat) : o.ntohl (o.load b i) = word b i := by
  cases o with
  | big => rfl
  | little =>
    have first := (b (4 * i)).toNat_lt
    have second := (b (4 * i + 1)).toNat_lt
    have third := (b (4 * i + 2)).toNat_lt
    have last := (b (4 * i + 3)).toNat_lt
    simp only [ntohl,htonl,load,swap,word]
    omega

theorem swap_digit (x : Nat) (small : r < 4) : swap x / 2 ^ (8 * r) % 2 ^ 8 = x / 2 ^ (8 * (3 - r)) % 2 ^ 8 := by
  have digits : ∀ a b c d, a < 2 ^ 8 → b < 2 ^ 8 → c < 2 ^ 8 → d < 2 ^ 8 →
      (a * 2 ^ 24 + b * 2 ^ 16 + c * 2 ^ 8 + d) / 2 ^ (8 * r) % 2 ^ 8 = [d,c,b,a].getD r 0 := by
    intro a b c d _ _ _ _
    match r with
    | 0 => simp; omega
    | 1 => simp; omega
    | 2 => simp; omega
    | 3 => simp; omega
  have low : ∀ y, y % 2 ^ 8 < 2 ^ 8 := fun y => Nat.mod_lt y (by decide)
  rw [swap,digits _ _ _ _ (low _) (low _) (low _) (low _)]
  match r with
  | 0 => rfl
  | 1 => rfl
  | 2 => rfl
  | 3 => simp

@[simp] theorem store_htonl (o : ByteOrder) (b : Bytes) (i value : Nat) :
    o.store b i (o.htonl value) = setWord b i value := by
  cases o with
  | big => rfl
  | little =>
    funext j
    by_cases inside : j / 4 = i
    · simp only [store,htonl,setWord,if_pos inside]
      apply UInt8.toNat_inj.mp
      rw [UInt8.toNat_ofNat',UInt8.toNat_ofNat']
      exact swap_digit value (Nat.mod_lt j (by decide))
    · simp only [store,setWord,if_neg inside]

theorem load_eq_zero (o : ByteOrder) (b : Bytes) (i : Nat) : o.load b i = 0 ↔ word b i = 0 := by
  cases o with
  | big => rfl
  | little =>
    simp only [load,word]
    omega

end ByteOrder

end Buenos.Foundation
