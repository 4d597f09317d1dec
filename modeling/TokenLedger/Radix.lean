/-!
# Fixed-width digits

A natural number written with a fixed count of digits in a base, least
digit first. Bytes of words, keys and checksum symbols are all such digits,
so the two directions and their laws are stated once here.
-/

set_option autoImplicit false

namespace TokenLedger.Radix

def digits (base : Nat) : Nat → Nat → List Nat
  | 0, _ => []
  | width + 1, n => n % base :: digits base width (n / base)

/-- How many numbers have no more than `width` digits. -/
def capacity (base : Nat) : Nat → Nat
  | 0 => 1
  | width + 1 => base * capacity base width

def value (base : Nat) : List Nat → Nat
  | [] => 0
  | d :: ds => d + base * value base ds

@[simp] theorem length_digits (base width n : Nat) : (digits base width n).length = width := by
  induction width generalizing n with
  | zero => rfl
  | succ w ih => simp [digits, ih]

theorem lt_of_mem_digits {base width n d : Nat} (hb : 0 < base)
    (h : d ∈ digits base width n) : d < base := by
  induction width generalizing n with
  | zero => simp [digits] at h
  | succ w ih =>
    rcases List.mem_cons.1 h with h | h
    · exact h ▸ Nat.mod_lt _ hb
    · exact ih h

theorem value_digits (base width n : Nat) :
    value base (digits base width n) = n % capacity base width := by
  induction width generalizing n with
  | zero => simp [digits, value, capacity, Nat.mod_one]
  | succ w ih => rw [digits, value, ih, capacity, Nat.mod_mul]

theorem value_lt {base : Nat} {ds : List Nat} (h : ∀ d ∈ ds, d < base) :
    value base ds < capacity base ds.length := by
  induction ds with
  | nil => simp [value, capacity]
  | cons d ds ih =>
    have hd := h d (by simp)
    have hs := ih fun x hx => h x (by simp [hx])
    have : base * value base ds + base ≤ base * capacity base ds.length := by
      rw [← Nat.mul_succ]; exact Nat.mul_le_mul_left _ hs
    simp only [value, List.length_cons, capacity]
    omega

theorem digits_value {base : Nat} {ds : List Nat} (h : ∀ d ∈ ds, d < base) :
    digits base ds.length (value base ds) = ds := by
  induction ds with
  | nil => rfl
  | cons d ds ih =>
    have hd := h d (by simp)
    have hs := ih fun x hx => h x (by simp [hx])
    have hb : 0 < base := by omega
    simp only [List.length_cons, value, digits, Nat.add_mul_mod_self_left, Nat.mod_eq_of_lt hd,
      Nat.add_mul_div_left _ _ hb, Nat.div_eq_of_lt hd, Nat.zero_add, hs]

end TokenLedger.Radix
