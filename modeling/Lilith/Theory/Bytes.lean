import Mathlib.Tactic

/-! Byte strings as lists: slices, padding with zeros, overwriting a part, and little-endian
numbers. -/
namespace Lilith.Bytes

variable {l pre src : List UInt8} {a n off m : ℕ}

def zeros (n : ℕ) : List UInt8 := List.replicate n 0

/-- The `n` bytes from position `a` on. -/
def slice (l : List UInt8) (a n : ℕ) : List UInt8 := (l.drop a).take n

/-- The bytes of `src` written over those of `l` from position `off` on. -/
def splice (l : List UInt8) (off : ℕ) (src : List UInt8) : List UInt8 :=
  l.take off ++ src ++ l.drop (off + src.length)

/-- Zeros up to a length of `n`. -/
def pad (n : ℕ) (l : List UInt8) : List UInt8 := l ++ zeros (n - l.length)

@[simp] lemma length_zeros (n : ℕ) : (zeros n).length = n := List.length_replicate

lemma zeros_add (a b : ℕ) : zeros (a + b) = zeros a ++ zeros b := List.replicate_add a b 0

lemma length_pad (h : l.length ≤ n) : (pad n l).length = n := by
  simp only [pad, List.length_append, length_zeros]
  omega

lemma pad_eq_self (h : n ≤ l.length) : pad n l = l := by
  rw [pad, Nat.sub_eq_zero_of_le h]
  exact List.append_nil l

/-- Zeros that are written over zeros. -/
lemma pad_pad (h1 : l.length ≤ n) (h2 : n ≤ m) : pad m (pad n l) = pad m l := by
  rw [pad, length_pad h1, pad, pad, List.append_assoc, ← zeros_add]
  congr 2
  omega

lemma pad_append (h : l.length ≤ n) : pad (pre.length + n) (pre ++ l) = pre ++ pad n l := by
  rw [pad, pad, List.append_assoc, List.length_append]
  congr 3
  omega

/-- Writing behind all that was written before. -/
lemma splice_pad (h1 : pre.length ≤ off) (h2 : off + src.length ≤ m) :
    splice (pad m pre) off src = pad m (pad off pre ++ src) := by
  have htake : (pad m pre).take off = pad off pre := by
    rw [pad, List.take_append, List.take_of_length_le h1, zeros, List.take_replicate, pad, zeros]
    congr 2
    omega
  have hdrop : (pad m pre).drop (off + src.length) = zeros (m - (pad off pre ++ src).length) := by
    rw [pad, List.drop_append, List.drop_of_length_le (by omega), zeros, List.drop_replicate, List.nil_append,
      List.length_append, length_pad h1, zeros]
    congr 1
    omega
  rw [splice, htake, hdrop, ← pad]

lemma slice_append_right (h : pre.length ≤ a) : slice (pre ++ l) a n = slice l (a - pre.length) n := by
  rw [slice, slice, List.drop_append, List.drop_of_length_le h, List.nil_append]

lemma slice_append_left (h : a + n ≤ l.length) (l' : List UInt8) : slice (l ++ l') a n = slice l a n := by
  rw [slice, slice, List.drop_append_of_le_length (by omega), List.take_append_of_le_length]
  rw [List.length_drop]
  omega

lemma slice_self (l l' : List UInt8) : slice (l ++ l') 0 l.length = l := by
  rw [slice, List.drop_zero, List.take_left]

/-- The `w` bytes of a number, the least significant first. -/
def toLeBytes (w x : ℕ) : List UInt8 := (List.range w).map fun i => UInt8.ofNat (x / 256 ^ i)

def fromLeBytes (l : List UInt8) : ℕ := l.foldr (fun b x => b.toNat + 256 * x) 0

@[simp] lemma length_toLeBytes (w x : ℕ) : (toLeBytes w x).length = w := by simp [toLeBytes]

lemma toLeBytes_succ (w x : ℕ) : toLeBytes (w + 1) x = UInt8.ofNat x :: toLeBytes w (x / 256) := by
  simp only [toLeBytes, List.range_succ_eq_map, List.map_cons, List.map_map, pow_zero, Nat.div_one]
  congr 1
  apply List.map_congr_left
  intro i _
  simp only [Function.comp, Nat.succ_eq_add_one, pow_succ', Nat.div_div_eq_div_mul]

lemma fromLeBytes_toLeBytes (w x : ℕ) (h : x < 256 ^ w) : fromLeBytes (toLeBytes w x) = x := by
  induction w generalizing x with
  | zero =>
    obtain rfl : x = 0 := by simpa using h
    rfl
  | succ w ih =>
    have hdiv : x / 256 < 256 ^ w := Nat.div_lt_of_lt_mul (by rwa [pow_succ'] at h)
    have hb : (UInt8.ofNat x).toNat = x % 256 := UInt8.toNat_ofNat'
    rw [toLeBytes_succ]
    change (UInt8.ofNat x).toNat + 256 * fromLeBytes (toLeBytes w (x / 256)) = x
    rw [ih _ hdiv, hb]
    exact Nat.mod_add_div x 256

/-- The bytes of records of one size. -/
lemma slice_flatten {blocks : List (List UInt8)} {size : ℕ} (h : ∀ b ∈ blocks, b.length = size) {i : ℕ}
    {b : List UInt8} (hi : blocks[i]? = some b) : slice blocks.flatten (size * i) size = b := by
  induction blocks generalizing i with
  | nil => simp at hi
  | cons c cs ih =>
    have hc := h c (by simp)
    cases i with
    | zero =>
      obtain rfl : c = b := by simpa using hi
      rw [List.flatten_cons, Nat.mul_zero, ← hc]
      exact slice_self c _
    | succ i =>
      rw [List.flatten_cons, slice_append_right (by rw [hc, Nat.mul_succ]; omega), hc, Nat.mul_succ,
        Nat.add_sub_cancel]
      exact ih (fun d hd => h d (by simp [hd])) (by simpa using hi)

end Lilith.Bytes
