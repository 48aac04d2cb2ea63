import TensorFlowCore.Support.Bytes

/-!
# Values laid out in memory

A `Layout` of a type writes each of its values as a fixed number of bytes, from which the value can
be read back. Values that follow one another are written by `writeAll`, and `readAll` takes whatever
bytes there are for a list of values: this is what casting a pointer to another element type does.

The layouts here are those of a little-endian machine: words (`Layout.word`), truth values
(`Layout.bool`) and pairs (`Layout.prod`).
-/

namespace TensorFlowCore

open List

structure Layout (α : Type) where
  size : ℕ
  toBytes : α → List UInt8
  ofBytes : List UInt8 → α
  size_pos : 0 < size
  length_toBytes : ∀ x, (toBytes x).length = size
  ofBytes_toBytes : ∀ x, ofBytes (toBytes x) = x

namespace Layout

variable {α β : Type}

/-- The values one after another. -/
def writeAll (L : Layout α) (xs : List α) : List UInt8 := xs.flatMap L.toBytes

/-- The first `n` values in the bytes. -/
def read (L : Layout α) : ℕ → List UInt8 → List α
  | 0, _ => []
  | n + 1, bytes => L.ofBytes (bytes.take L.size) :: read L n (bytes.drop L.size)

/-- As many values as the bytes hold. -/
def readAll (L : Layout α) (bytes : List UInt8) : List α := L.read (bytes.length / L.size) bytes

variable (L : Layout α)

@[simp] theorem writeAll_nil : L.writeAll [] = [] := rfl

@[simp] theorem writeAll_cons (x : α) (xs : List α) :
    L.writeAll (x :: xs) = L.toBytes x ++ L.writeAll xs := flatMap_cons

@[simp] theorem length_writeAll (xs : List α) : (L.writeAll xs).length = L.size * xs.length := by
  induction xs with
  | nil => rfl
  | cons x xs ih =>
    rw [writeAll_cons, length_append, L.length_toBytes, ih, length_cons, Nat.mul_succ, Nat.add_comm]

theorem writeAll_ne_nil {xs : List α} (h : xs ≠ []) : L.writeAll xs ≠ [] := by
  refine ne_nil_of_length_pos ?_
  rw [length_writeAll]
  exact Nat.mul_pos L.size_pos (length_pos_of_ne_nil h)

theorem read_writeAll (xs : List α) : L.read xs.length (L.writeAll xs) = xs := by
  induction xs with
  | nil => rfl
  | cons x xs ih =>
    have hlen := L.length_toBytes x
    rw [length_cons, writeAll_cons, read, take_left' hlen, drop_left' hlen, ih, L.ofBytes_toBytes]

@[simp] theorem readAll_writeAll (xs : List α) : L.readAll (L.writeAll xs) = xs := by
  rw [readAll, length_writeAll, Nat.mul_div_cancel_left _ L.size_pos, read_writeAll]

/-- Values of one type that are each written as values of another. -/
theorem writeAll_of_eq (M : Layout β) {f : α → List β} (h : ∀ x, L.toBytes x = M.writeAll (f x))
    (xs : List α) : L.writeAll xs = M.writeAll (xs.flatMap f) := by
  rw [writeAll, writeAll, flatMap_assoc]
  exact congrArg (fun g ↦ xs.flatMap g) (funext h)

/-! ### Words -/

/-- The low `n` bytes of a number, the least significant one first. -/
def wordBytes : ℕ → ℕ → List UInt8
  | 0, _ => []
  | n + 1, value => value.toUInt8 :: wordBytes n (value / 256)

@[simp] theorem length_wordBytes (n value : ℕ) : (wordBytes n value).length = n := by
  induction n generalizing value with
  | zero => rfl
  | succ n ih => rw [wordBytes, length_cons, ih]

theorem littleEndian_wordBytes (n value : ℕ) :
    littleEndian (wordBytes n value) = value % 256 ^ n := by
  induction n generalizing value with
  | zero => rw [Nat.pow_zero, Nat.mod_one, wordBytes, littleEndian]
  | succ n ih =>
    have hbyte : value.toUInt8.toNat = value % 256 := rfl
    rw [wordBytes, littleEndian, ih, hbyte, Nat.pow_succ', Nat.mod_mul]
    omega

/-- The bytes of a word are those of its lower half and then those of its upper half. -/
theorem wordBytes_add (n m value : ℕ) :
    wordBytes (n + m) value = wordBytes n value ++ wordBytes m (value / 256 ^ n) := by
  induction n generalizing value with
  | zero => rw [Nat.zero_add, Nat.pow_zero, Nat.div_one, wordBytes, nil_append]
  | succ n ih =>
    rw [Nat.succ_add, wordBytes, ih, wordBytes, cons_append, Nat.div_div_eq_div_mul, Nat.pow_succ']

theorem pow_eight_mul (n : ℕ) : 2 ^ (8 * n) = 256 ^ n := by
  rw [Nat.pow_mul]

/-- A word of `n` bytes. -/
def word (n : ℕ) (hn : 0 < n) : Layout (BitVec (8 * n)) where
  size := n
  toBytes x := wordBytes n x.toNat
  ofBytes bytes := BitVec.ofNat (8 * n) (littleEndian bytes)
  size_pos := hn
  length_toBytes _ := length_wordBytes _ _
  ofBytes_toBytes x := by
    have hx : x.toNat < 256 ^ n := pow_eight_mul n ▸ x.isLt
    rw [littleEndian_wordBytes, Nat.mod_eq_of_lt hx, BitVec.ofNat_toNat, BitVec.setWidth_eq]

/-- A word that has been extended with zeros, read as words of half its width. -/
theorem toBytes_setWidth_word (n : ℕ) (hn : 0 < n) (x : BitVec (8 * n)) :
    (word (n + n) (Nat.add_pos_left hn n)).toBytes (x.setWidth (8 * (n + n))) =
      (word n hn).writeAll [x, 0] := by
  have hx : x.toNat < 256 ^ n := pow_eight_mul n ▸ x.isLt
  have hwide : (x.setWidth (8 * (n + n))).toNat = x.toNat := by
    rw [BitVec.toNat_setWidth, Nat.mod_eq_of_lt]
    exact x.isLt.trans_le (Nat.pow_le_pow_right (by decide) (by omega))
  show wordBytes (n + n) _ = _
  rw [hwide, wordBytes_add, Nat.div_eq_of_lt hx, writeAll_cons, writeAll_cons, writeAll_nil,
    append_nil]
  rfl

/-! ### Truth values and pairs -/

def bool : Layout Bool where
  size := 1
  toBytes x := [x.toUInt8]
  ofBytes bytes := bytes.headD 0 != 0
  size_pos := Nat.one_pos
  length_toBytes _ := rfl
  ofBytes_toBytes x := by cases x <;> rfl

/-- Two values, one after the other. -/
def prod (L : Layout α) (M : Layout β) : Layout (α × β) where
  size := L.size + M.size
  toBytes x := L.toBytes x.1 ++ M.toBytes x.2
  ofBytes bytes := (L.ofBytes (bytes.take L.size), M.ofBytes (bytes.drop L.size))
  size_pos := Nat.add_pos_left L.size_pos _
  length_toBytes x := by rw [List.length_append, L.length_toBytes, M.length_toBytes]
  ofBytes_toBytes x := by
    have hlen := L.length_toBytes x.1
    rw [List.take_left' hlen, List.drop_left' hlen, L.ofBytes_toBytes, M.ofBytes_toBytes]

theorem toBytes_eq_writeAll (x : α) : L.toBytes x = L.writeAll [x] := (append_nil _).symm

theorem toBytes_prod_self (x : α × α) : (prod L L).toBytes x = L.writeAll [x.1, x.2] := by
  rw [writeAll_cons, writeAll_cons, writeAll_nil, append_nil]
  rfl

end Layout

end TensorFlowCore
