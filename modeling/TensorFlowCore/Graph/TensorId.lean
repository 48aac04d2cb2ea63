import TensorFlowCore.Core.Integers

/-!
# Names of tensors

`ParseTensorName` of `tensorflow/core/graph/tensor_id.cc`, which splits `name:digits` by going
backwards over the digits that `strings::StrCat` writes. The number is accumulated in an `int`; here
it wraps at 32 bits where it overflows.
-/

namespace TensorFlowCore

open List

/-- A byte between `'0'` and `'9'`. -/
def isDigit (c : UInt8) : Bool := 48 ≤ c ∧ c ≤ 57

/-- The loop of `ParseTensorName` over the bytes from the end. It leaves the first byte of the name
alone, and returns `index`, `mul` and the bytes from `p` on backwards. -/
def scanDigits : List UInt8 → ℤ → ℤ → ℤ × ℤ × List UInt8
  | c :: c' :: rest, index, mul =>
    if isDigit c then
      scanDigits (c' :: rest) (int32 (index + int32 ((c.toNat - 48) * mul))) (int32 (mul * 10))
    else (index, mul, c :: c' :: rest)
  | rest, index, mul => (index, mul, rest)

/-- `ParseTensorName`: the name of a node and the number of one of its outputs. -/
def parseTensorName (name : ByteString) : ByteString × ℤ :=
  match scanDigits name.reverse 0 1 with
  | (index, mul, c :: c' :: rest) =>
    if c = 58 ∧ 1 < mul then ((c' :: rest).reverse, index) else (name, 0)
  | _ => (name, 0)

example : parseTensorName (ascii "a:12") = (ascii "a", 12) := by decide

example : parseTensorName (ascii "a:4294967295") = (ascii "a", -1) := by decide

theorem int32_add_int32_mul (a b c : ℤ) :
    int32 (int32 a + int32 (b * int32 c)) = int32 (a + b * c) := by
  rw [int32, int32, int32, int32, int32, Int.bmod_add_bmod, Int.add_bmod_bmod]
  rw [Int.add_bmod, Int.mul_bmod_bmod, ← Int.add_bmod]

theorem int32_int32_mul (a b : ℤ) : int32 (int32 a * b) = int32 (a * b) := Int.bmod_mul_bmod

theorem scanDigits_suffix (l : List UInt8) (index mul : ℤ) :
    (scanDigits l index mul).2.2 <:+ l := by
  induction l, index, mul using scanDigits.induct with
  | case1 c c' rest index mul hc ih =>
    rw [scanDigits, if_pos hc]
    exact ih.trans (suffix_cons _ _)
  | case2 c c' rest index mul hc =>
    rw [scanDigits, if_neg hc]
  | case3 rest index mul h =>
    rw [scanDigits]
    exact h

/-- A name without a colon is a name only. -/
theorem parseTensorName_of_notMem {name : ByteString} (h : 58 ∉ name) :
    parseTensorName name = (name, 0) := by
  have hsuffix := scanDigits_suffix name.reverse 0 1
  rw [parseTensorName]
  split
  · rename_i index mul c c' rest heq
    rw [heq] at hsuffix
    have hc : c ≠ 58 := by
      rintro rfl
      exact h (mem_reverse.1 (hsuffix.subset mem_cons_self))
    rw [if_neg fun hand ↦ hc hand.1]
  · rfl

theorem isDigit_digit : ∀ d : ℕ, d < 10 →
    isDigit (48 + d.toUInt8) = true ∧ ((48 + d.toUInt8).toNat : ℤ) - 48 = d := by
  decide

/-- Going backwards over digits, the lowest one first. -/
theorem scanDigits_digits {ds : List ℕ} (hds : ∀ d ∈ ds, d < 10) {c : UInt8}
    (hc : isDigit c = false) (c' : UInt8) (rest : List UInt8) (index mul : ℤ) :
    scanDigits ((ds.map fun d ↦ 48 + d.toUInt8) ++ c :: c' :: rest) (int32 index) (int32 mul) =
      (int32 (index + (Nat.ofDigits 10 ds : ℕ) * mul), int32 (mul * 10 ^ ds.length), c :: c' ::
        rest) := by
  induction ds generalizing index mul with
  | nil =>
    rw [map_nil, nil_append, scanDigits, if_neg (by simp [hc]), Nat.ofDigits_nil, length_nil,
      Nat.cast_zero, zero_mul, add_zero, pow_zero, mul_one]
  | cons d ds ih =>
    obtain ⟨hdigit, hvalue⟩ := isDigit_digit d (hds d mem_cons_self)
    obtain ⟨x, y, htail⟩ : ∃ x y, (ds.map fun d ↦ 48 + d.toUInt8) ++ c :: c' :: rest = x :: y := by
      rcases ds with - | ⟨d', ds⟩
      · exact ⟨_, _, rfl⟩
      · exact ⟨_, _, rfl⟩
    have hih := ih (fun d' hd' ↦ hds d' (mem_cons_of_mem _ hd')) (index + d * mul) (mul * 10)
    rw [map_cons, cons_append, htail, scanDigits, if_pos hdigit, hvalue, int32_add_int32_mul,
      int32_int32_mul, ← htail, hih]
    have hvalue' : index + d * mul + (Nat.ofDigits 10 ds : ℕ) * (mul * 10) =
        index + (Nat.ofDigits 10 (d :: ds) : ℕ) * mul := by
      rw [Nat.ofDigits_cons]
      push_cast
      ring
    have hmul : mul * 10 * 10 ^ ds.length = mul * 10 ^ (d :: ds).length := by
      rw [length_cons, pow_succ]
      ring
    rw [hvalue', hmul]

/-- The digits of a number that an `int` holds: at least one and at most ten. -/
theorem decimal_eq {n : ℕ} (hn : n < 2 ^ 31) :
    ∃ ds, decimal n = ds.reverse.map (fun d ↦ 48 + d.toUInt8) ∧ (∀ d ∈ ds, d < 10) ∧
      Nat.ofDigits 10 ds = n ∧ 0 < ds.length ∧ ds.length ≤ 10 := by
  rw [decimal]
  split
  · rename_i hzero
    exact ⟨[0], rfl, by simp, by simp [hzero], by simp, by simp⟩
  · rename_i hzero
    refine ⟨Nat.digits 10 n, rfl, fun d hd ↦ Nat.digits_lt_base (by omega) hd,
      Nat.ofDigits_digits 10 n,
      ?_, ?_⟩
    · exact length_pos_iff.2 (Nat.digits_ne_nil_iff_ne_zero.2 hzero)
    · exact (Nat.digits_length_le_iff (by omega) n).2 (by omega)

/-- A number with its name is read back, up to the largest `int`. -/
theorem parseTensorName_decimal {name : ByteString} (hne : name ≠ []) {n : ℕ} (hn : n < 2 ^ 31) :
    parseTensorName (name ++ 58 :: decimal n) = (name, (n : ℤ)) := by
  obtain ⟨c, rest, hrev⟩ := exists_cons_of_ne_nil (reverse_ne_nil_iff.2 hne)
  obtain ⟨ds, hdecimal, hds, hvalue, hpos, hlen⟩ := decimal_eq hn
  have hscan := scanDigits_digits hds (show isDigit 58 = false by decide) c rest 0 1
  have hreverse : (name ++ 58 :: decimal n).reverse =
      (ds.map fun d ↦ 48 + d.toUInt8) ++ 58 :: c :: rest := by
    rw [reverse_append, reverse_cons, hdecimal, map_reverse, reverse_reverse, hrev, append_assoc]
    rfl
  have hmul : ∀ k ≤ 10, 0 < k → 1 < int32 (1 * 10 ^ k) := by decide
  rw [parseTensorName, hreverse]
  rw [show int32 0 = 0 by decide, show int32 1 = 1 by decide, hvalue, zero_add, mul_one,
    int32_of_lt (Int.natCast_nonneg n) (by exact_mod_cast hn)] at hscan
  simp only [hscan, hmul ds.length hlen hpos, and_self, if_true]
  rw [← hrev, reverse_reverse]

/-!
## The grammar of tensor names

A tensor name is `name:digits`, or else a name that stands for the first output of its node.
`ParseTensorName` follows this grammar as long as its two `int` variables hold what they should
(`parseTensorName_faithful_iff`): the number behind the colon, and a power of ten that tells it
whether there were digits at all.
-/

/-- A tensor name with a number behind its colon. -/
structure NamesOutput (name node digits : ByteString) : Prop where
  eq : name = node ++ 58 :: digits
  node_ne_nil : node ≠ []
  digits_ne_nil : digits ≠ []
  isDigit : ∀ c ∈ digits, isDigit c = true

/-- `ParseTensorName` follows the grammar, and returns the number of an output: neither a negative
one nor the slot of a control edge. -/
structure ParsesFaithfully (name : ByteString) : Prop where
  output : ∀ node digits, NamesOutput name node digits →
    parseTensorName name = (node, (ofDecimal digits : ℤ))
  node : (∀ node digits, ¬ NamesOutput name node digits) → parseTensorName name = (name, 0)
  nonneg : 0 ≤ (parseTensorName name).2
  ne_controlSlot : (parseTensorName name).2 ≠ -1

theorem digit_eq {c : UInt8} (hc : isDigit c = true) :
    48 + (c.toNat - 48).toUInt8 = c ∧ c.toNat - 48 < 10 := by
  obtain ⟨hlo, hhi⟩ : 48 ≤ c ∧ c ≤ 57 := by simpa [isDigit] using hc
  have hlo' : 48 ≤ c.toNat := UInt8.le_iff_toNat_le.1 hlo
  have hhi' : c.toNat ≤ 57 := UInt8.le_iff_toNat_le.1 hhi
  have hlt : c.toNat - 48 < 10 := by omega
  refine ⟨?_, hlt⟩
  apply UInt8.toNat_inj.1
  rw [toNat_digit hlt]
  omega

/-- What the loop has gone over are digits, and its multiplier tells whether there were any. -/
theorem scanDigits_split (l : List UInt8) (index mul : ℤ) :
    ∃ digits, l = digits ++ (scanDigits l index mul).2.2 ∧ (∀ c ∈ digits, isDigit c = true) ∧
      (digits = [] → (scanDigits l index mul).2.1 = mul) := by
  induction l, index, mul using scanDigits.induct with
  | case1 c c' rest index mul hc ih =>
    obtain ⟨digits, heq, hdigits, -⟩ := ih
    rw [scanDigits, if_pos hc]
    refine ⟨c :: digits, ?_, ?_, fun h ↦ absurd h (cons_ne_nil _ _)⟩
    · rw [cons_append, ← heq]
    · exact forall_mem_cons.2 ⟨hc, hdigits⟩
  | case2 c c' rest index mul hc =>
    rw [scanDigits, if_neg hc]
    exact ⟨[], rfl, by simp, fun _ ↦ rfl⟩
  | case3 rest index mul h =>
    rw [scanDigits]
    · exact ⟨[], rfl, by simp, fun _ ↦ rfl⟩
    · exact h

/-- The number behind the colon is taken if the power of ten is seen to be more than one, and then
modulo `2 ^ 32`. -/
theorem parseTensorName_of_namesOutput {name node digits : ByteString}
    (h : NamesOutput name node digits) :
    parseTensorName name =
      if 1 < int32 (10 ^ digits.length) then (node, int32 (ofDecimal digits)) else (name, 0) := by
  obtain ⟨c, rest, hrev⟩ := exists_cons_of_ne_nil (reverse_ne_nil_iff.2 h.node_ne_nil)
  have hds : ∀ d ∈ digits.reverse.map (fun c ↦ c.toNat - 48), d < 10 := fun d hd ↦ by
    obtain ⟨c, hc, rfl⟩ := mem_map.1 hd
    exact (digit_eq (h.isDigit c (mem_reverse.1 hc))).2
  have hdigits : (digits.reverse.map fun c ↦ c.toNat - 48).map (fun d ↦ 48 + d.toUInt8) =
      digits.reverse := by
    rw [map_map]
    exact (map_congr_left fun c hc ↦
      (digit_eq (h.isDigit c (mem_reverse.1 hc))).1).trans (map_id _)
  have hscan := scanDigits_digits hds (show isDigit 58 = false by decide) c rest 0 1
  have hreverse : name.reverse = digits.reverse ++ 58 :: c :: rest := by
    rw [h.eq, reverse_append, reverse_cons, hrev, append_assoc]
    rfl
  rw [hdigits, length_map, length_reverse, ← ofDecimal, show int32 0 = 0 by decide,
    show int32 1 = 1 by decide, zero_add, mul_one, one_mul] at hscan
  rw [parseTensorName, hreverse, hscan]
  show (if 58 = 58 ∧ _ then _ else _) = _
  rw [← hrev, reverse_reverse]
  simp only [true_and]

/-- Without a number behind a colon the name is taken as it is. -/
theorem parseTensorName_of_forall_not {name : ByteString}
    (h : ∀ node digits, ¬ NamesOutput name node digits) : parseTensorName name = (name, 0) := by
  obtain ⟨digits, heq, hdigits, hmul⟩ := scanDigits_split name.reverse 0 1
  rw [parseTensorName]
  split
  · rename_i index mul c c' rest hscan
    rw [hscan] at heq hmul
    refine if_neg ?_
    rintro ⟨rfl, hlt⟩
    have hne : digits ≠ [] := fun hnil ↦ by
      have : mul = 1 := hmul hnil
      omega
    refine h (c' :: rest).reverse digits.reverse ⟨?_, ?_, ?_, ?_⟩
    · have := congrArg reverse heq
      rwa [reverse_reverse, reverse_append, reverse_cons, append_assoc] at this
    · exact reverse_ne_nil_iff.2 (cons_ne_nil _ _)
    · exact reverse_ne_nil_iff.2 hne
    · exact fun c hc ↦ hdigits c (mem_reverse.1 hc)
  · rfl

theorem int32_lt (n : ℤ) : int32 n < 2 ^ 31 := by
  have := Int.bmod_lt (x := n) (m := 2 ^ 32) (by decide)
  rw [int32]
  omega

/-- A tensor name is read as the grammar says if and only if the number behind its colon, when it
has one, is an `int`, and the power of ten with as many zeros as it has digits wraps around to more
than one. -/
theorem parseTensorName_faithful_iff (name : ByteString) :
    ParsesFaithfully name ↔ ∀ node digits, NamesOutput name node digits →
      ofDecimal digits < 2 ^ 31 ∧ 1 < int32 (10 ^ digits.length) := by
  constructor
  · intro h node digits hname
    have hparse := h.output node digits hname
    rw [parseTensorName_of_namesOutput hname] at hparse
    split at hparse
    · next hmul =>
      have hvalue : int32 (ofDecimal digits) = ofDecimal digits := (Prod.mk.inj hparse).2
      have := int32_lt (ofDecimal digits)
      exact ⟨by omega, hmul⟩
    · have hlen := congrArg length (hname.eq.symm.trans (Prod.mk.inj hparse).1)
      rw [length_append, length_cons] at hlen
      omega
  · intro h
    have houtput : ∀ node digits, NamesOutput name node digits →
        parseTensorName name = (node, (ofDecimal digits : ℤ)) := fun node digits hname ↦ by
      obtain ⟨hlt, hmul⟩ := h node digits hname
      rw [parseTensorName_of_namesOutput hname, if_pos hmul,
        int32_of_lt (Int.natCast_nonneg _) (by exact_mod_cast hlt)]
    have hnonneg : 0 ≤ (parseTensorName name).2 := by
      by_cases hname : ∃ node digits, NamesOutput name node digits
      · obtain ⟨node, digits, hname⟩ := hname
        rw [houtput node digits hname]
        exact Int.natCast_nonneg _
      · rw [parseTensorName_of_forall_not fun node digits hsplit ↦ hname ⟨node, digits, hsplit⟩]
    exact ⟨houtput, parseTensorName_of_forall_not, hnonneg, by omega⟩

/-- `a:4294967295` is read as the control slot of `a`. -/
theorem not_parsesFaithfully : ¬ ∀ name, ParsesFaithfully name := fun h ↦
  (h (ascii "a:4294967295")).ne_controlSlot (by decide)

end TensorFlowCore
