import TensorFlowCore.Graph.TensorId
import TensorFlowCore.Support.PrefixReading

/-!
# Reading decimal numbers

`safe_strto64`, `safe_strtou64`, `safe_strto32` and `safe_strtou32` of
`tensorflow/core/lib/strings/numbers.cc`. A function returns the number that it stores, or nothing
where it returns false. Every `result` is an `int64`, which wraps around where it overflows: this is
how `safe_strtou64` gets at the numbers from `2 ^ 63` on.

The four loops differ in the step that takes in a digit. Each of them holds the number read so far
in its own way and stops exactly when the number leaves its range (`Accumulates`); since more digits
do not make a number smaller, the whole sequence of digits is then judged by its value
(`accumulate_eq`).
-/

namespace TensorFlowCore.Numbers

open List

/-- `isspace`, in the C locale. -/
def isSpace (c : UInt8) : Bool := c = 32 ∨ 9 ≤ c ∧ c ≤ 13

/-- `SafeFirstChar`. -/
def safeFirstChar : ByteString → UInt8
  | [] => 0
  | c :: _ => c

/-- `SkipSpaces`; the NUL that stands for the end is no space. -/
def skipSpaces (str : ByteString) : ByteString := str.dropWhile isSpace

/-- A loop over digits. It is entered at a digit, so that the test may stand in front. -/
def accumulate (step : ℤ → UInt8 → Option ℤ) : ℤ → ByteString → Option (ℤ × ByteString)
  | result, [] => some (result, [])
  | result, c :: str =>
    if isDigit c then (step result c).bind fun result ↦ accumulate step result str
    else some (result, c :: str)

/-- What the functions do behind a sign, with their step and the conversion of what they store. -/
def parseDigits (step : ℤ → UInt8 → Option ℤ) (store : ℤ → ℤ) (str : ByteString) : Option ℤ :=
  if isDigit (safeFirstChar str) then
    (accumulate step 0 str).bind fun x ↦ if skipSpaces x.2 = [] then some (store x.1) else none
  else none

/-- `Consume("-")`, and what is done where there is a minus and where there is none. -/
def parseSigned (down up : ByteString → Option ℤ) : ByteString → Option ℤ
  | 45 :: str => down str
  | str => up str

/-- A conversion to `uint64`. -/
def uint64 (n : ℤ) : ℤ := n % 2 ^ 64

/-- A conversion to `uint32`. -/
def uint32 (n : ℤ) : ℤ := n % 2 ^ 32

def kint64max : ℤ := 2 ^ 63 - 1

def kint64min : ℤ := -2 ^ 63

def kuint64max : ℤ := 2 ^ 64 - 1

def kint32max : ℤ := 2 ^ 31 - 1

def kuint32max : ℤ := 2 ^ 32 - 1

/-- The round of `safe_strto64` for a number without a sign; the division is that of C++. -/
def stepUp (vlimit result : ℤ) (c : UInt8) : Option ℤ :=
  let digit : ℤ := c.toNat - 48
  if (int64 (vlimit - digit)).tdiv 10 < result then none
  else some (int64 (int64 (result * 10) + digit))

/-- The round of `safe_strto64` behind a minus. -/
def stepDown (vlimit result : ℤ) (c : UInt8) : Option ℤ :=
  let digit : ℤ := c.toNat - 48
  if (int64 (vlimit + digit)).tdiv 10 > result then none
  else some (int64 (int64 (result * 10) - digit))

/-- The round of `safe_strtou64`, whose comparison is one of `uint64`. -/
def stepUnsigned (result : ℤ) (c : UInt8) : Option ℤ :=
  let digit : ℤ := c.toNat - 48
  if uint64 (kuint64max - digit) / 10 < uint64 result then none
  else some (int64 (int64 (result * 10) + digit))

/-- The round of the versions for 32 bits, which compare behind the sum. -/
def stepChecked (vmax result : ℤ) (c : UInt8) : Option ℤ :=
  let result := int64 (int64 (int64 (result * 10) + c.toNat) - 48)
  if result > vmax then none else some result

/-- `safe_strto64`. -/
def safeStrto64 (str : ByteString) : Option ℤ :=
  parseSigned (parseDigits (stepDown kint64min) id) (parseDigits (stepUp kint64max) id)
    (skipSpaces str)

/-- `safe_strtou64`. -/
def safeStrtou64 (str : ByteString) : Option ℤ := parseDigits stepUnsigned uint64 (skipSpaces str)

/-- `safe_strto32`. -/
def safeStrto32 (str : ByteString) : Option ℤ :=
  parseSigned (parseDigits (stepChecked (kint32max + 1)) fun result ↦ int32 (result * -1))
    (parseDigits (stepChecked kint32max) fun result ↦ int32 (result * 1)) (skipSpaces str)

/-- `safe_strtou32`. -/
def safeStrtou32 (str : ByteString) : Option ℤ :=
  parseDigits (stepChecked kuint32max) uint32 (skipSpaces str)

/-- A decimal number with a sign or without one, and with spaces around it. -/
structure Numeral where
  before : ByteString
  negative : Bool
  digits : ByteString
  after : ByteString
  isSpace_before : ∀ c ∈ before, isSpace c = true
  digits_ne_nil : digits ≠ []
  isDigit_digits : ∀ c ∈ digits, isDigit c = true
  isSpace_after : ∀ c ∈ after, isSpace c = true

namespace Numeral

/-- The bytes behind the sign. -/
def unsignedText (x : Numeral) : ByteString := x.digits ++ x.after

def text (x : Numeral) : ByteString :=
  x.before ++ (if x.negative then 45 :: x.unsignedText else x.unsignedText)

/-- The number denoted. -/
def value (x : Numeral) : ℤ := if x.negative then -(ofDecimal x.digits : ℤ) else ofDecimal x.digits

end Numeral

/-! ### Digits -/

/-- The number `n` is held as `rep n`, and a step takes in a digit unless the limit is passed. -/
def Accumulates (step : ℤ → UInt8 → Option ℤ) (rep : ℕ → ℤ) (limit : ℕ) : Prop :=
  rep 0 = 0 ∧ ∀ n ≤ limit, ∀ c : UInt8, isDigit c = true →
    step (rep n) c =
      if n * 10 + (c.toNat - 48) ≤ limit then some (rep (n * 10 + (c.toNat - 48))) else none

theorem toNat_of_isDigit {c : UInt8} (hc : isDigit c = true) : 48 ≤ c.toNat ∧ c.toNat ≤ 57 := by
  obtain ⟨hlo, hhi⟩ : 48 ≤ c ∧ c ≤ 57 := by simpa [isDigit] using hc
  exact ⟨UInt8.le_iff_toNat_le.1 hlo, UInt8.le_iff_toNat_le.1 hhi⟩

theorem isSpace_of_isDigit {c : UInt8} (hc : isDigit c = true) : isSpace c = false := by
  have h := (toNat_of_isDigit hc).1
  rw [isSpace, decide_eq_false_iff_not]
  rintro (rfl | ⟨-, hle⟩)
  · exact absurd h (by decide)
  · have hle' : c.toNat ≤ 13 := UInt8.le_iff_toNat_le.1 hle
    omega

theorem accumulates_stepUp : Accumulates (stepUp kint64max) (fun n ↦ n) (2 ^ 63 - 1) := by
  refine ⟨rfl, fun n hn c hc ↦ ?_⟩
  obtain ⟨hlo, hhi⟩ := toNat_of_isDigit hc
  have hlimit : int64 (kint64max - (c.toNat - 48)) = kint64max - (c.toNat - 48) :=
    int64_of_lt (by rw [kint64max]; omega) (by rw [kint64max]; omega)
  rw [stepUp, hlimit, Int.tdiv_eq_ediv_of_nonneg (by rw [kint64max]; omega), kint64max]
  dsimp only
  split
  · rw [if_neg (by omega)]
  · rw [if_pos (by omega), int64_of_lt (n := n * 10) (by omega) (by omega),
      int64_of_lt (by omega) (by omega)]
    congr 1
    omega

theorem accumulates_stepDown : Accumulates (stepDown kint64min) (fun n ↦ -n) (2 ^ 63) := by
  refine ⟨rfl, fun n hn c hc ↦ ?_⟩
  obtain ⟨hlo, hhi⟩ := toNat_of_isDigit hc
  have hlimit : int64 (kint64min + (c.toNat - 48)) = kint64min + (c.toNat - 48) :=
    int64_eq (by rw [kint64min]; omega) (by rw [kint64min]; omega)
  -- C++ divides towards zero
  have hdiv : (kint64min + (c.toNat - 48)).tdiv 10 = -((2 ^ 63 - (c.toNat - 48)) / 10) := by
    rw [← Int.neg_neg (kint64min + _), Int.neg_tdiv, Int.tdiv_eq_ediv_of_nonneg
      (by rw [kint64min]; omega), kint64min]
    congr 2
    ring
  rw [stepDown, hlimit, hdiv]
  dsimp only
  split
  · rw [if_neg (by omega)]
  · rw [if_pos (by omega), int64_eq (n := -n * 10) (by omega) (by omega),
      int64_eq (by omega) (by omega)]
    congr 1
    omega

theorem int64_mul_add (n : ℕ) (d : ℤ) : int64 (int64 (int64 n * 10) + d) = int64 (n * 10 + d) := by
  simp only [int64, Int.bmod_add_bmod, Int.bmod_mul_bmod]

theorem uint64_int64 {n : ℕ} (h : n < 2 ^ 64) : uint64 (int64 n) = n := by
  have hmod : (n : ℤ).bmod (2 ^ 64) % ((2 ^ 64 : ℕ) : ℤ) = n % ((2 ^ 64 : ℕ) : ℤ) :=
    Int.bmod_emod
  exact hmod.trans (Int.emod_eq_of_lt (by omega) (by omega))

/-- The numbers from `2 ^ 63` on are held as negative ones. -/
theorem accumulates_stepUnsigned : Accumulates stepUnsigned (fun n ↦ int64 n) (2 ^ 64 - 1) := by
  refine ⟨by decide, fun n hn c hc ↦ ?_⟩
  obtain ⟨hlo, hhi⟩ := toNat_of_isDigit hc
  have hlimit : uint64 (kuint64max - (c.toNat - 48)) = kuint64max - (c.toNat - 48) := by
    rw [uint64, kuint64max]
    omega
  rw [stepUnsigned, hlimit, uint64_int64 (by omega), int64_mul_add, kuint64max]
  split
  · rw [if_neg (by omega)]
  · rw [if_pos (by omega)]
    congr 2
    omega

theorem accumulates_stepChecked {vmax : ℤ} {limit : ℕ} (h : vmax = limit) (hlt : limit < 2 ^ 32) :
    Accumulates (stepChecked vmax) (fun n ↦ n) limit := by
  refine ⟨rfl, fun n hn c hc ↦ ?_⟩
  obtain ⟨hlo, hhi⟩ := toNat_of_isDigit hc
  rw [stepChecked, int64_of_lt (n := n * 10) (by omega) (by omega),
    int64_of_lt (n := n * 10 + c.toNat) (by omega) (by omega), int64_of_lt (by omega) (by omega), h]
  dsimp only
  split
  · rw [if_neg (by omega)]
  · rw [if_pos (by omega)]
    congr 1
    omega

variable {step : ℤ → UInt8 → Option ℤ} {rep : ℕ → ℤ} {limit : ℕ} {store : ℤ → ℤ}

/-- The digits at the front are taken in if their number is within the limit. -/
theorem accumulate_eq (h : Accumulates step rep limit) {n : ℕ} (hn : n ≤ limit) (str : ByteString) :
    accumulate step (rep n) str =
      if n * 10 ^ (str.takeWhile isDigit).length + ofDecimal (str.takeWhile isDigit) ≤ limit then
        some (rep (n * 10 ^ (str.takeWhile isDigit).length + ofDecimal (str.takeWhile isDigit)),
          str.dropWhile isDigit)
      else none := by
  induction str generalizing n with
  | nil =>
    rw [accumulate, takeWhile_nil, dropWhile_nil, ofDecimal_nil, length_nil, pow_zero, mul_one,
      add_zero, if_pos hn]
  | cons c str ih =>
    rw [accumulate]
    by_cases hc : isDigit c = true
    · rw [if_pos hc, h.2 n hn c hc, takeWhile_cons_of_pos hc, dropWhile_cons_of_pos hc,
        ofDecimal_cons, length_cons]
      have hsum : n * 10 ^ ((str.takeWhile isDigit).length + 1) +
          ((c.toNat - 48) * 10 ^ (str.takeWhile isDigit).length +
          ofDecimal (str.takeWhile isDigit)) =
          (n * 10 + (c.toNat - 48)) * 10 ^ (str.takeWhile isDigit).length +
            ofDecimal (str.takeWhile isDigit) := by
        rw [pow_succ]
        ring
      rw [hsum]
      by_cases hle : n * 10 + (c.toNat - 48) ≤ limit
      · rw [if_pos hle, Option.bind_some, ih hle]
      · -- the digits to come do not make the number smaller
        have hgrow : n * 10 + (c.toNat - 48) ≤
            (n * 10 + (c.toNat - 48)) * 10 ^ (str.takeWhile isDigit).length :=
          Nat.le_mul_of_pos_right _ (by positivity)
        rw [if_neg hle, Option.bind_none, if_neg (by omega)]
    · rw [if_neg hc, takeWhile_cons_of_neg hc, dropWhile_cons_of_neg hc, ofDecimal_nil, length_nil,
        pow_zero, mul_one, add_zero, if_pos hn]

theorem skipSpaces_eq_nil_iff :
    skipSpaces str = [] ↔ ∀ c ∈ str, isSpace c = true := dropWhile_eq_nil_iff

theorem isDigit_safeFirstChar_iff :
    isDigit (safeFirstChar str) = true ↔ str.takeWhile isDigit ≠ [] := by
  cases str with
  | nil => decide
  | cons c str =>
    by_cases hc : isDigit c = true
    · rw [takeWhile_cons_of_pos hc]
      exact ⟨fun _ ↦ cons_ne_nil _ _, fun _ ↦ hc⟩
    · rw [takeWhile_cons_of_neg hc]
      exact ⟨fun h ↦ absurd h hc, fun h ↦ absurd rfl h⟩

/-- What is accepted behind a sign. -/
theorem parseDigits_eq_some_iff (h : Accumulates step rep limit) {v : ℤ} :
    parseDigits step store str = some v ↔
      ∃ digits after, str = digits ++ after ∧ digits ≠ [] ∧ (∀ c ∈ digits, isDigit c = true) ∧
        (∀ c ∈ after, isSpace c = true) ∧ ofDecimal digits ≤ limit ∧
        store (rep (ofDecimal digits)) = v := by
  have hacc := accumulate_eq h (Nat.zero_le _) str
  rw [h.1, Nat.zero_mul, Nat.zero_add] at hacc
  constructor
  · intro hparse
    rw [parseDigits] at hparse
    split_ifs at hparse with hfirst
    rw [hacc] at hparse
    split_ifs at hparse with hle
    · rw [Option.bind_some] at hparse
      split_ifs at hparse with hrest
      exact ⟨_, _, takeWhile_append_dropWhile.symm, isDigit_safeFirstChar_iff.1 hfirst,
        fun c hc ↦ mem_takeWhile_imp hc, skipSpaces_eq_nil_iff.1 hrest, hle,
        Option.some.inj hparse⟩
    · cases hparse
  · rintro ⟨digits, after, rfl, hne, hdigits, hafter, hle, rfl⟩
    have hstop : ∀ c ∈ after.head?, isDigit c = false := fun c hc ↦ by
      have hspace := hafter c (mem_of_mem_head? hc)
      by_contra hdigit
      rw [isSpace_of_isDigit (Bool.eq_true_of_not_eq_false hdigit)] at hspace
      exact Bool.false_ne_true hspace
    obtain ⟨htake, hdrop⟩ := takeWhile_append_of_stop hdigits hstop
    rw [htake, hdrop, if_pos hle] at hacc
    rw [parseDigits, if_pos (isDigit_safeFirstChar_iff.2 (by rwa [htake])), hacc, Option.bind_some,
      if_pos (skipSpaces_eq_nil_iff.2 hafter)]

/-! ### Signs -/

/-- The spaces in front of something else. -/
theorem skipSpaces_append {before str : ByteString} (hbefore : ∀ c ∈ before, isSpace c = true)
    (hstr : ∀ c ∈ str.head?, isSpace c = false) : skipSpaces (before ++ str) = str :=
  (takeWhile_append_of_stop hbefore hstr).2

theorem exists_eq_append_skipSpaces (s : ByteString) :
    ∃ before, s = before ++ skipSpaces s ∧ ∀ c ∈ before, isSpace c = true :=
  ⟨_, takeWhile_append_dropWhile.symm, fun _ hc ↦ mem_takeWhile_imp hc⟩

namespace Numeral

variable (x : Numeral)

theorem exists_digit : ∃ c digits, x.unsignedText = c :: digits ∧ isDigit c = true := by
  obtain ⟨c, digits, heq⟩ := exists_cons_of_ne_nil x.digits_ne_nil
  refine ⟨c, digits ++ x.after, ?_, x.isDigit_digits c (heq ▸ mem_cons_self)⟩
  rw [unsignedText, heq, cons_append]

/-- Once the spaces are skipped there is the sign, or the first digit. -/
theorem skipSpaces_text :
    skipSpaces x.text = if x.negative then 45 :: x.unsignedText else x.unsignedText := by
  refine skipSpaces_append x.isSpace_before fun d hd ↦ ?_
  obtain ⟨c, digits, heq, hc⟩ := x.exists_digit
  split at hd
  · cases hd
    rfl
  · rw [heq] at hd
    cases hd
    exact isSpace_of_isDigit hc

end Numeral

/-- What the unsigned versions accept. -/
theorem parseDigits_skipSpaces_iff (h : Accumulates step rep limit) {s : ByteString} {v : ℤ} :
    parseDigits step store (skipSpaces s) = some v ↔
      ∃ x : Numeral, x.text = s ∧ x.negative = false ∧ ofDecimal x.digits ≤ limit ∧
        store (rep (ofDecimal x.digits)) = v := by
  constructor
  · intro hparse
    obtain ⟨before, hs, hbefore⟩ := exists_eq_append_skipSpaces s
    obtain ⟨digits, after, heq, hne, hdigits, hafter, hle, hv⟩ :=
      (parseDigits_eq_some_iff h).1 hparse
    exact ⟨⟨before, false, digits, after, hbefore, hne, hdigits, hafter⟩, by
      rw [hs, heq]; rfl, rfl, hle,
      hv⟩
  · rintro ⟨x, rfl, hsign, hle, hv⟩
    rw [x.skipSpaces_text, hsign]
    exact (parseDigits_eq_some_iff h).2
      ⟨x.digits, x.after, rfl, x.digits_ne_nil, x.isDigit_digits, x.isSpace_after, hle, hv⟩

theorem parseSigned_of_head {down up : ByteString → Option ℤ} {c : UInt8} (hc : isDigit c = true) :
    parseSigned down up (c :: str) = up (c :: str) := by
  rw [parseSigned]
  rintro rest ⟨rfl, -⟩
  exact absurd hc (by decide)

variable {step' : ℤ → UInt8 → Option ℤ} {rep' : ℕ → ℤ} {limit' : ℕ} {store' : ℤ → ℤ}

/-- What the versions with a sign accept. -/
theorem parseSigned_skipSpaces_iff (hdown : Accumulates step rep limit)
    (hup : Accumulates step' rep' limit') {s : ByteString} {v : ℤ} :
    parseSigned (parseDigits step store) (parseDigits step' store') (skipSpaces s) = some v ↔
      ∃ x : Numeral, x.text = s ∧
        if x.negative then ofDecimal x.digits ≤ limit ∧ store (rep (ofDecimal x.digits)) = v
        else ofDecimal x.digits ≤ limit' ∧ store' (rep' (ofDecimal x.digits)) = v := by
  constructor
  · intro hparse
    obtain ⟨before, hs, hbefore⟩ := exists_eq_append_skipSpaces s
    rw [parseSigned.eq_def] at hparse
    split at hparse
    · next str hstr =>
      obtain ⟨digits, after, heq, hne, hdigits, hafter, hle, hv⟩ :=
        (parseDigits_eq_some_iff hdown).1 hparse
      exact ⟨⟨before, true, digits, after, hbefore, hne, hdigits, hafter⟩,
        by rw [hs, hstr, heq]; rfl, hle, hv⟩
    · obtain ⟨x, hx, hsign, hrest⟩ := (parseDigits_skipSpaces_iff hup).1 hparse
      exact ⟨x, hx, by rwa [hsign]⟩
  · rintro ⟨x, rfl, hx⟩
    rw [x.skipSpaces_text]
    split at hx
    · next hsign =>
      rw [if_pos hsign]
      exact (parseDigits_eq_some_iff hdown).2
        ⟨x.digits, x.after, rfl, x.digits_ne_nil, x.isDigit_digits, x.isSpace_after, hx⟩
    · next hsign =>
      obtain ⟨c, digits, heq, hc⟩ := x.exists_digit
      rw [if_neg hsign, heq, parseSigned_of_head hc, ← heq]
      exact (parseDigits_eq_some_iff hup).2
        ⟨x.digits, x.after, rfl, x.digits_ne_nil, x.isDigit_digits, x.isSpace_after, hx⟩

/-! ### The four functions -/

section

variable (s : ByteString) (v : ℤ)
include s v

theorem safeStrto64_iff :
    safeStrto64 s = some v ↔ ∃ x : Numeral, x.text = s ∧ x.value = v ∧ -2 ^ 63 ≤ v ∧
    v < 2 ^ 63 := by
  refine (parseSigned_skipSpaces_iff accumulates_stepDown accumulates_stepUp).trans
    (exists_congr fun x ↦ and_congr_right fun _ ↦ ?_)
  rw [Numeral.value]
  cases x.negative <;> simp only [id, if_true, Bool.false_eq_true, if_false] <;> omega

theorem safeStrtou64_iff : safeStrtou64 s = some v ↔
      ∃ x : Numeral, x.text = s ∧ x.negative = false ∧ x.value = v ∧ v < 2 ^ 64 := by
  refine (parseDigits_skipSpaces_iff accumulates_stepUnsigned).trans
    (exists_congr fun x ↦ and_congr_right fun _ ↦ and_congr_right fun hsign ↦ ?_)
  rw [Numeral.value, hsign, if_neg Bool.false_ne_true]
  constructor
  · rintro ⟨hle, hv⟩
    rw [uint64_int64 (by omega)] at hv
    omega
  · rintro ⟨rfl, hlt⟩
    rw [uint64_int64 (by omega)]
    omega

theorem safeStrto32_iff :
    safeStrto32 s = some v ↔ ∃ x : Numeral, x.text = s ∧ x.value = v ∧ -2 ^ 31 ≤ v ∧
    v < 2 ^ 31 := by
  have hdown : Accumulates (stepChecked (kint32max + 1)) (fun n ↦ n) (2 ^ 31) :=
    accumulates_stepChecked (by decide) (by decide)
  have hup : Accumulates (stepChecked kint32max) (fun n ↦ n) (2 ^ 31 - 1) :=
    accumulates_stepChecked (by decide) (by decide)
  refine (parseSigned_skipSpaces_iff hdown hup).trans
    (exists_congr fun x ↦ and_congr_right fun _ ↦ ?_)
  rw [Numeral.value]
  cases x.negative
  · simp only [Bool.false_eq_true, if_false, mul_one]
    constructor
    · rintro ⟨hle, hv⟩
      rw [int32_of_lt (by omega) (by omega)] at hv
      omega
    · rintro ⟨rfl, hlo, hhi⟩
      rw [int32_of_lt (by omega) (by omega)]
      omega
  · simp only [if_true, mul_neg_one]
    constructor
    · rintro ⟨hle, hv⟩
      rw [int32_eq (by omega) (by omega)] at hv
      omega
    · rintro ⟨rfl, hlo, hhi⟩
      rw [int32_eq (by omega) (by omega)]
      omega

theorem safeStrtou32_iff : safeStrtou32 s = some v ↔
      ∃ x : Numeral, x.text = s ∧ x.negative = false ∧ x.value = v ∧ v < 2 ^ 32 := by
  have hacc : Accumulates (stepChecked kuint32max) (fun n ↦ n) (2 ^ 32 - 1) :=
    accumulates_stepChecked (by decide) (by decide)
  refine (parseDigits_skipSpaces_iff hacc).trans
    (exists_congr fun x ↦ and_congr_right fun _ ↦ and_congr_right fun hsign ↦ ?_)
  rw [Numeral.value, hsign, if_neg Bool.false_ne_true]
  simp only [uint32]
  omega

end

/-- **Exactly the decimal numbers that fit the type are accepted**, and the number stored is the one
denoted. -/
theorem safeStrto_iff (s : ByteString) (v : ℤ) :
    (safeStrto64 s = some v ↔ ∃ x : Numeral, x.text = s ∧ x.value = v ∧ -2 ^ 63 ≤ v ∧ v < 2 ^ 63) ∧
    (safeStrtou64 s = some v ↔
      ∃ x : Numeral, x.text = s ∧ x.negative = false ∧ x.value = v ∧ v < 2 ^ 64) ∧
    (safeStrto32 s = some v ↔ ∃ x : Numeral, x.text = s ∧ x.value = v ∧ -2 ^ 31 ≤ v ∧ v < 2 ^ 31) ∧
    (safeStrtou32 s = some v ↔
      ∃ x : Numeral, x.text = s ∧ x.negative = false ∧ x.value = v ∧ v < 2 ^ 32) :=
  ⟨safeStrto64_iff s v, safeStrtou64_iff s v, safeStrto32_iff s v, safeStrtou32_iff s v⟩

example : safeStrtou64 (ascii " 18446744073709551615\n") = some (2 ^ 64 - 1) := by decide

/-! ### Writing -/

/-- The digits that `FastUInt32ToBufferLeft` and `FastUInt64ToBufferLeft` write before they reverse
the buffer. -/
def bufferDigits (i : ℕ) : ByteString :=
  (48 + (i % 10).toUInt8) :: if 0 < i / 10 then bufferDigits (i / 10) else []

/-- `FastUInt64ToBufferLeft`. -/
def fastUInt64ToBufferLeft (i : UInt64) : ByteString := (bufferDigits i.toNat).reverse

/-- `FastUInt32ToBufferLeft`. -/
def fastUInt32ToBufferLeft (i : UInt32) : ByteString := (bufferDigits i.toNat).reverse

/-- A number with its sign; it is negated as an unsigned one. -/
def signedToBufferLeft (unsigned : ℤ → ℤ) (i : ℤ) : ByteString :=
  let u := if i < 0 then unsigned (0 - unsigned i) else unsigned i
  (if i < 0 then [45] else []) ++ (bufferDigits u.toNat).reverse

/-- `FastInt64ToBufferLeft`. -/
def fastInt64ToBufferLeft (i : Int64) : ByteString := signedToBufferLeft uint64 i.toInt

/-- `FastInt32ToBufferLeft`. -/
def fastInt32ToBufferLeft (i : Int32) : ByteString := signedToBufferLeft uint32 i.toInt

theorem reverse_bufferDigits (i : ℕ) : (bufferDigits i).reverse = decimal i := by
  fun_induction bufferDigits i with
  | case1 i ih =>
    rw [decimal]
    split_ifs with hpos hzero hzero
    · omega
    · rw [reverse_cons, ih hpos, decimal, if_neg hpos.ne',
        Nat.digits_def' (by decide) (Nat.pos_of_ne_zero hzero), reverse_cons, map_append]
      rfl
    · rw [hzero]
      rfl
    · rw [Nat.mod_eq_of_lt (by omega), Nat.digits_of_lt 10 i hzero (by omega)]
      rfl

/-- The numeral that is written. -/
def printed (negative : Bool) (n : ℕ) : Numeral where
  before := []
  negative := negative
  digits := decimal n
  after := []
  isSpace_before := by simp
  digits_ne_nil := decimal_ne_nil n
  isDigit_digits c hc := decide_eq_true
    ⟨UInt8.le_iff_toNat_le.2 (mem_decimal hc).1, UInt8.le_iff_toNat_le.2 (mem_decimal hc).2⟩
  isSpace_after := by simp

theorem text_printed (negative : Bool) (n : ℕ) :
    (printed negative n).text = (if negative then [45] else []) ++ (bufferDigits n).reverse := by
  cases negative <;> simp [printed, Numeral.text, Numeral.unsignedText, reverse_bufferDigits]

theorem exists_numeral {unsigned : ℤ → ℤ} {i : ℤ}
    (hu : (if i < 0 then unsigned (0 - unsigned i) else unsigned i) = i.natAbs) :
    ∃ x : Numeral, x.text = signedToBufferLeft unsigned i ∧ x.value = i := by
  refine ⟨printed (decide (i < 0)) i.natAbs, ?_, ?_⟩
  · simp only [text_printed, signedToBufferLeft, hu, decide_eq_true_eq, Int.toNat_natCast]
  · simp only [Numeral.value, printed, ofDecimal_decimal, decide_eq_true_eq]
    split_ifs <;> omega

/-- **What is written reads back as the same number**, for every number of each type. -/
theorem safeStrto_toBufferLeft :
    (∀ i : Int64, safeStrto64 (fastInt64ToBufferLeft i) = some i.toInt) ∧
    (∀ i : UInt64, safeStrtou64 (fastUInt64ToBufferLeft i) = some (i.toNat : ℤ)) ∧
    (∀ i : Int32, safeStrto32 (fastInt32ToBufferLeft i) = some i.toInt) ∧
    ∀ i : UInt32, safeStrtou32 (fastUInt32ToBufferLeft i) = some (i.toNat : ℤ) := by
  have hvalue : ∀ n, (printed false n).value = n := fun n ↦ congrArg Nat.cast (ofDecimal_decimal n)
  refine ⟨fun i ↦ ?_, fun i ↦ ?_, fun i ↦ ?_, fun i ↦ ?_⟩
  · have := i.le_toInt
    have := i.toInt_lt
    have hu : (if i.toInt < 0 then uint64 (0 - uint64 i.toInt) else uint64 i.toInt) =
        i.toInt.natAbs := by
      simp only [uint64]
      split_ifs <;> omega
    obtain ⟨x, hx, hv⟩ := exists_numeral hu
    exact (safeStrto64_iff _ _).2 ⟨x, hx, hv, by omega, by omega⟩
  · have := i.toNat_lt
    exact (safeStrtou64_iff _ _).2 ⟨_, text_printed false _, rfl, hvalue _, by omega⟩
  · have := i.le_toInt
    have := i.toInt_lt
    have hu : (if i.toInt < 0 then uint32 (0 - uint32 i.toInt) else uint32 i.toInt) =
        i.toInt.natAbs := by
      simp only [uint32]
      split_ifs <;> omega
    obtain ⟨x, hx, hv⟩ := exists_numeral hu
    exact (safeStrto32_iff _ _).2 ⟨x, hx, hv, by omega, by omega⟩
  · have := i.toNat_lt
    exact (safeStrtou32_iff _ _).2 ⟨_, text_printed false _, rfl, hvalue _, by omega⟩

end TensorFlowCore.Numbers
