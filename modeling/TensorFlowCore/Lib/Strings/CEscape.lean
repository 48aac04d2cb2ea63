import TensorFlowCore.Core.Status
import TensorFlowCore.Support.PrefixReading

/-!
# Escapes of C

`CEscape` and `CUnescape` of `tensorflow/core/lib/strings/str_util.cc`. A call of `CUnescape` that
returns false has the text of its error for an outcome. The first loop of `CUnescapeInternal`, for a
source that is its own destination, moves over bytes that the second one would copy to where they
are.

A text is made of pieces: bytes that stand for themselves, escapes by a letter, and the octal and
hexadecimal ones, which take as many digits as they can (`Piece.Munches`). The accumulator of a
hexadecimal escape has 32 bits, so that the digits denote their number modulo `2 ^ 32` only.
-/

namespace TensorFlowCore.StrUtil

open List

/-- `hex_char`. -/
def hexChar : ByteString := ascii "0123456789abcdef"

/-- `isprint`, in the C locale. -/
def isPrint (c : UInt8) : Bool := 32 ≤ c ∧ c ≤ 126

/-- What `CEscape` appends for a byte. -/
def escapeByte (c : UInt8) : ByteString :=
  if c = 10 then [92, 110]
  else if c = 13 then [92, 114]
  else if c = 9 then [92, 116]
  else if c = 34 then [92, 34]
  else if c = 39 then [92, 39]
  else if c = 92 then [92, 92]
  else if c ≥ 0x80 ∨ ¬isPrint c then
    [92, hexChar.getD (c / 64).toNat 0, hexChar.getD (c % 64 / 8).toNat 0,
      hexChar.getD (c % 8).toNat 0]
  else [c]

/-- `CEscape`. -/
def cEscape (src : ByteString) : ByteString := src.flatMap escapeByte

/-- `is_octal_digit`. -/
def isOctalDigit (c : UInt8) : Bool := 48 ≤ c ∧ c ≤ 55

/-- `ascii_isxdigit`. -/
def asciiIsXDigit (c : UInt8) : Bool := (48 ≤ c ∧ c ≤ 57) ∨ (97 ≤ c ∧ c ≤ 102) ∨ (65 ≤ c ∧ c ≤ 70)

/-- `hex_digit_to_int`. -/
def hexDigitToInt (c : UInt8) : UInt32 :=
  let x := c.toUInt32
  (if x > 57 then x + 9 else x) &&& 0xf

/-- The escapes of one letter. -/
def letterEscape (c : UInt8) : Option UInt8 :=
  if c = 97 then some 7
  else if c = 98 then some 8
  else if c = 102 then some 12
  else if c = 110 then some 10
  else if c = 114 then some 13
  else if c = 116 then some 9
  else if c = 118 then some 11
  else if c = 92 then some 92
  else if c = 63 then some 63
  else if c = 39 then some 39
  else if c = 34 then some 34
  else none

/-- One more octal digit, if there is one; the code does this twice. -/
def octalStep : UInt32 × ByteString → UInt32 × ByteString
  | (ch, c :: p) => if isOctalDigit c then (ch * 8 + c.toUInt32 - 48, p) else (ch, c :: p)
  | (ch, []) => (ch, [])

/-- The loop over hexadecimal digits. -/
def hexLoop : UInt32 → ByteString → UInt32 × ByteString
  | ch, c :: p => if asciiIsXDigit c then hexLoop ((ch <<< 4) + hexDigitToInt c) p else (ch, c :: p)
  | ch, [] => (ch, [])

theorem length_octalStep_le (x : UInt32 × ByteString) : (octalStep x).2.length ≤ x.2.length := by
  obtain ⟨ch, p⟩ := x
  cases p with
  | nil => exact le_rfl
  | cons c p =>
    rw [octalStep]
    split
    · exact Nat.le_succ _
    · exact le_rfl

theorem length_hexLoop_le (ch : UInt32) (p : ByteString) : (hexLoop ch p).2.length ≤ p.length := by
  fun_induction hexLoop ch p with
  | case1 ch c p hc ih => exact ih.trans (Nat.le_succ _)
  | case2 ch c p hc => exact le_rfl
  | case3 ch => exact le_rfl

/-- The message for a number that is no byte, with the digits between two pointers. -/
def exceedsMessage (start rest : ByteString) : ByteString :=
  ascii "Value of \\" ++ start.take (start.length - rest.length) ++ ascii " exceeds 0xff"

/-- `CUnescape`. -/
def cUnescape : ByteString → Except ByteString ByteString
  | [] => .ok []
  | [c] => if c ≠ 92 then .ok [c] else .error (ascii "String cannot end with \\")
  | c :: e :: p =>
    if c ≠ 92 then (cUnescape (e :: p)).map (c :: ·)
    else
      match letterEscape e with
      | some b => (cUnescape p).map (b :: ·)
      | none =>
        if isOctalDigit e then
          let x := octalStep (octalStep (e.toUInt32 - 48, p))
          if x.1 > 0xff then .error (exceedsMessage (e :: p) x.2)
          else (cUnescape x.2).map (x.1.toUInt8 :: ·)
        else if e = 120 ∨ e = 88 then
          if p = [] then .error (ascii "String cannot end with \\x")
          else if ¬asciiIsXDigit (p.headD 0) then
            .error (ascii "\\x cannot be followed by a non-hex digit")
          else
            let x := hexLoop 0 p
            if x.1 > 0xff then .error (exceedsMessage (e :: p) x.2)
            else (cUnescape x.2).map (x.1.toUInt8 :: ·)
        else .error (ascii "Unknown escape sequence: \\" ++ [e])
termination_by p => p.length
decreasing_by
  · exact Nat.lt_succ_self _
  · exact Nat.lt_succ_of_lt (Nat.lt_succ_self _)
  · have hlen : (octalStep (octalStep (e.toUInt32 - 48, p))).2.length ≤ p.length :=
      (length_octalStep_le _).trans (length_octalStep_le _)
    simp only [List.length_cons]
    omega
  · have hlen := length_hexLoop_le 0 p
    simp only [List.length_cons]
    omega

/-! ### Pieces -/

/-- The number that digits write in a base, with the number each of them is. -/
def ofBase (base : ℕ) (digits : List ℕ) : ℕ := digits.foldl (fun n d ↦ n * base + d) 0

/-- The number of a hexadecimal digit. -/
def hexDigit (c : UInt8) : ℕ :=
  if c ≤ 57 then c.toNat - 48 else if c ≤ 70 then c.toNat - 55 else c.toNat - 87

/-- A byte that stands for itself, or an escape. -/
inductive Piece where
  | literal (c : UInt8)
  | letter (c b : UInt8)
  | octal (digits : ByteString)
  | hex (x : UInt8) (digits : ByteString)

namespace Piece

def text : Piece → ByteString
  | literal c => [c]
  | letter c _ => [92, c]
  | octal digits => 92 :: digits
  | hex x digits => 92 :: x :: digits

/-- The number denoted. -/
def value : Piece → ℕ
  | literal c => c.toNat
  | letter _ b => b.toNat
  | octal digits => ofBase 8 (digits.map fun c ↦ c.toNat - 48)
  | hex _ digits => ofBase 16 (digits.map hexDigit)

/-- The piece is well formed and goes as far as it can with this text behind it. -/
def Munches (rest : ByteString) : Piece → Prop
  | literal c => c ≠ 92
  | letter c b => letterEscape c = some b
  | octal digits => digits ≠ [] ∧ (∀ c ∈ digits, isOctalDigit c = true) ∧ digits.length ≤ 3 ∧
      (digits.length < 3 → ∀ c ∈ rest.head?, isOctalDigit c = false)
  | hex x digits => (x = 120 ∨ x = 88) ∧ digits ≠ [] ∧ (∀ c ∈ digits, asciiIsXDigit c = true) ∧
      ∀ c ∈ rest.head?, asciiIsXDigit c = false

end Piece

/-- The text starts with these pieces, and goes on with the rest. -/
inductive Splits : List Piece → ByteString → ByteString → Prop
  | nil (rest : ByteString) : Splits [] rest rest
  | cons {piece : Piece} {pieces : List Piece} {s rest : ByteString} (hpiece : piece.Munches s)
      (h : Splits pieces s rest) : Splits (piece :: pieces) (piece.text ++ s) rest

/-- No piece starts here: there is a lone backslash, an unknown escape, or a hexadecimal escape
without digits. -/
def Stuck (rest : ByteString) : Prop :=
  rest = [92] ∨
    (∃ c p, rest = 92 :: c :: p ∧ letterEscape c = none ∧ isOctalDigit c = false ∧ c ≠ 120 ∧
    c ≠ 88) ∨
    ∃ x p, rest = 92 :: x :: p ∧ (x = 120 ∨ x = 88) ∧ ∀ c ∈ p.head?, asciiIsXDigit c = false

/-- The text holds a bad escape: there is a piece that denotes no byte, or none at all. -/
def Bad (source : ByteString) : Prop :=
  ∃ pieces rest, Splits pieces source rest ∧ (Stuck rest ∨ ∃ piece ∈ pieces, 255 < piece.value)

/-! ### Digits -/

theorem asciiIsXDigit_spec : ∀ n < 256, asciiIsXDigit n.toUInt8 = true →
    (hexDigitToInt n.toUInt8).toNat = hexDigit n.toUInt8 ∧ hexDigit n.toUInt8 < 16 := by
  decide +kernel

theorem toNat_hexDigitToInt (h : asciiIsXDigit c = true) :
    (hexDigitToInt c).toNat = hexDigit c ∧ hexDigit c < 16 := by
  have hc := asciiIsXDigit_spec c.toNat c.toNat_lt
  rw [show c.toNat.toUInt8 = c from UInt8.ofNat_toNat] at hc
  exact hc h

/-- Digits may be taken in modulo any number. -/
theorem foldl_mod (digits : List ℕ) (n m : ℕ) :
    digits.foldl (fun n d ↦ n * 16 + d) (n % m) % m = digits.foldl (fun n d ↦ n * 16 + d) n
    % m := by
  induction digits generalizing n with
  | nil => exact Nat.mod_mod n m
  | cons d digits ih =>
    have hstep : (n % m * 16 + d) % m = (n * 16 + d) % m := by
      rw [Nat.add_mod, Nat.mul_mod, Nat.mod_mod, ← Nat.mul_mod, ← Nat.add_mod]
    rw [foldl_cons, foldl_cons, ← ih, hstep, ih]

/-- The loop goes over the digits, and its accumulator wraps around. -/
theorem hexLoop_append {digits rest : ByteString} (hdigits : ∀ c ∈ digits, asciiIsXDigit c = true)
    (hrest : ∀ c ∈ rest.head?, asciiIsXDigit c = false) (ch : UInt32) :
    (hexLoop ch (digits ++ rest)).2 = rest ∧ (hexLoop ch (digits ++ rest)).1.toNat =
      (digits.map hexDigit).foldl (fun n d ↦ n * 16 + d) ch.toNat % 2 ^ 32 := by
  induction digits generalizing ch with
  | nil =>
    cases rest with
    | nil => exact ⟨rfl, (Nat.mod_eq_of_lt ch.toNat_lt).symm⟩
    | cons c rest =>
      have hc := hrest c rfl
      rw [nil_append, hexLoop, if_neg (by simp [hc])]
      exact ⟨rfl, (Nat.mod_eq_of_lt ch.toNat_lt).symm⟩
  | cons c digits ih =>
    obtain ⟨hc, hdigits⟩ := forall_mem_cons.1 hdigits
    obtain ⟨hvalue, -⟩ := toNat_hexDigitToInt hc
    rw [cons_append, hexLoop, if_pos hc]
    obtain ⟨hrest', hnum⟩ := ih hdigits ((ch <<< 4) + hexDigitToInt c)
    refine ⟨hrest', hnum.trans ?_⟩
    have hstep : ((ch <<< 4) + hexDigitToInt c).toNat = (ch.toNat * 16 + hexDigit c) % 2 ^ 32 := by
      rw [UInt32.toNat_add, UInt32.toNat_shiftLeft, Nat.shiftLeft_eq, hvalue]
      show (ch.toNat * 16 % 2 ^ 32 + hexDigit c) % 2 ^ 32 = _
      omega
    rw [hstep, map_cons, foldl_cons]
    exact foldl_mod _ _ _

theorem toNat_of_isOctalDigit (h : isOctalDigit c = true) : 48 ≤ c.toNat ∧ c.toNat ≤ 55 := by
  obtain ⟨hlo, hhi⟩ : 48 ≤ c ∧ c ≤ 55 := by simpa [isOctalDigit] using h
  exact ⟨UInt8.le_iff_toNat_le.1 hlo, UInt8.le_iff_toNat_le.1 hhi⟩

theorem toNat_octal_add {ch : UInt32} (hch : ch.toNat < 64) (hc : isOctalDigit c = true) :
    (ch * 8 + c.toUInt32 - 48).toNat = ch.toNat * 8 + (c.toNat - 48) := by
  obtain ⟨hlo, hhi⟩ := toNat_of_isOctalDigit hc
  have hadd : (ch * 8 + c.toUInt32).toNat = ch.toNat * 8 + c.toNat := by
    rw [UInt32.toNat_add, UInt32.toNat_mul, UInt8.toNat_toUInt32]
    show (ch.toNat * 8 % 2 ^ 32 + c.toNat) % 2 ^ 32 = _
    omega
  have hle : 48 ≤ ch * 8 + c.toUInt32 := by
    rw [UInt32.le_iff_toNat_le, hadd]
    exact hlo.trans (Nat.le_add_left _ _)
  rw [UInt32.toNat_sub_of_le _ _ hle, hadd]
  show ch.toNat * 8 + c.toNat - 48 = _
  omega

theorem octalStep_of_stop {ch : UInt32} {rest : ByteString}
    (h : ∀ c ∈ rest.head?, isOctalDigit c = false) : octalStep (ch, rest) = (ch, rest) := by
  cases rest with
  | nil => rfl
  | cons c rest =>
    have hc := h c rfl
    rw [octalStep, if_neg (by simp [hc])]

theorem octalStep_of_digit {ch : UInt32} (rest : ByteString) (h : isOctalDigit c = true) :
    octalStep (ch, c :: rest) = (ch * 8 + c.toUInt32 - 48, rest) := by
  rw [octalStep, if_pos h]

/-- The two steps behind the first digit take the other ones, and their number is exact. -/
theorem octalStep_octalStep {e : UInt8} {digits rest : ByteString}
    (h : (Piece.octal (e :: digits)).Munches rest) :
    (octalStep (octalStep (e.toUInt32 - 48, digits ++ rest))).2 = rest ∧
      (octalStep (octalStep (e.toUInt32 - 48, digits ++ rest))).1.toNat =
        (Piece.octal (e :: digits)).value ∧ (Piece.octal (e :: digits)).value < 512 := by
  obtain ⟨-, hdigits, hlen, hstop⟩ := h
  obtain ⟨he, hdigits⟩ := forall_mem_cons.1 hdigits
  obtain ⟨helo, hehi⟩ := toNat_of_isOctalDigit he
  have hfirst : (e.toUInt32 - 48).toNat = e.toNat - 48 := by
    have hle : 48 ≤ e.toUInt32 := by
      rw [UInt32.le_iff_toNat_le, UInt8.toNat_toUInt32]
      exact helo
    rw [UInt32.toNat_sub_of_le _ _ hle, UInt8.toNat_toUInt32]
    rfl
  simp only [Piece.value, ofBase, map_cons, foldl_cons, Nat.zero_mul, Nat.zero_add]
  match digits, hdigits, hlen, hstop with
  | [], _, _, hstop =>
    have hrest := hstop (by simp)
    rw [nil_append, octalStep_of_stop hrest, octalStep_of_stop hrest]
    refine ⟨rfl, hfirst, ?_⟩
    simp only [map_nil, foldl_nil]
    omega
  | [a], hdigits, _, hstop =>
    have ha := hdigits a (by simp)
    obtain ⟨halo, hahi⟩ := toNat_of_isOctalDigit ha
    have hrest := hstop (by simp)
    rw [singleton_append, octalStep_of_digit _ ha, octalStep_of_stop hrest]
    refine ⟨rfl, ?_, ?_⟩
    · rw [toNat_octal_add (by omega) ha, hfirst]
      rfl
    · simp only [map_cons, map_nil, foldl_cons, foldl_nil]
      omega
  | [a, b], hdigits, _, _ =>
    have ha := hdigits a (by simp)
    have hb := hdigits b (by simp)
    obtain ⟨halo, hahi⟩ := toNat_of_isOctalDigit ha
    obtain ⟨hblo, hbhi⟩ := toNat_of_isOctalDigit hb
    have hfit : (e.toUInt32 - 48).toNat < 64 := by omega
    have hsecond := toNat_octal_add hfit ha
    rw [cons_append, singleton_append, octalStep_of_digit _ ha, octalStep_of_digit _ hb]
    refine ⟨rfl, ?_, ?_⟩
    · rw [toNat_octal_add (by omega) hb, hsecond, hfirst]
      rfl
    · simp only [map_cons, map_nil, foldl_cons, foldl_nil]
      omega
  | _ :: _ :: _ :: digits, _, hlen, _ =>
    simp only [length_cons] at hlen
    omega

/-! ### Pieces and the loop -/

/-- The number that the accumulator holds for a piece. -/
def Piece.stored (piece : Piece) : ℕ := piece.value % 2 ^ 32

theorem letterEscape_of_isOctalDigit : ∀ n < 256, isOctalDigit n.toUInt8 = true →
    letterEscape n.toUInt8 = none := by
  decide +kernel

variable {piece : Piece} {rest : ByteString}

theorem letterEscape_eq_none (h : isOctalDigit c = true) : letterEscape c = none := by
  have hc := letterEscape_of_isOctalDigit c.toNat c.toNat_lt
  rw [show c.toNat.toUInt8 = c from UInt8.ofNat_toNat] at hc
  exact hc h

/-- A number that the accumulator holds is stored if it is one of a byte. -/
theorem stored_of_accumulator {x : UInt32} {n : ℕ} (h : x.toNat = n) :
    (x > 0xff ↔ 255 < n) ∧ x.toUInt8 = n.toUInt8 := by
  subst h
  refine ⟨UInt32.lt_iff_toNat_lt, UInt8.toNat_inj.1 ?_⟩
  rw [UInt32.toNat_toUInt8, UInt8.toNat_ofNat']

/-- The loop stops at a piece that is too large, or goes over it. -/
def GoesOver (piece : Piece) (rest : ByteString) : Prop :=
  if 255 < piece.stored then ∃ msg, cUnescape (piece.text ++ rest) = .error msg
  else cUnescape (piece.text ++ rest) = (cUnescape rest).map (piece.stored.toUInt8 :: ·)

/-- One byte is no larger than a byte. -/
theorem goesOver_of_byte {b : UInt8} (hvalue : piece.value = b.toNat)
    (h : cUnescape (piece.text ++ rest) = (cUnescape rest).map (b :: ·)) : GoesOver piece rest := by
  have hb := b.toNat_lt
  have hstored : piece.stored = b.toNat := by
    rw [Piece.stored, hvalue, Nat.mod_eq_of_lt (by omega)]
  rw [GoesOver, hstored, if_neg (by omega), h]
  simp

/-- What follows an accumulator. -/
theorem goesOver_of_accumulator {x : UInt32 × ByteString} (msg : ByteString) (hrest : x.2 = rest)
    (hx : x.1.toNat = piece.stored) (h : cUnescape (piece.text ++ rest) =
      if x.1 > 0xff then .error msg else (cUnescape x.2).map (x.1.toUInt8 :: ·)) :
    GoesOver piece rest := by
  obtain ⟨hlarge, hbyte⟩ := stored_of_accumulator hx
  rw [GoesOver, h, hrest, hbyte]
  split
  · next hlt => exact ⟨msg, if_pos (hlarge.2 hlt)⟩
  · next hle => exact if_neg fun hlt ↦ hle (hlarge.1 hlt)

/-- How the loop goes over a piece. -/
theorem goesOver (h : piece.Munches rest) : GoesOver piece rest := by
  cases piece with
  | literal c =>
    have hc : c ≠ 92 := h
    refine goesOver_of_byte rfl ?_
    show cUnescape (c :: rest) = _
    cases rest with
    | nil =>
      have hlast : cUnescape [c] = .ok [c] := by rw [cUnescape, if_pos hc]
      rw [hlast, cUnescape, Except.map]
    | cons e p => rw [cUnescape, if_pos hc]
  | letter c b =>
    refine goesOver_of_byte rfl ?_
    show cUnescape (92 :: c :: rest) = _
    have hletter : letterEscape c = some b := h
    rw [cUnescape, if_neg (by simp), hletter]
  | octal digits =>
    obtain ⟨e, digits, rfl⟩ := exists_cons_of_ne_nil h.1
    obtain ⟨hrest, hnum, hlt⟩ := octalStep_octalStep h
    have he := h.2.1 e mem_cons_self
    refine goesOver_of_accumulator (exceedsMessage (e :: (digits ++ rest))
      (octalStep (octalStep (e.toUInt32 - 48, digits ++ rest))).2) hrest ?_ ?_
    · rw [hnum, Piece.stored, Nat.mod_eq_of_lt (by omega)]
    · show cUnescape (92 :: e :: (digits ++ rest)) = _
      rw [cUnescape, if_neg (by simp), letterEscape_eq_none he]
      rw [if_pos he]
  | hex x digits =>
    obtain ⟨hx, hne, hdigits, hstop⟩ := h
    obtain ⟨hrest, hnum⟩ := hexLoop_append hdigits hstop 0
    obtain ⟨d, digits, rfl⟩ := exists_cons_of_ne_nil hne
    have hd := hdigits d mem_cons_self
    have hletter : letterEscape x = none ∧ isOctalDigit x = false := by
      obtain rfl | rfl := hx <;> decide
    refine goesOver_of_accumulator (exceedsMessage (x :: (d :: digits ++ rest))
      (hexLoop 0 (d :: digits ++ rest)).2) hrest hnum ?_
    show cUnescape (92 :: x :: (d :: digits ++ rest)) = _
    rw [cUnescape, if_neg (by simp), hletter.1]
    rw [if_neg (by simp [hletter.2]), if_pos hx, if_neg (by simp), if_neg (by simpa using hd)]

/-- Where no piece starts the loop stops. -/
theorem exists_error_of_stuck (h : Stuck rest) : ∃ msg, cUnescape rest = .error msg := by
  obtain rfl | ⟨c, p, rfl, hletter, hoctal, hx, hx'⟩ | ⟨x, p, rfl, hx, hstop⟩ := h
  · exact ⟨_, by rw [cUnescape, if_neg (by simp)]⟩
  · refine ⟨ascii "Unknown escape sequence: \\" ++ [c], ?_⟩
    rw [cUnescape, if_neg (by simp), hletter]
    rw [if_neg (by simp [hoctal]), if_neg (by simp [hx, hx'])]
  · have hletter : letterEscape x = none ∧ isOctalDigit x = false := by
      obtain rfl | rfl := hx <;> decide
    rw [cUnescape, if_neg (by simp), hletter.1]
    rw [if_neg (by simp [hletter.2]), if_pos hx]
    cases p with
    | nil => exact ⟨_, if_pos rfl⟩
    | cons c p =>
      have hc := hstop c rfl
      rw [if_neg (cons_ne_nil c p), if_pos (by simpa using hc)]
      exact ⟨_, rfl⟩

/-- Every text that is not empty starts with a piece, or none starts there. -/
theorem stuck_or_exists_piece {source : ByteString} (hne : source ≠ []) :
    Stuck source ∨ ∃ (piece : Piece) (rest : ByteString),
      source = piece.text ++ rest ∧ piece.Munches rest := by
  match source with
  | c :: p =>
    by_cases hc : c = 92
    swap
    · exact .inr ⟨.literal c, p, rfl, hc⟩
    subst hc
    match p with
    | [] => exact .inl (.inl rfl)
    | e :: p =>
      cases hletter : letterEscape e with
      | some b => exact .inr ⟨.letter e b, p, rfl, hletter⟩
      | none =>
        by_cases hoctal : isOctalDigit e = true
        · obtain ⟨digits, rest, rfl, hdigits, hle, hstop⟩ :=
            exists_prefix_of_length_le isOctalDigit 2 p
          refine .inr ⟨.octal (e :: digits), rest, rfl, cons_ne_nil _ _,
            forall_mem_cons.2 ⟨hoctal, hdigits⟩, Nat.succ_le_succ hle, fun h ↦ hstop ?_⟩
          exact Nat.lt_of_succ_lt_succ h
        · have hoctal' : isOctalDigit e = false := Bool.eq_false_iff.2 hoctal
          by_cases hx : e = 120 ∨ e = 88
          · obtain ⟨digits, rest, rfl, hdigits, hstop⟩ := exists_prefix asciiIsXDigit p
            by_cases hnil : digits = []
            · subst hnil
              exact .inl (.inr (.inr ⟨e, rest, rfl, hx, hstop⟩))
            · exact .inr ⟨.hex e digits, rest, rfl, hx, hnil, hdigits, hstop⟩
          · rw [not_or] at hx
            exact .inl (.inr (.inl ⟨e, p, rfl, hletter, hoctal', hx.1, hx.2⟩))

/-- Every text can be split, up to its end or to where no piece starts. -/
theorem exists_splits (source : ByteString) :
    ∃ pieces rest, Splits pieces source rest ∧ (rest = [] ∨ Stuck rest) := by
  induction hn : source.length using Nat.strong_induction_on generalizing source with
  | h n ih =>
    by_cases hne : source = []
    · exact ⟨[], source, .nil _, .inl hne⟩
    obtain hstuck | ⟨piece, rest, rfl, hpiece⟩ := stuck_or_exists_piece hne
    · exact ⟨[], source, .nil _, .inr hstuck⟩
    · have hpos : 0 < piece.text.length := by cases piece <;> simp [Piece.text]
      rw [length_append] at hn
      obtain ⟨pieces, rest', hsplits, hend⟩ := ih rest.length (by omega) rest rfl
      exact ⟨piece :: pieces, rest', .cons hpiece hsplits, hend⟩

/-! ### What is rejected -/

variable {pieces : List Piece} {source : ByteString}

/-- The text holds an escape that the code finds bad. -/
def VisiblyBad (source : ByteString) : Prop :=
  ∃ pieces rest, Splits pieces source rest ∧ (Stuck rest ∨ ∃ piece ∈ pieces, 255 < piece.stored)

theorem Splits.exists_error (h : Splits pieces source rest)
    (hbad : Stuck rest ∨ ∃ piece ∈ pieces, 255 < piece.stored) :
    ∃ msg, cUnescape source = .error msg := by
  induction h with
  | nil rest =>
    obtain hstuck | ⟨piece, hmem, -⟩ := hbad
    · exact exists_error_of_stuck hstuck
    · exact absurd hmem not_mem_nil
  | @cons piece pieces s rest hpiece h ih =>
    have hover := goesOver hpiece
    rw [GoesOver] at hover
    split at hover
    · exact hover
    · next hsmall =>
      rw [hover]
      have hbad' : Stuck rest ∨ ∃ piece ∈ pieces, 255 < piece.stored := by
        refine hbad.imp_right ?_
        rintro ⟨piece', hmem, hlarge⟩
        obtain rfl | hmem := mem_cons.1 hmem
        · exact absurd hlarge hsmall
        · exact ⟨piece', hmem, hlarge⟩
      obtain ⟨msg, hmsg⟩ := ih hbad'
      exact ⟨msg, by rw [hmsg]; rfl⟩

theorem Splits.exists_ok (h : Splits pieces source [])
    (hsmall : ∀ piece ∈ pieces, piece.stored ≤ 255) : ∃ dest, cUnescape source = .ok dest := by
  generalize hend : ([] : ByteString) = rest at h
  induction h with
  | nil rest =>
    subst hend
    exact ⟨[], by rw [cUnescape]⟩
  | @cons piece pieces s rest hpiece h ih =>
    obtain ⟨hfirst, hsmall⟩ := forall_mem_cons.1 hsmall
    have hover := goesOver hpiece
    rw [GoesOver, if_neg (Nat.not_lt.2 hfirst)] at hover
    obtain ⟨dest, hdest⟩ := ih hsmall hend
    exact ⟨_, by rw [hover, hdest]; rfl⟩

/-- The code rejects exactly what it finds bad. -/
theorem exists_error_iff (source : ByteString) :
    (∃ msg, cUnescape source = .error msg) ↔ VisiblyBad source := by
  constructor
  · rintro ⟨msg, hmsg⟩
    obtain ⟨pieces, rest, hsplits, hend⟩ := exists_splits source
    refine ⟨pieces, rest, hsplits, ?_⟩
    by_contra hgood
    rw [not_or, not_exists] at hgood
    obtain rfl := hend.resolve_right hgood.1
    obtain ⟨dest, hdest⟩ := hsplits.exists_ok fun piece hmem ↦
      Nat.not_lt.1 fun hlarge ↦ hgood.2 piece ⟨hmem, hlarge⟩
    rw [hmsg] at hdest
    cases hdest
  · rintro ⟨pieces, rest, hsplits, hbad⟩
    exact hsplits.exists_error hbad

theorem VisiblyBad.bad (h : VisiblyBad source) : Bad source := by
  obtain ⟨pieces, rest, hsplits, hbad⟩ := h
  refine ⟨pieces, rest, hsplits, hbad.imp_right ?_⟩
  rintro ⟨piece, hmem, hlarge⟩
  exact ⟨piece, hmem, hlarge.trans_le (Nat.mod_le _ _)⟩

/-! ### What is written by the encoder -/

/-- The piece that stands for a byte. -/
def pieceOf (c : UInt8) : Piece :=
  if c = 10 then .letter 110 10
  else if c = 13 then .letter 114 13
  else if c = 9 then .letter 116 9
  else if c = 34 then .letter 34 34
  else if c = 39 then .letter 39 39
  else if c = 92 then .letter 92 92
  else if c ≥ 0x80 ∨ ¬isPrint c then
    .octal [hexChar.getD (c / 64).toNat 0, hexChar.getD (c % 64 / 8).toNat 0,
      hexChar.getD (c % 8).toNat 0]
  else .literal c

/-- The piece is well formed and takes nothing of what is behind it. -/
def Piece.complete : Piece → Bool
  | literal c => c ≠ 92
  | letter c b => letterEscape c = some b
  | octal digits => digits.all isOctalDigit && digits.length = 3
  | hex _ _ => false

theorem Piece.munches_of_complete (h : piece.complete = true) : piece.Munches rest := by
  cases piece with
  | literal c =>
    have hc : c ≠ 92 := by simpa [complete] using h
    exact hc
  | letter c b =>
    have hb : letterEscape c = some b := by simpa [complete] using h
    exact hb
  | octal digits =>
    obtain ⟨hdigits, hlen⟩ : (∀ c ∈ digits, isOctalDigit c = true) ∧ digits.length = 3 := by
      simpa [complete] using h
    exact ⟨ne_nil_of_length_eq_add_one hlen, hdigits, hlen.le, fun hlt ↦ absurd hlen hlt.ne⟩
  | hex x digits => exact absurd h Bool.false_ne_true

theorem pieceOf_spec : ∀ n < 256, (pieceOf n.toUInt8).text = escapeByte n.toUInt8 ∧
    (pieceOf n.toUInt8).value = n ∧ (pieceOf n.toUInt8).complete = true := by
  decide +kernel

theorem cUnescape_escapeByte (c : UInt8) (rest : ByteString) :
    cUnescape (escapeByte c ++ rest) = (cUnescape rest).map (c :: ·) := by
  obtain ⟨htext, hvalue, hcomplete⟩ := pieceOf_spec c.toNat c.toNat_lt
  have hback : c.toNat.toUInt8 = c := UInt8.ofNat_toNat
  have hlt := c.toNat_lt
  rw [hback] at htext hvalue hcomplete
  have hmunches : (pieceOf c).Munches rest := Piece.munches_of_complete hcomplete
  have hover := goesOver hmunches
  have hstored : (pieceOf c).stored = c.toNat := by
    rw [Piece.stored, hvalue, Nat.mod_eq_of_lt (by omega)]
  rwa [GoesOver, hstored, if_neg (by omega), htext, hback] at hover

/-- `CUnescape` undoes `CEscape`. -/
theorem cUnescape_cEscape (src : ByteString) : cUnescape (cEscape src) = .ok src := by
  induction src with
  | nil => rw [cEscape, flatMap_nil, cUnescape]
  | cons c src ih =>
    rw [cEscape, flatMap_cons, cUnescape_escapeByte]
    show (cUnescape (cEscape src)).map (c :: ·) = _
    rw [ih, Except.map]

/-- The texts are taken apart as they should exactly if no escape that denotes no byte wraps around
to one, unless the code finds another one bad. -/
theorem cUnescape_iff (source : ByteString) :
    (cUnescape (cEscape source) = .ok source ∧
      ((∃ msg, cUnescape source = .error msg) ↔ Bad source)) ↔
    VisiblyBad source ∨ ∀ pieces rest, Splits pieces source rest → ∀ piece ∈ pieces,
      255 < piece.value → 255 < piece.value % 2 ^ 32 := by
  rw [exists_error_iff, and_iff_right (cUnescape_cEscape source)]
  constructor
  · intro h
    by_cases hvisible : VisiblyBad source
    · exact .inl hvisible
    · refine .inr fun pieces rest hsplits piece hmem hlarge ↦ ?_
      exact absurd (h.2 ⟨pieces, rest, hsplits, .inr ⟨piece, hmem, hlarge⟩⟩) hvisible
  · intro h
    refine ⟨VisiblyBad.bad, fun hbad ↦ ?_⟩
    obtain hvisible | hexact := h
    · exact hvisible
    · obtain ⟨pieces, rest, hsplits, hend⟩ := hbad
      refine ⟨pieces, rest, hsplits, hend.imp_right ?_⟩
      rintro ⟨piece, hmem, hlarge⟩
      exact ⟨piece, hmem, hexact pieces rest hsplits piece hmem hlarge⟩

/-- Nine digits denote a number above `2 ^ 32`, of which the accumulator keeps an `A`. -/
theorem not_cUnescape_bad : ¬∀ source : ByteString,
    cUnescape (cEscape source) = .ok source ∧
      ((∃ msg, cUnescape source = .error msg) ↔ Bad source) := by
  intro h
  have hpiece : (Piece.hex 120 (ascii "100000041")).Munches [] :=
    ⟨.inl rfl, by decide, all_eq_true.1 (by decide), by simp⟩
  have hover := goesOver hpiece
  have hstored : (Piece.hex 120 (ascii "100000041")).stored = 65 := by decide
  rw [GoesOver, hstored, if_neg (by decide), cUnescape] at hover
  have hbad : Bad ((Piece.hex 120 (ascii "100000041")).text ++ []) :=
    ⟨[_], [], .cons hpiece (.nil _), .inr ⟨_, mem_cons_self, by decide⟩⟩
  obtain ⟨msg, hmsg⟩ := (h _).2.2 hbad
  rw [hover] at hmsg
  cases hmsg

end TensorFlowCore.StrUtil
