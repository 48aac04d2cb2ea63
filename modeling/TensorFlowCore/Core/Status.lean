import Mathlib.Data.List.Basic
import Mathlib.Data.Nat.Digits.Defs

/-!
# Statuses and byte strings

The vocabulary shared by every component: `std::string` values as lists of bytes, the numbers that
`strings::StrCat` writes, the error codes of `error_codes.proto`, and the `Status` a fallible call
returns.
-/

namespace TensorFlowCore

/-- A `std::string`: any sequence of bytes. -/
abbrev ByteString := List UInt8

instance : LawfulBEq ByteString := inferInstance

/-- The bytes of a literal of the source (the source's literals are ASCII). -/
def ascii (s : String) : ByteString :=
  s.toList.map fun c ↦ c.toNat.toUInt8

/-- A number as `strings::StrCat` writes it. -/
def decimal (n : ℕ) : ByteString :=
  if n = 0 then [48] else (Nat.digits 10 n).reverse.map fun d ↦ 48 + d.toUInt8

/-- A signed number as `strings::StrCat` writes it. -/
def decimalInt (n : ℤ) : ByteString :=
  if n < 0 then 45 :: decimal n.natAbs else decimal n.natAbs

/-- The codes of `tensorflow/core/lib/core/error_codes.proto`, without `OK`. -/
inductive Code where
  | cancelled
  | unknown
  | invalidArgument
  | deadlineExceeded
  | notFound
  | alreadyExists
  | permissionDenied
  | resourceExhausted
  | failedPrecondition
  | aborted
  | outOfRange
  | unimplemented
  | internal
  | unavailable
  | dataLoss
  | unauthenticated
  deriving DecidableEq, Repr

/-- A `Status`: `Status::OK()`, or a code with its message. -/
inductive Status where
  | ok
  | error (code : Code) (msg : ByteString)
  deriving DecidableEq, Repr

namespace Status

/-- `Status::code`, where `OK` is none. -/
def code : Status → Option Code
  | ok => none
  | error code _ => some code

/-- `Status::error_message`. -/
def errorMessage : Status → ByteString
  | ok => []
  | error _ msg => msg

/-- `errors::Aborted`. -/
def aborted (msg : ByteString) : Status := error .aborted msg

@[simp] theorem aborted_ne_ok (msg : ByteString) : aborted msg ≠ ok := Status.noConfusion

end Status

/-- `errors::InvalidArgument`. -/
def invalidArgument (parts : List ByteString) : Status := .error .invalidArgument parts.flatten

/-- `errors::Internal`. -/
def internalError (parts : List ByteString) : Status := .error .internal parts.flatten

/-- `errors::IsOutOfRange`. -/
def isOutOfRange : Status → Bool
  | .error .outOfRange _ => true
  | _ => false

theorem code_of_isOutOfRange {s : Status} (h : isOutOfRange s = true) :
    s.code = some .outOfRange := by
  match s, h with
  | .error .outOfRange _, _ => rfl

@[simp] theorem invalidArgument_ne_ok (parts : List ByteString) :
    invalidArgument parts ≠ Status.ok := Status.noConfusion

@[simp] theorem internalError_ne_ok (parts : List ByteString) :
    internalError parts ≠ Status.ok := Status.noConfusion

/-!
## `Hash64`

`tensorflow/core/lib/hash/hash.cc`: the 64-bit hash that keys the rendezvous table. All arithmetic
is modulo `2 ^ 64`.
-/

/-- `core::DecodeFixed64`: the eight low bytes, least significant first. -/
def decodeFixed64 (data : ByteString) : UInt64 :=
  (data.take 8).foldr (fun b acc ↦ acc <<< 8 ||| b.toUInt64) 0

/-- The mixing constant `m` of `Hash64`. -/
def hash64Mul : UInt64 := 0xc6a4a7935bd1e995

/-- The `while (n >= 8)` loop of `Hash64`, and the bytes it leaves over. -/
def hash64Blocks : UInt64 → ByteString → UInt64 × ByteString
  | h, b₀ :: b₁ :: b₂ :: b₃ :: b₄ :: b₅ :: b₆ :: b₇ :: rest =>
    let k := decodeFixed64 [b₀, b₁, b₂, b₃, b₄, b₅, b₆, b₇] * hash64Mul
    let k := (k ^^^ (k >>> 47)) * hash64Mul
    hash64Blocks ((h ^^^ k) * hash64Mul) rest
  | h, rest => (h, rest)

/-- The fall-through `switch (n)` of `Hash64` on the at most seven bytes left: byte `i` is xored in
at bit `8 * i`, and the result is multiplied once when there is any byte at all. -/
def hash64Tail (h : UInt64) (rest : ByteString) : UInt64 :=
  if rest = [] then h else (h ^^^ decodeFixed64 rest) * hash64Mul

/-- `Hash64(data, n, seed)`. -/
def hash64Seeded (data : ByteString) (seed : UInt64) : UInt64 :=
  let blocks := hash64Blocks (seed ^^^ (data.length.toUInt64 * hash64Mul)) data
  let h := hash64Tail blocks.1 blocks.2
  let h := (h ^^^ (h >>> 47)) * hash64Mul
  h ^^^ (h >>> 47)

/-- `Hash64(data, n)`, with the default seed. -/
def hash64 (data : ByteString) : UInt64 := hash64Seeded data 0xDECAFCAFFE

end TensorFlowCore
