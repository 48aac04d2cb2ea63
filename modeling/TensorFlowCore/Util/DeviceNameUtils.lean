import TensorFlowCore.Graph.GraphConstructor

/-!
# Device names

`DeviceNameUtils` of `tensorflow/core/util/device_name_utils.cc`. A component that has no value
(`has_job` is false, for instance) is `none`; the value such a component may still hold is never
read.
-/

namespace TensorFlowCore

open GraphConstructor

/-- `DeviceNameUtils::ParsedName`. -/
structure ParsedName where
  job : Option ByteString := none
  replica : Option ℤ := none
  task : Option ℤ := none
  type : Option ByteString := none
  id : Option ℤ := none
  deriving DecidableEq

namespace DeviceNameUtils

/-! ### Parsing -/

/-- `IsAlpha`. -/
def isAlpha (c : UInt8) : Bool := 97 ≤ c ∧ c ≤ 122 ∨ 65 ≤ c ∧ c ≤ 90

/-- `IsAlphaNum`. -/
def isAlphaNum (c : UInt8) : Bool := isAlpha c ∨ isDigit c

/-- `IsJobName`. -/
def isJobName : ByteString → Bool
  | [] => false
  | c :: rest => isAlpha c ∧ rest.all fun d ↦ isAlphaNum d ∨ d = 95

/-- `str_util::ConsumePrefix`. -/
def consumePrefix (pre s : ByteString) : Option ByteString :=
  if s.take pre.length = pre then some (s.drop pre.length) else none

/-- A letter and what follows it up to one of the `stops` or to the end, if it is a name. -/
def consumeName (stops : List UInt8) (s : ByteString) : Option (ByteString × ByteString) :=
  match s with
  | [] => none
  | c :: rest =>
    let name := rest.takeWhile fun d ↦ d ∉ stops
    if isAlpha c ∧ name.all fun d ↦ isAlphaNum d ∨ d = 95 then
      some (c :: name, rest.dropWhile fun d ↦ d ∉ stops)
    else none

/-- `ConsumeJobName`: up to a slash. -/
def consumeJobName : ByteString → Option (ByteString × ByteString) := consumeName [47]

/-- `ConsumeDeviceType`: up to a slash or a colon. -/
def consumeDeviceType : ByteString → Option (ByteString × ByteString) := consumeName [47, 58]

/-- The digits of `ConsumeLeadingDigits`, in a `uint64`; no value if they overflow. -/
def leadingDigits : ByteString → ℕ → Option ℕ
  | [], v => some v
  | c :: digits, v =>
    let v' := (v * 10 + (c.toNat - 48)) % 2 ^ 64
    if v' / 8 < v then none else leadingDigits digits v'

/-- `ConsumeNumber`. -/
def consumeNumber (s : ByteString) : Option (ℤ × ByteString) :=
  if s.takeWhile isDigit = [] then none
  else (leadingDigits (s.takeWhile isDigit) 0).map fun v ↦ (int32 v, s.dropWhile isDigit)

/-- A star, which leaves a component open, or the value of the component. -/
def consumeComponent {β : Type} (consume : ByteString → Option (β × ByteString)) (s : ByteString) :
    Option (Option β × ByteString) :=
  match consumePrefix (ascii "*") s with
  | some rest => some (none, rest)
  | none => (consume s).map fun r ↦ (some r.1, r.2)

/-- A component behind one of its names; nothing happens where no such name stands. -/
def parseComponent {β : Type} (names : List String)
    (parse : ByteString → Option (β × ByteString)) (set : ParsedName → β → ParsedName)
    (p : ParsedName × ByteString) : Option (ParsedName × ByteString) :=
  match names.findSome? fun name ↦ consumePrefix (ascii name) p.2 with
  | none => some p
  | some rest => (parse rest).map fun r ↦ (set p.1 r.1, r.2)

/-- The type of a device and, behind a colon, its id. -/
def consumeDevice (s : ByteString) :
    Option ((Option ByteString × Option ℤ) × ByteString) := do
  let (type, rest) ← consumeComponent consumeDeviceType s
  match consumePrefix (ascii ":") rest with
  | none => return ((type, none), rest)
  | some rest =>
    let (id, rest) ← consumeComponent consumeNumber rest
    return ((type, id), rest)

/-- One round of `ParseFullName`. -/
def parseRound (p : ParsedName × ByteString) : Option (ParsedName × ByteString) := do
  let p ← parseComponent ["/job:"] (consumeComponent consumeJobName) ({ · with job := · }) p
  let p ← parseComponent ["/replica:"] (consumeComponent consumeNumber) ({ · with replica := · }) p
  let p ← parseComponent ["/task:"] (consumeComponent consumeNumber) ({ · with task := · }) p
  let p ← parseComponent ["/device:"] consumeDevice
    (fun p r ↦ { p with type := r.1, id := r.2 }) p
  let p ← parseComponent ["/cpu:", "/CPU:"] (consumeComponent consumeNumber)
    (fun p id ↦ { p with type := some (ascii "CPU"), id := id }) p
  parseComponent ["/gpu:", "/GPU:"] (consumeComponent consumeNumber)
    (fun p id ↦ { p with type := some (ascii "GPU"), id := id }) p

/-- The rounds of `ParseFullName`; a round that consumes nothing is an error. -/
def parseRounds : ℕ → ParsedName × ByteString → Option ParsedName
  | 0, p => if p.2 = [] then some p.1 else none
  | fuel + 1, p =>
    if p.2 = [] then some p.1
    else
      match parseRound p with
      | none => none
      | some q => if q.2.length < p.2.length then parseRounds fuel q else none

/-- `FullName`; no value where a `CHECK` fails. -/
def fullName (job : ByteString) (replica task : ℤ) (type : ByteString) (id : ℤ) :
    Option ByteString :=
  if isJobName job ∧ 0 ≤ replica ∧ 0 ≤ task ∧ type ≠ [] ∧ 0 ≤ id then
    some (ascii "/job:" ++ job ++ ascii "/replica:" ++ decimalInt replica ++ ascii "/task:" ++
      decimalInt task ++ ascii "/device:" ++ type ++ ascii ":" ++ decimalInt id)
  else none

/-- `ParseFullName`. -/
def parseFullName (fullname : ByteString) : Option ParsedName :=
  if fullname = ascii "/" then some {} else parseRounds fullname.length ({}, fullname)

example : parseFullName (ascii "/job:w/task:2/gpu:*") =
    some { job := some (ascii "w"), task := some 2, type := some (ascii "GPU") } := by
      decide +kernel

/-- `ParsedNameToString`. -/
def parsedNameToString (pn : ParsedName) : ByteString :=
  (pn.job.elim [] (ascii "/job:" ++ ·)) ++
  (pn.replica.elim [] (ascii "/replica:" ++ decimalInt ·)) ++
  (pn.task.elim [] (ascii "/task:" ++ decimalInt ·)) ++
  pn.type.elim [] fun type ↦
    ascii "/" ++ type ++ ascii ":" ++ pn.id.elim (ascii "*") decimalInt

/-! ### Comparing -/

/-- `HasSomeDetails`. -/
def hasSomeDetails (name : ParsedName) : Bool :=
  name.job.isSome ∨ name.replica.isSome ∨ name.task.isSome ∨ name.type.isSome ∨ name.id.isSome

/-- The value that is asked for, if any, is there. -/
def grants {β : Type} [DecidableEq β] (less more : Option β) : Bool := less = none ∨ less = more

/-- `IsSpecification`. -/
def isSpecification (less more : ParsedName) : Bool :=
  grants less.job more.job ∧ grants less.replica more.replica ∧ grants less.task more.task ∧
    grants less.type more.type ∧ grants less.id more.id

/-- Every component has a value, as `IsCompleteSpecification` checks of a name. -/
def isComplete (name : ParsedName) : Bool :=
  name.job.isSome ∧ name.replica.isSome ∧ name.task.isSome ∧ name.type.isSome ∧ name.id.isSome

/-- `AreCompatibleDevNames`. -/
def areCompatibleDevNames (a b : ParsedName) : Bool := isSpecification a b ∨ isSpecification b a

/-- Both have a value, but not the same. -/
def conflicts {β : Type} [DecidableEq β] (target other : Option β) : Bool :=
  target ≠ none ∧ other ≠ none ∧ target ≠ other

/-- The error of `MergeDevNames` for a component. -/
def cannotMerge (component : String) (target other : ParsedName) : Status :=
  invalidArgument [ascii "Cannot merge devices with incompatible ", ascii component, ascii ": '",
    parsedNameToString target, ascii "' and '", parsedNameToString other, ascii "'"]

/-- `MergeDevNames`. The errors show the target with the components merged so far. -/
def mergeDevNames (target other : ParsedName) (allowSoftPlacement : Bool) :
    Except Status ParsedName :=
  if conflicts target.job other.job then .error (cannotMerge "jobs" target other)
  else
    let target := { target with job := other.job.or target.job }
    if conflicts target.replica other.replica then .error (cannotMerge "replicas" target other)
    else
      let target := { target with replica := other.replica.or target.replica }
      if conflicts target.task other.task then .error (cannotMerge "tasks" target other)
      else
        let target := { target with task := other.task.or target.task }
        if conflicts target.type other.type then
          if allowSoftPlacement then .ok { target with type := none, id := none }
          else .error (cannotMerge "types" target other)
        else
          let target := { target with type := other.type.or target.type }
          if conflicts target.id other.id then
            if allowSoftPlacement then .ok { target with id := none }
            else .error (cannotMerge "ids" target other)
          else .ok { target with id := other.id.or target.id }

end DeviceNameUtils

end TensorFlowCore
