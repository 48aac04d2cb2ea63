import TensorFlowCore.Lib.Core.Coding
import TensorFlowCore.Support.GuardedRun

/-!
# Blocks of a table

`BlockBuilder` and `Block` of `tensorflow/core/lib/io`. Sizes and offsets that the source keeps in a
`uint32` are natural numbers reduced modulo `2 ^ 32` where the source converts them. A pointer into
the contents of a block is an offset; `DecodeEntry` is given the bytes from its pointer up to its
limit. Keys are compared as byte strings, the way `StringPiece::compare` does.
-/

namespace TensorFlowCore.Table

/-- The conversion of a size to `uint32`. -/
def uint32 (n : ℕ) : ℕ := n % 2 ^ 32

/-! ### `BlockBuilder` -/

/-- The state of a `BlockBuilder`. -/
structure BlockBuilder where
  /-- `options_->block_restart_interval`. -/
  blockRestartInterval : ℕ
  buffer : ByteString := []
  /-- The restart points; the first one is at offset 0. -/
  restarts : List ℕ := [0]
  /-- The number of entries emitted since the last restart. -/
  counter : ℕ := 0
  lastKey : ByteString := []

/-- `while (shared < min_length && a[shared] == b[shared]) shared++`. -/
def sharedPrefix : ByteString → ByteString → ℕ
  | a :: x, b :: y => if a = b then sharedPrefix x y + 1 else 0
  | _, _ => 0

/-- The bytes that `Add` appends for one entry. -/
def encodeEntry (shared : ℕ) (key value : ByteString) : ByteString :=
  encodeVarint32 shared.toUInt32 ++ encodeVarint32 (key.length - shared).toUInt32 ++
    encodeVarint32 value.length.toUInt32 ++ key.drop shared ++ value

namespace BlockBuilder

/-- `BlockBuilder::Reset`. -/
def reset (b : BlockBuilder) : BlockBuilder := { blockRestartInterval := b.blockRestartInterval }

/-- `BlockBuilder::CurrentSizeEstimate`. -/
def currentSizeEstimate (b : BlockBuilder) : ℕ := b.buffer.length + b.restarts.length * 4 + 4

/-- `BlockBuilder::Add`. -/
def add (b : BlockBuilder) (key value : ByteString) : BlockBuilder :=
  if b.counter < b.blockRestartInterval then
    let shared := sharedPrefix b.lastKey key
    { b with
      buffer := b.buffer ++ encodeEntry shared key value
      lastKey := b.lastKey.take shared ++ key.drop shared
      counter := b.counter + 1 }
  else
    { b with
      buffer := b.buffer ++ encodeEntry 0 key value
      restarts := b.restarts ++ [uint32 b.buffer.length]
      lastKey := b.lastKey.take 0 ++ key.drop 0
      counter := 1 }

/-- `BlockBuilder::Finish`. -/
def finish (b : BlockBuilder) : ByteString :=
  b.buffer ++ b.restarts.flatMap (fun r ↦ encodeFixed32 r.toUInt32) ++
    encodeFixed32 b.restarts.length.toUInt32

end BlockBuilder

/-- The block that `Add` and `Finish` make of a list of pairs. -/
def buildBlock (blockRestartInterval : ℕ) (kvs : List (ByteString × ByteString)) : ByteString :=
  (kvs.foldl (fun (b : BlockBuilder) kv ↦ b.add kv.1 kv.2) { blockRestartInterval }).finish

/-! ### `Block` -/

/-- A `Block`: its contents, whose size is set to zero where they cannot be a block, and the offset
of the restart array. -/
structure Block where
  data : ByteString
  size : ℕ
  restartOffset : ℕ

/-- `Block::NumRestarts`, of contents of at least four bytes. -/
def numRestarts (data : ByteString) (size : ℕ) : ℕ := (decodeFixed32 (data.drop (size - 4))).toNat

/-- `Block::Block`. -/
def Block.new (contents : ByteString) : Block :=
  let size := contents.length
  if size < 4 then ⟨contents, 0, 0⟩
  else
    let maxRestartsAllowed := (size - 4) / 4
    if numRestarts contents size > maxRestartsAllowed then ⟨contents, 0, 0⟩
    else ⟨contents, size, uint32 (size - (1 + numRestarts contents size) * 4)⟩

/-- The three lengths in front of an entry, on the fast path of one byte each or as varints, and the
bytes behind them. -/
def decodeLengths (p : ByteString) : Option (ℕ × ℕ × ℕ × ByteString) :=
  match p with
  | b₀ :: b₁ :: b₂ :: rest =>
    if b₀ ||| b₁ ||| b₂ < 128 then some (b₀.toNat, b₁.toNat, b₂.toNat, rest)
    else do
      let (shared, p) ← getVarint32Ptr p
      let (nonShared, p) ← getVarint32Ptr p
      let (valueLength, p) ← getVarint32Ptr p
      return (shared.toNat, nonShared.toNat, valueLength.toNat, p)
  | _ => none

/-- `DecodeEntry`: the three lengths and the bytes from the key delta up to the limit. -/
def decodeEntry (p : ByteString) : Option (ℕ × ℕ × ℕ × ByteString) := do
  let (shared, nonShared, valueLength, p) ← decodeLengths p
  if uint32 p.length < uint32 (nonShared + valueLength) then none
  else return (shared, nonShared, valueLength, p)

/-- `Block::Iter`. `value_` is kept as its offset in the contents and its length. -/
structure Iter where
  data : ByteString
  /-- `restarts_`, the offset of the restart array. -/
  restarts : ℕ
  numRestarts : ℕ
  /-- The offset of the current entry, at least `restarts` if the iterator is not valid. -/
  current : ℕ
  restartIndex : ℕ
  key : ByteString := []
  valueStart : ℕ := 0
  valueSize : ℕ := 0
  status : Status := .ok

namespace Iter

/-- `Iter::Iter`. -/
def new (data : ByteString) (restarts numRestarts : ℕ) : Iter where
  data := data
  restarts := restarts
  numRestarts := numRestarts
  current := restarts
  restartIndex := numRestarts

/-- `Iter::Valid`. -/
def valid (it : Iter) : Bool := it.current < it.restarts

/-- `Iter::value`. -/
def value (it : Iter) : ByteString := (it.data.drop it.valueStart).take it.valueSize

/-- `Iter::NextEntryOffset`. -/
def nextEntryOffset (it : Iter) : ℕ := uint32 (it.valueStart + it.valueSize)

/-- `Iter::GetRestartPoint`. -/
def getRestartPoint (it : Iter) (index : ℕ) : ℕ :=
  (decodeFixed32 (it.data.drop (it.restarts + index * 4))).toNat

/-- `Iter::SeekToRestartPoint`. -/
def seekToRestartPoint (it : Iter) (index : ℕ) : Iter :=
  { it with
    key := []
    restartIndex := index
    valueStart := it.getRestartPoint index
    valueSize := 0 }

/-- `Iter::CorruptionError`. -/
def corruptionError (it : Iter) : Iter :=
  { it with
    current := it.restarts
    restartIndex := it.numRestarts
    status := .error .dataLoss (ascii "bad entry in block")
    key := []
    valueStart := 0
    valueSize := 0 }

/-- The loop at the end of `ParseNextKey` that moves `restart_index_` up to the current entry. -/
def advanceRestartIndex (it : Iter) (current index : ℕ) : ℕ :=
  if index + 1 < it.numRestarts ∧ it.getRestartPoint (index + 1) < current then
    advanceRestartIndex it current (index + 1)
  else index
termination_by it.numRestarts - index

/-- `Iter::ParseNextKey`, and whether it found an entry. -/
def parseNextKey (it : Iter) : Iter × Bool :=
  let current := it.nextEntryOffset
  if current ≥ it.restarts then
    ({ it with current := it.restarts, restartIndex := it.numRestarts }, false)
  else
    match decodeEntry ((it.data.take it.restarts).drop current) with
    | none => (it.corruptionError, false)
    | some (shared, nonShared, valueLength, p) =>
      if it.key.length < shared then (it.corruptionError, false)
      else
        ({ it with
          current := current
          key := it.key.take shared ++ p.take nonShared
          valueStart := it.restarts - p.length + nonShared
          valueSize := valueLength
          restartIndex := it.advanceRestartIndex current it.restartIndex }, true)

/-- `Iter::Next`. -/
def next (it : Iter) : Iter := it.parseNextKey.1

/-- `Iter::SeekToFirst`. -/
def seekToFirst (it : Iter) : Iter := (it.seekToRestartPoint 0).parseNextKey.1

/-- The binary search of `Seek` over the restart points, for at most the given number of rounds:
the restart point to scan from, or `none` where an entry cannot be decoded. -/
def searchRestarts (it : Iter) (target : ByteString) : ℕ → ℕ → ℕ → Option ℕ
  | 0, left, _ => some left
  | rounds + 1, left, right =>
    if left < right then
      let mid := uint32 (left + right + 1) / 2
      match decodeEntry ((it.data.take it.restarts).drop (it.getRestartPoint mid)) with
      | none => none
      | some (shared, nonShared, _, p) =>
        if shared ≠ 0 then none
        else if p.take nonShared < target then searchRestarts it target rounds mid right
        else searchRestarts it target rounds left (mid - 1)
    else some left

/-- The linear search of `Seek`: parse entries until one is at or past the target. -/
def scanTo (target : ByteString) : ℕ → Iter → Iter
  | 0, it => it
  | n + 1, it =>
    match it.parseNextKey with
    | (it, false) => it
    | (it, true) => if it.key < target then scanTo target n it else it

/-- `Iter::Seek`. There are at most as many rounds as restart points, and as many entries as
bytes. -/
def seek (it : Iter) (target : ByteString) : Iter :=
  match it.searchRestarts target it.numRestarts 0 (it.numRestarts - 1) with
  | none => it.corruptionError
  | some left => scanTo target (it.data.length + 1) (it.seekToRestartPoint left)

end Iter

/-- The virtual methods of `Iterator` that its clients call; `entry` is the key and the value of a
valid iterator. -/
class IteratorMethods (ι : Type) where
  /-- `Iterator::Valid`. -/
  valid : ι → Bool
  /-- `Iterator::key` and `Iterator::value`. -/
  entry : ι → Option (ByteString × ByteString)
  /-- `Iterator::SeekToFirst`. -/
  seekToFirst : ι → ι
  /-- `Iterator::Seek`. -/
  seek : ι → ByteString → ι
  /-- `Iterator::Next`. -/
  next : ι → ι

/-- The iterators that a client can make of one by positioning it; `Next` requires that it is
valid. -/
inductive Reaches {ι : Type} [IteratorMethods ι] (start : ι) : ι → Prop where
  | refl : Reaches start start
  | seekToFirst {it : ι} : Reaches start it → Reaches start (IteratorMethods.seekToFirst it)
  | seek {it : ι} (target : ByteString) :
    Reaches start it → Reaches start (IteratorMethods.seek it target)
  | next {it : ι} :
    Reaches start it → IteratorMethods.valid it → Reaches start (IteratorMethods.next it)

/-- The iterator goes through a list of pairs, wherever a client has moved it: going on from the
first pair shows them all, and a seek shows the first one at or past the target. -/
def GoesThrough {ι : Type} [IteratorMethods ι] (start : ι)
    (kvs : List (ByteString × ByteString)) : Prop :=
  ∀ it, Reaches start it →
    (∀ n ≤ kvs.length, IteratorMethods.entry
        (IteratorMethods.next^[n] (IteratorMethods.seekToFirst it)) = kvs[n]?) ∧
      ∀ target, IteratorMethods.entry (IteratorMethods.seek it target) =
        kvs.find? fun kv ↦ target ≤ kv.1

/-- An `Iterator` over a block: one that goes through its entries, or `EmptyIterator`, which holds a
status only. -/
inductive Iterator where
  | entries (it : Iter)
  | empty (status : Status)

namespace Iterator

/-- `Iterator::Valid`. -/
def valid : Iterator → Bool
  | entries it => it.valid
  | empty _ => false

/-- `Iterator::status`. -/
def status : Iterator → Status
  | entries it => it.status
  | empty s => s

/-- The pair that a valid iterator is positioned at. -/
def entry : Iterator → Option (ByteString × ByteString)
  | entries it => if it.valid then some (it.key, it.value) else none
  | empty _ => none

/-- `Iterator::SeekToFirst`. -/
def seekToFirst : Iterator → Iterator
  | entries it => entries it.seekToFirst
  | empty s => empty s

/-- `Iterator::Seek`. -/
def seek : Iterator → ByteString → Iterator
  | entries it, target => entries (it.seek target)
  | empty s, _ => empty s

/-- `Iterator::Next`. -/
def next : Iterator → Iterator
  | entries it => entries it.next
  | empty s => empty s

instance : IteratorMethods Iterator where
  valid := valid
  entry := entry
  seekToFirst := seekToFirst
  seek := seek
  next := next

end Iterator

/-- `Block::NewIterator`. -/
def Block.newIterator (b : Block) : Iterator :=
  if b.size < 4 then .empty (.error .dataLoss (ascii "bad block contents"))
  else if numRestarts b.data b.size = 0 then .empty .ok
  else .entries (Iter.new b.data b.restartOffset (numRestarts b.data b.size))

/-!
## What an iterator over a block reads

The operations of `Block::Iter` taken apart into steps of which each calls `DecodeEntry` once at
most. `SeekToFirst`, `Seek` and `Next` are calls of a client; between the call of `Seek` and its
return the loops of `Seek` take the steps `advance`. `ReadsSafely` says that whatever the client
calls, nothing outside of the block is read and no loop goes on without end.
-/

/-- What an iterator is doing. -/
inductive Phase where
  | idle
  /-- The binary search of `Seek`. -/
  | searching (target : ByteString) (left right : ℕ)
  /-- The linear search of `Seek`. -/
  | scanning (target : ByteString)

/-- An iterator in the middle of a call. -/
structure Reader where
  it : Iter
  phase : Phase := .idle

/-- The calls of a client, and a round of a loop. -/
inductive ReadAction where
  | seekToFirst
  | seek (target : ByteString)
  | next
  | advance

/-- `(left + right + 1) / 2`, in `uint32`. -/
def middle (left right : ℕ) : ℕ := uint32 (left + right + 1) / 2

namespace Iter

/-- The bytes from an offset on, up to the restart array. -/
def entryAt (it : Iter) (offset : ℕ) : ByteString := (it.data.take it.restarts).drop offset

/-- The index of the restart points that `ParseNextKey` reads when it moves `restart_index_`. -/
def restartsReadFrom (it : Iter) (current index : ℕ) : List ℕ :=
  if index + 1 < it.numRestarts then
    if it.getRestartPoint (index + 1) < current then (index + 1) ::
      it.restartsReadFrom current (index + 1)
    else [index + 1]
  else []
termination_by it.numRestarts - index

end Iter

namespace Reader

/-- A round of the binary search, and its end. -/
def searchRound (r : Reader) (target : ByteString) (left right : ℕ) : Reader :=
  if left < right then
    let mid := middle left right
    match decodeEntry (r.it.entryAt (r.it.getRestartPoint mid)) with
    | none => { it := r.it.corruptionError }
    | some (shared, nonShared, _, p) =>
      if shared ≠ 0 then { it := r.it.corruptionError }
      else if p.take nonShared < target then { r with phase := .searching target mid right }
      else { r with phase := .searching target left (uint32 (mid + (2 ^ 32 - 1))) }
  else { it := r.it.seekToRestartPoint left, phase := .scanning target }

/-- A round of the linear search. -/
def scanRound (r : Reader) (target : ByteString) : Reader :=
  match r.it.parseNextKey with
  | (it, false) => { it }
  | (it, true) => if it.key < target then { it, phase := .scanning target } else { it }

/-- A step, where it is possible: a call needs an iterator that is not in a call, and `Next` one
that is valid. -/
def step (r : Reader) : ReadAction → Option Reader
  | .seekToFirst =>
    match r.phase with
    | .idle => some { it := r.it.seekToFirst }
    | _ => none
  | .seek target =>
    match r.phase with
    | .idle => some { r with phase := .searching target 0 (r.it.numRestarts - 1) }
    | _ => none
  | .next =>
    match r.phase with
    | .idle => if r.it.valid then some { it := r.it.next } else none
    | _ => none
  | .advance =>
    match r.phase with
    | .idle => none
    | .searching target left right => some (r.searchRound target left right)
    | .scanning target => some (r.scanRound target)

/-- The offsets at which `DecodeEntry` is called: `ParseNextKey` calls it for an entry before the
restart array. -/
def parses (it : Iter) : List ℕ :=
  if it.nextEntryOffset < it.restarts then [it.nextEntryOffset] else []

/-- The offsets at which a step calls `DecodeEntry`. -/
def decodes (r : Reader) (a : ReadAction) : List ℕ :=
  match a, r.phase with
  | .seekToFirst, .idle => parses (r.it.seekToRestartPoint 0)
  | .next, .idle => if r.it.valid then parses r.it else []
  | .advance, .searching _ left right =>
    if left < right then [r.it.getRestartPoint (middle left right)] else []
  | .advance, .scanning _ => parses r.it
  | _, _ => []

/-- The indices of the restart points that a step reads. -/
def restartsRead (r : Reader) (a : ReadAction) : List ℕ :=
  match a, r.phase with
  | .seekToFirst, .idle =>
    0 :: r.it.restartsReadFrom (r.it.seekToRestartPoint 0).nextEntryOffset 0
  | .next, .idle =>
    if r.it.valid then r.it.restartsReadFrom r.it.nextEntryOffset r.it.restartIndex else []
  | .advance, .searching _ left right => [if left < right then middle left right else left]
  | .advance, .scanning _ => r.it.restartsReadFrom r.it.nextEntryOffset r.it.restartIndex
  | _, _ => []

/-- An entry that `DecodeEntry` accepts lies before the restart array, with its key delta and its
value; a restart point that is read lies in the block. -/
def StepReadsInside (r : Reader) (a : ReadAction) : Prop :=
  (∀ offset ∈ r.decodes a, ∀ shared nonShared valueLength p,
    decodeEntry (r.it.entryAt offset) = some (shared, nonShared, valueLength, p) →
      offset < r.it.restarts ∧ p.length ≤ r.it.restarts - offset ∧
      nonShared + valueLength ≤ p.length) ∧
    r.it.restarts ≤ r.it.data.length ∧
      ∀ index ∈ r.restartsRead a, index < r.it.numRestarts ∧
      r.it.restarts + index * 4 + 4 ≤ r.it.data.length

/-- The sum of the two bounds of the binary search does not overflow. -/
def boundsFit (r : Reader) (a : ReadAction) : Bool :=
  match a, r.phase with
  | .advance, .searching _ left right => left < right → left + right + 1 < 2 ^ 32
  | _, _ => true

/-- The sums that are taken in `uint32` do not overflow: not that of the two lengths of an entry,
unless what it is reduced to is too large for the block too, and not that of the two bounds of the
binary search. -/
def NoOverflow (r : Reader) (a : ReadAction) : Prop :=
  (∀ offset ∈ r.decodes a, ∀ shared nonShared valueLength p,
    decodeLengths (r.it.entryAt offset) = some (shared, nonShared, valueLength, p) →
      nonShared + valueLength < 2 ^ 32 ∨ p.length < uint32 (nonShared + valueLength)) ∧
    r.boundsFit a

instance (r : Reader) (a : ReadAction) : Decidable (r.NoOverflow a) :=
  decidable_of_iff
    ((∀ offset ∈ r.decodes a, (decodeLengths (r.it.entryAt offset)).all fun (_, nonShared,
    valueLength, p) ↦
        nonShared + valueLength < 2 ^ 32 ∨ p.length < uint32 (nonShared + valueLength)) ∧
          r.boundsFit a)
    (and_congr_left' <| forall₂_congr fun offset _ ↦ by
      cases decodeLengths (r.it.entryAt offset) with
      | none => simp
      | some lengths =>
        rcases lengths with ⟨s, n, v, p⟩
        simp only [Option.all_some, decide_eq_true_eq, Option.some.injEq, Prod.mk.injEq]
        exact ⟨fun h _ _ _ _ ⟨_, hn, hv, hp⟩ ↦ hn ▸ hv ▸ hp ▸ h,
          fun h ↦ h s n v p ⟨rfl, rfl, rfl, rfl⟩⟩)

end Reader

/-- A step that does not begin anew. -/
def ReadAction.goesOn : ReadAction → Bool
  | next => true
  | advance => true
  | _ => false

/-- Whatever the calls on an iterator over the contents, each step reads inside of the block, and
only so many steps follow one another that do not begin anew. -/
def ReadsSafely (contents : ByteString) (actions : List ReadAction) : Prop :=
  ∀ it, (Block.new contents).newIterator = .entries it →
    GuardedRun.Along Reader.step Reader.StepReadsInside { it } actions ∧
      ∀ before steps after, actions = before ++ (steps ++ after) → (∀ a ∈ steps, a.goesOn) →
        (GuardedRun.run Reader.step { it } (before ++ steps)).isSome →
        steps.length ≤ contents.length

end TensorFlowCore.Table
