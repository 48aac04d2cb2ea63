import TensorFlowCore.Lib.Strings.Numbers
import TensorFlowCore.Util.DeviceNameUtils.Grammar

/-!
# Rendezvous keys

`Rendezvous::CreateKey` and `Rendezvous::ParseKey` of `tensorflow/core/framework/rendezvous.cc`. A
key that has been created is parsed to what it was created of. A key that is accepted has five
parts, or six of which the last one is empty: `ParseKey` does not see the `;` at the end
(`parseKey_createKey_iff`).
-/

namespace TensorFlowCore

open DeviceNameUtils List

/-- `FrameAndIter`. -/
structure FrameAndIter where
  frameId : UInt64
  iterId : ℤ

/-- `Rendezvous::ParsedKey`. -/
structure ParsedKey where
  srcDevice : ByteString
  src : ParsedName
  srcIncarnation : UInt64
  dstDevice : ByteString
  dst : ParsedName
  edgeName : ByteString
  buf : ByteString
  deriving DecidableEq

namespace Rendezvous

/-- `CreateKey`. -/
def createKey (srcDevice : ByteString) (srcIncarnation : UInt64) (dstDevice name : ByteString)
    (frameIter : FrameAndIter) : ByteString :=
  srcDevice ++ ascii ";" ++ uint64ToHexString srcIncarnation ++ ascii ";" ++ dstDevice ++
    ascii ";" ++ name ++
    ascii ";" ++ decimal frameIter.frameId.toNat ++ ascii ":" ++ decimalInt frameIter.iterId

/-- `ConsumeNextPart`: the part, and what is left. -/
def consumeNextPart : (s : ByteString) → (delim : UInt8) → ByteString × ByteString
  | [], _ => ([], [])
  | c :: s, delim =>
    if c = delim then ([], s)
    else
      let (part, rest) := consumeNextPart s delim
      (c :: part, rest)

/-- `ParseKey`. -/
def parseKey (key : ByteString) : Except Status ParsedKey :=
  let error : Except Status ParsedKey :=
    .error (invalidArgument [ascii "Invalid  rendezvous key: ", key])
  let (part₀, s) := consumeNextPart key 59
  let (part₁, s) := consumeNextPart s 59
  let (part₂, s) := consumeNextPart s 59
  let (part₃, s) := consumeNextPart s 59
  let (part₄, s) := consumeNextPart s 59
  if s = [] ∧ part₄ ≠ [] then
    match parseFullName part₀, hexStringToUint64 part₁, parseFullName part₂ with
    | some src, some srcIncarnation, some dst =>
      if part₃ ≠ [] then
        .ok { srcDevice := part₀, src, srcIncarnation, dstDevice := part₂, dst, edgeName := part₃
              buf := key }
      else error
    | _, _, _ => error
  else error

/-! ### Parts -/

theorem consumeNextPart_append {part : ByteString} {delim : UInt8} (h : delim ∉ part)
    (rest : ByteString) : consumeNextPart (part ++ delim :: rest) delim = (part, rest) := by
  induction part with
  | nil => exact if_pos rfl
  | cons c part ih =>
    rw [mem_cons, not_or] at h
    rw [cons_append, consumeNextPart, if_neg (Ne.symm h.1), ih h.2]

theorem consumeNextPart_of_notMem {s : ByteString} {delim : UInt8} (h : delim ∉ s) :
    consumeNextPart s delim = (s, []) := by
  induction s with
  | nil => rfl
  | cons c s ih =>
    rw [mem_cons, not_or] at h
    rw [consumeNextPart, if_neg (Ne.symm h.1), ih h.2]

/-- The delimiter has been found behind the part, or there is none and nothing is left. -/
theorem consumeNextPart_spec (s : ByteString) (delim : UInt8) :
    delim ∉ (consumeNextPart s delim).1 ∧
      (s = (consumeNextPart s delim).1 ++ delim :: (consumeNextPart s delim).2 ∨
        s = (consumeNextPart s delim).1 ∧ (consumeNextPart s delim).2 = []) := by
  induction s with
  | nil => exact ⟨not_mem_nil, .inr ⟨rfl, rfl⟩⟩
  | cons c s ih =>
    rw [consumeNextPart]
    split
    · rename_i hc
      exact ⟨not_mem_nil, .inl (by rw [hc]; rfl)⟩
    · rename_i hc
      refine ⟨fun hmem ↦ ?_, ?_⟩
      · exact (mem_cons.1 hmem).elim (fun heq ↦ hc heq.symm) ih.1
      · rcases ih.2 with heq | ⟨heq, hnil⟩
        · exact .inl (congrArg (c :: ·) heq)
        · exact .inr ⟨congrArg (c :: ·) heq, hnil⟩

/-- Where something is left, the delimiter has been found. -/
theorem eq_append_of_consumeNextPart {s part rest : ByteString} {delim : UInt8}
    (h : consumeNextPart s delim = (part, rest)) (hne : rest ≠ []) :
    delim ∉ part ∧ s = part ++ delim :: rest := by
  have hspec := consumeNextPart_spec s delim
  rw [h] at hspec
  exact ⟨hspec.1, hspec.2.resolve_right fun hnil ↦ hne hnil.2⟩

/-! ### The parts of a created key -/

/-- There is no `;` in the name of a device. -/
theorem notMem_of_parseFullName {s : ByteString} {p : ParsedName} (h : parseFullName s = some p) :
    (59 : UInt8) ∉ s := by
  have hlabel : ∀ kind : Kind, ∀ label ∈ kind.labels, (59 : UInt8) ∉ ascii label := by
    intro kind
    cases kind <;> decide
  obtain ⟨parts, ⟨rfl, -⟩ | rfl, -⟩ := parseFullName_eq_some_iff.1 h
  · decide
  · intro hmem
    obtain ⟨part, -, hpart⟩ := mem_flatMap.1 hmem
    rcases mem_append.1 hpart with hmem | hmem
    · exact hlabel part.kind part.label part.label_mem_labels hmem
    · exact part.notMem_body (by decide) (by decide) hmem

theorem notMem_uint64ToHexString (v : UInt64) : (59 : UInt8) ∉ uint64ToHexString v := fun h ↦
  absurd (mem_uint64ToHexString h) (by decide)

theorem notMem_frameIter (f : FrameAndIter) :
    (59 : UInt8) ∉ decimal f.frameId.toNat ++ ascii ":" ++ decimalInt f.iterId := by
  intro h
  rcases mem_append.1 h with h | h
  · rcases mem_append.1 h with h | h
    · exact absurd (mem_decimal h).2 (by decide)
    · exact absurd h (by decide)
  · exact absurd (mem_decimalInt h) (by decide)

/-- A key that has been created is parsed to what it was created of. -/
theorem parseKey_createKey {srcDevice dstDevice name : ByteString} {src dst : ParsedName}
    (hsrc : parseFullName srcDevice = some src) (hdst : parseFullName dstDevice = some dst)
    (hname : name ≠ []) (hsemicolon : (59 : UInt8) ∉ name) (inc : UInt64) (f : FrameAndIter) :
    parseKey (createKey srcDevice inc dstDevice name f) =
      .ok ⟨srcDevice, src, inc, dstDevice, dst, name,
        createKey srcDevice inc dstDevice name f⟩ := by
  have hkey : createKey srcDevice inc dstDevice name f =
    srcDevice ++ 59 :: (uint64ToHexString inc ++ 59 ::
      (dstDevice ++ 59 ::
      (name ++ 59 :: (decimal f.frameId.toNat ++ ascii ":" ++ decimalInt f.iterId)))) := by
    rw [createKey, show ascii ";" = [59] from rfl]
    simp only [append_assoc, cons_append, nil_append]
  have hne : decimal f.frameId.toNat ++ ascii ":" ++ decimalInt f.iterId ≠ [] :=
    append_ne_nil_of_left_ne_nil (append_ne_nil_of_left_ne_nil (decimal_ne_nil _) _) _
  rw [parseKey, hkey, consumeNextPart_append (notMem_of_parseFullName hsrc)]
  dsimp only
  rw [consumeNextPart_append (notMem_uint64ToHexString inc)]
  rw [consumeNextPart_append (notMem_of_parseFullName hdst)]
  rw [consumeNextPart_append hsemicolon]
  rw [consumeNextPart_of_notMem (notMem_frameIter f)]
  rw [if_pos ⟨rfl, hne⟩, hsrc, hdst, hexStringToUint64_uint64ToHexString]
  exact if_pos hname

/-! ### Keys that are accepted -/

/-- Five parts with a `;` between each and the next, of which the first three are valid. -/
def FiveParts (key : ByteString) : Prop := ∃ part₀ part₁ part₂ part₃ part₄ : ByteString,
  (∀ part ∈ [part₀, part₁, part₂, part₃, part₄], (59 : UInt8) ∉ part) ∧
    key = part₀ ++ 59 :: (part₁ ++ 59 :: (part₂ ++ 59 :: (part₃ ++ 59 :: part₄))) ∧
      (parseFullName part₀).isSome ∧ (hexStringToUint64 part₁).isSome ∧ (parseFullName part₂).isSome

theorem FiveParts.count {key : ByteString} (h : FiveParts key) : key.count 59 = 4 := by
  obtain ⟨part₀, part₁, part₂, part₃, part₄, hparts, rfl, -⟩ := h
  simp only [forall_mem_cons] at hparts
  obtain ⟨h₀, h₁, h₂, h₃, h₄, -⟩ := hparts
  simp only [count_append, count_cons_self, count_eq_zero_of_not_mem h₀,
    count_eq_zero_of_not_mem h₁, count_eq_zero_of_not_mem h₂, count_eq_zero_of_not_mem h₃,
    count_eq_zero_of_not_mem h₄]

/-- An accepted key has five parts, with or without a `;` behind them. -/
theorem fiveParts_of_parseKey {key : ByteString} {parsed : ParsedKey}
    (h : parseKey key = .ok parsed) :
    FiveParts key ∧ key.getLast? ≠ some 59 ∨ ∃ key', FiveParts key' ∧ key = key' ++ [59] := by
  rw [parseKey] at h
  rcases hc₀ : consumeNextPart key 59 with ⟨part₀, s₀⟩
  rcases hc₁ : consumeNextPart s₀ 59 with ⟨part₁, s₁⟩
  rcases hc₂ : consumeNextPart s₁ 59 with ⟨part₂, s₂⟩
  rcases hc₃ : consumeNextPart s₂ 59 with ⟨part₃, s₃⟩
  rcases hc₄ : consumeNextPart s₃ 59 with ⟨part₄, s₄⟩
  simp only [hc₀, hc₁, hc₂, hc₃, hc₄] at h
  split at h
  · rename_i hend
    obtain ⟨rfl, hpart₄⟩ := hend
    split at h
    · rename_i src inc dst hsrc hinc hdst
      -- the fifth part is not empty, so that the four before it have ended with a `;`
      have hs₃ : s₃ ≠ [] := fun hnil ↦ by
        rw [hnil] at hc₄
        exact hpart₄ (Prod.mk.inj hc₄).1.symm
      obtain ⟨h₃, heq₃⟩ := eq_append_of_consumeNextPart hc₃ hs₃
      obtain ⟨h₂, heq₂⟩ := eq_append_of_consumeNextPart hc₂ (by simp [heq₃])
      obtain ⟨h₁, heq₁⟩ := eq_append_of_consumeNextPart hc₁ (by simp [heq₂])
      obtain ⟨h₀, heq₀⟩ := eq_append_of_consumeNextPart hc₀ (by simp [heq₁])
      obtain ⟨h₄, hlast⟩ := consumeNextPart_spec s₃ 59
      rw [hc₄] at h₄ hlast
      dsimp only at h₄ hlast
      have hfive : FiveParts
          (part₀ ++ 59 :: (part₁ ++ 59 :: (part₂ ++ 59 :: (part₃ ++ 59 :: part₄)))) :=
        ⟨part₀, part₁, part₂,
          part₃, part₄, by simp [h₀, h₁, h₂, h₃, h₄], rfl, by simp [hsrc], by simp [hinc],
          by simp [hdst]⟩
      rw [heq₀, heq₁, heq₂, heq₃]
      rcases hlast with heq₄ | ⟨heq₄, -⟩
      · exact .inr ⟨_, hfive, by rw [heq₄]; simp⟩
      · rw [heq₄]
        refine .inl ⟨hfive, fun hsemicolon ↦ h₄ (mem_of_getLast? ?_)⟩
        obtain ⟨front, hfront⟩ : ∃ front, part₀ ++ 59 ::
          (part₁ ++ 59 :: (part₂ ++ 59 :: (part₃ ++ 59 :: part₄))) =
          front ++ part₄ :=
          ⟨part₀ ++ 59 :: (part₁ ++ 59 :: (part₂ ++ 59 :: (part₃ ++ [59]))), by simp⟩
        rw [hfront, getLast?_append_of_ne_nil _ hpart₄] at hsemicolon
        exact hsemicolon
    · cases h
  · cases h

/-- The keys of a step are read in one way: a created key is parsed to what it was created of, and a
key that is accepted has five parts, exactly if it does not end with a `;`. -/
theorem parseKey_createKey_iff (srcDevice dstDevice name : ByteString) (inc : UInt64)
    (f : FrameAndIter) (key : ByteString) :
    (∀ src dst, parseFullName srcDevice = some src → parseFullName dstDevice = some dst →
      name ≠ [] →
      (59 : UInt8) ∉ name → parseKey (createKey srcDevice inc dstDevice name f) =
        .ok ⟨srcDevice, src, inc, dstDevice, dst, name, createKey srcDevice inc dstDevice name f⟩) ∧
      ∀ parsed, parseKey key = .ok parsed → (FiveParts key ↔ key.getLast? ≠ some 59) := by
  refine ⟨fun src dst hsrc hdst hname hsemicolon ↦ parseKey_createKey hsrc hdst hname
    hsemicolon inc f,
    fun parsed h ↦ ?_⟩
  rcases fiveParts_of_parseKey h with ⟨hfive, hlast⟩ | ⟨key', hfive, rfl⟩
  · exact iff_of_true hfive hlast
  · refine iff_of_false (fun hsix ↦ ?_) (not_not_intro getLast?_concat)
    -- the count of `;` tells the two kinds of keys apart
    have hcount := hsix.count
    rw [count_append, hfive.count] at hcount
    exact absurd hcount (by decide)

/-- A key with a `;` behind the last of its parts is accepted. -/
def sixPartsKey : ByteString :=
  createKey (ascii "/job:w/cpu:0") 1 (ascii "/job:w/cpu:1") (ascii "edge") ⟨0, 0⟩ ++ [59]

theorem not_fiveParts : ¬∀ key parsed, parseKey key = .ok parsed → FiveParts key := by
  intro h
  have hok : (parseKey sixPartsKey).isOk = true := by decide +kernel
  cases hkey : parseKey sixPartsKey with
  | ok parsed => exact absurd (h sixPartsKey parsed hkey).count (by decide +kernel)
  | error e =>
    rw [hkey] at hok
    cases hok

end Rendezvous

end TensorFlowCore
