import TensorFlowCore.Lib.Io.Table.Block

/-!
# The layout of a block

What `BlockBuilder` writes: entries whose keys are abbreviated against the key before, and the
offsets of the entries that are not. `Layout` holds these two lists with what makes them decodable;
`exists_layout` says that every list of pairs is written with one, and `decodeEntry_encodeEntry` and
`Layout.getRestartPoint_eq` that an iterator finds the entries and the restart points again.
-/

namespace TensorFlowCore.Table

open List

variable {e : Entry}

/-- An entry: the key is stored without its first `shared` bytes. -/
structure Entry where
  shared : ℕ
  key : ByteString
  value : ByteString

namespace Entry

/-- The bytes of the entry in the block. -/
def encode (e : Entry) : ByteString := encodeEntry e.shared e.key e.value

/-- The pair that was added. -/
def pair (e : Entry) : ByteString × ByteString := (e.key, e.value)

/-- The key that is left of the entry before has the bytes that this entry leaves out. -/
structure Extends (e : Entry) (prev : ByteString) : Prop where
  shared_le_prev : e.shared ≤ prev.length
  shared_le : e.shared ≤ e.key.length
  take_eq : prev.take e.shared = e.key.take e.shared

end Entry

/-- Every key of the list is abbreviated against the key before it, the first one against `prev`. -/
def Chained : ByteString → List Entry → Prop
  | _, [] => True
  | prev, e :: es => e.Extends prev ∧ Chained e.key es

/-! ### Entries -/

theorem sharedPrefix_le_left (x y : ByteString) : sharedPrefix x y ≤ x.length := by
  fun_induction sharedPrefix x y with
  | case1 a x y ih => exact Nat.succ_le_succ ih
  | case2 => exact Nat.zero_le _
  | case3 => exact Nat.zero_le _

theorem sharedPrefix_le_right (x y : ByteString) : sharedPrefix x y ≤ y.length := by
  fun_induction sharedPrefix x y with
  | case1 a x y ih => exact Nat.succ_le_succ ih
  | case2 => exact Nat.zero_le _
  | case3 => exact Nat.zero_le _

theorem take_sharedPrefix (x y : ByteString) :
    x.take (sharedPrefix x y) = y.take (sharedPrefix x y) := by
  fun_induction sharedPrefix x y with
  | case1 a x y ih => rw [take_succ_cons, take_succ_cons, ih]
  | case2 => rw [take_zero, take_zero]
  | case3 => rw [take_zero, take_zero]

theorem uint32_of_lt {n : ℕ} (h : n < 2 ^ 32) : uint32 n = n := Nat.mod_eq_of_lt h

theorem toNat_toUInt32_of_lt {n : ℕ} (h : n < 2 ^ 32) : n.toUInt32.toNat = n := Nat.mod_eq_of_lt h

theorem or_or_lt_iff (a b c : UInt8) :
    a ||| b ||| c < 128 ↔ a.toNat < 128 ∧ b.toNat < 128 ∧ c.toNat < 128 := by
  rw [UInt8.lt_iff_toNat_lt, UInt8.toNat_or, UInt8.toNat_or]
  show (a.toNat ||| b.toNat ||| c.toNat) < 2 ^ 7 ↔ _
  constructor
  · intro h
    have hab : a.toNat ||| b.toNat ≤ a.toNat ||| b.toNat ||| c.toNat := Nat.left_le_or
    have hc : c.toNat ≤ a.toNat ||| b.toNat ||| c.toNat := Nat.right_le_or
    have ha : a.toNat ≤ a.toNat ||| b.toNat := Nat.left_le_or
    have hb : b.toNat ≤ a.toNat ||| b.toNat := Nat.right_le_or
    omega
  · rintro ⟨ha, hb, hc⟩
    exact Nat.or_lt_two_pow (Nat.or_lt_two_pow ha hb) hc

/-- The first byte of a varint tells whether it is the only one. -/
theorem base128_cases (n : ℕ) :
    (n < 128 ∧ base128 n = [n.toUInt8] ∧ n.toUInt8.toNat = n) ∨
      (128 ≤ n ∧ ∃ b x, base128 n = b :: x ∧ 128 ≤ b.toNat) := by
  by_cases h : n < 128
  · exact .inl ⟨h, base128_of_lt h, Nat.mod_eq_of_lt (by omega)⟩
  · refine .inr ⟨Nat.not_lt.1 h, _, _, base128_of_le (Nat.not_lt.1 h), ?_⟩
    show 128 ≤ (n % 128 + 128) % 256
    omega

/-- The three lengths are decoded on either path. -/
theorem decodeLengths_append {l m n : ℕ} (hl : l < 2 ^ 32) (hm : m < 2 ^ 32) (hn : n < 2 ^ 32)
    (rest : ByteString) :
    decodeLengths (encodeVarint32 l.toUInt32 ++ encodeVarint32 m.toUInt32 ++
      encodeVarint32 n.toUInt32 ++ rest) = some (l, m, n, rest) := by
  have hvarints : ((getVarint32Ptr (encodeVarint32 l.toUInt32 ++ (encodeVarint32 m.toUInt32 ++
      (encodeVarint32 n.toUInt32 ++ rest)))).bind fun shared ↦ (getVarint32Ptr shared.2).bind
        fun nonShared ↦ (getVarint32Ptr nonShared.2).bind fun valueLength ↦
          some (shared.1.toNat, nonShared.1.toNat, valueLength.1.toNat, valueLength.2)) =
      some (l, m, n, rest) := by
    simp only [getVarint32Ptr_append, Option.bind_some, toNat_toUInt32_of_lt hl,
      toNat_toUInt32_of_lt hm, toNat_toUInt32_of_lt hn]
  simp only [append_assoc]
  rw [encodeVarint32_eq, encodeVarint32_eq, encodeVarint32_eq, toNat_toUInt32_of_lt hl,
    toNat_toUInt32_of_lt hm, toNat_toUInt32_of_lt hn] at hvarints ⊢
  -- the fast path is taken exactly if each of the three is a single byte
  obtain ⟨hl', el, vl⟩ | ⟨hl', b₀, x₀, el, vl⟩ := base128_cases l
  · obtain ⟨hm', em, vm⟩ | ⟨hm', b₁, x₁, em, vm⟩ := base128_cases m
    · obtain ⟨hn', en, vn⟩ | ⟨hn', b₂, x₂, en, vn⟩ := base128_cases n
      · rw [el, em, en]
        simp only [singleton_append, decodeLengths]
        rw [if_pos ((or_or_lt_iff _ _ _).2 ⟨by omega, by omega, by omega⟩), vl, vm, vn]
      · rw [el, em, en] at hvarints ⊢
        simp only [nil_append, cons_append, decodeLengths] at hvarints ⊢
        rw [if_neg (fun h ↦ absurd ((or_or_lt_iff _ _ _).1 h).2.2 (Nat.not_lt.2 vn))]
        exact hvarints
    · obtain ⟨b₂, x₂, e₂⟩ : ∃ b x, x₁ ++ (base128 n ++ rest) = b :: x := by
        refine exists_cons_of_ne_nil fun h ↦ base128_ne_nil n ?_
        exact (append_eq_nil_iff.1 (append_eq_nil_iff.1 h).2).1
      rw [el, em] at hvarints ⊢
      simp only [nil_append, cons_append, e₂, decodeLengths] at hvarints ⊢
      rw [if_neg (fun h ↦ absurd ((or_or_lt_iff _ _ _).1 h).2.1 (Nat.not_lt.2 vm))]
      exact hvarints
  · obtain ⟨b₁, b₂, x, e₁⟩ : ∃ b c x, x₀ ++ (base128 m ++ (base128 n ++ rest)) = b :: c :: x := by
      have hm' : 0 < (base128 m).length := length_pos_iff.2 (base128_ne_nil m)
      have hn' : 0 < (base128 n).length := length_pos_iff.2 (base128_ne_nil n)
      rcases e : x₀ ++ (base128 m ++ (base128 n ++ rest)) with - | ⟨b, - | ⟨c, x⟩⟩
      · have := congrArg length e
        simp only [length_append, length_nil] at this
        omega
      · have := congrArg length e
        simp only [length_append, length_singleton] at this
        omega
      · exact ⟨b, c, x, rfl⟩
    rw [el] at hvarints ⊢
    simp only [cons_append, e₁, decodeLengths] at hvarints ⊢
    rw [if_neg (fun h ↦ absurd ((or_or_lt_iff _ _ _).1 h).1 (Nat.not_lt.2 vl))]
    exact hvarints

/-- `DecodeEntry` finds the lengths and the delta of an entry in a block that `uint32` can
address. -/
theorem decodeEntry_encode (e : Entry) (rest : ByteString)
    (hsmall : e.shared < 2 ^ 32) (hlen : (e.encode ++ rest).length < 2 ^ 32) :
    decodeEntry (e.encode ++ rest) = some (e.shared, e.key.length - e.shared, e.value.length,
      e.key.drop e.shared ++ e.value ++ rest) := by
  have hbytes : (e.key.drop e.shared ++ e.value ++ rest).length ≤ (e.encode ++ rest).length := by
    simp only [Entry.encode, encodeEntry, length_append]
    omega
  have hbody : (e.key.drop e.shared ++ e.value ++ rest).length =
      e.key.length - e.shared + e.value.length + rest.length := by
    simp only [length_append, length_drop]
  rw [decodeEntry, Entry.encode, encodeEntry]
  have hlengths := decodeLengths_append hsmall
    (show e.key.length - e.shared < 2 ^ 32 by omega) (show e.value.length < 2 ^ 32 by omega)
    (e.key.drop e.shared ++ e.value ++ rest)
  simp only [append_assoc] at hlengths ⊢
  simp only [hlengths, Option.bind_eq_bind, Option.bind_some]
  simp only [append_assoc] at hbytes hbody
  rw [if_neg]
  · rfl
  · rw [uint32_of_lt (by omega), uint32_of_lt (by omega), hbody]
    omega

theorem Entry.length_key_le {prev : ByteString} (h : e.Extends prev) :
    e.key.length ≤ prev.length + e.encode.length := by
  have hshared := h.shared_le_prev
  simp only [Entry.encode, encodeEntry, length_append, length_drop]
  omega

/-- A key is no longer than the bytes it was put together from. -/
theorem Chained.length_key_le {prev : ByteString} {es : List Entry} (h : Chained prev es) {i : ℕ}
    (he : es[i]? = some e) :
    e.key.length ≤ prev.length + ((es.take (i + 1)).flatMap Entry.encode).length := by
  induction es generalizing prev i with
  | nil => simp at he
  | cons e₀ es ih =>
    rw [take_succ_cons, flatMap_cons, length_append]
    have hfirst := Entry.length_key_le h.1
    rcases i with - | i
    · obtain rfl : e₀ = e := by simpa using he
      omega
    · have hle := ih h.2 (by simpa using he)
      omega

theorem Chained.append {prev : ByteString} {es : List Entry} (h : Chained prev es)
    (he : e.Extends ((es.getLast?.map Entry.key).getD prev)) : Chained prev (es ++ [e]) := by
  induction es generalizing prev with
  | nil => exact ⟨he, trivial⟩
  | cons e₀ es ih =>
    refine ⟨h.1, ih h.2 ?_⟩
    rcases es with - | ⟨e₁, es⟩
    · exact he
    · rwa [getLast?_cons_cons] at he

/-! ### Layouts -/

/-- The entries of a block and the indices of the entries that are restart points. -/
structure Layout where
  entries : List Entry
  restartIndices : List ℕ
  chained : Chained [] entries
  /-- The first restart point is the start of the block. -/
  head : restartIndices.head? = some 0
  /-- Every other restart point is the start of an entry. -/
  lt : ∀ r ∈ restartIndices.tail, r < entries.length
  /-- At a restart point nothing is shared. -/
  shared_eq : ∀ r ∈ restartIndices, ∀ e, entries[r]? = some e → e.shared = 0

namespace Layout

variable (L : Layout)

/-- The entries one after the other. -/
def buffer : ByteString := L.entries.flatMap Entry.encode

/-- Where an entry starts in the block. -/
def offset (i : ℕ) : ℕ := ((L.entries.take i).flatMap Entry.encode).length

/-- The restart array and its length. -/
def trailer : ByteString :=
  L.restartIndices.flatMap (fun r ↦ encodeFixed32 (uint32 (L.offset r)).toUInt32) ++
    encodeFixed32 L.restartIndices.length.toUInt32

/-- The contents of the block. -/
def contents : ByteString := L.buffer ++ L.trailer

/-- The pairs of the block. -/
def pairs : List (ByteString × ByteString) := L.entries.map Entry.pair

theorem offset_length : L.offset L.entries.length = L.buffer.length := by
  rw [offset, take_length, buffer]

theorem offset_succ {i : ℕ} (he : L.entries[i]? = some e) :
    L.offset (i + 1) = L.offset i + e.encode.length := by
  rw [offset, take_add_one, he, flatMap_append, length_append]
  simp [offset]

theorem offset_le (i : ℕ) : L.offset i ≤ L.buffer.length := by
  have h : L.buffer = (L.entries.take i).flatMap Entry.encode ++
      (L.entries.drop i).flatMap Entry.encode := by
    rw [← flatMap_append, take_append_drop, buffer]
  rw [h, length_append, offset]
  exact Nat.le_add_right _ _

/-- What stands in the block from the start of an entry on. -/
theorem drop_offset {i : ℕ} (he : L.entries[i]? = some e) : L.buffer.drop (L.offset i) =
      e.encode ++ (L.entries.drop (i + 1)).flatMap Entry.encode := by
  have h : L.buffer = (L.entries.take i).flatMap Entry.encode ++
      (L.entries.drop i).flatMap Entry.encode := by
    rw [← flatMap_append, take_append_drop, buffer]
  obtain ⟨hi, rfl⟩ := List.getElem?_eq_some_iff.1 he
  rw [h, offset, drop_left, drop_eq_getElem_cons hi, flatMap_cons]

theorem encode_ne_nil (e : Entry) : e.encode ≠ [] := by
  intro h
  simp only [Entry.encode, encodeEntry, append_eq_nil_iff, encodeVarint32_eq] at h
  exact base128_ne_nil _ h.1.1.1.1

theorem offset_lt {i : ℕ} (he : L.entries[i]? = some e) : L.offset i < L.buffer.length := by
  have hpos : 0 < e.encode.length := length_pos_iff.2 (encode_ne_nil e)
  have hle := L.offset_le (i + 1)
  rw [L.offset_succ he] at hle
  omega

theorem length_entries_le : L.entries.length ≤ L.buffer.length := by
  rw [buffer]
  induction L.entries with
  | nil => exact Nat.zero_le _
  | cons e es ih =>
    have hpos : 0 < e.encode.length := length_pos_iff.2 (encode_ne_nil e)
    rw [flatMap_cons, length_append, length_cons]
    omega

theorem length_trailer : L.trailer.length = L.restartIndices.length * 4 + 4 := by
  rw [trailer, length_append, length_encodeFixed32, length_flatMap]
  simp [length_encodeFixed32]

variable {L}

theorem length_buffer_lt (hsmall : L.contents.length < 2 ^ 32) : L.buffer.length < 2 ^ 32 := by
  rw [contents, length_append] at hsmall
  omega

theorem length_restartIndices_lt (hsmall : L.contents.length < 2 ^ 32) :
    L.restartIndices.length < 2 ^ 30 := by
  rw [contents, length_append, length_trailer] at hsmall
  omega

/-- The `j`-th of a sequence of four-byte pieces. -/
theorem drop_flatMap_four {f : ℕ → ByteString} (hf : ∀ r, (f r).length = 4) {l : List ℕ} {j r : ℕ}
    (hr : l[j]? = some r) (tail : ByteString) :
    ∃ rest, (l.flatMap f ++ tail).drop (j * 4) = f r ++ rest := by
  induction l generalizing j with
  | nil => simp at hr
  | cons r₀ l ih =>
    rw [flatMap_cons, append_assoc]
    rcases j with - | j
    · obtain rfl : r₀ = r := by simpa using hr
      exact ⟨_, rfl⟩
    · rw [Nat.succ_mul, Nat.add_comm, ← drop_drop, ← hf r₀, drop_left]
      rw [hf r₀]
      exact ih (by simpa using hr)

/-- The restart array holds the offsets of the restart points. -/
theorem decode_restart (hsmall : L.contents.length < 2 ^ 32) {j r : ℕ}
    (hr : L.restartIndices[j]? = some r) :
    (decodeFixed32 (L.contents.drop (L.buffer.length + j * 4))).toNat = L.offset r := by
  have hlt : L.offset r < 2 ^ 32 := (L.offset_le r).trans_lt (length_buffer_lt hsmall)
  obtain ⟨rest, hdrop⟩ := drop_flatMap_four (fun _ ↦ length_encodeFixed32 _) hr
    (encodeFixed32 L.restartIndices.length.toUInt32)
  rw [contents, ← drop_drop, drop_left, trailer, hdrop, decodeFixed32_append, uint32_of_lt hlt,
    toNat_toUInt32_of_lt hlt]

theorem numRestarts_contents (hsmall : L.contents.length < 2 ^ 32) :
    numRestarts L.contents L.contents.length = L.restartIndices.length := by
  have hlt := length_restartIndices_lt hsmall
  have hlen : L.contents.length - 4 = (L.buffer ++ L.restartIndices.flatMap
      (fun r ↦ encodeFixed32 (uint32 (L.offset r)).toUInt32)).length := by
    rw [contents, trailer, ← append_assoc, length_append, length_encodeFixed32]
    exact Nat.add_sub_cancel _ _
  have hdecode : decodeFixed32 (encodeFixed32 L.restartIndices.length.toUInt32) =
      L.restartIndices.length.toUInt32 := by
    simpa using decodeFixed32_append L.restartIndices.length.toUInt32 []
  rw [numRestarts, hlen, contents, trailer, ← append_assoc, drop_left, hdecode,
    toNat_toUInt32_of_lt (by omega)]

theorem restartIndices_ne_nil : L.restartIndices ≠ [] := by
  intro h
  have hhead := L.head
  rw [h] at hhead
  simp at hhead

theorem eq_zero_or_mem_tail {r : ℕ} (hr : r ∈ L.restartIndices) :
    r = 0 ∨ r ∈ L.restartIndices.tail := by
  obtain ⟨r₀, rs, hrs⟩ := exists_cons_of_ne_nil (L.restartIndices_ne_nil)
  have hhead := L.head
  rw [hrs] at hr hhead ⊢
  obtain rfl | hr := mem_cons.1 hr
  · exact .inl (by simpa using hhead)
  · exact .inr hr

/-- A block is opened with the restart array where the entries end. -/
theorem newIterator_contents (hsmall : L.contents.length < 2 ^ 32) :
    (Block.new L.contents).newIterator =
      .entries (Iter.new L.contents L.buffer.length L.restartIndices.length) := by
  have hnum := numRestarts_contents hsmall
  have hlen : L.contents.length = L.buffer.length + (L.restartIndices.length * 4 + 4) := by
    rw [contents, length_append, length_trailer]
  have hpos : L.restartIndices.length ≠ 0 := fun h ↦
    restartIndices_ne_nil (length_eq_zero_iff.1 h)
  have hoffset : L.contents.length - (1 + L.restartIndices.length) * 4 = L.buffer.length := by
    omega
  have hnew : Block.new L.contents = ⟨L.contents, L.contents.length, L.buffer.length⟩ := by
    simp only [Block.new, hnum, hoffset]
    rw [if_neg (by omega), if_neg (by omega), uint32_of_lt (length_buffer_lt hsmall)]
  rw [hnew, Block.newIterator, hnum]
  rw [if_neg (show ¬L.contents.length < 4 by omega), if_neg hpos]

end Layout

/-! ### The builder -/

/-- The state of a builder is that of a layout. -/
structure BlockBuilder.Lays (b : BlockBuilder) (L : Layout) : Prop where
  buffer_eq : b.buffer = L.buffer
  restarts_eq : b.restarts = L.restartIndices.map fun r ↦ uint32 (L.offset r)
  lastKey_eq : b.lastKey = (L.entries.getLast?.map Entry.key).getD []

theorem BlockBuilder.Lays.finish_eq {b : BlockBuilder} {L : Layout} (h : b.Lays L) :
    b.finish = L.contents := by
  rw [BlockBuilder.finish, h.buffer_eq, h.restarts_eq, flatMap_map, length_map, append_assoc,
    Layout.contents, Layout.trailer]

/-- Appending an entry, which may be a new restart point. -/
def Layout.snoc (L : Layout) (e : Entry)
    (he : e.Extends ((L.entries.getLast?.map Entry.key).getD []))
    (rs : List ℕ) (hrs : ∀ r ∈ rs, r = L.entries.length ∧ e.shared = 0) : Layout where
  entries := L.entries ++ [e]
  restartIndices := L.restartIndices ++ rs
  chained := L.chained.append he
  head := by rw [List.head?_append_of_ne_nil _ L.restartIndices_ne_nil, L.head]
  lt := by
    intro r hr
    rw [List.tail_append_of_ne_nil L.restartIndices_ne_nil, List.mem_append] at hr
    rw [List.length_append, List.length_singleton]
    obtain hr | hr := hr
    · exact Nat.lt_succ_of_lt (L.lt r hr)
    · rw [(hrs r hr).1]
      exact Nat.lt_succ_self _
  shared_eq := by
    intro r hr e' he'
    by_cases hlt : r < L.entries.length
    · rw [List.getElem?_append_left hlt] at he'
      obtain hr | hr := List.mem_append.1 hr
      · exact L.shared_eq r hr e' he'
      · exact absurd (hrs r hr).1 hlt.ne
    · have hsingle : r - L.entries.length = 0 := by
        have hbound := (List.getElem?_eq_some_iff.1 he').1
        rw [List.length_append, List.length_singleton] at hbound
        omega
      rw [List.getElem?_append_right (Nat.not_lt.1 hlt), hsingle] at he'
      obtain rfl : e = e' := by simpa using he'
      obtain hr | hr := List.mem_append.1 hr
      · obtain rfl | hr := L.eq_zero_or_mem_tail hr
        · have hnil : L.entries = [] := List.length_eq_zero_iff.1 (by omega)
          rw [hnil] at he
          exact Nat.le_zero.1 he.shared_le_prev
        · exact absurd (L.lt r hr) hlt
      · exact (hrs r hr).2

theorem Layout.offset_snoc {L L' : Layout} (h : L'.entries = L.entries ++ [e]) {r : ℕ}
    (hr : r ≤ L.entries.length) : L'.offset r = L.offset r := by
  rw [Layout.offset, Layout.offset, h, take_append_of_le_length hr]

theorem Layout.le_length {L : Layout} {r : ℕ} (hr : r ∈ L.restartIndices) :
    r ≤ L.entries.length := by
  obtain rfl | hr := L.eq_zero_or_mem_tail hr
  · exact Nat.zero_le _
  · exact (L.lt r hr).le

/-- The layout of an empty block. -/
def Layout.nil : Layout where
  entries := []
  restartIndices := [0]
  chained := trivial
  head := rfl
  lt := by simp
  shared_eq := by simp

theorem BlockBuilder.lays_nil (blockRestartInterval : ℕ) :
    BlockBuilder.Lays { blockRestartInterval } Layout.nil :=
  ⟨rfl, rfl, rfl⟩

/-- One `Add` appends one entry to the layout. -/
theorem BlockBuilder.Lays.add {b : BlockBuilder} {L : Layout} (h : b.Lays L)
    (key value : ByteString) :
    ∃ L', (b.add key value).Lays L' ∧ L'.pairs = L.pairs ++ [(key, value)] := by
  by_cases hcount : b.counter < b.blockRestartInterval
  · have hext : Entry.Extends ⟨sharedPrefix b.lastKey key, key, value⟩
        ((L.entries.getLast?.map Entry.key).getD []) := by
      rw [← h.lastKey_eq]
      exact ⟨sharedPrefix_le_left .., sharedPrefix_le_right .., take_sharedPrefix ..⟩
    refine ⟨L.snoc _ hext [] (by simp), ⟨?_, ?_, ?_⟩, ?_⟩
    · simp [BlockBuilder.add, hcount, Layout.buffer, Layout.snoc, h.buffer_eq, Entry.encode]
    · simp only [BlockBuilder.add, hcount, if_true, h.restarts_eq, Layout.snoc, append_nil]
      refine map_congr_left fun r hr ↦ ?_
      exact congrArg uint32 (Layout.offset_snoc rfl (Layout.le_length hr)).symm
    · simp [BlockBuilder.add, hcount, Layout.snoc, take_sharedPrefix]
    · simp [Layout.pairs, Layout.snoc, Entry.pair]
  · have hext : Entry.Extends ⟨0, key, value⟩ ((L.entries.getLast?.map Entry.key).getD []) :=
      ⟨Nat.zero_le _, Nat.zero_le _, rfl⟩
    refine ⟨L.snoc _ hext [L.entries.length] (by simp), ⟨?_, ?_, ?_⟩, ?_⟩
    · simp [BlockBuilder.add, hcount, Layout.buffer, Layout.snoc, h.buffer_eq, Entry.encode]
    · simp only [BlockBuilder.add, hcount, if_false, h.restarts_eq, Layout.snoc, map_append,
        map_singleton, h.buffer_eq]
      congr 1
      · refine map_congr_left fun r hr ↦ ?_
        exact congrArg uint32 (Layout.offset_snoc rfl (Layout.le_length hr)).symm
      · rw [← L.offset_length]
        exact congrArg (fun n ↦ [uint32 n]) (Layout.offset_snoc rfl le_rfl).symm
    · simp [BlockBuilder.add, hcount, Layout.snoc]
    · simp [Layout.pairs, Layout.snoc, Entry.pair]

theorem BlockBuilder.Lays.foldl {b : BlockBuilder} {L : Layout} (h : b.Lays L)
    (kvs : List (ByteString × ByteString)) :
    ∃ L', (kvs.foldl (fun (b : BlockBuilder) kv ↦ b.add kv.1 kv.2) b).Lays L' ∧
      L'.pairs = L.pairs ++ kvs := by
  induction kvs generalizing b L with
  | nil => exact ⟨L, h, (append_nil _).symm⟩
  | cons kv kvs ih =>
    obtain ⟨L₁, h₁, hpairs₁⟩ := h.add kv.1 kv.2
    obtain ⟨L₂, h₂, hpairs₂⟩ := ih h₁
    refine ⟨L₂, h₂, ?_⟩
    rw [hpairs₂, hpairs₁, append_assoc]
    rfl

/-- Every list of pairs is written with a layout. -/
theorem exists_layout (blockRestartInterval : ℕ) (kvs : List (ByteString × ByteString)) :
    ∃ L : Layout, L.contents = buildBlock blockRestartInterval kvs ∧ L.pairs = kvs := by
  obtain ⟨L, h, hpairs⟩ := (BlockBuilder.lays_nil blockRestartInterval).foldl kvs
  exact ⟨L, h.finish_eq.symm, hpairs⟩

end TensorFlowCore.Table
