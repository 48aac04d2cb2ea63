import TensorFlowCore.Lib.Io.Table.BlockLayout

/-!
# Iterators over a block

`At L i it` says that an iterator over the block with layout `L` is positioned at the `i`-th entry,
or past the last one. `SeekToFirst`, `Next` and `Seek` move it as a cursor over the list of pairs
moves: to the first pair, to the next one and to the first one at or past the target.
-/

namespace TensorFlowCore.Table

open List Option

variable {L : Layout} {it : Iter} {i : ℕ}

/-- The iterator reads the contents of the layout and has met no error. -/
structure Over (L : Layout) (it : Iter) : Prop where
  data_eq : it.data = L.contents
  restarts_eq : it.restarts = L.buffer.length
  numRestarts_eq : it.numRestarts = L.restartIndices.length
  status_eq : it.status = .ok

/-- `ParseNextKey` is about to decode the `i`-th entry: `value_` ends where the entry starts, and
`key_` has the bytes that the entry leaves out. -/
structure Ready (L : Layout) (i : ℕ) (it : Iter) : Prop extends Over L it where
  stop : it.valueStart + it.valueSize = L.offset i
  key_extends : ∀ e, L.entries[i]? = some e → e.Extends it.key

/-- The iterator is positioned at the `i`-th entry, or is not valid if there is none. -/
structure At (L : Layout) (i : ℕ) (it : Iter) : Prop extends Over L it where
  le : i ≤ L.entries.length
  current_eq : it.current = L.offset i
  key_eq : ∀ e, L.entries[i]? = some e → it.key = e.key
  value_eq : ∀ e, L.entries[i]? = some e → it.value = e.value
  stop : i < L.entries.length → it.valueStart + it.valueSize = L.offset (i + 1)

theorem Chained.extends_of_getElem? {prev : ByteString} {es : List Entry} (h : Chained prev es)
    {e e' : Entry} (he : es[i]? = some e) (he' : es[i + 1]? = some e') : e'.Extends e.key := by
  induction es generalizing prev i with
  | nil => simp at he
  | cons e₀ es ih =>
    rcases i with - | i
    · obtain rfl : e₀ = e := by simpa using he
      rcases es with - | ⟨e₁, es⟩
      · simp at he'
      · obtain rfl : e₁ = e' := by simpa using he'
        exact h.2.1
    · exact ih h.2 (by simpa using he) (by simpa using he')

theorem Over.take_restarts (h : Over L it) : it.data.take it.restarts = L.buffer := by
  rw [h.data_eq, h.restarts_eq, Layout.contents, take_left]

theorem Over.getRestartPoint_eq (h : Over L it) (hsmall : L.contents.length < 2 ^ 32) {j r : ℕ}
    (hr : L.restartIndices[j]? = some r) : it.getRestartPoint j = L.offset r := by
  rw [Iter.getRestartPoint, h.data_eq, h.restarts_eq, Layout.decode_restart hsmall hr]

/-- Decoding from the start of an entry finds that entry. -/
theorem Over.decodeEntry_offset (h : Over L it) (hsmall : L.contents.length < 2 ^ 32) {e : Entry}
    (he : L.entries[i]? = some e) :
    decodeEntry ((it.data.take it.restarts).drop (L.offset i)) =
      some (e.shared, e.key.length - e.shared, e.value.length,
        e.key.drop e.shared ++ e.value ++ (L.entries.drop (i + 1)).flatMap Entry.encode) := by
  have hbuffer := Layout.length_buffer_lt hsmall
  have hkey : e.key.length ≤ L.offset (i + 1) := by
    rw [Layout.offset]
    exact (L.chained.length_key_le he).trans (Nat.zero_add _).le
  have hle := L.offset_le (i + 1)
  have hprev : e.shared ≤ e.key.length := by
    rcases i with - | i
    · obtain ⟨e₀, es, hes⟩ : ∃ e₀ es, L.entries = e₀ :: es := by
        rcases hes : L.entries with - | ⟨e₀, es⟩
        · simp [hes] at he
        · exact ⟨e₀, es, rfl⟩
      have hchain := L.chained
      rw [hes] at hchain he
      obtain rfl : e₀ = e := by simpa using he
      exact hchain.1.shared_le
    · obtain ⟨hi, -⟩ := List.getElem?_eq_some_iff.1 he
      exact (L.chained.extends_of_getElem? (getElem?_eq_getElem (by omega)) he).shared_le
  have hdrop := L.drop_offset he
  rw [h.take_restarts, hdrop]
  refine decodeEntry_encode e _ (by omega) ?_
  rw [← hdrop, length_drop]
  omega

/-- `ParseNextKey` decodes the entry it is about to decode. -/
theorem Ready.parseNextKey (h : Ready L i it) (hsmall : L.contents.length < 2 ^ 32) {e : Entry}
    (he : L.entries[i]? = some e) : it.parseNextKey.2 = true ∧ At L i it.parseNextKey.1 := by
  have hbuffer := Layout.length_buffer_lt hsmall
  have hlt := L.offset_lt he
  have hnext : it.nextEntryOffset = L.offset i := by
    rw [Iter.nextEntryOffset, h.stop, uint32_of_lt (hlt.trans hbuffer)]
  have hext := h.key_extends e he
  -- the bytes from the key delta on are the end of the buffer
  set rest := (L.entries.drop (i + 1)).flatMap Entry.encode with hrest
  have hdrop := L.drop_offset he
  obtain ⟨pre, hpre⟩ : ∃ pre, L.buffer = pre ++ (e.key.drop e.shared ++ e.value ++ rest) := by
    refine ⟨L.buffer.take (L.offset i) ++ (encodeVarint32 e.shared.toUInt32 ++
      encodeVarint32 (e.key.length - e.shared).toUInt32 ++
        encodeVarint32 e.value.length.toUInt32), ?_⟩
    conv_lhs => rw [← take_append_drop (L.offset i) L.buffer, hdrop]
    simp only [Entry.encode, encodeEntry, append_assoc, ← hrest]
  have hstart : L.buffer.length - (e.key.drop e.shared ++ e.value ++ rest).length +
      (e.key.length - e.shared) = (pre ++ e.key.drop e.shared).length := by
    conv_lhs => rw [hpre]
    simp only [length_append, length_drop]
    omega
  have hstop : (pre ++ e.key.drop e.shared).length + e.value.length = L.offset (i + 1) := by
    have hlen := congrArg length hpre
    have hlen' := congrArg length hdrop
    rw [L.offset_succ he]
    simp only [length_append, length_drop, ← hrest] at hlen hlen' ⊢
    omega
  have hval : (L.contents.drop (pre ++ e.key.drop e.shared).length).take e.value.length =
      e.value := by
    have hcontents : L.contents =
        pre ++ e.key.drop e.shared ++ (e.value ++ (rest ++ L.trailer)) := by
      rw [Layout.contents, hpre]
      simp only [append_assoc]
    rw [hcontents, drop_left, take_left]
  have hparse : it.parseNextKey = ({ it with
      current := L.offset i
      key := it.key.take e.shared ++ (e.key.drop e.shared ++ e.value ++ rest).take
        (e.key.length - e.shared)
      valueStart := it.restarts - (e.key.drop e.shared ++ e.value ++ rest).length +
        (e.key.length - e.shared)
      valueSize := e.value.length
      restartIndex := it.advanceRestartIndex (L.offset i) it.restartIndex }, true) := by
    rw [Iter.parseNextKey, hnext, if_neg (by rw [h.restarts_eq]; omega)]
    simp only [h.toOver.decodeEntry_offset hsmall he]
    rw [if_neg (Nat.not_lt.2 hext.shared_le_prev)]
  rw [hparse]
  refine ⟨rfl, ⟨h.data_eq, h.restarts_eq, h.numRestarts_eq, h.status_eq⟩, ?_, rfl, ?_, ?_, ?_⟩
  · exact (List.getElem?_eq_some_iff.1 he).1.le
  · intro e' he'
    obtain rfl : e = e' := some.inj (he.symm.trans he')
    show it.key.take e.shared ++ (e.key.drop e.shared ++ e.value ++ rest).take _ = e.key
    rw [append_assoc, take_left' (by rw [length_drop]), hext.take_eq, take_append_drop]
  · intro e' he'
    obtain rfl : e = e' := some.inj (he.symm.trans he')
    simp only [Iter.value, h.data_eq, h.restarts_eq]
    rw [hstart, hval]
  · intro _
    simp only [h.restarts_eq]
    rw [hstart, hstop]

/-- Past the last entry `ParseNextKey` makes the iterator invalid. -/
theorem Ready.parseNextKey_end (h : Ready L L.entries.length it)
    (hsmall : L.contents.length < 2 ^ 32) :
    it.parseNextKey.2 = false ∧ At L L.entries.length it.parseNextKey.1 := by
  have hnext : it.nextEntryOffset = L.buffer.length := by
    rw [Iter.nextEntryOffset, h.stop, L.offset_length,
      uint32_of_lt (Layout.length_buffer_lt hsmall)]
  have hparse : it.parseNextKey =
      ({ it with current := it.restarts, restartIndex := it.numRestarts }, false) := by
    rw [Iter.parseNextKey, hnext, if_pos (by rw [h.restarts_eq])]
  rw [hparse]
  refine ⟨rfl, ⟨h.data_eq, h.restarts_eq, h.numRestarts_eq, h.status_eq⟩, le_rfl, ?_, ?_, ?_, ?_⟩
  · rw [L.offset_length]
    exact h.restarts_eq
  · simp
  · simp
  · exact fun hlt ↦ absurd hlt (Nat.lt_irrefl _)

/-- `ParseNextKey` positions the iterator at the entry it was ready for, if there is one. -/
theorem Ready.at_parseNextKey (h : Ready L i it) (hi : i ≤ L.entries.length)
    (hsmall : L.contents.length < 2 ^ 32) : At L i it.parseNextKey.1 := by
  obtain hlt | rfl := hi.lt_or_eq
  · exact (h.parseNextKey hsmall (getElem?_eq_getElem hlt)).2
  · exact (h.parseNextKey_end hsmall).2

theorem At.ready (h : At L i it) (hi : i < L.entries.length) : Ready L (i + 1) it := by
  have he := getElem?_eq_getElem hi
  refine ⟨h.toOver, h.stop hi, fun e' he' ↦ ?_⟩
  rw [h.key_eq _ he]
  exact L.chained.extends_of_getElem? he he'

theorem Over.ready_seekToRestartPoint (h : Over L it) (hsmall : L.contents.length < 2 ^ 32)
    {j r : ℕ} (hr : L.restartIndices[j]? = some r) : Ready L r (it.seekToRestartPoint j) := by
  refine ⟨⟨h.data_eq, h.restarts_eq, h.numRestarts_eq, h.status_eq⟩, ?_, fun e he ↦ ?_⟩
  · exact h.getRestartPoint_eq hsmall hr
  · have hzero := L.shared_eq r (mem_of_getElem? hr) e he
    refine ⟨?_, ?_, ?_⟩
    · exact hzero.le
    · exact hzero.le.trans (Nat.zero_le _)
    · rw [hzero, take_zero, take_zero]

theorem over_new : Over L (Iter.new L.contents L.buffer.length L.restartIndices.length) :=
  ⟨rfl, rfl, rfl, rfl⟩

theorem Over.at_seekToFirst (h : Over L it) (hsmall : L.contents.length < 2 ^ 32) :
    At L 0 it.seekToFirst := by
  have hr : L.restartIndices[0]? = some 0 := by rw [← head?_eq_getElem?, L.head]
  exact (h.ready_seekToRestartPoint hsmall hr).at_parseNextKey (Nat.zero_le _) hsmall

theorem At.at_next (h : At L i it) (hi : i < L.entries.length)
    (hsmall : L.contents.length < 2 ^ 32) : At L (i + 1) it.next :=
  (h.ready hi).at_parseNextKey hi hsmall

theorem At.valid_iff (h : At L i it) : it.valid = true ↔ i < L.entries.length := by
  rw [Iter.valid, decide_eq_true_eq, h.current_eq, h.restarts_eq]
  constructor
  · intro hlt
    refine lt_of_le_of_ne h.le fun heq ↦ ?_
    rw [heq, L.offset_length] at hlt
    exact absurd hlt (Nat.lt_irrefl _)
  · exact fun hi ↦ L.offset_lt (getElem?_eq_getElem hi)

/-- What an iterator at the `i`-th entry shows is the `i`-th pair. -/
theorem At.entry_eq (h : At L i it) : (Iterator.entries it).entry = L.pairs[i]? := by
  rw [Iterator.entry, Layout.pairs, getElem?_map]
  by_cases hi : i < L.entries.length
  · have he := getElem?_eq_getElem hi
    rw [if_pos (h.valid_iff.2 hi), he, h.key_eq _ he, h.value_eq _ he]
    rfl
  · rw [if_neg (mt h.valid_iff.1 hi), getElem?_eq_none (Nat.not_lt.1 hi)]
    rfl

/-! ### `Seek` -/

/-- Strictly increasing keys. -/
def Increasing (kvs : List (ByteString × ByteString)) : Prop :=
  kvs.Pairwise fun kv kv' ↦ kv.1 < kv'.1

/-- All keys before the `i`-th one are smaller than the target. -/
def AllBelow (kvs : List (ByteString × ByteString)) (target : ByteString) (i : ℕ) : Prop :=
  ∀ j < i, ∀ kv, kvs[j]? = some kv → kv.1 < target

/-- The pair behind keys that are all smaller, if it is not smaller itself, is the one to find. -/
theorem AllBelow.find?_eq {kvs : List (ByteString × ByteString)} {target : ByteString}
    (h : AllBelow kvs target i) (hi : ∀ kv, kvs[i]? = some kv → target ≤ kv.1) :
    kvs.find? (fun kv ↦ target ≤ kv.1) = kvs[i]? := by
  induction kvs generalizing i with
  | nil => simp
  | cons kv kvs ih =>
    rcases i with - | i
    · have hkv : target ≤ kv.1 := hi kv (by simp)
      simp [hkv]
    · have hkv : ¬target ≤ kv.1 := not_not.2 (h 0 (Nat.succ_pos i) kv (by simp))
      rw [find?_cons_of_neg (by simpa using hkv)]
      simpa using ih (fun j hj kv' hkv' ↦ h (j + 1) (Nat.succ_lt_succ hj) kv' (by simpa using hkv'))
        (by simpa using hi)

theorem Increasing.allBelow {kvs : List (ByteString × ByteString)} (h : Increasing kvs)
    {kv : ByteString × ByteString} (hi : kvs[i]? = some kv) {target : ByteString}
    (hlt : kv.1 < target) : AllBelow kvs target i := by
  intro j hj kv' hj'
  obtain ⟨hi₁, rfl⟩ := List.getElem?_eq_some_iff.1 hi
  obtain ⟨hj₁, rfl⟩ := List.getElem?_eq_some_iff.1 hj'
  exact List.lt_trans (List.pairwise_iff_getElem.1 h j i hj₁ hi₁ hj) hlt

theorem Layout.pairs_getElem? {e : Entry} (he : L.entries[i]? = some e) :
    L.pairs[i]? = some e.pair := by
  rw [Layout.pairs, getElem?_map, he]
  rfl

theorem Layout.length_pairs : L.pairs.length = L.entries.length := length_map _

/-- The linear search stops at the first key at or past the target. -/
theorem Ready.at_scanTo (hsmall : L.contents.length < 2 ^ 32) (target : ByteString) {n : ℕ}
    (h : Ready L i it) (hi : i ≤ L.entries.length) (hn : L.entries.length < i + n)
    (hbelow : AllBelow L.pairs target i) :
    ∃ k, At L k (Iter.scanTo target n it) ∧ AllBelow L.pairs target k ∧
      ∀ kv, L.pairs[k]? = some kv → target ≤ kv.1 := by
  induction n generalizing i it with
  | zero => omega
  | succ n ih =>
    rw [Iter.scanTo]
    obtain hlt | rfl := hi.lt_or_eq
    · have he := getElem?_eq_getElem hlt
      obtain ⟨hfound, hat⟩ := h.parseNextKey hsmall he
      obtain ⟨it', found, hparse⟩ : ∃ x y, it.parseNextKey = (x, y) := ⟨_, _, rfl⟩
      rw [hparse] at hfound hat ⊢
      obtain rfl : found = true := hfound
      have hkey : it'.key = _ := hat.key_eq _ he
      by_cases hstop : it'.key < target
      · simp only [if_pos hstop]
        refine ih (hat.ready hlt) hlt (by omega) fun j hj kv hkv ↦ ?_
        obtain hj | rfl := Nat.lt_succ_iff_lt_or_eq.1 hj
        · exact hbelow j hj kv hkv
        · rw [Layout.pairs_getElem? he] at hkv
          cases hkv
          rwa [hkey] at hstop
      · simp only [if_neg hstop]
        refine ⟨i, hat, hbelow, fun kv hkv ↦ ?_⟩
        rw [Layout.pairs_getElem? he] at hkv
        cases hkv
        rwa [hkey] at hstop
    · obtain ⟨hfound, hat⟩ := h.parseNextKey_end hsmall
      obtain ⟨it', found, hparse⟩ : ∃ x y, it.parseNextKey = (x, y) := ⟨_, _, rfl⟩
      rw [hparse] at hfound hat ⊢
      obtain rfl : found = false := hfound
      refine ⟨L.entries.length, hat, hbelow, fun kv hkv ↦ ?_⟩
      rw [getElem?_eq_none (by rw [Layout.length_pairs])] at hkv
      cases hkv

/-- A restart point that the linear search may start from. -/
def StartsBelow (L : Layout) (target : ByteString) (j : ℕ) : Prop :=
  ∃ r, L.restartIndices[j]? = some r ∧ AllBelow L.pairs target r

section

variable (h : Over L it) (hsmall : L.contents.length < 2 ^ 32) (hinc : Increasing L.pairs)
  (target : ByteString)
include h hsmall hinc target

/-- The binary search returns a restart point with nothing to find before it. -/
theorem Over.searchRestarts_spec (rounds : ℕ) {left right : ℕ} (hleft : StartsBelow L target left)
    (hright : right < L.restartIndices.length) :
    ∃ j, it.searchRestarts target rounds left right = some j ∧ StartsBelow L target j := by
  induction rounds generalizing left right with
  | zero => exact ⟨left, rfl, hleft⟩
  | succ rounds ih =>
    rw [Iter.searchRestarts]
    by_cases hlr : left < right
    · have hnum := Layout.length_restartIndices_lt hsmall
      have hmid : uint32 (left + right + 1) / 2 = (left + right + 1) / 2 := by
        rw [uint32_of_lt (by omega)]
      set mid := uint32 (left + right + 1) / 2 with hmid'
      have hlo : left < mid := by omega
      have hhi : mid ≤ right := by omega
      have hr := getElem?_eq_getElem (hhi.trans_lt hright)
      set r := L.restartIndices[mid]
      -- `mid` is not the first restart point, so an entry starts there
      have hmem : r ∈ L.restartIndices.tail := by
        refine mem_of_getElem? (i := mid - 1) ?_
        rw [getElem?_tail, show mid - 1 + 1 = mid by omega, hr]
      obtain ⟨e, he⟩ : ∃ e, L.entries[r]? = some e := ⟨_, getElem?_eq_getElem (L.lt r hmem)⟩
      have hzero := L.shared_eq r (mem_of_getElem? hr) _ he
      have hdecode := h.decodeEntry_offset hsmall he
      rw [hzero, Nat.sub_zero, drop_zero, append_assoc] at hdecode
      rw [if_pos hlr]
      simp only [h.getRestartPoint_eq hsmall hr, hdecode, ne_eq, not_true_eq_false, if_false,
        take_left]
      by_cases hlt : e.key < target
      · rw [if_pos hlt]
        exact ih ⟨r, hr, hinc.allBelow (Layout.pairs_getElem? he) hlt⟩ hright
      · rw [if_neg hlt]
        exact ih hleft (by omega)
    · rw [if_neg hlr]
      exact ⟨left, rfl, hleft⟩

/-- `Seek` positions the iterator at the first key at or past the target, from any state. -/
theorem Over.at_seek : ∃ k, At L k (it.seek target) ∧ AllBelow L.pairs target k ∧
      ∀ kv, L.pairs[k]? = some kv → target ≤ kv.1 := by
  have hfirst : StartsBelow L target 0 :=
    ⟨0, by rw [← head?_eq_getElem?, L.head], fun j hj ↦ absurd hj (Nat.not_lt_zero j)⟩
  have hpos : 0 < L.restartIndices.length := length_pos_iff.2 L.restartIndices_ne_nil
  obtain ⟨j, hsearch, r, hr, hbelow⟩ := h.searchRestarts_spec hsmall hinc target it.numRestarts
    hfirst (show it.numRestarts - 1 < _ by rw [h.numRestarts_eq]; omega)
  have hle : L.entries.length ≤ L.contents.length := by
    rw [Layout.contents, length_append]
    exact L.length_entries_le.trans (Nat.le_add_right _ _)
  rw [Iter.seek, hsearch]
  refine (h.ready_seekToRestartPoint hsmall hr).at_scanTo hsmall target
    (Layout.le_length (mem_of_getElem? hr)) ?_ hbelow
  rw [h.data_eq]
  omega

end

/-! ### Round trip -/

/-- A block gives back the pairs it was built from. -/
def BlockRoundTrips (blockRestartInterval : ℕ) (kvs : List (ByteString × ByteString)) : Prop :=
  GoesThrough (Block.new (buildBlock blockRestartInterval kvs)).newIterator kvs

/-- An iterator that a client has stays over its block, and at an entry while it is valid. -/
theorem Reaches.over (hsmall : L.contents.length < 2 ^ 32) (hinc : Increasing L.pairs)
    {it : Iterator} (h : Reaches (Block.new L.contents).newIterator it) :
    ∃ iter, it = .entries iter ∧ Over L iter ∧ (iter.valid → ∃ i, At L i iter) := by
  induction h with
  | refl =>
    refine ⟨_, Layout.newIterator_contents hsmall, over_new, fun hvalid ↦ ?_⟩
    rw [Iter.valid, decide_eq_true_eq] at hvalid
    exact absurd hvalid (Nat.lt_irrefl _)
  | seekToFirst _ ih =>
    obtain ⟨iter, rfl, hover, -⟩ := ih
    have hat := hover.at_seekToFirst hsmall
    exact ⟨_, rfl, hat.toOver, fun _ ↦ ⟨0, hat⟩⟩
  | seek target _ ih =>
    obtain ⟨iter, rfl, hover, -⟩ := ih
    obtain ⟨k, hat, -⟩ := hover.at_seek hsmall hinc target
    exact ⟨_, rfl, hat.toOver, fun _ ↦ ⟨k, hat⟩⟩
  | next _ hvalid ih =>
    obtain ⟨iter, rfl, hover, hat⟩ := ih
    obtain ⟨i, hat⟩ := hat hvalid
    have hat' := hat.at_next (hat.valid_iff.1 hvalid) hsmall
    exact ⟨_, rfl, hat'.toOver, fun _ ↦ ⟨i + 1, hat'⟩⟩

theorem Over.at_iterate_next (h : Over L it) (hsmall : L.contents.length < 2 ^ 32) {n : ℕ}
    (hn : n ≤ L.entries.length) :
    ∃ iter, Iterator.next^[n] (.entries it.seekToFirst) = .entries iter ∧ At L n iter := by
  induction n with
  | zero => exact ⟨_, rfl, h.at_seekToFirst hsmall⟩
  | succ n ih =>
    obtain ⟨iter, hiter, hat⟩ := ih (Nat.le_of_succ_le hn)
    exact ⟨iter.next, by rw [Function.iterate_succ_apply', hiter]; rfl, hat.at_next hn hsmall⟩

/-- An iterator over a layout goes through its pairs. -/
theorem Layout.goesThrough (hsmall : L.contents.length < 2 ^ 32) (hinc : Increasing L.pairs) :
    GoesThrough (Block.new L.contents).newIterator L.pairs := by
  intro it hit
  obtain ⟨iter, rfl, hover, -⟩ := hit.over hsmall hinc
  constructor
  · intro n hn
    rw [Layout.length_pairs] at hn
    obtain ⟨iter', hiter, hat⟩ := hover.at_iterate_next hsmall hn
    show Iterator.entry (Iterator.next^[n] (.entries iter.seekToFirst)) = _
    rw [hiter, hat.entry_eq]
  · intro target
    obtain ⟨k, hat, hbelow, hge⟩ := hover.at_seek hsmall hinc target
    show Iterator.entry (.entries (iter.seek target)) = _
    rw [hat.entry_eq, hbelow.find?_eq hge]

/-- Every block that `uint32` offsets can address gives back the pairs it was built from. -/
theorem blockRoundTrips_of_lt (blockRestartInterval : ℕ) (kvs : List (ByteString × ByteString))
    (hinc : Increasing kvs) (hsmall : (buildBlock blockRestartInterval kvs).length < 2 ^ 32) :
    BlockRoundTrips blockRestartInterval kvs := by
  obtain ⟨L, hcontents, rfl⟩ := exists_layout blockRestartInterval kvs
  rw [← hcontents] at hsmall
  rw [BlockRoundTrips, ← hcontents]
  exact L.goesThrough hsmall hinc

/-- Two pairs whose keys share a byte, with one restart point. -/
theorem blockRoundTrips_two :
    Increasing [([1], [5]), ([1, 2], [])] ∧ (buildBlock 16 [([1], [5]), ([1, 2], [])]).length <
      2 ^ 32 ∧
      BlockRoundTrips 16 [([1], [5]), ([1, 2], [])] := by
  have hinc : Increasing [([1], [5]), ([1, 2], [])] := by
    rw [Increasing, pairwise_pair]
    decide
  have hsmall : (buildBlock 16 [([1], [5]), ([1, 2], [])]).length < 2 ^ 32 := by decide
  exact ⟨hinc, hsmall, blockRoundTrips_of_lt 16 _ hinc hsmall⟩

/-! ### Blocks that are too large -/

/-- The length of a value is decoded as a number of 32 bits. -/
theorem valueLength_lt {p rest : ByteString} {shared nonShared valueLength : ℕ}
    (h : decodeEntry p = some (shared, nonShared, valueLength, rest)) : valueLength < 2 ^ 32 := by
  rw [decodeEntry, bind_eq_bind, bind_eq_some_iff] at h
  obtain ⟨⟨shared', nonShared', valueLength', rest'⟩, hlengths, h⟩ := h
  have heq : valueLength' = valueLength := by
    simp only at h
    split at h
    · cases h
    · simp only [Option.pure_def, Option.some.injEq, Prod.mk.injEq] at h
      exact h.2.2.1
  rw [← heq]
  unfold decodeLengths at hlengths
  split at hlengths
  · rename_i b₀ b₁ b₂ tail
    split at hlengths
    · simp only [some.injEq, Prod.mk.injEq] at hlengths
      rw [← hlengths.2.2.1]
      have hb := b₂.toNat_lt
      omega
    · simp only [Option.bind_eq_bind, Option.bind_eq_some_iff, Option.pure_def, Option.some.injEq,
        Prod.mk.injEq] at hlengths
      obtain ⟨-, -, -, -, x, -, -, -, hv, -⟩ := hlengths
      rw [← hv]
      exact x.1.toNat_lt
  · cases hlengths

theorem valueSize_lt_of_valid (it : Iter) (h : it.parseNextKey.1.valid) :
    it.parseNextKey.1.valueSize < 2 ^ 32 := by
  rw [Iter.valid, decide_eq_true_eq] at h
  unfold Iter.parseNextKey at h ⊢
  dsimp only at h ⊢
  split at h
  · exact absurd h (Nat.lt_irrefl _)
  · rename_i hcurrent
    rw [if_neg hcurrent]
    split at h
    · exact absurd h (Nat.lt_irrefl _)
    · rename_i hdecode
      split at h
      · exact absurd h (Nat.lt_irrefl _)
      · rename_i hshared
        rw [if_neg hshared]
        exact valueLength_lt hdecode

/-- No iterator over a block shows a value of `2 ^ 32` bytes. -/
theorem length_value_lt {it : Iterator} {kv : ByteString × ByteString}
    (h : it.seekToFirst.entry = some kv) : kv.2.length < 2 ^ 32 := by
  cases it with
  | empty s => cases h
  | entries it =>
    simp only [Iterator.seekToFirst, Iterator.entry, ite_none_right_eq_some, some.injEq] at h
    obtain ⟨hvalid, rfl⟩ := h
    calc it.seekToFirst.value.length ≤ it.seekToFirst.valueSize := by
          rw [Iter.value, length_take]
          exact Nat.min_le_left _ _
      _ < 2 ^ 32 := valueSize_lt_of_valid _ hvalid

/-- A block does not give back a value of `2 ^ 32` bytes or more. -/
theorem not_blockRoundTrips_of_le (blockRestartInterval : ℕ) {key value : ByteString}
    (h : 2 ^ 32 ≤ value.length) : ¬BlockRoundTrips blockRestartInterval [(key, value)] := by
  intro htrips
  have hfirst := (htrips _ .refl).1 0 (Nat.zero_le _)
  exact absurd (length_value_lt hfirst) (Nat.not_lt.2 h)

/-- One pair with a value of `2 ^ 32` zero bytes. -/
theorem not_blockRoundTrips_large :
    Increasing [([], List.replicate (2 ^ 32) 0)] ∧
      ¬BlockRoundTrips 16 [([], List.replicate (2 ^ 32) 0)] :=
  ⟨pairwise_singleton _ _, not_blockRoundTrips_of_le 16 length_replicate.ge⟩

end TensorFlowCore.Table
