import TensorFlowCore.Lib.Io.Table.TableLayout

/-!
# Round trip of a table

A `TwoLevelIterator` over a table file is positioned at a pair of the file's list of pairs: at an
entry of the block that the index iterator points to, or past the last one (`TwoLevelAt`). Its
operations move it as a cursor over that list. A target between the last key of a block and the
separator of the block leads the index to that block and the search in it past its end, and skipping
forward then finds the first key of the next block.
-/

namespace TensorFlowCore.Table

open List Option TwoLevelIterator

variable {closed : List Closed} {index : Layout} {interval : ℕ}

/-- The layout of a data block, small enough to be read. -/
structure LayoutOf (interval : ℕ) (c : Closed) (L : Layout) : Prop where
  contents_eq : L.contents = buildBlock interval c.pairs
  pairs_eq : L.pairs = c.pairs
  small : L.contents.length < 2 ^ 32
  increasing : Increasing L.pairs
  ne_nil : c.pairs ≠ []

/-- Which bytes an iterator goes through depends on the contents of the block only. -/
theorem Over.of_contents_eq {L L' : Layout} {it : Iter} (h : Over L it)
    (hsmall : L.contents.length < 2 ^ 32) (heq : L.contents = L'.contents) : Over L' it := by
  have hsmall' : L'.contents.length < 2 ^ 32 := heq ▸ hsmall
  have hnum : L.restartIndices.length = L'.restartIndices.length := by
    rw [← Layout.numRestarts_contents hsmall, ← Layout.numRestarts_contents hsmall', heq]
  have hlen : L.buffer.length = L'.buffer.length := by
    have h₁ := congrArg length heq
    rw [Layout.contents, Layout.contents, length_append, length_append, Layout.length_trailer,
      Layout.length_trailer, hnum] at h₁
    omega
  exact ⟨h.data_eq.trans heq, h.restarts_eq.trans hlen, h.numRestarts_eq.trans hnum, h.status_eq⟩

/-- What the index and the blocks of a table file give a reader. -/
structure Readable (interval : ℕ) (closed : List Closed) (index : Layout)
    (blockFunction : ByteString → Iterator) : Prop where
  index_pairs : index.pairs = closed.map Closed.indexEntry
  index_small : index.contents.length < 2 ^ 32
  index_increasing : Increasing index.pairs
  separated : Separated closed
  layout : ∀ c ∈ closed, ∃ L, LayoutOf interval c L
  blockFunction_eq : ∀ c ∈ closed,
    blockFunction (c.handle.encodeTo []) = (Block.new (buildBlock interval c.pairs)).newIterator

namespace Readable

variable {blockFunction : ByteString → Iterator}

theorem length_entries (h : Readable interval closed index blockFunction) :
    index.entries.length = closed.length := by
  rw [← Layout.length_pairs, h.index_pairs, length_map]

theorem pairs_getElem? (h : Readable interval closed index blockFunction) {m : ℕ}
    (hc : closed[m]? = some c) : index.pairs[m]? = some c.indexEntry := by
  rw [h.index_pairs, getElem?_map, hc]
  rfl

end Readable

/-- The iterators of a two-level iterator are over the index and over a block of the table. -/
structure TwoLevelOver (interval : ℕ) (closed : List Closed) (index : Layout)
    (tl : TwoLevelIterator) : Prop where
  readable : Readable interval closed index tl.blockFunction
  data : ∀ d ∈ tl.dataIter, ∃ c ∈ closed, tl.dataBlockHandle = c.handle.encodeTo [] ∧
    ∃ L it, LayoutOf interval c L ∧ d = .entries it ∧ Over L it

section

variable {tl : TwoLevelIterator} {m n : ℕ}

/-- The index iterator is at the `m`-th block. -/
def IndexAt (index : Layout) (m : ℕ) (tl : TwoLevelIterator) : Prop :=
  ∃ it, tl.indexIter = .entries it ∧ At index m it

theorem setDataIterator_blockFunction (tl : TwoLevelIterator) (d : Option Iterator) :
    (tl.setDataIterator d).blockFunction = tl.blockFunction := by
  unfold setDataIterator saveError
  split
  · rfl
  · split <;> rfl

theorem setDataIterator_indexIter (tl : TwoLevelIterator) (d : Option Iterator) :
    (tl.setDataIterator d).indexIter = tl.indexIter := by
  unfold setDataIterator saveError
  split
  · rfl
  · split <;> rfl

theorem setDataIterator_dataBlockHandle (tl : TwoLevelIterator) (d : Option Iterator) :
    (tl.setDataIterator d).dataBlockHandle = tl.dataBlockHandle := by
  unfold setDataIterator saveError
  split
  · rfl
  · split <;> rfl

theorem setDataIterator_dataIter (tl : TwoLevelIterator) (d : Option Iterator) :
    (tl.setDataIterator d).dataIter = d := by
  unfold setDataIterator
  split <;> rfl

section

variable (h : IndexAt index m tl) (hr : Readable interval closed index tl.blockFunction)
include h hr

/-- The index iterator is valid exactly before the end of the index, and shows the handle of its
block. -/
theorem IndexAt.valid_iff : tl.indexIter.valid = true ↔ m < closed.length := by
  obtain ⟨it, hit, hat⟩ := h
  rw [hit, ← hr.length_entries]
  exact hat.valid_iff

theorem IndexAt.value_eq (hc : closed[m]? = some c) :
    tl.indexIter.value = c.handle.encodeTo [] := by
  obtain ⟨it, hit, hat⟩ := h
  rw [hit, Iterator.value, hat.entry_eq, hr.pairs_getElem? hc]
  rfl

end

/-- The iterator over the `m`-th block, at any of its entries or none. -/
structure DataOver (interval : ℕ) (closed : List Closed) (m : ℕ) (L : Layout) (it : Iter)
    (tl : TwoLevelIterator) : Prop where
  closed_eq : ∃ c, closed[m]? = some c ∧ LayoutOf interval c L ∧
    tl.dataBlockHandle = c.handle.encodeTo []
  dataIter_eq : tl.dataIter = some (.entries it)
  iter_over : Over L it

/-- `InitDataBlock` makes an iterator over the block that the index is at, or reuses it. -/
theorem TwoLevelOver.initDataBlock (h : TwoLevelOver interval closed index tl)
    (hi : IndexAt index m tl) (hm : m < closed.length) :
    ∃ L it, DataOver interval closed m L it tl.initDataBlock ∧
      tl.initDataBlock.indexIter = tl.indexIter ∧
      tl.initDataBlock.blockFunction = tl.blockFunction := by
  obtain ⟨c, hc⟩ : ∃ c, closed[m]? = some c := ⟨_, getElem?_eq_getElem hm⟩
  have hmem : c ∈ closed := mem_of_getElem? hc
  obtain ⟨L, hL⟩ := h.readable.layout c hmem
  have hvalid : ¬¬tl.indexIter.valid = true := not_not.2 ((hi.valid_iff h.readable).2 hm)
  have hvalue := hi.value_eq h.readable hc
  rw [TwoLevelIterator.initDataBlock, if_neg hvalid]
  simp only [hvalue]
  split
  · rename_i hreuse
    obtain ⟨hsome, hhandle⟩ := hreuse
    obtain ⟨d, hd⟩ := isSome_iff_exists.1 hsome
    obtain ⟨c', hc', hhandle', L', it, hL', rfl, hover⟩ := h.data d hd
    -- equal handles lead to one block
    have hsame := h.readable.blockFunction_eq c' hc'
    rw [← hhandle', ← hhandle, h.readable.blockFunction_eq c hmem, ← hL.contents_eq,
      ← hL'.contents_eq, Layout.newIterator_contents hL.small,
      Layout.newIterator_contents hL'.small] at hsame
    have hcontents : L'.contents = L.contents :=
      congrArg Iter.data (Iterator.entries.inj hsame).symm
    exact ⟨L, it, ⟨⟨c, hc, hL, hhandle.symm⟩, hd, hover.of_contents_eq hL'.small hcontents⟩, rfl,
      rfl⟩
  · refine ⟨L, Iter.new L.contents L.buffer.length L.restartIndices.length, ⟨⟨c, hc, hL, ?_⟩, ?_,
      over_new⟩, ?_, ?_⟩
    · rw [setDataIterator_dataBlockHandle]
    · rw [setDataIterator_dataIter, h.readable.blockFunction_eq c hmem, ← hL.contents_eq,
        Layout.newIterator_contents hL.small]
    · rw [setDataIterator_indexIter]
    · rw [setDataIterator_blockFunction]

theorem TwoLevelOver.initDataBlock_end (h : TwoLevelOver interval closed index tl)
    (hi : IndexAt index m tl) (hm : m = closed.length) :
    tl.initDataBlock.dataIter = none ∧ tl.initDataBlock.indexIter = tl.indexIter ∧
      tl.initDataBlock.blockFunction = tl.blockFunction := by
  have hvalid : ¬tl.indexIter.valid = true := by
    rw [hi.valid_iff h.readable, hm]
    exact Nat.lt_irrefl _
  rw [TwoLevelIterator.initDataBlock, if_pos hvalid]
  exact ⟨setDataIterator_dataIter .., setDataIterator_indexIter ..,
    setDataIterator_blockFunction ..⟩

/-- The number of pairs before the `m`-th block. -/
def pairsBefore (closed : List Closed) (m : ℕ) : ℕ :=
  ((closed.take m).flatMap Closed.pairs).length

theorem pairsBefore_succ (hc : closed[m]? = some c) :
    pairsBefore closed (m + 1) = pairsBefore closed m + c.pairs.length := by
  rw [pairsBefore, take_add_one, hc, flatMap_append, length_append, pairsBefore]
  simp

theorem pairsBefore_length :
    pairsBefore closed closed.length = (closed.flatMap Closed.pairs).length := by
  rw [pairsBefore, take_length]

/-- The pairs of the `m`-th block stand behind those of the blocks before. -/
theorem flatMap_getElem? (hc : closed[m]? = some c) {j : ℕ} (hj : j < c.pairs.length) :
    (closed.flatMap Closed.pairs)[pairsBefore closed m + j]? = c.pairs[j]? := by
  obtain ⟨hm, rfl⟩ := List.getElem?_eq_some_iff.1 hc
  have hsplit : closed.flatMap Closed.pairs = (closed.take m).flatMap Closed.pairs ++
      (closed[m].pairs ++ (closed.drop (m + 1)).flatMap Closed.pairs) := by
    rw [← flatMap_cons, ← drop_eq_getElem_cons hm, ← flatMap_append, take_append_drop]
  rw [hsplit, pairsBefore, getElem?_append_right (Nat.le_add_right _ _), Nat.add_sub_cancel_left,
    getElem?_append_left hj]

/-- The iterator is positioned at the `n`-th pair of the table, or past the last one. -/
structure TwoLevelAt (interval : ℕ) (closed : List Closed) (index : Layout) (n : ℕ)
    (tl : TwoLevelIterator) : Prop where
  readable : Readable interval closed index tl.blockFunction
  index_over : ∃ it, tl.indexIter = .entries it ∧ Over index it
  position : (∃ m j L it, IndexAt index m tl ∧ DataOver interval closed m L it tl ∧ At L j it ∧
      j < L.entries.length ∧ n = pairsBefore closed m + j) ∨
    n = (closed.flatMap Closed.pairs).length ∧ tl.dataIter = none

theorem TwoLevelAt.over (h : TwoLevelAt interval closed index n tl) :
    TwoLevelOver interval closed index tl := by
  refine ⟨h.readable, fun d hd ↦ ?_⟩
  obtain ⟨m, j, L, it, -, hdata, -⟩ | ⟨-, hnone⟩ := h.position
  · obtain ⟨c, hc, hL, hhandle⟩ := hdata.closed_eq
    rw [hdata.dataIter_eq] at hd
    cases hd
    exact ⟨c, mem_of_getElem? hc, hhandle, L, it, hL, rfl, hdata.iter_over⟩
  · rw [hnone] at hd
    cases hd

/-- What the iterator shows is the pair it is positioned at. -/
theorem TwoLevelAt.entry_eq (h : TwoLevelAt interval closed index n tl) :
    tl.entry = (closed.flatMap Closed.pairs)[n]? := by
  rw [entry]
  obtain ⟨m, j, L, it, -, hdata, hat, hj, rfl⟩ | ⟨rfl, hnone⟩ := h.position
  · obtain ⟨c, hc, hL, -⟩ := hdata.closed_eq
    have hj' : j < c.pairs.length := by
      rw [← hL.pairs_eq, Layout.length_pairs]
      exact hj
    rw [hdata.dataIter_eq, bind_some, hat.entry_eq, flatMap_getElem? hc hj', hL.pairs_eq]
  · rw [hnone, getElem?_eq_none le_rfl]
    rfl

theorem LayoutOf.length_eq {L : Layout} (h : LayoutOf interval c L) :
    L.entries.length = c.pairs.length := by
  rw [← Layout.length_pairs, h.pairs_eq]

theorem LayoutOf.length_pos {L : Layout} (h : LayoutOf interval c L) : 0 < L.entries.length := by
  rw [h.length_eq]
  exact length_pos_iff.2 h.ne_nil

/-- The step that follows every move of the index: `InitDataBlock`, and positioning the iterator of
the block if there is one. -/
def TwoLevelIterator.position (tl : TwoLevelIterator) (f : Iterator → Iterator) :
    TwoLevelIterator :=
  { tl.initDataBlock with dataIter := tl.initDataBlock.dataIter.map f }

theorem TwoLevelOver.position (h : TwoLevelOver interval closed index tl)
    (hi : IndexAt index m tl) (hm : m < closed.length) (f : Iter → Iter) (F : Iterator → Iterator)
    (hF : ∀ it, F (.entries it) = .entries (f it)) {Q : Layout → ℕ → Prop}
    (hf : ∀ L it, Over L it → L.contents.length < 2 ^ 32 → Increasing L.pairs →
      ∃ j, At L j (f it) ∧ Q L j) :
    ∃ c L it j, closed[m]? = some c ∧ LayoutOf interval c L ∧ At L j it ∧ Q L j ∧
      IndexAt index m (tl.position F) ∧ DataOver interval closed m L it (tl.position F) ∧
      Readable interval closed index (tl.position F).blockFunction := by
  obtain ⟨L, it, hd, hindex, hfun⟩ := h.initDataBlock hi hm
  obtain ⟨c, hc, hL, hhandle⟩ := hd.closed_eq
  obtain ⟨j, hat, hQ⟩ := hf L it hd.iter_over hL.small hL.increasing
  refine ⟨c, L, f it, j, hc, hL, hat, hQ, ?_, ⟨⟨c, hc, hL, hhandle⟩, ?_, hat.toOver⟩, ?_⟩
  · obtain ⟨iit, hiit, hiat⟩ := hi
    exact ⟨iit, hindex.trans hiit, hiat⟩
  · show tl.initDataBlock.dataIter.map F = _
    rw [hd.dataIter_eq, map_some, hF]
  · show Readable interval closed index tl.initDataBlock.blockFunction
    rw [hfun]
    exact h.readable

/-- With the index past its end, every positioning leaves the iterator past the last pair. -/
theorem TwoLevelOver.twoLevelAt_end (h : TwoLevelOver interval closed index tl)
    (hi : IndexAt index m tl) (hm : m = closed.length) (F : Iterator → Iterator) (k : ℕ) :
    TwoLevelAt interval closed index (closed.flatMap Closed.pairs).length
      ((tl.position F).skipEmptyDataBlocksForward (k + 1)) := by
  obtain ⟨hnone, hindex, hfun⟩ := h.initDataBlock_end hi hm
  have hdata : (tl.position F).dataIter = none := by
    show tl.initDataBlock.dataIter.map F = none
    rw [hnone]
    rfl
  have hindex' : (tl.position F).indexIter = tl.indexIter := hindex
  have hivalid : ¬(tl.position F).indexIter.valid = true := by
    rw [hindex', hi.valid_iff h.readable, hm]
    exact Nat.lt_irrefl _
  have hvalid : ¬(tl.position F).valid = true := by
    rw [valid, hdata]
    exact Bool.false_ne_true
  rw [skipEmptyDataBlocksForward, if_neg hvalid, if_pos hivalid]
  refine ⟨?_, ?_, .inr ⟨rfl, setDataIterator_dataIter ..⟩⟩
  · rw [setDataIterator_blockFunction]
    show Readable interval closed index tl.initDataBlock.blockFunction
    rw [hfun]
    exact h.readable
  · obtain ⟨iit, hiit, hiat⟩ := hi
    exact ⟨iit, by rw [setDataIterator_indexIter, hindex', hiit], hiat.toOver⟩

/-- Skipping forward from any place in a block: past its end it goes on to the next block. -/
theorem twoLevelAt_skip {k j : ℕ} {L : Layout} {it : Iter}
    (hr : Readable interval closed index tl.blockFunction) (hi : IndexAt index m tl)
    (hd : DataOver interval closed m L it tl) (hat : At L j it) :
    TwoLevelAt interval closed index (pairsBefore closed m + j)
      (tl.skipEmptyDataBlocksForward (k + 2)) := by
  obtain ⟨c, hc, hL, hhandle⟩ := hd.closed_eq
  have hm : m < closed.length := (List.getElem?_eq_some_iff.1 hc).1
  have hvalid : tl.valid = true ↔ j < L.entries.length := by
    rw [valid, hd.dataIter_eq]
    exact hat.valid_iff
  have hivalid : tl.indexIter.valid = true := (hi.valid_iff hr).2 hm
  obtain ⟨iit, hiit, hiat⟩ := hi
  by_cases hj : j < L.entries.length
  · rw [skipEmptyDataBlocksForward, if_pos (hvalid.2 hj)]
    exact ⟨hr, ⟨iit, hiit, hiat.toOver⟩, .inl ⟨m, j, L, it, ⟨iit, hiit, hiat⟩, hd, hat, hj, rfl⟩⟩
  · have hn : pairsBefore closed m + j = pairsBefore closed (m + 1) := by
      rw [pairsBefore_succ hc, Nat.le_antisymm hat.le (Nat.not_lt.1 hj), hL.length_eq]
    rw [skipEmptyDataBlocksForward, if_neg (mt hvalid.1 hj), if_neg (not_not.2 hivalid), hn]
    -- the index moves to the next block
    have hi' : IndexAt index (m + 1) { tl with indexIter := tl.indexIter.next } := by
      refine ⟨iit.next, by rw [hiit]; rfl, hiat.at_next ?_ hr.index_small⟩
      rw [hr.length_entries]
      exact hm
    have hover' : TwoLevelOver interval closed index
        { tl with indexIter := tl.indexIter.next } := by
      refine ⟨hr, fun d hd' ↦ ⟨c, mem_of_getElem? hc, hhandle, L, it, hL, ?_, hd.iter_over⟩⟩
      exact (some.inj (hd.dataIter_eq.symm.trans hd')).symm
    obtain hlt | heq := (Nat.succ_le_of_lt hm).lt_or_eq
    · obtain ⟨c', L', it', _, hc', hL', hat', rfl, hi'', hd', hr'⟩ := hover'.position hi' hlt
        Iter.seekToFirst Iterator.seekToFirst (fun _ ↦ rfl) (Q := fun _ j ↦ j = 0)
        fun L it hover hsmall _ ↦ ⟨0, hover.at_seekToFirst hsmall, rfl⟩
      have hvalid' : valid
          (position { tl with indexIter := tl.indexIter.next }
            Iterator.seekToFirst) = true := by
        rw [valid, hd'.dataIter_eq]
        exact hat'.valid_iff.2 hL'.length_pos
      show TwoLevelAt interval closed index _ (skipEmptyDataBlocksForward (k + 1)
        (position { tl with indexIter := tl.indexIter.next } Iterator.seekToFirst))
      rw [skipEmptyDataBlocksForward, if_pos hvalid']
      obtain ⟨iit', hiit', hiat'⟩ := hi''
      exact ⟨hr', ⟨iit', hiit', hiat'.toOver⟩, .inl ⟨m + 1, 0, L', it', ⟨iit', hiit', hiat'⟩, hd',
        hat', hL'.length_pos, rfl⟩⟩
    · have hend := hover'.twoLevelAt_end hi' heq Iterator.seekToFirst k
      rw [← pairsBefore_length, ← heq] at hend
      exact hend

/-! ### The operations -/

theorem steps_eq (hi : IndexAt index m tl) : ∃ k, tl.indexIter.steps = k + 2 := by
  obtain ⟨it, hit, -⟩ := hi
  exact ⟨it.data.length, by rw [hit]; rfl⟩

section

variable (h : TwoLevelOver interval closed index tl)
include h

/-- The index iterator can always be moved. -/
theorem TwoLevelOver.move (indexIter : Iterator) :
    TwoLevelOver interval closed index { tl with indexIter := indexIter } :=
  ⟨h.readable, h.data⟩

theorem TwoLevelOver.twoLevelAt_skip_end (hi : IndexAt index m tl) (hm : m = closed.length)
    (F : Iterator → Iterator) :
    TwoLevelAt interval closed index (closed.flatMap Closed.pairs).length (tl.position F).skip := by
  have hindex : (tl.position F).indexIter = tl.indexIter := (h.initDataBlock_end hi hm).2.1
  obtain ⟨k, hk⟩ := steps_eq hi
  rw [skip, hindex, hk]
  exact h.twoLevelAt_end hi hm F (k + 1)

/-- Positioning and skipping, with the index at a block: the iterator ends up where the search in
the block stopped, or behind the block. -/
theorem TwoLevelOver.twoLevelAt_position (hi : IndexAt index m tl) (hm : m < closed.length)
    (f : Iter → Iter) (F : Iterator → Iterator) (hF : ∀ it, F (.entries it) = .entries (f it))
    {Q : Layout → ℕ → Prop}
    (hf : ∀ L it, Over L it → L.contents.length < 2 ^ 32 → Increasing L.pairs →
      ∃ j, At L j (f it) ∧ Q L j) :
    ∃ c L j, closed[m]? = some c ∧ LayoutOf interval c L ∧ j ≤ L.entries.length ∧ Q L j ∧
      TwoLevelAt interval closed index (pairsBefore closed m + j) (tl.position F).skip := by
  obtain ⟨c, L, it, j, hc, hL, hat, hQ, hi', hd, hr⟩ := h.position hi hm f F hF hf
  obtain ⟨k, hk⟩ := steps_eq hi'
  refine ⟨c, L, j, hc, hL, hat.le, hQ, ?_⟩
  rw [skip, hk]
  exact twoLevelAt_skip hr hi' hd hat

theorem twoLevelAt_seekToFirst (hindex : ∃ it, tl.indexIter = .entries it ∧ Over index it) :
    TwoLevelAt interval closed index 0 tl.seekToFirst := by
  obtain ⟨it, hit, hover⟩ := hindex
  have hi : IndexAt index 0 { tl with indexIter := tl.indexIter.seekToFirst } :=
    ⟨it.seekToFirst, by rw [hit]; rfl, hover.at_seekToFirst h.readable.index_small⟩
  have hover' := h.move tl.indexIter.seekToFirst
  show TwoLevelAt interval closed index 0
    (position { tl with indexIter := tl.indexIter.seekToFirst }
      Iterator.seekToFirst).skip
  obtain hzero | hpos := Nat.eq_zero_or_pos closed.length
  · obtain rfl := length_eq_zero_iff.1 hzero
    exact hover'.twoLevelAt_skip_end hi rfl Iterator.seekToFirst
  · obtain ⟨c, L, _, -, -, -, rfl, hat⟩ := hover'.twoLevelAt_position hi hpos Iter.seekToFirst
      Iterator.seekToFirst (fun _ ↦ rfl) (Q := fun _ j ↦ j = 0)
      fun L it hover hsmall _ ↦ ⟨0, hover.at_seekToFirst hsmall, rfl⟩
    exact hat

end

/-- The first key at or past a target, with the blocks before a block all below it: it is in the
block, or the first one behind it. -/
theorem Separated.find?_eq (h : Separated closed) (hc : closed[m]? = some c) {target : ByteString}
    (hbelow : ∀ c' ∈ closed.take m, c'.separator < target) (hle : target ≤ c.separator) :
    (closed.flatMap Closed.pairs).find? (fun kv ↦ target ≤ kv.1) =
      (c.pairs.find? fun kv ↦ target ≤ kv.1).or
        ((closed.drop (m + 1)).flatMap Closed.pairs).head? := by
  obtain ⟨hm, rfl⟩ := List.getElem?_eq_some_iff.1 hc
  have hsplit : closed = closed.take m ++ closed[m] :: closed.drop (m + 1) := by
    rw [← drop_eq_getElem_cons hm, take_append_drop]
  have hbefore : ((closed.take m).flatMap Closed.pairs).find? (fun kv ↦ target ≤ kv.1) = none := by
    refine find?_eq_none.2 fun kv hkv ↦ ?_
    obtain ⟨c', hc', hkv⟩ := mem_flatMap.1 hkv
    have hkv' := h.le c' (mem_of_mem_take hc') kv hkv
    have hlt : kv.1 < target := List.lt_of_le_of_lt hkv' (hbelow c' hc')
    simpa using hlt
  have hafter : ∀ kv ∈ (closed.drop (m + 1)).flatMap Closed.pairs, target ≤ kv.1 := by
    intro kv hkv
    obtain ⟨c', hc', hkv⟩ := mem_flatMap.1 hkv
    have hpair := h.lt
    rw [hsplit] at hpair
    have hlt := rel_of_pairwise_cons (pairwise_append.1 hpair).2.1 hc' kv hkv
    exact List.le_trans hle (List.le_of_lt hlt)
  have hhead : ((closed.drop (m + 1)).flatMap Closed.pairs).find? (fun kv ↦ target ≤ kv.1) =
      ((closed.drop (m + 1)).flatMap Closed.pairs).head? := by
    rcases hrest : (closed.drop (m + 1)).flatMap Closed.pairs with - | ⟨kv, rest⟩
    · rfl
    · have hkv := hafter kv (by rw [hrest]; exact mem_cons_self)
      rw [find?_cons_of_pos (by simpa using hkv)]
      rfl
  conv_lhs => rw [hsplit]
  rw [flatMap_append, flatMap_cons, find?_append, find?_append, hbefore, hhead]
  rfl

/-- The pair that is `j` behind the start of a block, also at the end of the block. -/
theorem getElem?_pairsBefore_add (hc : closed[m]? = some c) {j : ℕ} (hj : j ≤ c.pairs.length) :
    (closed.flatMap Closed.pairs)[pairsBefore closed m + j]? =
      c.pairs[j]?.or ((closed.drop (m + 1)).flatMap Closed.pairs).head? := by
  obtain hlt | rfl := hj.lt_or_eq
  · rw [flatMap_getElem? hc hlt, getElem?_eq_getElem hlt]
    rfl
  · have hsplit : closed.flatMap Closed.pairs = (closed.take (m + 1)).flatMap Closed.pairs ++
        (closed.drop (m + 1)).flatMap Closed.pairs := by
      rw [← flatMap_append, take_append_drop]
    rw [← pairsBefore_succ hc, hsplit, pairsBefore, getElem?_append_right le_rfl, Nat.sub_self,
      getElem?_eq_none le_rfl, ← head?_eq_getElem?]
    rfl

/-- What a search in the index says about the separators. -/
theorem Readable.separators {blockFunction : ByteString → Iterator}
    (hr : Readable interval closed index blockFunction) {target : ByteString}
    (hbelow : AllBelow index.pairs target m) : ∀ c ∈ closed.take m, c.separator < target := by
  intro c hc
  obtain ⟨i, hi⟩ := mem_iff_getElem?.1 hc
  rw [getElem?_take, ite_none_right_eq_some] at hi
  exact hbelow i hi.1 c.indexEntry (hr.pairs_getElem? hi.2)

/-- `Seek` ends at the first key of the table at or past the target. -/
theorem twoLevelAt_seek (h : TwoLevelOver interval closed index tl)
    (hindex : ∃ it, tl.indexIter = .entries it ∧ Over index it) (target : ByteString) :
    ∃ n, TwoLevelAt interval closed index n (tl.seek target) ∧
      (closed.flatMap Closed.pairs).find? (fun kv ↦ target ≤ kv.1) =
        (closed.flatMap Closed.pairs)[n]? := by
  obtain ⟨it, hit, hover⟩ := hindex
  obtain ⟨m, hat, hbelow, hge⟩ :=
    hover.at_seek h.readable.index_small h.readable.index_increasing target
  have hi : IndexAt index m { tl with indexIter := tl.indexIter.seek target } :=
    ⟨it.seek target, by rw [hit]; rfl, hat⟩
  have hover' := h.move (tl.indexIter.seek target)
  have hsep := h.readable.separators hbelow
  have hm := hat.le
  rw [h.readable.length_entries] at hm
  show ∃ n, TwoLevelAt interval closed index n
    (position { tl with indexIter := tl.indexIter.seek target }
      (·.seek target)).skip ∧ _
  obtain hlt | rfl := hm.lt_or_eq
  · obtain ⟨c, L, j, hc, hL, hj, ⟨hbelow', hge'⟩, hat'⟩ := hover'.twoLevelAt_position hi hlt
      (·.seek target) (·.seek target) (fun _ ↦ rfl)
      (Q := fun L j ↦ AllBelow L.pairs target j ∧ ∀ kv, L.pairs[j]? = some kv → target ≤ kv.1)
      fun L it hover hsmall hinc ↦ hover.at_seek hsmall hinc target
    refine ⟨_, hat', ?_⟩
    rw [hL.pairs_eq] at hbelow' hge'
    rw [hL.length_eq] at hj
    rw [getElem?_pairsBefore_add hc hj, ← hbelow'.find?_eq hge']
    exact h.readable.separated.find?_eq hc hsep (hge _ (h.readable.pairs_getElem? hc))
  · refine ⟨_, hover'.twoLevelAt_skip_end hi rfl _, ?_⟩
    rw [getElem?_eq_none le_rfl, find?_eq_none]
    intro kv hkv
    obtain ⟨c, hc, hkv⟩ := mem_flatMap.1 hkv
    rw [take_length] at hsep
    have hlt : kv.1 < target :=
      List.lt_of_le_of_lt (h.readable.separated.le c hc kv hkv) (hsep c hc)
    simpa using hlt

/-- `Next` goes on to the next pair. -/
theorem TwoLevelAt.twoLevelAt_next (h : TwoLevelAt interval closed index n tl)
    (hdata : tl.dataIter ≠ none) : TwoLevelAt interval closed index (n + 1) tl.next := by
  obtain ⟨m, j, L, it, hi, hd, hat, hj, rfl⟩ | ⟨-, hnone⟩ := h.position
  · obtain ⟨c, hc, hL, hhandle⟩ := hd.closed_eq
    have hat' := hat.at_next hj hL.small
    have hd' : DataOver interval closed m L it.next
        { tl with dataIter := tl.dataIter.map Iterator.next } := by
      refine ⟨⟨c, hc, hL, hhandle⟩, ?_, hat'.toOver⟩
      show tl.dataIter.map Iterator.next = _
      rw [hd.dataIter_eq]
      rfl
    have hi' : IndexAt index m { tl with dataIter := tl.dataIter.map Iterator.next } := hi
    obtain ⟨k, hk⟩ := steps_eq hi'
    rw [TwoLevelIterator.next, skip, hk, Nat.add_assoc]
    exact twoLevelAt_skip h.readable hi' hd' hat'
  · exact absurd hnone hdata

/-- A two-level iterator that a client has stays over its table, and at a pair while it is valid. -/
theorem Reaches.twoLevelOver {tl₀ : TwoLevelIterator} (h₀ : TwoLevelOver interval closed index tl₀)
    (hindex₀ : ∃ it, tl₀.indexIter = .entries it ∧ Over index it) (hdata₀ : tl₀.dataIter = none)
    (h : Reaches tl₀ tl) :
    TwoLevelOver interval closed index tl ∧ (∃ it, tl.indexIter = .entries it ∧ Over index it) ∧
      (tl.dataIter ≠ none → ∃ n, TwoLevelAt interval closed index n tl) := by
  induction h with
  | refl => exact ⟨h₀, hindex₀, fun hne ↦ absurd hdata₀ hne⟩
  | seekToFirst _ ih =>
    have hat := twoLevelAt_seekToFirst ih.1 ih.2.1
    exact ⟨hat.over, hat.index_over, fun _ ↦ ⟨_, hat⟩⟩
  | seek target _ ih =>
    obtain ⟨n, hat, -⟩ := twoLevelAt_seek ih.1 ih.2.1 target
    exact ⟨hat.over, hat.index_over, fun _ ↦ ⟨_, hat⟩⟩
  | @next tl _ hvalid ih =>
    have hdata : tl.dataIter ≠ none := by
      intro hnone
      have hvalid' : tl.valid = true := hvalid
      rw [valid, hnone] at hvalid'
      cases hvalid'
    obtain ⟨n, hat⟩ := ih.2.2 hdata
    have hat' := hat.twoLevelAt_next hdata
    exact ⟨hat'.over, hat'.index_over, fun _ ↦ ⟨_, hat'⟩⟩

theorem twoLevelAt_iterate_next (h : TwoLevelAt interval closed index 0 tl)
    (hn : n ≤ (closed.flatMap Closed.pairs).length) :
    TwoLevelAt interval closed index n (TwoLevelIterator.next^[n] tl) := by
  induction n with
  | zero => exact h
  | succ n ih =>
    have hat := ih (Nat.le_of_succ_le hn)
    rw [Function.iterate_succ_apply']
    refine hat.twoLevelAt_next fun hnone ↦ ?_
    have hentry := hat.entry_eq
    rw [entry, hnone, getElem?_eq_getElem hn] at hentry
    cases hentry

/-- A two-level iterator goes through the pairs of its table. -/
theorem TwoLevelOver.goesThrough (h : TwoLevelOver interval closed index tl)
    (hindex : ∃ it, tl.indexIter = .entries it ∧ Over index it) (hdata : tl.dataIter = none) :
    GoesThrough tl (closed.flatMap Closed.pairs) := by
  intro tl' hreach
  obtain ⟨hover, hindex', -⟩ := hreach.twoLevelOver h hindex hdata
  constructor
  · intro n hn
    exact (twoLevelAt_iterate_next (twoLevelAt_seekToFirst hover hindex') hn).entry_eq
  · intro target
    obtain ⟨n, hat, hfind⟩ := twoLevelAt_seek hover hindex' target
    exact hat.entry_eq.trans hfind.symm

end

/-! ### Table files -/

section

variable {step : UInt32 → UInt8 → UInt32} {snappy : Snappy} {r : TableBuilder}
  {kvs : List (ByteString × ByteString)} {footer : Footer}

section

variable (h : TableFile step snappy r kvs closed index footer) (hsnappy : snappy.Undoes)
  (hfile : r.file.length < 2 ^ 64)
include h hsnappy hfile

/-- `Open` reads the footer and the index of a table file. -/
theorem TableFile.openTable_eq : openTable step snappy r.file r.file.length.toUInt64 =
      .ok ⟨r.file, footer.metaindexHandle, Block.new index.contents⟩ := by
  obtain ⟨body, hbody⟩ := h.footer_eq
  have hlen : r.file.length = body.length + 48 := by
    rw [hbody, length_append, Footer.length_encodeTo]
    rfl
  have hsize : r.file.length.toUInt64.toNat = r.file.length := Nat.mod_eq_of_lt hfile
  have hoffset : (r.file.length.toUInt64 - Footer.kEncodedLength.toUInt64).toNat = body.length := by
    have hle : Footer.kEncodedLength.toUInt64 ≤ r.file.length.toUInt64 := by
      rw [UInt64.le_iff_toNat_le, hsize, hlen]
      exact Nat.le_add_left _ _
    rw [UInt64.toNat_sub_of_le _ _ hle, hsize, hlen]
    exact Nat.add_sub_cancel _ _
  have hread : readFile r.file (r.file.length.toUInt64 - Footer.kEncodedLength.toUInt64)
      Footer.kEncodedLength.toUInt64 = (.ok, footer.encodeTo []) := by
    have hread := readFile_append (x := footer.encodeTo []) (n := Footer.kEncodedLength.toUInt64)
      hoffset (by rw [Footer.length_encodeTo]; rfl) []
    rwa [append_nil, ← hbody] at hread
  have hlong : ¬r.file.length.toUInt64.toNat < Footer.kEncodedLength := by
    rw [hsize, hlen]
    exact Nat.not_lt.2 (Nat.le_add_left _ _)
  rw [openTable, if_neg hlong]
  simp only [hread, Footer.decodeFrom_encodeTo, h.index_stored.readBlock_eq hsnappy hfile]

/-- The block reader finds every block of the file. -/
theorem TableFile.blockReader_eq {t : TableRep} (ht : t.file = r.file) (hc : c ∈ closed) :
    t.blockReader step snappy (c.handle.encodeTo []) =
      (Block.new (buildBlock r.options.blockRestartInterval c.pairs)).newIterator := by
  have hdecode := c.handle.decodeFrom_encodeTo []
  rw [append_nil] at hdecode
  rw [TableRep.blockReader]
  simp only [hdecode, ht, (h.block c hc).stored.readBlock_eq hsnappy hfile]

end

theorem Separated.increasing (h : Separated closed) (hne : ∀ c ∈ closed, c.pairs ≠ []) :
    Increasing (closed.map Closed.indexEntry) := by
  rw [Increasing, pairwise_map]
  refine h.lt.imp_of_mem fun {c c'} _ hc' hlt ↦ ?_
  obtain ⟨kv, hkv⟩ := exists_mem_of_ne_nil _ (hne c' hc')
  exact lt_of_lt_of_le (hlt kv hkv) (h.le c' hc' kv hkv)

/-- A file whose blocks `uint32` offsets can address is readable. -/
theorem TableFile.readable (h : TableFile step snappy r kvs closed index footer)
    (hsnappy : snappy.Undoes) (hinc : Increasing kvs)
    (hblocks : ∀ raw ∈ r.rawBlocks, raw.length < 2 ^ 32) (hfile : r.file.length < 2 ^ 64)
    {t : TableRep} (ht : t.file = r.file) :
    Readable r.options.blockRestartInterval closed index (t.blockReader step snappy) where
  index_pairs := h.index_pairs
  index_small := hblocks _ h.index_mem
  index_increasing := by
    rw [h.index_pairs]
    exact h.separated.increasing fun c hc ↦ (h.block c hc).ne_nil
  separated := h.separated
  layout := by
    intro c hc
    have hblock := h.block c hc
    obtain ⟨L, hcontents, hpairs⟩ := exists_layout r.options.blockRestartInterval c.pairs
    refine ⟨L, hcontents, hpairs, ?_, ?_, hblock.ne_nil⟩
    · rw [hcontents]
      exact hblocks _ hblock.mem
    · rw [hpairs]
      refine Pairwise.sublist ?_ hinc
      rw [← h.pairs_eq]
      exact sublist_flatten_of_mem (mem_map_of_mem hc)
  blockFunction_eq := fun _ hc ↦ h.blockReader_eq hsnappy hfile ht hc

/-- The iterator over a block shows pairs of the block only. -/
theorem mem_pairs_of_shows {L : Layout} (hsmall : L.contents.length < 2 ^ 32)
    {kv : ByteString × ByteString} (h : (Block.new L.contents).newIterator.Shows kv) :
    kv ∈ L.pairs := by
  obtain ⟨n, hvalid, hentry⟩ := h
  rw [Layout.newIterator_contents hsmall] at hvalid hentry
  have hn : n ≤ L.entries.length := by
    by_contra hlt
    -- one step behind the last entry the iterator is not valid
    obtain ⟨iter, hiter, hat⟩ := over_new.at_iterate_next hsmall (le_refl L.entries.length)
    have hend := hvalid _ (Nat.not_le.1 hlt)
    rw [Iterator.seekToFirst, hiter] at hend
    exact absurd (hat.valid_iff.1 hend) (Nat.lt_irrefl _)
  obtain ⟨iter, hiter, hat⟩ := over_new.at_iterate_next hsmall hn
  rw [Iterator.seekToFirst, hiter, hat.entry_eq] at hentry
  exact mem_of_getElem? hentry

/-- `InternalGet` finds the first key at or past the given one if the selected block has one. -/
theorem internalGet_eq {t : TableRep} {interval : ℕ}
    (h : Readable interval closed index (t.blockReader step snappy))
    (ht : t.indexBlock = Block.new index.contents) {key : ByteString} {it : Iterator}
    (hit : t.selectedBlock step snappy key = some it) {kv : ByteString × ByteString}
    (hshows : it.Shows kv) (hkv : key ≤ kv.1) :
    (t.internalGet step snappy key).1 =
      (closed.flatMap Closed.pairs).find? fun kv ↦ key ≤ kv.1 := by
  obtain ⟨m, hat, hbelow, hge⟩ := over_new.at_seek h.index_small h.index_increasing key
  have hiiter : t.indexBlock.newIterator.seek key = .entries (Iter.seek
      (Iter.new index.contents index.buffer.length index.restartIndices.length) key) := by
    rw [ht, Layout.newIterator_contents h.index_small]
    rfl
  rw [TableRep.selectedBlock, hiiter, ite_none_right_eq_some] at hit
  obtain ⟨hvalid, hit⟩ := hit
  have hm : m < closed.length := by
    rw [← h.length_entries]
    exact hat.valid_iff.1 hvalid
  obtain ⟨c, hc⟩ : ∃ c, closed[m]? = some c := ⟨_, getElem?_eq_getElem hm⟩
  have hmem := mem_of_getElem? hc
  obtain ⟨L, hL⟩ := h.layout c hmem
  have hblock : t.blockReader step snappy (Iterator.value (.entries (Iter.seek
      (Iter.new index.contents index.buffer.length index.restartIndices.length) key))) =
        (Block.new L.contents).newIterator := by
    rw [Iterator.value, hat.entry_eq, h.pairs_getElem? hc, hL.contents_eq]
    exact h.blockFunction_eq c hmem
  have hgoes := L.goesThrough hL.small hL.increasing
  obtain rfl : (Block.new L.contents).newIterator = it := hblock ▸ some.inj hit
  -- the block holds a key at or past the given one, so the search stays in the block
  have hfound : ∃ kv', c.pairs.find? (fun kv ↦ key ≤ kv.1) = some kv' := by
    refine isSome_iff_exists.1 (find?_isSome.2 ⟨kv, ?_, by simpa using hkv⟩)
    rw [← hL.pairs_eq]
    exact mem_pairs_of_shows hL.small hshows
  obtain ⟨kv', hfound⟩ := hfound
  have hseek := (hgoes _ .refl).2 key
  rw [hL.pairs_eq, hfound] at hseek
  rw [h.separated.find?_eq hc (h.separators hbelow) (hge _ (h.pairs_getElem? hc)), hfound,
    TableRep.internalGet, hiiter, if_pos hvalid]
  rw [hblock]
  exact hseek

/-- Every table whose blocks `uint32` offsets can address, in a file that `uint64` offsets can
address, gives back the pairs it was built from. -/
theorem tableRoundTrips_of_lt (step : UInt32 → UInt8 → UInt32) (snappy : Snappy)
    (hsnappy : snappy.Undoes) (options : Options) (kvs : List (ByteString × ByteString))
    (hinc : Increasing kvs)
    (hblocks : ∀ raw ∈ (buildTable step snappy options kvs).rawBlocks, raw.length < 2 ^ 32)
    (hfile : (buildTable step snappy options kvs).file.length < 2 ^ 64) :
    TableRoundTrips step snappy options kvs := by
  obtain ⟨closed, index, footer, h⟩ := exists_tableFile step snappy options hinc
  set t : TableRep := ⟨(buildTable step snappy options kvs).file, footer.metaindexHandle,
    Block.new index.contents⟩ with ht
  have hreadable := h.readable hsnappy hinc hblocks hfile (t := t) rfl
  refine ⟨t, h.openTable_eq hsnappy hfile, ?_, ?_⟩
  · have hover : TwoLevelOver (buildTable step snappy options kvs).options.blockRestartInterval
        closed index (t.newIterator step snappy) :=
      ⟨hreadable, fun d hd ↦ nomatch hd⟩
    have hgoes := hover.goesThrough
      ⟨_, Layout.newIterator_contents hreadable.index_small, over_new⟩ rfl
    rwa [h.pairs_eq] at hgoes
  · rintro key it hit ⟨kv, hshows, hkv⟩
    rw [← h.pairs_eq]
    exact internalGet_eq hreadable rfl hit hshows hkv

end

/-- The block of a value of forty equal bytes. -/
def runBlock : ByteString := [0, 1, 40, 1] ++ replicate 40 7 ++ [0, 0, 0, 0, 1, 0, 0, 0]

/-- What the library makes of it: a literal up to the first byte of the value, a copy of the other
39 bytes, and a literal. -/
def runSnappy : Snappy :=
  .withCopies runBlock [52, 16, 0, 1, 40, 1, 7, 154, 1, 0, 28, 0, 0, 0, 0, 1, 0, 0, 0]

/-- Two pairs in one block each: the first one is compressed, and the second one is too short. -/
theorem tableRoundTrips_two :
    runSnappy.Undoes ∧ Increasing [([1], replicate 40 7), ([1, 2], [])] ∧
      runBlock ∈ (buildTable step1 runSnappy { blockSize := 1 }
        [([1], replicate 40 7), ([1, 2], [])]).rawBlocks ∧
      (TableBuilder.compressBlock runSnappy .kSnappyCompression runBlock).2 =
        .kSnappyCompression ∧
      (∀ raw ∈ (buildTable step1 runSnappy { blockSize := 1 }
        [([1], replicate 40 7), ([1, 2], [])]).rawBlocks, raw.length < 2 ^ 32) ∧
      (buildTable step1 runSnappy { blockSize := 1 }
        [([1], replicate 40 7), ([1, 2], [])]).file.length < 2 ^ 64 ∧
      TableRoundTrips step1 runSnappy { blockSize := 1 }
        [([1], replicate 40 7), ([1, 2], [])] := by
  have hsnappy : runSnappy.Undoes :=
    @Snappy.undoes_withCopies runBlock _ _ rfl (by decide +kernel) (by decide +kernel)
  have hinc : Increasing [([1], replicate 40 7), ([1, 2], [])] := by
    rw [Increasing, pairwise_pair]
    decide
  have hblocks : ∀ raw ∈ (buildTable step1 runSnappy { blockSize := 1 }
      [([1], replicate 40 7), ([1, 2], [])]).rawBlocks, raw.length < 2 ^ 32 := by
    decide +kernel
  have hfile : (buildTable step1 runSnappy { blockSize := 1 }
      [([1], replicate 40 7), ([1, 2], [])]).file.length < 2 ^ 64 := by
    decide +kernel
  exact ⟨hsnappy, hinc, by decide +kernel, by decide +kernel, hblocks, hfile,
    tableRoundTrips_of_lt step1 runSnappy hsnappy _ _ hinc hblocks hfile⟩

/-! ### Tables with a block that is too large -/

/-- Skipping leaves every block iterator at the first entry of its block if it was there. -/
theorem seekToFirst_of_skip {n : ℕ} {tl : TwoLevelIterator}
    (h : ∀ d ∈ tl.dataIter, ∃ it : Iterator, d = it.seekToFirst) :
    ∀ d ∈ (tl.skipEmptyDataBlocksForward n).dataIter, ∃ it : Iterator, d = it.seekToFirst := by
  induction n generalizing tl with
  | zero => exact h
  | succ n ih =>
    rw [skipEmptyDataBlocksForward]
    split
    · exact h
    · split
      · intro d hd
        rw [setDataIterator_dataIter] at hd
        cases hd
      · refine ih fun d hd ↦ ?_
        obtain ⟨it, -, rfl⟩ := map_eq_some_iff.1 hd
        exact ⟨it, rfl⟩

/-- No table gives back a value of `2 ^ 32` bytes or more at its first key. -/
theorem not_tableRoundTrips_of_le (step : UInt32 → UInt8 → UInt32) (snappy : Snappy)
    (options : Options) {key value : ByteString} (h : 2 ^ 32 ≤ value.length) :
    ¬TableRoundTrips step snappy options [(key, value)] := by
  rintro ⟨t, -, hgoes, -⟩
  have hfirst := (hgoes _ .refl).1 0 (Nat.zero_le _)
  obtain ⟨d, hd, hentry⟩ := bind_eq_some_iff.1 hfirst
  obtain ⟨it, rfl⟩ : ∃ it : Iterator, d = it.seekToFirst := by
    refine seekToFirst_of_skip (fun d hd ↦ ?_) d hd
    obtain ⟨it, -, rfl⟩ := map_eq_some_iff.1 hd
    exact ⟨it, rfl⟩
  exact absurd (length_value_lt hentry) (Nat.not_lt.2 h)

/-- One pair with a value of `2 ^ 32` zero bytes. -/
theorem not_tableRoundTrips_large :
    Snappy.unsupported.Undoes ∧ Increasing [([], List.replicate (2 ^ 32) 0)] ∧
      ¬TableRoundTrips step1 Snappy.unsupported {} [([], List.replicate (2 ^ 32) 0)] :=
  ⟨Snappy.undoes_unsupported, pairwise_singleton _ _,
    not_tableRoundTrips_of_le step1 Snappy.unsupported {} length_replicate.ge⟩

end TensorFlowCore.Table
