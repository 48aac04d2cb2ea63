import Mathlib.Data.List.TakeWhile
import TensorFlowCore.CommonRuntime.PoolAllocator.Model
import TensorFlowCore.Support.DoublyLinked

/-!
# The list of the records

`RemoveFromList` and `AddToList` edit a doubly linked list by hand. `Links` says that the records of
a list are linked in its order, with the two ends; each of the edits does what its name says and
leaves everything else (`Same`). `Lru` adds what the pool has to do with the list: the records are
those of the pool, under the sizes of their chunks, the one made last being the first. With this
`EvictOne` frees the chunk of the last record (`evictOne_lru`), and as the pool gets smaller the
loop of `DeallocateRaw` ends (`evict_lru`).
-/

namespace TensorFlowCore.PoolAllocator

open DoublyLinked Function List Option

namespace State

variable {cfg : Config} {s s' : State} {l l₁ l₂ : List ℕ} {r : ℕ}

/-- The `next` pointer of a record. -/
def next (s : State) (r : ℕ) : Option ℕ := (s.records r).bind PtrRecord.next

/-- The `prev` pointer of a record. -/
def prev (s : State) (r : ℕ) : Option ℕ := (s.records r).bind PtrRecord.prev

/-- The chunk of a record. -/
def chunkOf (s : State) (r : ℕ) : Option (ℕ × ℕ) := (s.records r).map PtrRecord.chunk

/-- The states differ only in the pointers of the list. -/
structure Same (s s' : State) : Prop where
  chunk_eq : s'.chunkOf = s.chunkOf
  rest_eq : s' = { s with records := s'.records, lruHead := s'.lruHead, lruTail := s'.lruTail }

theorem Same.trans {s'' : State} (h : Same s s') (h' : Same s' s'') : Same s s'' :=
  ⟨h'.chunk_eq.trans h.chunk_eq, by rw [h'.rest_eq, h.rest_eq]⟩

theorem Same.pool_eq (h : Same s s') : s'.pool = s.pool := by rw [h.rest_eq]

theorem Same.nextRecord_eq (h : Same s s') : s'.nextRecord = s.nextRecord := by rw [h.rest_eq]

theorem Same.poolSizeLimit_eq (h : Same s s') :
    s'.poolSizeLimit = s.poolSizeLimit := by rw [h.rest_eq]

theorem Same.isSome_iff (h : Same s s') (r : ℕ) : (s'.records r).isSome ↔ (s.records r).isSome := by
  have heq := congrFun h.chunk_eq r
  rw [← isSome_map (f := PtrRecord.chunk), ← isSome_map (f := PtrRecord.chunk) (x := s.records r)]
  exact Eq.to_iff (congrArg (fun o ↦ o.isSome = true) heq)

theorem exists_modify (hr : (s.records r).isSome) {f : PtrRecord → PtrRecord}
    (hf : ∀ record, (f record).chunk = record.chunk) : ∃ s' record, s.records r = some record ∧
    s.modify r f = some s' ∧ Same s s' ∧ s'.lruHead = s.lruHead ∧ s'.lruTail = s.lruTail ∧
    ∀ c, s'.records c = if c = r then some (f record) else s.records c := by
  obtain ⟨record, hrecord⟩ := isSome_iff_exists.1 hr
  refine ⟨_, record, hrecord, congrArg (Option.map _) hrecord, ⟨funext fun c ↦ ?_, rfl⟩, rfl, rfl,
    fun c ↦ ?_⟩
  · rw [chunkOf, chunkOf]
    dsimp only
    by_cases hc : c = r
    · rw [hc, update_self, hrecord, map_some, map_some, hf]
    · rw [update_of_ne hc]
  · dsimp only
    rw [update_apply]

theorem exists_setNext (hr : (s.records r).isSome) (v : Option ℕ) :
    ∃ s', s.setNext r v = some s' ∧ Same s s' ∧
    s'.lruHead = s.lruHead ∧ s'.lruTail = s.lruTail ∧
    (∀ c, s'.next c = if c = r then v else s.next c) ∧ ∀ c, s'.prev c = s.prev c := by
  obtain ⟨s', record, hrecord, hs', hsame, hhead, htail, hrecords⟩ :=
    exists_modify (s := s) hr (f := ({ · with next := v })) fun _ ↦ rfl
  refine ⟨s', hs', hsame, hhead, htail, fun c ↦ ?_, fun c ↦ ?_⟩
  · rw [next, next, hrecords]
    split
    · rfl
    · rfl
  · rw [prev, prev, hrecords]
    split
    · next hc => rw [hc, hrecord]; rfl
    · rfl

theorem exists_setPrev (hr : (s.records r).isSome) (v : Option ℕ) :
    ∃ s', s.setPrev r v = some s' ∧ Same s s' ∧
    s'.lruHead = s.lruHead ∧ s'.lruTail = s.lruTail ∧
    (∀ c, s'.next c = s.next c) ∧ ∀ c, s'.prev c = if c = r then v else s.prev c := by
  obtain ⟨s', record, hrecord, hs', hsame, hhead, htail, hrecords⟩ :=
    exists_modify (s := s) hr (f := ({ · with prev := v })) fun _ ↦ rfl
  refine ⟨s', hs', hsame, hhead, htail, fun c ↦ ?_, fun c ↦ ?_⟩
  · rw [next, next, hrecords]
    split
    · next hc => rw [hc, hrecord]; rfl
    · rfl
  · rw [prev, prev, hrecords]
    split
    · rfl
    · rfl

/-- The records of `l` are linked in this order. -/
structure Links (s : State) (l : List ℕ) : Prop where
  linked : Linked s.next s.prev l
  head_eq : s.lruHead = l.head?
  tail_eq : s.lruTail = l.getLast?
  stored : ∀ r ∈ l, (s.records r).isSome

/-- `RemoveFromList` removes a record from where it is. -/
theorem removeFromList_links (h : Links s (l₁ ++ r :: l₂)) (hnodup : (l₁ ++ r :: l₂).Nodup) :
    ∃ s', s.removeFromList r = some s' ∧ Same s s' ∧ Links s' (l₁ ++ l₂) := by
  obtain ⟨record, hrecord⟩ := isSome_iff_exists.1 (h.stored r (by simp))
  obtain ⟨hnext, hprev⟩ := h.linked l₁ r l₂ rfl
  have hnext' : record.next = l₂.head? := by rwa [next, hrecord] at hnext
  have hprev' : record.prev = l₁.getLast? := by rwa [prev, hrecord] at hprev
  -- the pointer of the record before it
  have hbefore : ∃ s₁, s.linkPrev record.prev record.next = some s₁ ∧ Same s s₁ ∧
    s₁.lruTail = s.lruTail ∧
      s₁.lruHead = l₁.head? ∧
      (∀ c, s₁.next c = if s.prev r = some c then s.next r else s.next c) ∧
      ∀ c, s₁.prev c = s.prev c := by
    rw [hprev, hprev']
    rcases eq_nil_or_concat l₁ with rfl | ⟨k, a, rfl⟩
    · exact ⟨_, rfl, ⟨rfl, rfl⟩, rfl, rfl, fun c ↦ (if_neg (by rintro ⟨⟩)).symm, fun c ↦ rfl⟩
    · have hlast : (k.concat a).getLast? = some a := by rw [concat_eq_append, getLast?_concat]
      obtain ⟨s₁, hs₁, hsame, hhead, htail, hn, hp⟩ :=
        exists_setNext (h.stored a (by simp)) record.next
      rw [hlast, linkPrev]
      refine ⟨s₁, hs₁, hsame, htail, ?_, fun c ↦ ?_, hp⟩
      · rw [hhead, h.head_eq, concat_eq_append]
        cases k with
        | nil => rfl
        | cons b k => rfl
      · rw [hn, hnext, hnext']
        simp only [some.injEq, eq_comm]
  obtain ⟨s₁, hs₁, hsame₁, htail₁, hhead₁, hnext₁, hprev₁⟩ := hbefore
  -- the pointer of the record after it
  have hafter : ∃ s₂, s₁.linkNext record.prev record.next = some s₂ ∧ Same s₁ s₂ ∧
      s₂.lruHead = (l₁ ++ l₂).head? ∧ s₂.lruTail = (l₁ ++ l₂).getLast? ∧
      (∀ c, s₂.next c = s₁.next c) ∧
      ∀ c, s₂.prev c = if s.next r = some c then s.prev r else s₁.prev c := by
    rw [hnext, hnext', hprev, hprev']
    cases l₂ with
    | nil =>
      refine ⟨_, rfl, ⟨rfl, rfl⟩, ?_, ?_, fun c ↦ rfl, fun c ↦ (if_neg (by rintro ⟨⟩)).symm⟩
      · rw [append_nil]; exact hhead₁
      · rw [append_nil]
    | cons b l₂ =>
      have hb : (s₁.records b).isSome := (hsame₁.isSome_iff b).2 (h.stored b (by simp))
      obtain ⟨s₂, hs₂, hsame, hhead, htail, hn, hp⟩ := exists_setPrev hb l₁.getLast?
      have htail₂ : s₂.lruTail = (l₁ ++ b :: l₂).getLast? := by
        rw [htail, htail₁, h.tail_eq, getLast?_append_cons, getLast?_append_cons,
          getLast?_cons_cons]
      have hprev₂ : ∀ c, s₂.prev c = if (b :: l₂).head? = some c then l₁.getLast? else s₁.prev c :=
        fun c ↦ by
        rw [hp, head?_cons]
        simp only [some.injEq, eq_comm]
      rw [head?_cons, linkNext, hs₂, map_some]
      cases l₁ with
      | nil =>
        rw [if_pos (show s₂.lruHead = none from hhead.trans hhead₁)]
        exact ⟨_, rfl, hsame.trans ⟨rfl, rfl⟩, rfl, htail₂, hn, hprev₂⟩
      | cons a l₁ =>
        rw [if_neg (by rw [hhead, hhead₁]; exact some_ne_none a)]
        exact ⟨_, rfl, hsame, hhead.trans hhead₁, htail₂, hn, hprev₂⟩
  obtain ⟨s₂, hs₂, hsame₂, hhead₂, htail₂, hnext₂, hprev₂⟩ := hafter
  have hsame := hsame₁.trans hsame₂
  refine ⟨s₂, ?_, hsame, ?_, hhead₂, htail₂, fun c hc ↦ ?_⟩
  · rw [removeFromList, hrecord, bind_some, hs₁, bind_some, hs₂]
  · refine h.linked.remove hnodup (fun c _ ↦ (hnext₂ c).trans (hnext₁ c)) fun c _ ↦ ?_
    rw [hprev₂, hprev₁]
  · refine (hsame.isSome_iff c).2 (h.stored c ?_)
    rw [mem_append] at hc
    rw [mem_append, mem_cons]
    exact hc.imp_right .inr

/-- `AddToList` puts a new record in front. -/
theorem addToList_links (h : Links s l) (hnodup : l.Nodup) (hr : (s.records r).isSome)
    (hnot : r ∉ l) : ∃ s', s.addToList r = some s' ∧ Same s s' ∧ Links s' (r :: l) := by
  obtain ⟨s₁, hs₁, hsame₁, hhead₁, htail₁, hnext₁, hprev₁⟩ := exists_setPrev hr none
  have hr₁ := (hsame₁.isSome_iff r).2 hr
  have hne : ∀ c ∈ l, c ≠ r := fun c hc heq ↦ hnot (heq ▸ hc)
  rw [addToList, hs₁, bind_some]
  cases l with
  | nil =>
    have hhead : s₁.lruHead = none := hhead₁.trans h.head_eq
    have htail : s₁.lruTail = none := htail₁.trans h.tail_eq
    obtain ⟨s₂, hs₂, hsame₂, -, -, hnext₂, hprev₂⟩ := exists_setNext hr₁ none
    rw [hhead]
    rw [if_pos htail, hs₂, map_some]
    refine ⟨_, rfl, (hsame₁.trans hsame₂).trans ⟨rfl, rfl⟩, Linked.singleton ?_ ?_, rfl, rfl,
      fun c hc ↦ ?_⟩
    · exact (hnext₂ r).trans (if_pos rfl)
    · exact (hprev₂ r).trans ((hprev₁ r).trans (if_pos rfl))
    · obtain rfl := mem_singleton.1 hc
      exact ((hsame₁.trans hsame₂).isSome_iff c).2 hr
  | cons a l =>
    rw [hhead₁, h.head_eq]
    obtain ⟨s₂, hs₂, hsame₂, -, htail₂, hnext₂, hprev₂⟩ := exists_setNext hr₁ (some a)
    have ha₂ := ((hsame₁.trans hsame₂).isSome_iff a).2 (h.stored a mem_cons_self)
    obtain ⟨s₃, hs₃, hsame₃, -, htail₃, hnext₃, hprev₃⟩ := exists_setPrev ha₂ (some r)
    have hsame := (hsame₁.trans hsame₂).trans hsame₃
    dsimp only [head?_cons]
    rw [hs₂, bind_some, hs₃, map_some]
    refine ⟨_, rfl, hsame.trans ⟨rfl, rfl⟩, ?_, rfl, ?_, fun c hc ↦ ?_⟩
    · refine h.linked.consHead hnodup (fun c hc ↦ ?_) (fun c hc ↦ ?_) ?_ ?_
      · exact (hnext₃ c).trans ((hnext₂ c).trans ((if_neg (hne c hc)).trans (hnext₁ c)))
      · refine (hprev₃ c).trans ?_
        rw [hprev₂, hprev₁, if_neg (hne c hc), head?_cons]
        simp only [some.injEq, eq_comm]
      · exact (hnext₃ r).trans ((hnext₂ r).trans (if_pos rfl))
      · refine (hprev₃ r).trans ((if_neg (hne a mem_cons_self).symm).trans ?_)
        rw [hprev₂, hprev₁, if_pos rfl]
    · rw [getLast?_cons_cons, ← h.tail_eq, ← htail₁, ← htail₂, ← htail₃]
    · refine (hsame.isSome_iff c).2 ?_
      obtain rfl | hmem := mem_cons.1 hc
      · exact hr
      · exact h.stored c hmem

/-! ### The pool -/

/-- The records of `l`, in this order, are those of the pool: the record made last comes first, and
each is in the pool under the size of its chunk. -/
structure Lru (s : State) (l : List ℕ) : Prop where
  links : Links s l
  decreasing : l.Pairwise (· > ·)
  lt_nextRecord : ∀ r ∈ l, r < s.nextRecord
  perm : (s.pool.map Prod.snd).Perm l
  keys : ∀ element ∈ s.pool, ∃ record, s.records element.2 = some record ∧
    record.numBytes = element.1

/-- The states have the same pool and the same list. -/
structure SamePool (s s' : State) : Prop where
  pool_eq : s'.pool = s.pool
  records_eq : s'.records = s.records
  nextRecord_eq : s'.nextRecord = s.nextRecord
  lruHead_eq : s'.lruHead = s.lruHead
  lruTail_eq : s'.lruTail = s.lruTail

theorem SamePool.next_eq (h : SamePool s s') : s'.next = s.next := by
  funext c
  rw [next, next, h.records_eq]

theorem SamePool.prev_eq (h : SamePool s s') : s'.prev = s.prev := by
  funext c
  rw [prev, prev, h.records_eq]

theorem SamePool.chunkOf_eq (h : SamePool s s') : s'.chunkOf = s.chunkOf := by
  funext c
  rw [chunkOf, chunkOf, h.records_eq]

theorem Lru.congr (h : Lru s l) (hsame : SamePool s s') : Lru s' l where
  links :=
    { linked := by rw [hsame.next_eq, hsame.prev_eq]; exact h.links.linked
      head_eq := by rw [hsame.lruHead_eq]; exact h.links.head_eq
      tail_eq := by rw [hsame.lruTail_eq]; exact h.links.tail_eq
      stored := by rw [hsame.records_eq]; exact h.links.stored }
  decreasing := h.decreasing
  lt_nextRecord := by rw [hsame.nextRecord_eq]; exact h.lt_nextRecord
  perm := by rw [hsame.pool_eq]; exact h.perm
  keys := by rw [hsame.pool_eq, hsame.records_eq]; exact h.keys

theorem Lru.nodup (h : Lru s l) : l.Nodup := h.decreasing.imp fun hgt ↦ Nat.ne_of_gt hgt

theorem Lru.length_eq (h : Lru s l) : s.pool.length = l.length := by
  rw [← h.perm.length_eq, length_map]

/-- A record is in the pool. -/
theorem Lru.exists_element (h : Lru s l) (hr : r ∈ l) :
    ∃ record, s.records r = some record ∧ (record.numBytes, r) ∈ s.pool := by
  obtain ⟨⟨key, r'⟩, hmem, rfl⟩ := mem_map.1 (h.perm.mem_iff.2 hr)
  obtain ⟨record, hrecord, rfl⟩ := h.keys _ hmem
  exact ⟨record, hrecord, hmem⟩

/-- It is there once. -/
theorem Lru.element_eq (h : Lru s l) {e e' : ℕ × ℕ} (he : e ∈ s.pool) (he' : e' ∈ s.pool)
    (heq : e.2 = e'.2) : e = e' :=
  inj_on_of_nodup_map (h.perm.nodup_iff.2 h.nodup) he he' heq

/-- A record that is removed from the list and from the pool. -/
theorem Lru.remove (h : Lru s (l₁ ++ r :: l₂)) {key : ℕ} (hmem : (key, r) ∈ s.pool) :
    ∃ s', s.removeFromList r = some s' ∧ Same s s' ∧ Lru ((s'.erase (key, r)).delete r) (l₁ ++ l₂) ∧
      ∀ c ∈ l₁ ++ l₂, ((s'.erase (key, r)).delete r).chunkOf c = s.chunkOf c := by
  obtain ⟨s', hs', hsame, hlinks⟩ := removeFromList_links h.links h.nodup
  have hmiddle : (l₁ ++ r :: l₂).Perm (r :: (l₁ ++ l₂)) := perm_middle
  have hnot : r ∉ l₁ ++ l₂ := (nodup_cons.1 (hmiddle.nodup_iff.1 h.nodup)).1
  have hsub : ∀ c ∈ l₁ ++ l₂, c ∈ l₁ ++ r :: l₂ :=
    fun c hc ↦ hmiddle.mem_iff.2 (mem_cons_of_mem _ hc)
  have hrecords : ∀ c ∈ l₁ ++ l₂, ((s'.erase (key, r)).delete r).records c = s'.records c :=
    fun c hc ↦
    update_of_ne (ne_of_mem_of_not_mem hc hnot) _ _
  have hperm : ((s.pool.erase (key, r)).map Prod.snd).Perm (l₁ ++ l₂) :=
    (((perm_cons_erase hmem).map Prod.snd).symm.trans (h.perm.trans hmiddle)).cons_inv
  refine ⟨s', hs', hsame, ⟨⟨?_, hlinks.head_eq, hlinks.tail_eq, ?_⟩, ?_, ?_, ?_, ?_⟩, ?_⟩
  · refine hlinks.linked.congr (fun c hc ↦ ?_) fun c hc ↦ ?_
    · rw [next, hrecords c hc, next]
    · rw [prev, hrecords c hc, prev]
  · intro c hc
    rw [hrecords c hc]
    exact hlinks.stored c hc
  · exact h.decreasing.sublist (Sublist.append_left (sublist_cons_self r l₂) l₁)
  · intro c hc
    show c < s'.nextRecord
    rw [hsame.nextRecord_eq]
    exact h.lt_nextRecord c (hsub c hc)
  · show ((s'.pool.erase (key, r)).map Prod.snd).Perm (l₁ ++ l₂)
    rwa [hsame.pool_eq]
  · intro element helement
    have helement' : element ∈ s.pool.erase (key, r) := by rwa [← hsame.pool_eq]
    have hin := hperm.mem_iff.1 (mem_map_of_mem helement')
    obtain ⟨record, hrecord, hkey⟩ := h.keys element (mem_of_mem_erase helement')
    have hchunk := congrFun hsame.chunk_eq element.2
    rw [chunkOf, chunkOf, hrecord, map_some, map_eq_some_iff] at hchunk
    obtain ⟨record', hrecord', heq⟩ := hchunk
    rw [hrecords _ hin]
    exact ⟨record', hrecord', (congrArg Prod.snd heq).trans hkey⟩
  · intro c hc
    rw [chunkOf, hrecords c hc, ← chunkOf, hsame.chunk_eq]

/-! ### Evictions -/

section

variable {α : Type*} {p : α → Bool} {l : List α} {a : α} (ha : a ∈ l) (hp : ¬p a = true)
include ha hp

theorem mem_dropWhile_of_not : a ∈ l.dropWhile p := by
  rw [← takeWhile_append_dropWhile (p := p) (l := l)] at ha
  exact (mem_append.1 ha).resolve_left fun h ↦ hp (mem_takeWhile_imp h)

theorem exists_head?_dropWhile : ∃ b, (l.dropWhile p).head? = some b ∧ p b = false ∧ b ∈ l := by
  have hmem := mem_dropWhile_of_not ha hp
  cases hdrop : l.dropWhile p with
  | nil => rw [hdrop] at hmem; cases hmem
  | cons b rest =>
    have hnot := head?_dropWhile_not p l
    rw [hdrop] at hnot
    exact ⟨b, rfl, hnot, (dropWhile_sublist p).subset (hdrop ▸ mem_cons_self)⟩

end

theorem resize_same (cfg : Config) (s : State) :
    SamePool s (s.resize cfg) ∧ s.poolSizeLimit ≤ (s.resize cfg).poolSizeLimit := by
  rw [resize]
  split
  · refine ⟨⟨rfl, rfl, rfl, rfl, rfl⟩, ?_⟩
    show s.poolSizeLimit ≤ if s.poolSizeLimit < 100 then 100 else cfg.increased s.poolSizeLimit
    split
    · omega
    · exact cfg.le_increased _
  · exact ⟨⟨rfl, rfl, rfl, rfl, rfl⟩, le_rfl⟩

/-- `EvictOne` frees the chunk of the last record. -/
theorem evictOne_lru (cfg : Config) (h : Lru s (l ++ [r])) :
    ∃ s' chunk, s.chunkOf r = some chunk ∧ s.evictOne cfg = some (s', chunk) ∧ Lru s' l ∧
      (∀ c ∈ l, s'.chunkOf c = s.chunkOf c) ∧ s.poolSizeLimit ≤ s'.poolSizeLimit ∧
      s'.nextRecord = s.nextRecord := by
  obtain ⟨record, hrecord, hmem⟩ := h.exists_element (r := r) (by simp)
  obtain ⟨s', hs', hsame, hlru, hchunks⟩ := h.remove hmem
  rw [append_nil] at hlru hchunks
  have htail : s.lruTail = some r := by rw [h.links.tail_eq, getLast?_concat]
  -- the element of the pool is found from the first one with the same key
  have hmem' : (record.numBytes, r) ∈ s'.find record.numBytes := by
    rw [find, hsame.pool_eq]
    exact mem_dropWhile_of_not hmem (by simp)
  obtain ⟨element, hhead, hsecond, hfound⟩ :=
    exists_head?_dropWhile (p := fun e : ℕ × ℕ ↦ e.2 ≠ r) hmem' (by simp)
  have helement : element = (record.numBytes, r) := by
    have hpool : element ∈ s.pool := by
      rw [find, hsame.pool_eq] at hfound
      exact (dropWhile_sublist _).subset hfound
    exact h.element_eq hpool hmem (by simpa using hsecond)
  subst helement
  have hcount : Lru
      { (s'.erase (record.numBytes, r)).delete r with evictedCount := s'.evictedCount + 1 } l :=
    hlru.congr ⟨rfl, rfl, rfl, rfl, rfl⟩
  obtain ⟨hsamePool, hlimit⟩ := resize_same cfg
    { (s'.erase (record.numBytes, r)).delete r with evictedCount := s'.evictedCount + 1 }
  refine ⟨_, record.chunk, by rw [chunkOf, hrecord,
    map_some], ?_, hcount.congr hsamePool, ?_, ?_, ?_⟩
  · rw [evictOne, htail, bind_eq_bind, bind_some, hrecord, bind_eq_bind, bind_some, hs',
      bind_eq_bind, bind_some, hhead]
    rfl
  · intro c hc
    rw [hsamePool.chunkOf_eq]
    exact hchunks c hc
  · exact hsame.poolSizeLimit_eq ▸ hlimit
  · exact hsamePool.nextRecord_eq.trans hsame.nextRecord_eq

/-- The loop frees the chunks of the last records, from the last one on, until there is room in the
pool. -/
theorem evict_lru (cfg : Config) (h : Lru s l) (hlimit : 0 < s.poolSizeLimit) :
    ∃ s' kept evicted freed, s.evict cfg = some (s', freed) ∧ l = kept ++ evicted ∧
      freed.map some = evicted.reverse.map s.chunkOf ∧ Lru s' kept ∧
      (∀ c ∈ kept, s'.chunkOf c = s.chunkOf c) ∧
      kept.length < s'.poolSizeLimit ∧ s'.nextRecord = s.nextRecord := by
  -- so many records are left, and the chunks of the others have been freed
  let Left (n : ℕ) (x : State × List (ℕ × ℕ)) : Prop := ∃ kept evicted, l = kept ++ evicted ∧
    n = kept.length ∧
    x.2.map some = evicted.reverse.map s.chunkOf ∧ Lru x.1 kept ∧
    (∀ c ∈ kept, x.1.chunkOf c = s.chunkOf c) ∧
    0 < x.1.poolSizeLimit ∧ x.1.nextRecord = s.nextRecord
  have hround : ∀ n x, Left n x →
      (∃ y, evictRound cfg x = .inr y ∧ ∃ x' n', y = some x' ∧ Left n' x' ∧
      n' < x'.1.poolSizeLimit) ∨
        ∃ x' n', evictRound cfg x = .inl x' ∧ Left n' x' ∧ n' < n := by
    rintro n ⟨t, freed⟩ ⟨kept, evicted, hsplit, hn, hfreed, hlru, hchunks, hpos, hnext⟩
    dsimp only at hfreed hlru hchunks hpos hnext
    by_cases hfull : t.poolSizeLimit ≤ t.pool.length
    · right
      have hne : kept ≠ [] := by
        rintro rfl
        rw [hlru.length_eq, length_nil] at hfull
        omega
      obtain ⟨kept, r, rfl⟩ : ∃ k a, kept = k ++ [a] := ⟨_, _, (dropLast_append_getLast hne).symm⟩
      obtain ⟨t', chunk, hchunk, hevict, hlru', hchunks', hle, hnext'⟩ := evictOne_lru cfg hlru
      refine ⟨(t', freed ++ [chunk]), kept.length, ?_,
        ⟨kept, r :: evicted, ?_, rfl, ?_, hlru', fun c hc ↦ ?_,
        hpos.trans_le hle, hnext'.trans hnext⟩, ?_⟩
      · rw [evictRound, if_pos hfull, hevict]
      · rw [hsplit, append_assoc, singleton_append]
      · rw [map_append, hfreed, reverse_cons, map_append, map_singleton, map_singleton,
          ← hchunks r (by simp), hchunk]
      · exact (hchunks' c hc).trans (hchunks c (mem_append_left _ hc))
      · rw [hn, length_append, length_singleton]
        exact Nat.lt_succ_self _
    · left
      refine ⟨_, by rw [evictRound, if_neg hfull], (t, freed), n, rfl,
        ⟨kept, evicted, hsplit, hn, hfreed, hlru, hchunks, hpos, hnext⟩, ?_⟩
      rw [hn, ← hlru.length_eq]
      exact Nat.lt_of_not_le hfull
  obtain ⟨y, hloop, ⟨s', freed⟩, n, rfl, ⟨kept, evicted, hsplit, hn, hfreed, hlru, hchunks, -,
    hnext⟩, hroom⟩ :=
    Rounds.exists_loop_of_measure hround (j := l.length) (n := s.pool.length + 1) (s := (s, []))
      ⟨l, [], (append_nil l).symm, rfl, rfl, h, fun _ _ ↦ rfl, hlimit, rfl⟩
      (by rw [h.length_eq]; omega)
  exact ⟨s', kept, evicted,
    freed, by rw [evict, hloop]; rfl, hsplit, hfreed, hlru, hchunks, hn ▸ hroom, hnext⟩

/-- A new record for a chunk comes first. -/
theorem put_lru (h : Lru s l) (chunk numBytes : ℕ) : ∃ s', s.put chunk numBytes = some s' ∧
    Lru s' (s.nextRecord :: l) ∧ s'.chunkOf s.nextRecord = some (chunk, numBytes) ∧
    (∀ c ∈ l, s'.chunkOf c = s.chunkOf c) ∧ s'.poolSizeLimit = s.poolSizeLimit := by
  have hne : ∀ c ∈ l, c ≠ s.nextRecord := fun c hc ↦ Nat.ne_of_lt (h.lt_nextRecord c hc)
  let t : State := { s with
    records := update s.records s.nextRecord (some ⟨chunk, numBytes, none, none⟩)
    nextRecord := s.nextRecord + 1 }
  have hrecords : ∀ c ∈ l, t.records c = s.records c := fun c hc ↦ update_of_ne (hne c hc) _ _
  have hnew : t.records s.nextRecord = some ⟨chunk, numBytes, none, none⟩ := update_self _ _ _
  have hlinks : Links t l := by
    refine ⟨h.links.linked.congr (fun c hc ↦ ?_) fun c hc ↦ ?_, h.links.head_eq, h.links.tail_eq,
      fun c hc ↦ ?_⟩
    · rw [next, hrecords c hc, next]
    · rw [prev, hrecords c hc, prev]
    · rw [hrecords c hc]
      exact h.links.stored c hc
  obtain ⟨s', hs', hsame, hlinks'⟩ :=
    addToList_links (r := s.nextRecord) hlinks h.nodup (by rw [hnew]; rfl)
    fun hmem ↦ hne _ hmem rfl
  have hpool : (s'.insert numBytes s.nextRecord).pool.Perm ((numBytes, s.nextRecord) ::
      s.pool) := by
    show (s'.pool.takeWhile _ ++ (numBytes, s.nextRecord) :: s'.pool.dropWhile _).Perm _
    rw [hsame.pool_eq]
    refine perm_middle.trans ?_
    rw [takeWhile_append_dropWhile]
  have hchunk : (s'.insert numBytes s.nextRecord).chunkOf = t.chunkOf := hsame.chunk_eq
  refine ⟨s'.insert numBytes s.nextRecord, ?_,
    ⟨⟨hlinks'.linked, hlinks'.head_eq, hlinks'.tail_eq, hlinks'.stored⟩, ?_, ?_, ?_, ?_⟩, ?_,
    fun c hc ↦ ?_, ?_⟩
  · exact congrArg (Option.map _) hs'
  · exact pairwise_cons.2 ⟨h.lt_nextRecord, h.decreasing⟩
  · intro c hc
    show c < s'.nextRecord
    rw [hsame.nextRecord_eq]
    obtain rfl | hmem := mem_cons.1 hc
    · exact Nat.lt_succ_self _
    · exact Nat.lt_succ_of_lt (h.lt_nextRecord c hmem)
  · exact (hpool.map Prod.snd).trans (Perm.cons _ h.perm)
  · intro element helement
    have hstored : ∀ c n, (∃ record, t.records c = some record ∧ record.numBytes = n) →
        ∃ record, s'.records c = some record ∧ record.numBytes = n := by
      rintro c _ ⟨record, hrecord, rfl⟩
      have heq := congrFun hsame.chunk_eq c
      rw [chunkOf, chunkOf, hrecord, map_some, map_eq_some_iff] at heq
      exact heq.imp fun record' hrecord' ↦ ⟨hrecord'.1, congrArg Prod.snd hrecord'.2⟩
    obtain rfl | hmem := mem_cons.1 (hpool.mem_iff.1 helement)
    · exact hstored _ _ ⟨_, hnew, rfl⟩
    · refine hstored _ _ ?_
      rw [hrecords _ (h.perm.mem_iff.1 (mem_map_of_mem hmem))]
      exact h.keys element hmem
  · rw [hchunk, chunkOf, hnew]
    rfl
  · rw [hchunk, chunkOf, hrecords c hc, chunkOf]
  · exact hsame.poolSizeLimit_eq

/-- A chunk of the size that is asked for is taken out of the pool if there is one. -/
theorem takeChunk_lru (cfg : Config) (h : Lru s l) (size fresh : ℕ) :
    ∃ s' chunk fromPool, takeChunk cfg s size fresh = some (s', chunk, fromPool) ∧
    s'.poolSizeLimit = s.poolSizeLimit ∧
      ((fromPool = false ∧ chunk = fresh ∧ Lru s' l ∧ ∀ c ∈ l, s'.chunkOf c = s.chunkOf c) ∨
        (fromPool = true ∧ ∃ l₁ r l₂, l = l₁ ++ r :: l₂ ∧ s.chunkOf r = some (chunk, size) ∧
          Lru s' (l₁ ++ l₂) ∧
          ∀ c ∈ l₁ ++ l₂, s'.chunkOf c = s.chunkOf c)) := by
  rw [takeChunk]
  split
  · cases hfind : (s.find size).head? with
    | none => exact ⟨_, fresh, false, rfl, rfl, .inl ⟨rfl, rfl, h.congr ⟨rfl, rfl, rfl, rfl, rfl⟩,
        fun _ _ ↦ rfl⟩⟩
    | some element =>
      obtain ⟨key, r⟩ := element
      have hkey : key = size := by
        have hnot := head?_dropWhile_not (fun e : ℕ × ℕ ↦ e.1 ≠ size) s.pool
        rw [find] at hfind
        rw [hfind] at hnot
        simpa using hnot
      subst hkey
      have hmem : (key, r) ∈ s.pool := (dropWhile_sublist _).subset (mem_of_head? hfind)
      have hr : r ∈ l := h.perm.mem_iff.1 (mem_map_of_mem hmem)
      obtain ⟨l₁, l₂, rfl⟩ := append_of_mem hr
      obtain ⟨record, hrecord, hkey⟩ := h.keys _ hmem
      have hcount : Lru { s with getFromPoolCount := s.getFromPoolCount + 1 } (l₁ ++ r :: l₂) :=
        h.congr ⟨rfl, rfl, rfl, rfl, rfl⟩
      obtain ⟨s', hs', hsame, hlru, hchunks⟩ := hcount.remove hmem
      have hchunk : s'.chunkOf r = some record.chunk := by
        rw [hsame.chunk_eq, chunkOf]
        exact congrArg (Option.map _) hrecord
      obtain ⟨record', hrecord', hptr⟩ := map_eq_some_iff.1 hchunk
      refine ⟨(s'.erase (key, r)).delete r, record'.ptr, true, ?_, hsame.poolSizeLimit_eq,
        .inr ⟨rfl, l₁, r, l₂, rfl, ?_, hlru, hchunks⟩⟩
      · dsimp only
        rw [hs', bind_eq_bind, bind_some, hrecord']
        rfl
      · rw [chunkOf, hrecord, map_some, ← hptr]
        exact congrArg some (Prod.ext rfl ((congrArg Prod.snd hptr).trans hkey))
  · exact ⟨s, fresh, false, rfl, rfl, .inl ⟨rfl, rfl, h, fun _ _ ↦ rfl⟩⟩

end State

end TensorFlowCore.PoolAllocator
