import TensorFlowCore.Util.PresizedCuckooMap.Search

/-!
# Insertions into a `PresizedCuckooMap`

Each key stands in one slot of one of its two buckets (`Holds`). `CuckooInsert` moves the keys on
the path that it has found one after the other, and what it says of the table has an exception in
between: the slot that has just been copied, the `hole`. No slot is on the path twice
(`hole_injective`): the bucket at the end is the only one with a free slot, a bucket does not lead
back to where it has been reached from, and the path has at most five buckets.
-/

namespace TensorFlowCore

open Function

namespace PresizedCuckooMap

variable {α : Type} {m m' : PresizedCuckooMap α} {b1 b2 : ℕ} {k : UInt64} {v : α}

/-! ### What the table holds -/

@[simp] theorem keys_insertInternal (m : PresizedCuckooMap α) (k : UInt64) (v : α) (c : Cell) :
    (m.insertInternal k v c).keys = Function.update m.keys c k := rfl

@[simp] theorem keys_copyItem (m : PresizedCuckooMap α) (src dst : Cell) :
    (m.copyItem src dst).keys = Function.update m.keys dst (m.keys src) := rfl

/-- One of the two buckets of the key. -/
def IsBucketOf (m : PresizedCuckooMap α) (k : UInt64) (b : ℕ) : Prop :=
  b = m.fastMapToBuckets k ∨ b = m.fastMapToBuckets (h2 k)

theorem isBucketOf_altBucket (m : PresizedCuckooMap α) (k : UInt64) (b : ℕ) :
    IsBucketOf m k (m.altBucket k b) := by
  rw [altBucket]
  split
  · exact .inl rfl
  · exact .inr rfl

/-- The table holds the contents, each key once and in one of its buckets, if one does not look at
the hole. -/
structure Holds (m : PresizedCuckooMap α) (contents : UInt64 → Option α) (hole : Option Cell) :
    Prop where
  placed : ∀ c, hole ≠ some c → m.keys c ≠ kUnusedSlot →
    IsBucketOf m (m.keys c) c.1 ∧ contents (m.keys c) = some (m.values c)
  once : ∀ c c', hole ≠ some c → hole ≠ some c' → m.keys c ≠ kUnusedSlot →
    m.keys c = m.keys c' → c = c'
  stored : ∀ k v, contents k = some v → ∃ c, hole ≠ some c ∧ m.keys c = k ∧ k ≠ kUnusedSlot

variable {contents : UInt64 → Option α} {hole : Option Cell} {c src : Cell}

theorem holds_clear [Inhabited α] (m : PresizedCuckooMap α) (loaded : UInt64) :
    Holds (m.clear loaded) (fun _ ↦ none) none where
  placed _ _ hused := absurd rfl hused
  once _ _ _ _ hused := absurd rfl hused
  stored _ _ h := by cases h

theorem Holds.congr (h : Holds m contents hole) (hnum : m'.numBuckets = m.numBuckets)
    (hkeys : m'.keys = m.keys) (hvalues : m'.values = m.values) : Holds m' contents hole where
  placed c hc hused := by
    rw [hkeys] at hused ⊢
    rw [hvalues, IsBucketOf, fastMapToBuckets, fastMapToBuckets, hnum]
    exact h.placed c hc hused
  once c c' hc hc' := by
    rw [hkeys]
    exact h.once c c' hc hc'
  stored k v hk := by
    rw [hkeys]
    exact h.stored k v hk

/-- A slot that is not used may be the hole. -/
theorem Holds.withHole (h : Holds m contents none) (hc : m.keys c = kUnusedSlot) :
    Holds m contents (some c) where
  placed c' _ := h.placed c' nofun
  once c' c'' _ _ := h.once c' c'' nofun nofun
  stored k v hk := by
    obtain ⟨c', -, hkey, hk⟩ := h.stored k v hk
    refine ⟨c', fun heq ↦ hk ?_, hkey, hk⟩
    rw [← hkey, ← Option.some.inj heq, hc]

/-- The hole moves to where its new key comes from. -/
theorem Holds.copyItem (h : Holds m contents (some c)) (hne : src ≠ c)
    (hused : m.keys src ≠ kUnusedSlot) (hbucket : IsBucketOf m (m.keys src) c.1) :
    Holds (m.copyItem src c) contents (some src) := by
  have hsrc : some c ≠ some src := fun heq ↦ hne (Option.some.inj heq).symm
  have hself : (m.copyItem src c).keys c = m.keys src := update_self ..
  have hother : ∀ {d}, d ≠ c → (m.copyItem src c).keys d = m.keys d := fun hd ↦ update_of_ne hd _ _
  refine ⟨fun d hd hdused ↦ ?_, fun d d' hd hd' hdused heq ↦ ?_, fun k v hk ↦ ?_⟩
  · by_cases hdc : d = c
    · subst hdc
      have hvalue : (m.copyItem src d).values d = m.values src := update_self ..
      rw [hself, hvalue]
      exact ⟨hbucket, (h.placed src hsrc hused).2⟩
    · have hvalue : (m.copyItem src c).values d = m.values d := update_of_ne hdc _ _
      rw [hother hdc] at hdused ⊢
      rw [hvalue]
      exact h.placed d (fun heq ↦ hdc (Option.some.inj heq).symm) hdused
  · have hold : ∀ {d}, d ≠ c → some c ≠ some d := fun hdc heq ↦ hdc (Option.some.inj heq).symm
    by_cases hdc : d = c
    · by_cases hdc' : d' = c
      · rw [hdc, hdc']
      · rw [hdc, hself, hother hdc'] at heq
        exact absurd (congrArg some (h.once src d' hsrc (hold hdc') hused heq)) hd'
    · by_cases hdc' : d' = c
      · rw [hdc', hself, hother hdc] at heq
        exact absurd (congrArg some (h.once src d hsrc (hold hdc) hused heq.symm)) hd
      · rw [hother hdc] at hdused heq
        rw [hother hdc'] at heq
        exact h.once d d' (hold hdc) (hold hdc') hdused heq
  · obtain ⟨d, hd, hkey, hk⟩ := h.stored k v hk
    by_cases hds : d = src
    · exact ⟨c, fun heq ↦ hne (Option.some.inj heq), by rw [hself, ← hds, hkey], hk⟩
    · have hdc : d ≠ c := fun heq ↦ hd (congrArg some heq).symm
      exact ⟨d, fun heq ↦ hds (Option.some.inj heq).symm, by rw [hother hdc, hkey], hk⟩

/-- A new key goes to the hole. -/
theorem Holds.insertInternal (h : Holds m contents (some c)) (hk : k ≠ kUnusedSlot)
    (hnew : contents k = none) (hbucket : IsBucketOf m k c.1) :
    Holds (m.insertInternal k v c) (Function.update contents k (some v)) none := by
  have hself : (m.insertInternal k v c).keys c = k := update_self ..
  have hother : ∀ {d}, d ≠ c → (m.insertInternal k v c).keys d = m.keys d :=
    fun hd ↦ update_of_ne hd _ _
  have hold : ∀ {d}, d ≠ c → some c ≠ some d := fun hdc heq ↦ hdc (Option.some.inj heq).symm
  -- the key is not in another slot
  have hkey : ∀ {d}, d ≠ c → m.keys d ≠ k := fun {d} hdc heq ↦ by
    have hplaced := (h.placed d (hold hdc) (heq ▸ hk)).2
    rw [heq, hnew] at hplaced
    cases hplaced
  refine ⟨fun d _ hdused ↦ ?_, fun d d' _ _ hdused heq ↦ ?_, fun k' v' hk' ↦ ?_⟩
  · by_cases hdc : d = c
    · subst hdc
      have hvalue : (m.insertInternal k v d).values d = v := update_self ..
      rw [hself, hvalue, update_self]
      exact ⟨hbucket, rfl⟩
    · have hvalue : (m.insertInternal k v c).values d = m.values d := update_of_ne hdc _ _
      rw [hother hdc] at hdused ⊢
      rw [hvalue, update_of_ne (hkey hdc)]
      exact h.placed d (hold hdc) hdused
  · by_cases hdc : d = c
    · by_cases hdc' : d' = c
      · rw [hdc, hdc']
      · rw [hdc, hself, hother hdc'] at heq
        exact absurd heq.symm (hkey hdc')
    · by_cases hdc' : d' = c
      · rw [hdc', hself, hother hdc] at heq
        exact absurd heq (hkey hdc)
      · rw [hother hdc] at hdused heq
        rw [hother hdc'] at heq
        exact h.once d d' (hold hdc) (hold hdc') hdused heq
  · by_cases hkk : k' = k
    · exact ⟨c, nofun, hself.trans hkk.symm, hkk ▸ hk⟩
    · rw [update_of_ne hkk] at hk'
      obtain ⟨d, hd, hdkey, hk'⟩ := h.stored k' v' hk'
      exact ⟨d, nofun, by rw [hother fun heq ↦ hd (congrArg some heq).symm, hdkey], hk'⟩

/-! ### The path -/

/-- The entries on the path, from the one with the free slot back to the root. -/
def ancestor (visited : ℕ → CuckooPathEntry) (e : CuckooPathEntry) : ℕ → CuckooPathEntry
  | 0 => e
  | i + 1 => visited (ancestor visited e i).parent

/-- The slots on the path. -/
def pathCell (visited : ℕ → CuckooPathEntry) (e : CuckooPathEntry) (slot : Fin 4) : ℕ → Cell
  | 0 => (e.bucket, slot)
  | i + 1 => ((ancestor visited e (i + 1)).bucket, (ancestor visited e i).parentSlot)

variable {visited : ℕ → CuckooPathEntry} {e : CuckooPathEntry} {slot : Fin 4} {n : ℕ}

theorem pathCell_fst (visited : ℕ → CuckooPathEntry) (e : CuckooPathEntry) (slot : Fin 4) (i : ℕ) :
    (pathCell visited e slot i).1 = (ancestor visited e i).bucket := by
  cases i with
  | zero => rfl
  | succ i => rfl

/-- What the keys are moved along: `n` of them, each to a slot of its other bucket. -/
structure Path (m : PresizedCuckooMap α) (b1 b2 : ℕ) (cell : ℕ → Cell) (n : ℕ) : Prop where
  free : m.keys (cell 0) = kUnusedSlot
  full : ∀ i, 0 < i → i ≤ n → Full m (cell i).1
  step : ∀ i < n, (cell i).1 = m.altBucket (m.keys (cell (i + 1))) (cell (i + 1)).1
  noReturn : ∀ i, i + 1 < n → (cell i).1 ≠ (cell (i + 2)).1
  root : (cell n).1 = b1 ∨ (cell n).1 = b2
  lt : n < kMaxBFSPathLen

variable {cell : ℕ → Cell} {r : Found}

/-- The bucket with the free slot is not on the path again. -/
theorem Path.ne_zero (h : Path m b1 b2 cell n) {i : ℕ} (hi : 0 < i) (hn : i ≤ n) :
    (cell 0).1 ≠ (cell i).1 := by
  intro heq
  have hused := h.full i hi hn (cell 0).2
  rw [← heq] at hused
  exact hused h.free

/-- **No slot is on the path twice.** -/
theorem Path.ne (h : Path m b1 b2 cell n) {i j : ℕ} (hij : i < j) (hn : j ≤ n) :
    cell i ≠ cell j := by
  intro heq
  -- what has been reached from the two slots is the same bucket
  cases i with
  | zero => exact h.ne_zero hij hn (congrArg Prod.fst heq)
  | succ i =>
    obtain ⟨j, rfl⟩ : ∃ j', j = j' + 1 := ⟨j - 1, by omega⟩
    have hbucket : (cell i).1 = (cell j).1 := by rw [h.step i (by omega), h.step j (by omega), heq]
    cases i with
    | zero => exact h.ne_zero (by omega) (by omega) hbucket
    | succ i =>
      cases i with
      | zero =>
        have hlt := h.lt
        rw [kMaxBFSPathLen] at hlt
        obtain rfl | rfl : j = 2 ∨ j = 3 := by omega
        · exact h.noReturn 1 (by omega) (hbucket.trans (congrArg Prod.fst heq))
        · exact h.noReturn 1 (by omega) hbucket
      | succ i =>
        have hlt := h.lt
        rw [kMaxBFSPathLen] at hlt
        obtain ⟨rfl, rfl⟩ : i = 0 ∧ j = 3 := by omega
        exact h.noReturn 2 (by omega) (hbucket.trans (congrArg Prod.fst heq))

/-- The entries on the path have been visited, apart from the one with the free slot. -/
theorem Finds.ancestor (h : Finds m b1 b2 r) (hfree : r.free = some (e, slot)) {i : ℕ}
    (hi : i < e.depth) :
    Reached m b1 b2 r.search.visited r.search.visitedEnd (ancestor r.search.visited e i) ∧
      (ancestor r.search.visited e i).depth + i = e.depth ∧
      (0 < i → Full m (ancestor r.search.visited e i).bucket) := by
  induction i with
  | zero => exact ⟨(h.free e slot hfree).1, rfl, nofun⟩
  | succ i ih =>
    obtain ⟨hreached, hdepth, -⟩ := ih (Nat.lt_of_succ_lt hi)
    obtain ⟨hlt, hparent, -⟩ := hreached.parent (by omega)
    obtain ⟨hvisited, hfull⟩ := h.visited _ hlt
    refine ⟨hvisited.mono hlt.le fun _ _ ↦ rfl, ?_, fun _ ↦ hfull⟩
    rw [PresizedCuckooMap.ancestor]
    omega

theorem Finds.depth_ancestor (h : Finds m b1 b2 r) (hfree : r.free = some (e, slot)) (i : ℕ)
    (hi : i ≤ e.depth - 1) :
    (PresizedCuckooMap.ancestor r.search.visited e i).depth + i = e.depth - 1 + 1 := by
  have hpos := (h.free e slot hfree).1.depth_pos
  rw [(h.ancestor hfree (by omega)).2.1]
  omega

theorem Finds.path (h : Finds m b1 b2 r) (hfree : r.free = some (e, slot)) :
    Path m b1 b2 (pathCell r.search.visited e slot) (e.depth - 1) := by
  obtain ⟨hreached, hunused⟩ := h.free e slot hfree
  have hpos := hreached.depth_pos
  have hle := hreached.depth_le
  refine ⟨hunused, fun i hi hn ↦ ?_, fun i hi ↦ ?_, fun i hi ↦ ?_, ?_, by omega⟩
  · rw [pathCell_fst]
    exact (h.ancestor hfree (by omega)).2.2 hi
  · obtain ⟨hreached, hdepth, -⟩ := h.ancestor hfree (i := i) (by omega)
    rw [pathCell_fst]
    exact (hreached.parent (by omega)).2.2
  · obtain ⟨hreached, hdepth, -⟩ := h.ancestor hfree (i := i) (by omega)
    rw [pathCell_fst, pathCell_fst]
    exact (hreached.noReturn (by omega)).2
  · obtain ⟨hreached, hdepth, -⟩ := h.ancestor hfree (i := e.depth - 1) (by omega)
    rw [pathCell_fst]
    exact hreached.root (by omega)

/-- The keys are moved from the `j`-th slot on. By induction on the rounds; what has not been moved
is as it was. -/
theorem Holds.moveBack (m' : PresizedCuckooMap α) (hpath : Path m b1 b2 (pathCell visited e slot) n)
    (hdepth : ∀ i ≤ n, (PresizedCuckooMap.ancestor visited e i).depth + i = n + 1) {j : ℕ}
    (hj : j ≤ n) (rounds : ℕ) (hrounds : n < j + rounds) (hnum : m'.numBuckets = m.numBuckets)
    (hkeys : ∀ i, j < i → i ≤ n →
      m'.keys (pathCell visited e slot i) = m.keys (pathCell visited e slot i))
    (h : Holds m' contents (some (pathCell visited e slot j))) :
    ∃ m'', PresizedCuckooMap.moveBack visited rounds m' (PresizedCuckooMap.ancestor visited e j)
        (pathCell visited e slot j).2 = (m'', pathCell visited e slot n) ∧
      Holds m'' contents (some (pathCell visited e slot n)) ∧ m''.numBuckets = m.numBuckets := by
  induction rounds generalizing j m' with
  | zero => omega
  | succ rounds ih =>
    have hd := hdepth j hj
    rw [PresizedCuckooMap.moveBack, ← pathCell_fst visited e slot j]
    obtain rfl | hlt := Nat.eq_or_lt_of_le hj
    · rw [if_neg (by omega)]
      exact ⟨m', rfl, h, hnum⟩
    · rw [if_pos (by omega)]
      have hsrc : pathCell visited e slot (j + 1) ≠ pathCell visited e slot j :=
        (hpath.ne (Nat.lt_succ_self j) hlt).symm
      have hkey := hkeys (j + 1) (Nat.lt_succ_self j) hlt
      have hbucket : IsBucketOf m' (m'.keys (pathCell visited e slot (j + 1)))
          (pathCell visited e slot j).1 := by
        rw [IsBucketOf, fastMapToBuckets, fastMapToBuckets, hnum, hkey, hpath.step j hlt]
        exact isBucketOf_altBucket m _ _
      have hused : m'.keys (pathCell visited e slot (j + 1)) ≠ kUnusedSlot := by
        rw [hkey]
        exact hpath.full (j + 1) (Nat.succ_pos j) hlt _
      refine ih _ hlt (by omega) hnum (fun i hi hn ↦ ?_) (h.copyItem hsrc hused hbucket)
      rw [← hkeys i (by omega) hn]
      exact update_of_ne (hpath.ne (by omega) hn).symm _ _

/-! ### The insertions -/

/-- An insertion that returns `true` adds the pair, and one that returns `false` changes nothing of
what is held. -/
def Inserts (m : PresizedCuckooMap α) (contents : UInt64 → Option α) (k : UInt64) (v : α)
    (r : Bool × PresizedCuckooMap α) : Prop :=
  r.2.numBuckets = m.numBuckets ∧
    Holds r.2 (if r.1 then Function.update contents k (some v) else contents) none

/-- A new key gets a slot at the end of a path of moves, or nothing is moved at all. -/
theorem Holds.cuckooInsert (h : Holds m contents none) (hk : k ≠ kUnusedSlot)
    (hnew : contents k = none) (h1 : IsBucketOf m k b1) (h2 : IsBucketOf m k b2) (v : α) :
    Inserts m contents k v (m.cuckooInsert k v b1 b2) := by
  obtain ⟨⟨s, free⟩, hsearch, hfinds⟩ := search_ends m k b1 b2
  rw [PresizedCuckooMap.cuckooInsert, hsearch]
  have hs : Holds { m with cpq := s.cpq, visited := s.visited } contents none := h.congr rfl rfl rfl
  cases free with
  | none => exact ⟨rfl, hs⟩
  | some found =>
    obtain ⟨e, slot⟩ := found
    have hpath := hfinds.path rfl
    obtain ⟨hreached, hunused⟩ := hfinds.free e slot rfl
    have hpos := hreached.depth_pos
    obtain ⟨m', hmove, hholds, hnum⟩ :=
      Holds.moveBack { m with cpq := s.cpq, visited := s.visited } hpath
      (hfinds.depth_ancestor rfl) (Nat.zero_le _) e.depth (by omega) rfl (fun _ _ _ ↦ rfl)
      (hs.withHole hunused)
    dsimp only
    rw [show PresizedCuckooMap.moveBack s.visited e.depth _ e slot = _ from hmove]
    have hroot : IsBucketOf m' k (pathCell s.visited e slot (e.depth - 1)).1 := by
      rw [IsBucketOf, fastMapToBuckets, fastMapToBuckets, hnum]
      obtain heq | heq := hpath.root
      · rw [heq]
        exact h1
      · rw [heq]
        exact h2
    exact ⟨hnum, hholds.insertInternal hk hnew hroot⟩

theorem mem_slotsOf {c : Cell} : c ∈ slotsOf b1 b2 ↔ c.1 = b1 ∨ c.1 = b2 := by
  obtain ⟨b, slot⟩ := c
  simp [slotsOf, List.mem_finRange, eq_comm]

theorem keyTransform_of_ne (hk : k ≠ kUnusedSlot) : keyTransform k = k := if_neg hk

variable (h : Holds m contents none) (hk : k ≠ kUnusedSlot)
include h hk

/-- A key that is present is found in one of its two buckets. -/
theorem Holds.insertUnique_of_present (hpresent : contents k ≠ none) (v : α) :
    m.insertUnique k v = (false, m) := by
  obtain ⟨v', hv'⟩ := Option.ne_none_iff_exists'.1 hpresent
  obtain ⟨c, -, hkey, -⟩ := h.stored k v' hv'
  have hbucket := (h.placed c nofun (hkey ▸ hk)).1
  rw [hkey] at hbucket
  have hany : ((slotsOf (m.fastMapToBuckets k) (m.fastMapToBuckets (h2 k))).any fun c ↦ m.keys c =
      k) = true :=
    List.any_eq_true.2 ⟨c, mem_slotsOf.2 hbucket, decide_eq_true hkey⟩
  rw [insertUnique, keyTransform_of_ne hk, if_pos hany]

theorem Holds.insertUnique_of_absent (hnew : contents k = none) (v : α) :
    Inserts m contents k v (m.insertUnique k v) := by
  have hany : ¬((slotsOf (m.fastMapToBuckets k) (m.fastMapToBuckets (h2 k))).any fun c ↦ m.keys c =
      k) = true := by
    intro hany
    obtain ⟨c, -, hkey⟩ := List.any_eq_true.1 hany
    have hkey := of_decide_eq_true hkey
    have hplaced := (h.placed c nofun (hkey ▸ hk)).2
    rw [hkey, hnew] at hplaced
    cases hplaced
  rw [insertUnique, keyTransform_of_ne hk, if_neg hany]
  cases hfind : (slotsOf (m.fastMapToBuckets k) (m.fastMapToBuckets (h2 k))).find? fun c ↦
    m.keys c = kUnusedSlot with
  | none => exact h.cuckooInsert hk hnew (.inl rfl) (.inr rfl) v
  | some target =>
    have hunused := List.find?_some hfind
    exact ⟨rfl, (h.withHole (of_decide_eq_true hunused)).insertInternal hk hnew
      (mem_slotsOf.1 (List.mem_of_find?_eq_some hfind))⟩

/-- **An insertion** of any key but the one that marks a slot as unused. -/
theorem Holds.insertUnique (v : α) : Inserts m contents k v (m.insertUnique k v) := by
  by_cases hnew : contents k = none
  · exact h.insertUnique_of_absent hk hnew v
  · rw [h.insertUnique_of_present hk hnew v]
    exact ⟨rfl, h⟩

end PresizedCuckooMap

end TensorFlowCore
