import TensorFlowCore.Util.PresizedCuckooMap.Insertion

/-!
# A `PresizedCuckooMap` is a map

Over any sequence of calls `Find` answers with the pairs for which `InsertUnique` has returned
`true`.
-/

namespace TensorFlowCore

open Function List

namespace PresizedCuckooMap

variable {α : Type} {m : PresizedCuckooMap α} {contents : UInt64 → Option α} {k : UInt64}

/-! ### Finding -/

theorem findInBucket_eq_some {b : ℕ} {v : α} (h : m.findInBucket k b = some v) :
    ∃ slot, m.keys (b, slot) = k ∧ m.values (b, slot) = v := by
  obtain ⟨slot, hfind, hvalue⟩ := Option.map_eq_some_iff.1 h
  have hkey := find?_some hfind
  exact ⟨slot, of_decide_eq_true hkey, hvalue⟩

theorem findInBucket_ne_none {b : ℕ} {slot : Fin 4} (h : m.keys (b, slot) = k) :
    m.findInBucket k b ≠ none := by
  rw [findInBucket, Ne, Option.map_eq_none_iff, find?_eq_none]
  exact fun hnone ↦ hnone slot (mem_finRange slot) (decide_eq_true h)

section

variable (h : Holds m contents none) (hk : k ≠ kUnusedSlot)
include h hk

/-- What is found is held. -/
theorem Holds.eq_of_find {v : α} (hv : m.find k = some v) : contents k = some v := by
  have hbucket : ∀ b, m.findInBucket k b = some v → contents k = some v := by
    intro b hb
    obtain ⟨slot, hkey, hvalue⟩ := findInBucket_eq_some hb
    have hplaced := (h.placed (b, slot) nofun (hkey ▸ hk)).2
    rwa [hkey, hvalue] at hplaced
  obtain hb | ⟨-, hb⟩ := Option.or_eq_some_iff.1 hv
  · exact hbucket _ hb
  · exact hbucket _ hb

theorem Holds.find_ne_none {v : α} (hv : contents k = some v) : m.find k ≠ none := by
  obtain ⟨⟨b, slot⟩, -, hkey, -⟩ := h.stored k v hv
  have hplaced := (h.placed (b, slot) nofun (hkey ▸ hk)).1
  rw [hkey] at hplaced
  have hfound := findInBucket_ne_none hkey
  rw [find, keyTransform_of_ne hk, Ne, Option.or_eq_none_iff]
  rintro ⟨hfirst, hsecond⟩
  obtain rfl | rfl := hplaced
  · exact hfound hfirst
  · exact hfound hsecond

theorem Holds.find_eq : m.find k = contents k := by
  cases hfind : m.find k with
  | some v => exact (h.eq_of_find hk hfind).symm
  | none =>
    cases hv : contents k with
    | none => rfl
    | some v => exact absurd hfind (h.find_ne_none hk hv)

end

/-! ### Runs -/

/-- The keys other than `2 ^ 64 - 1`. -/
abbrev Key : Type := { k : UInt64 // k ≠ kUnusedSlot }

inductive Call (α : Type) where
  | insertUnique (k : Key) (v : α)
  | find (k : Key)

/-- The table, and the pairs for which `InsertUnique` has returned `true`. -/
abbrev Run (α : Type) : Type := PresizedCuckooMap α × (UInt64 → Option α)

def exec (s : Run α) : Call α → Run α
  | .insertUnique k v =>
    let (inserted, m) := s.1.insertUnique k v
    (m, if inserted then Function.update s.2 k.1 (some v) else s.2)
  | .find _ => s

/-- The table is a map with these contents. -/
structure BehavesAsMap (m : PresizedCuckooMap α) (contents : UInt64 → Option α) : Prop where
  find_eq : ∀ k : Key, m.find k = contents k
  insertUnique_of_present : ∀ (k : Key) (v : α), contents k ≠ none → m.insertUnique k v = (false, m)
  storedOnce : ∀ c c', m.keys c ≠ kUnusedSlot → m.keys c = m.keys c' → c = c'
  notOverrun : ∀ (k : UInt64) (b1 b2 : ℕ), ∃ r, m.search k b1 b2 = some r ∧ r.search.overrun = false

theorem Holds.behavesAsMap (h : Holds m contents none) : BehavesAsMap m contents where
  find_eq k := h.find_eq k.2
  insertUnique_of_present k v hk := h.insertUnique_of_present k.2 hk v
  storedOnce c c' := h.once c c' nofun nofun
  notOverrun k b1 b2 := by
    obtain ⟨r, hr, hfinds⟩ := search_ends m k b1 b2
    exact ⟨r, hr, hfinds.notOverrun⟩

theorem Holds.exec {s : Run α} (h : Holds s.1 s.2 none) (call : Call α) :
    Holds (exec s call).1 (exec s call).2 none := by
  cases call with
  | insertUnique k v => exact (h.insertUnique k.2 v).2
  | find k => exact h

theorem Holds.foldl_exec {s : Run α} (h : Holds s.1 s.2 none) (calls : List (Call α)) :
    Holds (calls.foldl PresizedCuckooMap.exec s).1 (calls.foldl PresizedCuckooMap.exec s).2
    none := by
  induction calls generalizing s with
  | nil => exact h
  | cons call calls ih => exact ih (h.exec call)

/-- **A `PresizedCuckooMap` behaves as a map** in every run: `Find` answers with what has been
inserted, a key that is present is not inserted again, no key is stored twice, and the arrays of the
path search are not overrun. -/
theorem behavesAsMap_run [Inhabited α] (m : PresizedCuckooMap α) (loaded : UInt64)
    (calls : List (Call α)) :
    BehavesAsMap (calls.foldl exec (m.clear loaded, fun _ ↦ none)).1
      (calls.foldl exec (m.clear loaded, fun _ ↦ none)).2 :=
  (Holds.foldl_exec (holds_clear m loaded) calls).behavesAsMap

end PresizedCuckooMap

/-!
## Filling a `PresizedCuckooMap`

A list of pairs is inserted, one after the other, with a flag that stays `true` as long as all
insertions do. If no key is `2 ^ 64 - 1`, the flag says whether the table holds the list, each key
once (`Holds.insertAll`).

The key `2 ^ 64 - 1` marks the slots that are not used. It can be inserted only where the two
buckets for it are full, and it is not found there (`find_kUnusedSlot_insertAll`).
-/

namespace PresizedCuckooMap

variable {α : Type} {m m' m'' : PresizedCuckooMap α} {contents : UInt64 → Option α} {k : UInt64}
    {v : α} {b1 b2 : ℕ}

/-- The insertions, with the flag before and after them. -/
def insertAll (s : Bool × PresizedCuckooMap α) (entries : List (UInt64 × α)) :
    Bool × PresizedCuckooMap α :=
  entries.foldl (fun s f ↦ (s.1 && (s.2.insertUnique f.1 f.2).1, (s.2.insertUnique f.1 f.2).2)) s

variable {s : Bool × PresizedCuckooMap α} {entries : List (UInt64 × α)}

theorem insertAll_cons (s : Bool × PresizedCuckooMap α) (f : UInt64 × α)
    (entries : List (UInt64 × α)) :
    insertAll s (f :: entries) =
      insertAll (s.1 && (s.2.insertUnique f.1 f.2).1, (s.2.insertUnique f.1 f.2).2) entries := rfl

/-- The flag is not set again. -/
theorem of_insertAll (h : (insertAll s entries).1 = true) : s.1 = true := by
  induction entries generalizing s with
  | nil => exact h
  | cons f entries ih =>
    have hand : (s.1 && (s.2.insertUnique f.1 f.2).1) = true := ih h
    exact (Bool.and_eq_true_iff.1 hand).1

/-- There is room in a new table. -/
theorem insertUnique_clear [Inhabited α] (m : PresizedCuckooMap α) (loaded : UInt64)
    (hk : k ≠ kUnusedSlot) (v : α) : ((m.clear loaded).insertUnique k v).1 = true := by
  rw [insertUnique]
  split
  · next hany =>
    obtain ⟨c, -, hkey⟩ := any_eq_true.1 hany
    exact absurd (of_decide_eq_true hkey).symm hk
  · split
    · rfl
    · next hnone =>
      have hfree := find?_eq_none.1 hnone _ (mem_slotsOf.2 (.inl rfl : (_, (0 : Fin 4)).1 = _ ∨ _))
      exact absurd (decide_eq_true rfl) hfree

/-- **All insertions succeed** only if the keys are different, and then the table holds the list as
well. -/
theorem Holds.insertAll (h : Holds s.2 contents none) (hkeys : ∀ f ∈ entries, f.1 ≠ kUnusedSlot)
    (hok : (insertAll s entries).1 = true) :
    (entries.map Prod.fst).Nodup ∧ (∀ f ∈ entries, contents f.1 = none) ∧
      ∃ contents', Holds (PresizedCuckooMap.insertAll s entries).2 contents' none ∧
        ∀ k v, contents' k = some v ↔ (k, v) ∈ entries ∨ contents k = some v := by
  induction entries generalizing s contents with
  | nil => exact ⟨nodup_nil, nofun, contents, h, fun k v ↦ by simp [not_mem_nil]⟩
  | cons f entries ih =>
    obtain ⟨hf, hentries⟩ := forall_mem_cons.1 hkeys
    rw [insertAll_cons] at hok ⊢
    have hinserted : (s.2.insertUnique f.1 f.2).1 = true :=
      (Bool.and_eq_true_iff.1 (of_insertAll hok)).2
    have hnew : contents f.1 = none := by
      by_contra hpresent
      rw [h.insertUnique_of_present hf hpresent] at hinserted
      cases hinserted
    have hholds := (h.insertUnique hf f.2).2
    rw [if_pos hinserted] at hholds
    obtain ⟨hnodup, hnone, contents', hholds', hcontents'⟩ :=
      ih (s := (s.1 && (s.2.insertUnique f.1 f.2).1, (s.2.insertUnique f.1 f.2).2)) hholds
        hentries hok
    have hne : ∀ g ∈ entries, g.1 ≠ f.1 := fun g hg heq ↦ by
      have hg := hnone g hg
      rw [heq, update_self] at hg
      cases hg
    refine ⟨?_, forall_mem_cons.2 ⟨hnew, fun g hg ↦ ?_⟩, contents', hholds', fun k v ↦ ?_⟩
    · rw [map_cons, nodup_cons]
      refine ⟨fun hmem ↦ ?_, hnodup⟩
      obtain ⟨g, hg, heq⟩ := mem_map.1 hmem
      exact hne g hg heq
    · rw [← hnone g hg, update_of_ne (hne g hg)]
    · rw [hcontents', mem_cons]
      by_cases hk : k = f.1
      · subst hk
        rw [update_self, hnew]
        have hnot : (f.1, v) ∉ entries := fun hmem ↦ hne _ hmem rfl
        simp [hnot, Prod.ext_iff, eq_comm]
      · rw [update_of_ne hk]
        simp [Prod.ext_iff, hk]

/-! ### The key of the slots that are not used -/

/-- Slots have come into use, and none has become free. -/
structure Grows (m m' : PresizedCuckooMap α) : Prop where
  numBuckets : m'.numBuckets = m.numBuckets
  used : ∀ c, m.keys c ≠ kUnusedSlot → m'.keys c ≠ kUnusedSlot

theorem Grows.refl (m : PresizedCuckooMap α) : Grows m m := ⟨rfl, fun _ h ↦ h⟩

theorem Grows.trans (h : Grows m m') (h' : Grows m' m'') : Grows m m'' :=
  ⟨h'.numBuckets.trans h.numBuckets, fun c hc ↦ h'.used c (h.used c hc)⟩

theorem Grows.insertInternal (h : Grows m m') (hk : k ≠ kUnusedSlot) (c : Cell) :
    Grows m (m'.insertInternal k v c) where
  numBuckets := h.numBuckets
  used d hd := by
    rw [keys_insertInternal]
    obtain rfl | hne := eq_or_ne d c
    · rwa [update_self]
    · rw [update_of_ne hne]
      exact h.used d hd

theorem Grows.copyItem (h : Grows m m') {src : Cell} (hsrc : m.keys src ≠ kUnusedSlot)
    (dst : Cell) :
    Grows m (m'.copyItem src dst) where
  numBuckets := h.numBuckets
  used d hd := by
    rw [keys_copyItem]
    obtain rfl | hne := eq_or_ne d dst
    · rw [update_self]
      exact h.used src hsrc
    · rw [update_of_ne hne]
      exact h.used d hd

/-- What is copied are keys, by induction on the rounds. -/
theorem Grows.moveBack {visited : ℕ → CuckooPathEntry} {e : CuckooPathEntry} {slot : Fin 4}
    {n j : ℕ} (hpath : Path m b1 b2 (pathCell visited e slot) n)
    (hdepth : ∀ i ≤ n, (ancestor visited e i).depth + i = n + 1) (hj : j ≤ n) (h : Grows m m')
    (rounds : ℕ) :
    Grows m (PresizedCuckooMap.moveBack visited rounds m' (ancestor visited e j)
      (pathCell visited e slot j).2).1 := by
  induction rounds generalizing j m' with
  | zero => exact h
  | succ rounds ih =>
    have hd := hdepth j hj
    rw [PresizedCuckooMap.moveBack]
    split
    · have hlt : j + 1 ≤ n := by omega
      exact ih hlt (h.copyItem (hpath.full (j + 1) (Nat.succ_pos j) hlt _) _)
    · exact h

theorem keyTransform_ne (k : UInt64) : keyTransform k ≠ kUnusedSlot := by
  rw [keyTransform]
  split
  · next hk =>
    rw [hk]
    decide
  · next hk => exact hk

theorem grows_cuckooInsert (m : PresizedCuckooMap α) (hk : k ≠ kUnusedSlot) (v : α) (b1 b2 : ℕ) :
    Grows m (m.cuckooInsert k v b1 b2).2 := by
  obtain ⟨⟨s, free⟩, hsearch, hfinds⟩ := search_ends m k b1 b2
  have hsame : Grows m { m with cpq := s.cpq, visited := s.visited } := ⟨rfl, fun _ h ↦ h⟩
  rw [cuckooInsert, hsearch]
  cases free with
  | none => exact hsame
  | some found =>
    obtain ⟨e, slot⟩ := found
    exact (Grows.moveBack (j := 0) (hfinds.path rfl) (hfinds.depth_ancestor rfl)
      (Nat.zero_le _) hsame
      e.depth).insertInternal hk _

theorem grows_insertUnique (m : PresizedCuckooMap α) (k : UInt64) (v : α) :
    Grows m (m.insertUnique k v).2 := by
  rw [insertUnique]
  split
  · exact .refl m
  · split
    · exact (Grows.refl m).insertInternal (keyTransform_ne k) _
    · exact grows_cuckooInsert m (keyTransform_ne k) v _ _

theorem grows_insertAll (s : Bool × PresizedCuckooMap α) (entries : List (UInt64 × α)) :
    Grows s.2 (insertAll s entries).2 := by
  induction entries generalizing s with
  | nil => exact .refl s.2
  | cons f entries ih =>
    exact (grows_insertUnique s.2 f.1 f.2).trans
      (ih (s.1 && (s.2.insertUnique f.1 f.2).1, (s.2.insertUnique f.1 f.2).2))

/-- The buckets in which `Find` looks for the key of the slots that are not used have none of
these. -/
def NotFound (m : PresizedCuckooMap α) : Prop :=
  Full m (m.fastMapToBuckets (keyTransform kUnusedSlot)) ∧
    Full m (m.fastMapToBuckets (h2 (keyTransform kUnusedSlot)))

theorem NotFound.grows (h : NotFound m) (hgrows : Grows m m') : NotFound m' := by
  rw [NotFound, fastMapToBuckets, fastMapToBuckets, hgrows.numBuckets]
  exact ⟨fun slot ↦ hgrows.used _ (h.1 slot), fun slot ↦ hgrows.used _ (h.2 slot)⟩

theorem findInBucket_of_full {b : ℕ} (h : Full m b) : m.findInBucket kUnusedSlot b = none := by
  rw [findInBucket, Option.map_eq_none_iff, find?_eq_none]
  exact fun slot _ hkey ↦ h slot (of_decide_eq_true hkey)

theorem NotFound.find_eq (h : NotFound m) : m.find kUnusedSlot = none := by
  rw [find, findInBucket_of_full h.1, findInBucket_of_full h.2]
  rfl

theorem notFound_of_insertUnique (h : (m.insertUnique kUnusedSlot v).1 = true) : NotFound m := by
  rw [insertUnique] at h
  split at h
  · cases h
  · next hany =>
    have hused : ∀ c ∈ slotsOf (m.fastMapToBuckets (keyTransform kUnusedSlot))
        (m.fastMapToBuckets (h2 (keyTransform kUnusedSlot))), m.keys c ≠ kUnusedSlot :=
      fun c hc hkey ↦ hany (any_eq_true.2 ⟨c, hc, decide_eq_true hkey⟩)
    exact ⟨fun slot ↦ hused _ (mem_slotsOf.2 (.inl rfl)),
      fun slot ↦ hused _ (mem_slotsOf.2 (.inr rfl))⟩

/-- The key of the slots that are not used is not found, though it has been inserted. -/
theorem find_kUnusedSlot_insertAll (hok : (insertAll s entries).1 = true)
    (hmem : (kUnusedSlot, v) ∈ entries) : (insertAll s entries).2.find kUnusedSlot = none := by
  suffices hfull : NotFound (insertAll s entries).2 from hfull.find_eq
  induction entries generalizing s with
  | nil => cases hmem
  | cons f entries ih =>
    obtain rfl | hmem := mem_cons.1 hmem
    · rw [insertAll_cons] at hok ⊢
      have hinserted := (Bool.and_eq_true_iff.1 (of_insertAll hok)).2
      exact ((notFound_of_insertUnique hinserted).grows
        (grows_insertUnique s.2 kUnusedSlot v)).grows
        (grows_insertAll (s.1 && (s.2.insertUnique kUnusedSlot v).1,
        (s.2.insertUnique kUnusedSlot v).2) entries)
    · exact ih hok hmem

end PresizedCuckooMap

end TensorFlowCore
