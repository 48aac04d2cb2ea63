import TensorFlowCore.Util.ExampleParsing.Model
import TensorFlowCore.Util.PresizedCuckooMap.Filling

/-!
# The index of the features

`FastParseExample` inserts the hashes of the feature names in a `PresizedCuckooMap`, and where two
of them collide it is to try again with another seed. But the flag that tells of a collision is not
set again for the next round: after a first collision all rounds end with `false`
(`survivesCollisions_iff`).
-/

namespace TensorFlowCore

namespace ExampleParsing

open PresizedCuckooMap

instance : Inhabited Kind := ⟨.sparse⟩

/-- The parser with a `PresizedCuckooMap` for its index, in some memory. What the visited array
holds before it is written to is not read. -/
def cuckooEnv (parseExample : ByteString → Option (List (ByteString × ByteString)))
    (parseList : DataType → ByteString →
      Option (List Value)) (memory : PresizedCuckooMap (ℕ × Kind))
    (loaded : ℕ → UInt64) (hasher : UInt64 → ByteString → UInt64) :
      Env (PresizedCuckooMap (ℕ × Kind)) where
  parseExample := parseExample
  parseList := parseList
  newMap configSize := memory.clear (loaded configSize)
  insertUnique := PresizedCuckooMap.insertUnique
  find := PresizedCuckooMap.find
  hasher := hasher

/-- The seed of a new `SeededHasher`. -/
def firstSeed : UInt64 := 0xDECAFCAFFE

/-- The hash of each feature name, with the position of the feature and its kind. -/
def hashedFeatures (hasher : UInt64 → ByteString → UInt64) (config : Config) (seed : UInt64) :
    List (UInt64 × (ℕ × Kind)) :=
  ((config.dense.map Dense.featureName).zipIdx.map fun f ↦ (hasher seed f.1, (f.2, Kind.dense))) ++
    (config.sparse.map Sparse.featureName).zipIdx.map fun f ↦ (hasher seed f.1, (f.2, Kind.sparse))

/-- The table has the hash of each feature, and no others. -/
structure MapsFeatures (m : PresizedCuckooMap (ℕ × Kind)) (features : List (UInt64 × (ℕ × Kind))) :
    Prop where
  find_eq : ∀ f ∈ features, m.find f.1 = some f.2
  mem_of_find : ∀ (k : Key) (d : ℕ × Kind), m.find k = some d → (k.1, d) ∈ features

section
variable {parseExample : ByteString → Option (List (ByteString × ByteString))}
  {parseList : DataType → ByteString → Option (List Value)} {memory : PresizedCuckooMap (ℕ × Kind)}
  {loaded : ℕ → UInt64} {hasher : UInt64 → ByteString → UInt64} {config : Config} {seed : UInt64}
    {ok : Bool}

theorem insertFeatures_eq :
    insertFeatures (cuckooEnv parseExample parseList memory loaded hasher) config seed ok =
      insertAll (ok, memory.clear (loaded (config.dense.length + config.sparse.length)))
        (hashedFeatures hasher config seed) := by
  rw [insertAll, hashedFeatures, List.foldl_append, List.foldl_map, List.foldl_map]
  rfl

/-! ### One round -/

/-- With this seed there is no collision: the hashes are different, none of them is that of an
unused slot, and all insertions succeed. Then the names are different as well. -/
structure Works (env : Env (PresizedCuckooMap (ℕ × Kind))) (config : Config) (seed : UInt64) :
    Prop where
  nodup : ((hashedFeatures env.hasher config seed).map Prod.fst).Nodup
  ne_unused : ∀ f ∈ hashedFeatures env.hasher config seed, f.1 ≠ kUnusedSlot
  inserted : (insertFeatures env config seed true).1 = true

theorem mapsFeatures_of_insertFeatures
    (hne : ∀ f ∈ hashedFeatures hasher config seed, f.1 ≠ kUnusedSlot)
    (hok : (insertFeatures (cuckooEnv parseExample parseList memory loaded hasher) config seed
      ok).1 = true) :
    ((hashedFeatures hasher config seed).map Prod.fst).Nodup ∧
      MapsFeatures (insertFeatures (cuckooEnv parseExample parseList memory loaded hasher) config
        seed ok).2
        (hashedFeatures hasher config seed) := by
  rw [insertFeatures_eq] at hok ⊢
  obtain ⟨hnodup, -, contents, hholds, hcontents⟩ := Holds.insertAll (holds_clear memory _) hne hok
  refine ⟨hnodup, fun f hf ↦ ?_, fun k d hfind ↦ ?_⟩
  · rw [hholds.find_eq (hne f hf), hcontents]
    exact .inl hf
  · rw [hholds.find_eq k.2, hcontents] at hfind
    exact hfind.resolve_right nofun

/-- A table in which all insertions have succeeded maps the features only if the seed works. -/
theorem works_of_mapsFeatures
    (hok : (insertFeatures (cuckooEnv parseExample parseList memory loaded hasher) config seed
      true).1 = true)
    (hmaps : MapsFeatures (insertFeatures (cuckooEnv parseExample parseList memory loaded hasher)
      config seed true).2
      (hashedFeatures hasher config seed)) :
    Works (cuckooEnv parseExample parseList memory loaded hasher) config seed := by
  have hne : ∀ f ∈ hashedFeatures hasher config seed, f.1 ≠ kUnusedSlot := by
    rintro ⟨k, d⟩ hf rfl
    have hfind := hmaps.find_eq _ hf
    rw [insertFeatures_eq] at hok hfind
    rw [find_kUnusedSlot_insertAll hok hf] at hfind
    cases hfind
  exact ⟨(mapsFeatures_of_insertFeatures hne hok).1, hne, hok⟩

/-! ### The rounds -/

/-- The flag stays `false`. -/
theorem buildConfigIndexFrom_false (rounds : ℕ) (seed : UInt64) :
    buildConfigIndexFrom (cuckooEnv parseExample parseList memory loaded hasher) config rounds seed
    false = none := by
  induction rounds generalizing seed with
  | zero => rfl
  | succ rounds ih =>
    have hfalse : (insertFeatures (cuckooEnv parseExample parseList memory loaded hasher) config
        seed false).1 = false := by
      rw [insertFeatures_eq, ← Bool.not_eq_true]
      exact fun hok ↦ Bool.false_ne_true (of_insertAll hok)
    rw [buildConfigIndexFrom, hfalse]
    exact ih (seed + 1)

/-- The index is that of the first round or none. -/
theorem buildConfigIndexFrom_true (rounds : ℕ) (seed : UInt64) :
    buildConfigIndexFrom (cuckooEnv parseExample parseList memory loaded hasher) config (rounds + 1)
    seed true =
      if (insertFeatures (cuckooEnv parseExample parseList memory loaded hasher) config seed
        true).1 then
        some (seed, (insertFeatures (cuckooEnv parseExample parseList memory loaded hasher) config
          seed true).2)
      else none := by
  rw [buildConfigIndexFrom]
  split
  · rfl
  · next hfalse =>
    rw [Bool.not_eq_true] at hfalse
    rw [hfalse]
    exact buildConfigIndexFrom_false rounds _

theorem buildConfigIndex_eq_ok_iff {m : PresizedCuckooMap (ℕ × Kind)} :
    buildConfigIndex (cuckooEnv parseExample parseList memory loaded hasher) config =
      .ok (seed, m) ↔
      seed = firstSeed ∧
        insertFeatures (cuckooEnv parseExample parseList memory loaded hasher) config firstSeed
        true = (true, m) := by
  have hfrom : buildConfigIndexFrom (cuckooEnv parseExample parseList memory loaded hasher) config
    (999 + 1) firstSeed
      true = _ := buildConfigIndexFrom_true 999 firstSeed
  rw [buildConfigIndex, ← firstSeed, hfrom]
  generalize insertFeatures (cuckooEnv parseExample parseList memory loaded hasher) config firstSeed
    true = r
  obtain ⟨inserted, m'⟩ := r
  cases inserted with
  | true => simp [eq_comm]
  | false => simp

end

/-- Where one of the first 1000 seeds works, the loop ends with `ok`, and with a table that maps
exactly the hashes of the features under the seed that the hasher then has. -/
def SurvivesCollisions (env : Env (PresizedCuckooMap (ℕ × Kind))) (config : Config) : Prop :=
  (∃ i < 1000, Works env config (firstSeed + Nat.toUInt64 i)) →
    ∃ seed m, buildConfigIndex env config = .ok (seed, m) ∧
    MapsFeatures m (hashedFeatures env.hasher config seed)

/-- **The index survives no collision**: it is built if the first seed works. If another one works
only, it is not, since the flag `ok` is not set to `true` again. -/
theorem survivesCollisions_iff (parseExample : ByteString → Option (List (ByteString × ByteString)))
    (parseList : DataType → ByteString → Option (List Value))
    (memory : PresizedCuckooMap (ℕ × Kind)) (loaded : ℕ → UInt64)
    (hasher : UInt64 → ByteString → UInt64) (config : Config) :
    SurvivesCollisions (cuckooEnv parseExample parseList memory loaded hasher) config ↔
      Works (cuckooEnv parseExample parseList memory loaded hasher) config firstSeed ∨
        ∀ i < 1000, ¬Works (cuckooEnv parseExample parseList memory loaded hasher) config
          (firstSeed + Nat.toUInt64 i) := by
  constructor
  · intro hsurvives
    by_cases hsome : ∃ i <
      1000, Works (cuckooEnv parseExample parseList memory loaded hasher) config
        (firstSeed + Nat.toUInt64 i)
    · obtain ⟨seed, m, hindex, hmaps⟩ := hsurvives hsome
      obtain ⟨rfl, hround⟩ := buildConfigIndex_eq_ok_iff.1 hindex
      have hok := congrArg Prod.fst hround
      have htable := congrArg Prod.snd hround
      dsimp only at htable
      rw [← htable] at hmaps
      exact .inl (works_of_mapsFeatures hok hmaps)
    · push Not at hsome
      exact .inr hsome
  · rintro (hworks | hnone) ⟨i, hi, hsome⟩
    · exact ⟨firstSeed, _, buildConfigIndex_eq_ok_iff.2 ⟨rfl, Prod.ext hworks.inserted rfl⟩,
        (mapsFeatures_of_insertFeatures hworks.ne_unused hworks.inserted).2⟩
    · exact absurd hsome (hnone i hi)

/-- Two sparse features whose names have the same `Hash64` under the first seed, but not under the
second. -/
def collidingConfig : Config where
  dense := []
  sparse := [⟨ascii "feature_of_query", DataType.dtInt64⟩,
    ⟨ascii "ipkxqlxtythtcaxf", DataType.dtInt64⟩]

/-- The parser with `Hash64`, and a table of 32 buckets. -/
def collidingEnv : Env (PresizedCuckooMap (ℕ × Kind)) :=
  cuckooEnv (fun _ ↦ none) (fun _ _ ↦ none) ⟨0, fun _ ↦ kUnusedSlot, fun _ ↦ default,
    ⟨fun _ ↦ .blank, 0, 0⟩, fun _ ↦ .blank⟩
    (fun _ ↦ 2) fun seed name ↦ hash64Seeded name seed

theorem not_survivesCollisions : ¬SurvivesCollisions collidingEnv collidingConfig := by
  intro hsurvives
  have hworks : Works collidingEnv collidingConfig (firstSeed + Nat.toUInt64 1) :=
    ⟨by decide +kernel, by decide +kernel, by decide +kernel⟩
  obtain ⟨seed, m, hindex, -⟩ := hsurvives ⟨1, by decide, hworks⟩
  obtain ⟨-, hround⟩ := buildConfigIndex_eq_ok_iff.1 hindex
  have hnodup := (mapsFeatures_of_insertFeatures (by decide +kernel) (congrArg Prod.fst hround)).1
  revert hnodup
  decide +kernel

end ExampleParsing

end TensorFlowCore
