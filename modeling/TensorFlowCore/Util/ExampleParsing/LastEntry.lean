import TensorFlowCore.Support.ExceptPost
import TensorFlowCore.Util.ExampleParsing.ConfigIndex

/-!
# Features that an example has more than once

"The last entry in the map overwrites all the previous ones": the entries are handled from the last
one on, and once a feature has been marked as visited, its other entries are skipped.

Two things are done before the mark is looked at. An empty entry of a dense feature leaves the
feature unmarked, so that an earlier entry counts; and an earlier entry is an error if its type is
not supported (`lastEntryWins_iff`).
-/

namespace TensorFlowCore

open List

namespace ExampleParsing

open DataType ExceptPost

/-- The names of the features of an example with their serialized `Feature`s. -/
abbrev Entries : Type := List (ByteString × ByteString)

/-- For each name, all entries but the last have been deleted. -/
def lastEntries : Entries → Entries
  | [] => []
  | x :: entries =>
    if x.1 ∈ entries.map Prod.fst then lastEntries entries else x :: lastEntries entries

variable {entries : Entries} {x : ByteString × ByteString} {n v v' : ByteString}

theorem mem_lastEntries_cons (h : x ∈ lastEntries entries) (y : ByteString × ByteString) :
    x ∈ lastEntries (y :: entries) := by
  rw [lastEntries]
  split
  · exact h
  · exact mem_cons_of_mem _ h

theorem mem_of_mem_lastEntries (h : x ∈ lastEntries entries) : x ∈ entries := by
  induction entries with
  | nil => exact h
  | cons y entries ih =>
    rw [lastEntries] at h
    split at h
    · exact mem_cons_of_mem _ (ih h)
    · obtain rfl | h := mem_cons.1 h
      · exact mem_cons_self
      · exact mem_cons_of_mem _ (ih h)

theorem exists_mem_lastEntries (h : n ∈ entries.map Prod.fst) :
    ∃ v, (n, v) ∈ lastEntries entries := by
  induction entries with
  | nil => cases h
  | cons y entries ih =>
    by_cases hn : n ∈ entries.map Prod.fst
    · obtain ⟨v, hv⟩ := ih hn
      exact ⟨v, mem_lastEntries_cons hv y⟩
    · obtain rfl := (mem_cons.1 h).resolve_right hn
      refine ⟨y.2, ?_⟩
      rw [lastEntries, if_neg hn]
      exact mem_cons_self

theorem eq_of_mem_lastEntries (h : (n, v) ∈ lastEntries entries)
    (h' : (n, v') ∈ lastEntries entries) : v = v' := by
  induction entries with
  | nil => cases h
  | cons y entries ih =>
    have hname : ∀ {w}, (n, w) ∈ lastEntries entries → n ∈ entries.map Prod.fst := fun hw ↦
      mem_map_of_mem (f := Prod.fst) (mem_of_mem_lastEntries hw)
    rw [lastEntries] at h h'
    split at h
    · next hy =>
      rw [if_pos hy] at h'
      exact ih h h'
    · next hy =>
      rw [if_neg hy] at h'
      obtain heq | hmem := mem_cons.1 h
      · obtain heq' | hmem' := mem_cons.1 h'
        · exact (congrArg Prod.snd heq).trans (congrArg Prod.snd heq').symm
        · exact absurd (congrArg Prod.fst heq ▸ hname hmem') hy
      · obtain heq' | hmem' := mem_cons.1 h'
        · exact absurd (congrArg Prod.fst heq' ▸ hname hmem) hy
        · exact ih hmem hmem'

/-! ## Well-formed features -/

/-- The type of the feature is supported, or it has none. -/
def Readable (feature : ByteString) : Prop := ∃ r, parseDataType feature = .ok r

/-- The feature has a list of its type. -/
def WellFormed (parseList : DataType → ByteString → Option (List Value)) (feature : ByteString) :
    Prop :=
  ∃ dtype payload, parseDataType feature = .ok (dtype, payload) ∧ dtype ≠ dtInvalid ∧
    parseList dtype payload ≠ none

/-- An entry that does not matter if that one is the last of its name. -/
def Negligible (parseList : DataType → ByteString →
    Option (List Value)) (feature last : ByteString) : Prop :=
  if last = [] then feature = [] else WellFormed parseList last → Readable feature

theorem eq_nil_of_parseDataType (h : parseDataType v = .ok (dtInvalid, payload)) : v = [] := by
  cases v with
  | nil => rfl
  | cons tag serialized =>
    rw [parseDataType] at h
    split at h
    · cases h
    split at h
    · cases h
    split at h
    · cases h
    · cases h

variable {M : Type} {env : Env M} {config : Config} {index : UInt64 × M}
    {exampleName : ByteString} {e : ℕ}
  {p p' : Progress} {kind : Kind} {d : ℕ}

/-! ## One entry -/

/-- The name of a feature of the configuration. -/
def Config.nameOf (config : Config) : Kind → ℕ → Option ByteString
  | .dense, d => config.dense[d]?.map Dense.featureName
  | .sparse, d => config.sparse[d]?.map Sparse.featureName

/-- `dense_feature_last_example[d]` or `sparse_feature_last_example[d]`. -/
def Progress.lastExample (p : Progress) : Kind → ℕ → ℤ
  | .dense => p.denseFeatureLastExample
  | .sparse => p.sparseFeatureLastExample

/-- A feature is found under its own name only, not under its hash. -/
theorem nameOf_of_findFeature (h : findFeature env config index n = .ok (some (d, kind))) :
    config.nameOf kind d = some n := by
  rw [findFeature] at h
  split at h
  · cases h
  · next d' kind' _ =>
    have hname : ∀ c, config.nameOf kind' d' = some c →
        (if n = c then some (d', kind') else none) = some (d, kind) →
          config.nameOf kind d = some n := by
      intro c hc heq
      split at heq
      · next hn =>
        cases heq
        rw [hc, hn]
      · cases heq
    cases kind' with
    | dense =>
      dsimp only at h
      split at h
      · cases h
      · next c hc => exact hname c hc (Except.ok.inj h)
    | sparse =>
      dsimp only at h
      split at h
      · cases h
      · next c hc => exact hname c hc (Except.ok.inj h)

theorem handleFeature_of_none (h : findFeature env config index n = .ok none) (p : Progress)
    (v : ByteString) : handleFeature env config index exampleName e p (n, v) = .ok p := by
  rw [handleFeature, h]
  rfl

/-- A feature that has been visited is skipped, if its type is supported. -/
theorem handleFeature_of_marked (h : findFeature env config index n = .ok (some (d, kind)))
    (hv : Readable v) (hmark : p.lastExample kind d = e) :
    handleFeature env config index exampleName e p (n, v) = .ok p := by
  obtain ⟨⟨dtype, payload⟩, hparse⟩ := hv
  rw [handleFeature, h, ok_bind]
  dsimp only
  rw [hparse, ok_bind]
  cases kind with
  | dense =>
    show handleDense env config exampleName e n d dtype payload p = .ok p
    rw [handleDense]
    split
    · rfl
    · exact if_pos hmark
  | sparse => exact if_pos hmark

theorem handleFeature_nil (h : findFeature env config index n = .ok (some (d, .dense)))
    (p : Progress) : handleFeature env config index exampleName e p (n, []) = .ok p := by
  rw [handleFeature, h]
  rfl

/-- What an entry of a dense feature does. -/
theorem of_handleDense {dtype : DataType}
    (h : handleDense env config exampleName e n d dtype payload p = .ok p') :
    (p' = p ∧ (p.denseFeatureLastExample d = e ∨ dtype = dtInvalid)) ∨
      (dtype ≠ dtInvalid ∧ env.parseList dtype payload ≠ none ∧
        p'.denseFeatureLastExample = Function.update p.denseFeatureLastExample d e ∧
        p'.sparseFeatureLastExample = p.sparseFeatureLastExample) := by
  rw [handleDense] at h
  split at h
  · next hinvalid => exact .inl ⟨(Except.ok.inj h).symm, .inr hinvalid⟩
  split at h
  · next hmark => exact .inl ⟨(Except.ok.inj h).symm, .inl hmark⟩
  next hvalid _ =>
  split at h
  · cases h
  split at h
  · cases h
  next hdtype =>
  rw [ne_eq, not_not] at hdtype
  split at h
  · cases h
  next hlist =>
  split at h
  · cases h
  cases h
  rw [hdtype, hlist]
  exact .inr ⟨hdtype ▸ hvalid, nofun, rfl, rfl⟩

/-- What an entry of a sparse feature does. -/
theorem of_handleSparse {dtype : DataType}
    (h : handleSparse env config exampleName e n d dtype payload p = .ok p') :
    (p' = p ∧ p.sparseFeatureLastExample d = e) ∨
      ((dtype ≠ dtInvalid → env.parseList dtype payload ≠ none) ∧
        p'.sparseFeatureLastExample = Function.update p.sparseFeatureLastExample d e ∧
        p'.denseFeatureLastExample = p.denseFeatureLastExample) := by
  rw [handleSparse] at h
  split at h
  · next hmark => exact .inl ⟨(Except.ok.inj h).symm, hmark⟩
  split at h
  · cases h
  split at h
  · cases h
  next c _ hdtype =>
  obtain ⟨values, hvalues, h⟩ := bind_eq_ok_iff.1 h
  cases h
  refine .inr ⟨fun hvalid hnone ↦ ?_, rfl, rfl⟩
  have hc : dtype = c.dtype := by_contra fun hne ↦ hdtype ⟨hvalid, hne⟩
  rw [← hc, sparseValues, if_neg hvalid, hnone] at hvalues
  cases hvalues

/-- What an entry does whose feature the configuration has: it is skipped, or its feature is
visited. -/
theorem of_handleFeature (h : findFeature env config index n = .ok (some (d, kind)))
    (hok : handleFeature env config index exampleName e p (n, v) = .ok p') :
    (p' = p ∧ (p.lastExample kind d = e ∨ kind = .dense ∧ v = [])) ∨
      ((v ≠ [] → WellFormed env.parseList v) ∧
        ∀ kind' d', p'.lastExample kind' d' = if kind' = kind ∧
        d' = d then (e : ℤ) else p.lastExample kind' d') := by
  rw [handleFeature, h, ok_bind] at hok
  obtain ⟨⟨dtype, payload⟩, hparse, hok⟩ := bind_eq_ok_iff.1 hok
  cases kind with
  | dense =>
    obtain ⟨heq, hmark⟩ | ⟨hvalid, hlist, hdense, hsparse⟩ := of_handleDense hok
    · refine .inl ⟨heq, hmark.imp id fun hinvalid ↦ ⟨rfl, ?_⟩⟩
      rw [hinvalid] at hparse
      exact eq_nil_of_parseDataType hparse
    · refine .inr ⟨fun _ ↦ ⟨dtype, payload, hparse, hvalid, hlist⟩, fun kind' d' ↦ ?_⟩
      cases kind' with
      | dense => simp [Progress.lastExample, hdense, Function.update_apply]
      | sparse => simp [Progress.lastExample, hsparse]
  | sparse =>
    obtain ⟨heq, hmark⟩ | ⟨hlist, hsparse, hdense⟩ := of_handleSparse hok
    · exact .inl ⟨heq, .inl hmark⟩
    · refine .inr ⟨fun hv ↦ ?_, fun kind' d' ↦ ?_⟩
      · have hvalid : dtype ≠ dtInvalid :=
          fun hinvalid ↦ hv (eq_nil_of_parseDataType (hinvalid ▸ hparse))
        exact ⟨dtype, payload, hparse, hvalid, hlist hvalid⟩
      · cases kind' with
        | dense => simp [Progress.lastExample, hdense]
        | sparse => simp [Progress.lastExample, hsparse, Function.update_apply]

/-! ## The entries that have been handled -/

/-- What holds after these entries: only their features have been visited, and for each name the
last entry is well formed or empty. It has marked its feature, unless it is the empty entry of a
dense one. -/
structure Handled (env : Env M) (config : Config) (index : UInt64 × M) (e : ℕ) (entries : Entries)
    (p : Progress) :
    Prop where
  visited : ∀ kind d, p.lastExample kind d = e →
    ∃ n ∈ entries.map Prod.fst, config.nameOf kind d = some n
  last : ∀ n v, (n, v) ∈ lastEntries entries → findFeature env config index n = .ok none ∨
    ∃ d kind, findFeature env config index n = .ok (some (d, kind)) ∧
    (v ≠ [] → WellFormed env.parseList v) ∧
      (p.lastExample kind d = e ∨ kind = .dense ∧ v = [])

theorem handled_nil {out : Output} : Handled env config index e [] { out := out } := by
  refine ⟨fun kind d hmark ↦ ?_, nofun⟩
  cases kind with
  | dense =>
    have hcast : (-1 : ℤ) = e := hmark
    omega
  | sparse =>
    have hcast : (-1 : ℤ) = e := hmark
    omega

/-- An entry whose feature has been handled already is skipped, so the last one decides. -/
theorem Handled.handleFeature (h : Handled env config index e entries p)
    (hok : handleFeature env config index exampleName e p x = .ok p') :
    Handled env config index e (x :: entries) p' := by
  obtain ⟨n, v⟩ := x
  cases hfind : findFeature env config index n with
  | error f =>
    rw [ExampleParsing.handleFeature, hfind] at hok
    cases hok
  | ok found =>
    cases found with
    | none =>
      rw [handleFeature_of_none hfind] at hok
      cases hok
      refine ⟨fun kind d hmark ↦ ?_, fun n' v' hmem ↦ ?_⟩
      · obtain ⟨m, hm, hname⟩ := h.visited kind d hmark
        exact ⟨m, mem_cons_of_mem _ hm, hname⟩
      · rw [lastEntries] at hmem
        split at hmem
        · exact h.last n' v' hmem
        · obtain heq | hmem := mem_cons.1 hmem
          · cases heq
            exact .inl hfind
          · exact h.last n' v' hmem
    | some found =>
      obtain ⟨d, kind⟩ := found
      have hspec := of_handleFeature hfind hok
      have hname := nameOf_of_findFeature hfind
      -- marks stay
      have hkeep : ∀ kind' d', p.lastExample kind' d' = e → p'.lastExample kind' d' = e := by
        intro kind' d' hmark
        obtain ⟨rfl, -⟩ | ⟨-, hmarks⟩ := hspec
        · exact hmark
        · rw [hmarks, hmark, ite_self]
      have hold : ∀ n' v', (n', v') ∈ lastEntries entries →
        findFeature env config index n' = .ok none ∨
          ∃ d kind, findFeature env config index n' = .ok (some (d, kind)) ∧
          (v' ≠ [] → WellFormed env.parseList v') ∧
            (p'.lastExample kind d = e ∨ kind = .dense ∧ v' = []) := by
        intro n' v' hmem
        refine (h.last n' v' hmem).imp id ?_
        rintro ⟨d', kind', hfind', hformed, hmark⟩
        exact ⟨d', kind', hfind', hformed, hmark.imp (hkeep kind' d') id⟩
      refine ⟨fun kind' d' hmark ↦ ?_, fun n' v' hmem ↦ ?_⟩
      · by_cases hsame : kind' = kind ∧ d' = d
        · obtain ⟨rfl, rfl⟩ := hsame
          exact ⟨n, mem_cons_self, hname⟩
        · have hmark' : p.lastExample kind' d' = e := by
            obtain ⟨rfl, -⟩ | ⟨-, hmarks⟩ := hspec
            · exact hmark
            · rwa [hmarks, if_neg hsame] at hmark
          obtain ⟨m, hm, hmname⟩ := h.visited kind' d' hmark'
          exact ⟨m, mem_cons_of_mem _ hm, hmname⟩
      · rw [lastEntries] at hmem
        split at hmem
        · exact hold n' v' hmem
        · next hnew =>
          obtain heq | hmem := mem_cons.1 hmem
          · cases heq
            refine .inr ⟨d, kind, hfind, ?_⟩
            obtain ⟨rfl, hmark | hnil⟩ | ⟨hformed, hmarks⟩ := hspec
            · -- another name has not marked the feature
              obtain ⟨m, hm, hmname⟩ := h.visited kind d hmark
              rw [hname] at hmname
              cases hmname
              exact absurd hm hnew
            · exact ⟨fun hv ↦ absurd hnil.2 hv, .inr hnil⟩
            · exact ⟨hformed, .inl (by rw [hmarks, if_pos ⟨rfl, rfl⟩])⟩
          · exact hold n' v' hmem

theorem handled_of_foldlM {out : Output}
    (hok : entries.reverse.foldlM (handleFeature env config index exampleName e) { out := out } =
      .ok p) : Handled env config index e entries p := by
  induction entries generalizing p with
  | nil =>
    cases hok
    exact handled_nil
  | cons x entries ih =>
    rw [reverse_cons, foldlM_append] at hok
    obtain ⟨p', hp', hok⟩ := bind_eq_ok_iff.1 hok
    obtain ⟨p'', hp'', hok⟩ := bind_eq_ok_iff.1 hok
    cases hok
    exact (ih hp').handleFeature hp''

/-! ## Entries that do not matter -/

/-- If the last entry of a name is empty, all are, and if it is well formed, the types of the others
are supported. -/
def Superseded (parseList : DataType → ByteString → Option (List Value)) (entries : Entries) :
    Prop :=
  ∀ n v last, (n, last) ∈ lastEntries entries → (n, v) ∈ entries → Negligible parseList v last

theorem Handled.skip (h : Handled env config index e entries p) (hx : x.1 ∈ entries.map Prod.fst)
    (hsuperseded : Superseded env.parseList (x :: entries)) :
    ExampleParsing.handleFeature env config index exampleName e p x = .ok p := by
  obtain ⟨n, v⟩ := x
  obtain ⟨last, hlast⟩ := exists_mem_lastEntries hx
  have hneg := hsuperseded n v last (mem_lastEntries_cons hlast _) mem_cons_self
  rw [Negligible] at hneg
  obtain hnone | ⟨d, kind, hfind, hformed, hmark⟩ := h.last n last hlast
  · exact handleFeature_of_none hnone p v
  · split at hneg
    · next hnil =>
      rw [hneg]
      obtain hmark | ⟨rfl, -⟩ := hmark
      · exact handleFeature_of_marked hfind ⟨_, rfl⟩ hmark
      · exact handleFeature_nil hfind p
    · next hne =>
      obtain hmark | ⟨-, hnil⟩ := hmark
      · exact handleFeature_of_marked hfind (hneg (hformed hne)) hmark
      · exact absurd hnil hne

theorem foldlM_lastEntries (hsuperseded : Superseded env.parseList entries) (out : Output) :
    entries.reverse.foldlM (handleFeature env config index exampleName e) { out := out } =
      (lastEntries entries).reverse.foldlM (handleFeature env config index exampleName e)
      { out := out } := by
  induction entries with
  | nil => rfl
  | cons x entries ih =>
    have hrest := ih fun n v last hlast hmem ↦
      hsuperseded n v last (mem_lastEntries_cons hlast x) (mem_cons_of_mem x hmem)
    rw [reverse_cons, foldlM_append, lastEntries]
    split
    · next hx =>
      rw [← hrest]
      cases hok : entries.reverse.foldlM (handleFeature env config index exampleName e)
        { out := out } with
      | error f => rfl
      | ok p =>
        rw [ok_bind, foldlM_cons, (handled_of_foldlM hok).skip hx hsuperseded]
        rfl
    · rw [hrest, reverse_cons, foldlM_append]

/-! ## Entries that do -/

/-- For every seeded hash function and every configuration, with its index, the parser gives the
same status and outputs as on the list of the last entries. -/
def LastEntryWins (parseList : DataType → ByteString →
    Option (List Value)) (memory : PresizedCuckooMap (ℕ × Kind))
    (loaded : ℕ → UInt64) (entries : Entries) : Prop :=
  ∀ hasher config index exampleName e serializedExample out,
    buildConfigIndex (cuckooEnv (fun _ ↦ some entries) parseList memory loaded hasher) config =
    .ok index →
      fastParseSerializedExample (cuckooEnv (fun _ ↦ some entries) parseList memory loaded hasher)
      config index
          exampleName e serializedExample out =
        fastParseSerializedExample (cuckooEnv (fun _ ↦ some (lastEntries entries)) parseList memory
          loaded hasher)
          config index exampleName e serializedExample out

section
variable {parseExample : ByteString → Option (List (ByteString × ByteString))}
  {parseList : DataType → ByteString → Option (List Value)} {memory : PresizedCuckooMap (ℕ × Kind)}
  {loaded : ℕ → UInt64} {hasher : UInt64 → ByteString → UInt64} {m : PresizedCuckooMap (ℕ × Kind)}

/-- The index of a configuration with one feature, where all names have the same hash. -/
theorem exists_index_of_one (parseList : DataType → ByteString → Option (List Value))
    (memory : PresizedCuckooMap (ℕ × Kind)) (loaded : ℕ → UInt64) {config : Config} {kind : Kind}
    (hfeature : hashedFeatures (fun _ _ ↦ 0) config firstSeed = [(0, (0, kind))]) :
    ∃ m, (∀ parseExample,
      buildConfigIndex (cuckooEnv parseExample parseList memory loaded fun _ _ ↦ 0) config =
      .ok (firstSeed, m)) ∧ PresizedCuckooMap.find m 0 = some (0, kind) := by
  have zero_ne_unused : (0 : UInt64) ≠ PresizedCuckooMap.kUnusedSlot := by decide
  have hne : ∀ f ∈ hashedFeatures (fun _ _ ↦ 0) config firstSeed, f.1 ≠
      PresizedCuckooMap.kUnusedSlot := by
    rw [hfeature]
    exact forall_mem_singleton.2 zero_ne_unused
  have hok : ∀ parseExample,
      (insertFeatures (cuckooEnv parseExample parseList memory loaded fun _ _ ↦ 0) config firstSeed
      true).1 = true := by
    intro parseExample
    rw [insertFeatures_eq, hfeature]
    exact PresizedCuckooMap.insertUnique_clear memory _ zero_ne_unused _
  have hmaps := (mapsFeatures_of_insertFeatures hne (hok fun _ ↦ none)).2
  refine ⟨_, fun parseExample ↦ ?_,
    hmaps.find_eq (0, (0, kind)) (by rw [hfeature]; exact mem_cons_self)⟩
  rw [buildConfigIndex_eq_ok_iff, insertFeatures_eq, insertFeatures_eq]
  have hinserted := hok parseExample
  rw [insertFeatures_eq] at hinserted
  exact ⟨rfl, Prod.ext hinserted rfl⟩

theorem findFeature_of_one (parseList : DataType → ByteString → Option (List Value))
    (memory : PresizedCuckooMap (ℕ × Kind)) (loaded : ℕ → UInt64) {m : PresizedCuckooMap (ℕ × Kind)}
    {kind : Kind} (hfind : PresizedCuckooMap.find m 0 = some (0, kind))
    (hname : config.nameOf kind 0 = some n)
    (parseExample : ByteString → Option (List (ByteString × ByteString))) (n' : ByteString) :
    findFeature (cuckooEnv parseExample parseList memory loaded fun _ _ ↦ 0) config
    (firstSeed, m) n' =
      .ok (if n' = n then some (0, kind) else none) := by
  have hhash : (cuckooEnv parseExample parseList memory loaded fun _ _ ↦ 0).find (firstSeed, m).2
      ((cuckooEnv parseExample parseList memory loaded fun _ _ ↦ 0).hasher (firstSeed, m).1 n') =
      some (0, kind) := hfind
  rw [findFeature, hhash]
  cases kind with
  | dense =>
    dsimp only
    rw [show config.dense[0]?.map Dense.featureName = some n from hname]
  | sparse =>
    dsimp only
    rw [show config.sparse[0]?.map Sparse.featureName = some n from hname]

end

/-- A dense feature of another type than that of the entry, with a default. -/
def otherDense (n : ByteString) (dtype : DataType) : Dense :=
  if dtype = dtInt64 then ⟨n, dtFloat, [], ⟨dtFloat, [], [.float 0]⟩⟩
  else ⟨n, dtInt64, [], ⟨dtInt64, [], [.int64 0]⟩⟩

theorem featureName_otherDense (n : ByteString) (dtype : DataType) :
    (otherDense n dtype).featureName = n := by
  rw [otherDense]
  split
  · rfl
  · rfl

theorem dtype_otherDense (n : ByteString) (dtype : DataType) :
    dtype ≠ (otherDense n dtype).dtype := by
  rw [otherDense]
  split
  · next heq =>
    rw [heq]
    exact (by decide : dtInt64 ≠ dtFloat)
  · next hne => exact hne

theorem fastParseSerializedExample_eq {parseList : DataType → ByteString → Option (List Value)}
    {memory : PresizedCuckooMap (ℕ × Kind)} {loaded : ℕ → UInt64}
    {hasher : UInt64 → ByteString → UInt64} {index : UInt64 × PresizedCuckooMap (ℕ × Kind)}
    {serializedExample : ByteString} {out : Output} :
    fastParseSerializedExample (cuckooEnv (fun _ ↦ some entries) parseList memory loaded hasher)
    config index exampleName e
        serializedExample out =
      (entries.reverse.foldlM
          (handleFeature (cuckooEnv (fun _ ↦ some entries) parseList memory loaded hasher) config
            index exampleName e)
          { out := out } >>= fun p ↦
        config.dense.zipIdx.foldlM (handleMissingDense exampleName e) p >>= fun p ↦
          .ok ((List.range config.sparse.length).foldl (handleMissingSparse e) p).out) := rfl

/-- An entry of another type than that of the feature is an error. -/
theorem handleFeature_otherDense (exampleName : ByteString) {config : Config} {dtype : DataType}
    (hfind : findFeature env config index n = .ok (some (0, .dense)))
    (hdense : config.dense = [otherDense n dtype]) (hv : v ≠ [])
    (hdtype : ∀ r, parseDataType v = .ok r → r.1 = dtype)
    (hmark : p.denseFeatureLastExample 0 ≠ e) :
    ∃ f, handleFeature env config index exampleName e p (n, v) = .error f := by
  rw [handleFeature, hfind, ok_bind]
  dsimp only
  cases hparse : parseDataType v with
  | error f => exact ⟨f, rfl⟩
  | ok r =>
    obtain ⟨dtype', payload⟩ := r
    obtain rfl : dtype' = dtype := hdtype _ hparse
    have hvalid : dtype' ≠ dtInvalid :=
      fun hinvalid ↦ hv (eq_nil_of_parseDataType (hinvalid ▸ hparse))
    rw [ok_bind]
    rw [handleDense, if_neg hvalid, if_neg hmark, hdense]
    exact ⟨_, if_pos (dtype_otherDense n dtype')⟩

section
variable {parseList : DataType → ByteString →
    Option (List Value)} {memory : PresizedCuckooMap (ℕ × Kind)}
  {loaded : ℕ → UInt64}

/-- If the last entry of a name is empty, an earlier one that is not counts, or is an error. -/
theorem not_lastEntryWins_of_nil (hlast : (n, []) ∈ lastEntries entries) (hv : (n, v) ∈ entries)
    (hne : v ≠ []) : ¬LastEntryWins parseList memory loaded entries := by
  intro hwins
  -- the entry that counts
  obtain ⟨⟨n', w⟩, hw⟩ : ∃ x, entries.reverse.find? (fun x ↦ decide (x.1 = n ∧ x.2 ≠ [])) =
    some x :=
    Option.isSome_iff_exists.1
      (find?_isSome.2 ⟨(n, v), mem_reverse.2 hv, decide_eq_true ⟨rfl, hne⟩⟩)
  obtain ⟨hprop, before, after, hsplit, hbefore⟩ := find?_eq_some_iff_append.1 hw
  obtain ⟨rfl, hwne⟩ := of_decide_eq_true hprop
  obtain ⟨dtype, hdtype⟩ : ∃ dtype, ∀ r, parseDataType w = .ok r → r.1 = dtype := by
    cases parseDataType w with
    | error f => exact ⟨0, nofun⟩
    | ok r => exact ⟨r.1, fun r' hr ↦ by rw [Except.ok.inj hr]⟩
  obtain ⟨config, hconfig⟩ : ∃ config, config = Config.mk [otherDense n' dtype] [] := ⟨_, rfl⟩
  have hname : config.nameOf .dense 0 = some n' := by
    rw [hconfig]
    exact congrArg some (featureName_otherDense n' dtype)
  obtain ⟨m, hindex, hfind⟩ := exists_index_of_one parseList memory loaded
    (show hashedFeatures _ config firstSeed = [(0, (0, .dense))] by rw [hconfig]; rfl)
  have hrun := hwins _ config (firstSeed, m) [] 0 [] {} (hindex _)
  have hfeature := fun parseExample (n : ByteString) ↦
    findFeature_of_one parseList memory loaded hfind hname parseExample n
  -- the other entries change nothing
  have hskip : ∀ x : ByteString × ByteString, ¬(x.1 = n' ∧ x.2 ≠ []) → ∀ parseExample,
      handleFeature (cuckooEnv parseExample parseList memory loaded fun _ _ ↦ 0) config
      (firstSeed, m) [] 0
        { out := {} } x = .ok { out := {} } := by
    rintro ⟨n, v⟩ hx parseExample
    have hfound := hfeature parseExample n
    by_cases hn : n = n'
    · rw [if_pos hn] at hfound
      have hnil : v = [] := by_contra fun hne ↦ hx ⟨hn, hne⟩
      rw [hnil]
      exact handleFeature_nil hfound _
    · rw [if_neg hn] at hfound
      exact handleFeature_of_none hfound _ v
  obtain ⟨f, hf⟩ := handleFeature_otherDense [] (e := 0) (p := { out := {} })
    (by rw [hfeature (fun _ ↦ some entries) n', if_pos rfl]) (by rw [hconfig]) hwne hdtype nofun
  have hfirst : entries.reverse.foldlM
      (handleFeature (cuckooEnv (fun _ ↦ some entries) parseList memory loaded fun _ _ ↦ 0) config
      (firstSeed, m) [] 0)
      { out := {} } = .error f := by
    have hothers : ∀ x ∈ before, ¬(x.1 = n' ∧ x.2 ≠ []) := fun x hx hx' ↦ by
      have hnot := hbefore x hx
      rw [decide_eq_true hx'] at hnot
      cases hnot
    rw [hsplit, foldlM_append, foldlM_eq_self fun x hx ↦ hskip x (hothers x hx) _, ok_bind,
      foldlM_cons, hf]
    rfl
  have hsecond : (lastEntries entries).reverse.foldlM
      (handleFeature (cuckooEnv (fun _ ↦ some (lastEntries entries)) parseList memory loaded fun _
      _ ↦ 0) config
        (firstSeed, m) [] 0) { out := {} } = .ok { out := {} } := by
    refine foldlM_eq_self fun x hx ↦ hskip x (fun hx' ↦ hx'.2 ?_) _
    rw [mem_reverse] at hx
    obtain ⟨rfl, -⟩ := hx'
    exact eq_of_mem_lastEntries hx hlast
  rw [fastParseSerializedExample_eq, fastParseSerializedExample_eq, hfirst, hsecond, hconfig,
    ok_bind] at hrun
  have hdefault : ∃ p, [otherDense n' dtype].zipIdx.foldlM (handleMissingDense [] 0) { out := {} } =
      .ok p := by
    rw [otherDense]
    split
    · exact ⟨_, rfl⟩
    · exact ⟨_, rfl⟩
  obtain ⟨p, hp⟩ := hdefault
  rw [hp] at hrun
  cases hrun

/-- If the last entry of a name is well formed, the type of an earlier one is an error where it is
not supported. -/
theorem not_lastEntryWins_of_not_readable {last : ByteString}
    (hlast : (n, last) ∈ lastEntries entries) (hformed : WellFormed parseList last)
    (hv : (n, v) ∈ entries) (hunreadable : ¬Readable v) :
    ¬LastEntryWins parseList memory loaded entries := by
  intro hwins
  obtain ⟨dtype, payload, hparse, hvalid, hlist⟩ := hformed
  obtain ⟨config, hconfig⟩ : ∃ config, config = Config.mk [] [⟨n, dtype⟩] := ⟨_, rfl⟩
  have hname : config.nameOf .sparse 0 = some n := by
    rw [hconfig]
    rfl
  obtain ⟨m, hindex, hfind⟩ := exists_index_of_one parseList memory loaded
    (show hashedFeatures _ config firstSeed = [(0, (0, .sparse))] by rw [hconfig]; rfl)
  have hrun := hwins _ config (firstSeed, m) [] 0 [] {} (hindex _)
  have hfeature := fun parseExample (n' : ByteString) ↦
    findFeature_of_one parseList memory loaded hfind hname parseExample n'
  -- the earlier entry is an error
  have hfails : ∀ p p', handleFeature (cuckooEnv (fun _ ↦ some entries) parseList memory loaded
    fun _ _ ↦ 0) config
      (firstSeed, m) [] 0 p (n, v) ≠ .ok p' := by
    intro p p' hok
    rw [handleFeature, hfeature, if_pos rfl, ok_bind] at hok
    obtain ⟨r, hr, -⟩ := bind_eq_ok_iff.1 hok
    exact hunreadable ⟨r, hr⟩
  -- the last entries are none
  have hhandled : ∀ p, ∀ x ∈ (lastEntries entries).reverse, ∃ p',
      handleFeature (cuckooEnv (fun _ ↦ some (lastEntries entries)) parseList memory loaded fun _
      _ ↦ 0) config
        (firstSeed, m) [] 0 p x = .ok p' := by
    rintro p ⟨n', w⟩ hx
    have hfound := hfeature (fun _ ↦ some (lastEntries entries)) n'
    by_cases hn : n' = n
    · subst hn
      rw [mem_reverse] at hx
      obtain rfl := eq_of_mem_lastEntries hx hlast
      rw [if_pos rfl] at hfound
      by_cases hmark : p.sparseFeatureLastExample 0 = (0 : ℕ)
      · exact ⟨p, handleFeature_of_marked hfound ⟨_, hparse⟩ hmark⟩
      · obtain ⟨list, hlist⟩ := Option.ne_none_iff_exists'.1 hlist
        rw [handleFeature, hfound, ok_bind]
        dsimp only
        rw [hparse, ok_bind]
        rw [handleSparse, if_neg hmark, hconfig]
        dsimp only [getElem?_cons_zero]
        rw [if_neg (fun h ↦ h.2 rfl), sparseValues, if_neg hvalid,
          show (cuckooEnv (fun _ ↦ some (lastEntries entries)) parseList memory loaded fun _
            _ ↦ 0).parseList dtype payload =
            some list from hlist]
        exact ⟨_, rfl⟩
    · rw [if_neg hn] at hfound
      exact ⟨p, handleFeature_of_none hfound p w⟩
  obtain ⟨p, hp⟩ := exists_foldlM_eq_ok hhandled { out := {} }
  rw [fastParseSerializedExample_eq, fastParseSerializedExample_eq, hp, hconfig] at hrun
  obtain ⟨p', hp', -⟩ := bind_eq_ok_iff.1 hrun
  rw [← hconfig] at hp'
  exact foldlM_ne_ok (mem_reverse.2 hv) hfails _ p' hp'

/-- **The last entry of a feature wins** for all configurations if, for each name, all entries are
empty when the last one is, and when that is well formed the others have supported types. If it is
neither, there is an error anyway. -/
theorem lastEntryWins_iff (parseList : DataType → ByteString → Option (List Value))
    (memory : PresizedCuckooMap (ℕ × Kind)) (loaded : ℕ → UInt64) (entries : Entries) :
    LastEntryWins parseList memory loaded entries ↔ Superseded parseList entries := by
  constructor
  · intro hwins n v last hlast hv
    rw [Negligible]
    split
    · next hnil =>
      subst hnil
      exact by_contra fun hne ↦ not_lastEntryWins_of_nil hlast hv hne hwins
    · exact fun hformed ↦ by_contra fun hunreadable ↦
        not_lastEntryWins_of_not_readable hlast hformed hv hunreadable hwins
  · intro hsuperseded hasher config index exampleName e serializedExample out _
    rw [fastParseSerializedExample_eq, fastParseSerializedExample_eq,
      foldlM_lastEntries hsuperseded]
    rfl

end

/-- The feature `a` with a list of the `int64` 7, and once more without a list. -/
def repeatedFeature : Entries := [(ascii "a", [26, 3, 10, 1, 7]), (ascii "a", [])]

/-- `ParseInt64List` on the list of the `int64` 7. -/
def parseSeven (dtype : DataType) (serialized : ByteString) : Option (List Value) :=
  if dtype = dtInt64 ∧ serialized = [3, 10, 1, 7] then some [.int64 7] else none

/-- The dense feature `a`, with the default 5. -/
def configA : Config where
  dense := [⟨ascii "a", dtInt64, [], ⟨dtInt64, [], [.int64 5]⟩⟩]
  sparse := []

theorem not_lastEntryWins :
    ¬LastEntryWins parseSeven ⟨0, fun _ ↦ PresizedCuckooMap.kUnusedSlot, fun _ ↦ default,
      ⟨fun _ ↦ {}, 0, 0⟩, fun _ ↦ {}⟩
      (fun _ ↦ 1) repeatedFeature := by
  intro hwins
  have hrun := hwins (fun seed name ↦ hash64Seeded name seed) configA
    (firstSeed, (insertFeatures (cuckooEnv (fun _ ↦ some repeatedFeature) parseSeven
      ⟨0, fun _ ↦ PresizedCuckooMap.kUnusedSlot, fun _ ↦ default, ⟨fun _ ↦ {}, 0, 0⟩, fun _ ↦ {}⟩
      (fun _ ↦ 1)
      fun seed name ↦ hash64Seeded name seed) configA firstSeed true).2) [] 0 [] {}
    (buildConfigIndex_eq_ok_iff.2 ⟨rfl, Prod.ext (by decide +kernel) rfl⟩)
  -- 7 is written in the one run, and 5 in the other
  have hwrites := congrArg (fun r ↦ r.toOption.map Output.writes) hrun
  revert hwrites
  decide +kernel

end ExampleParsing

end TensorFlowCore
