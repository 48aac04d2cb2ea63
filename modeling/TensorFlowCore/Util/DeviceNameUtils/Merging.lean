import TensorFlowCore.Support.Cancelling
import TensorFlowCore.Util.DeviceNameUtils

/-!
# The order in which device specs are merged

Without soft placement the order of the merges does not matter: each component of the result is what
the specs agree on. With soft placement a type or an id that conflicts is cleared, and set again by
the next spec, so that the order does matter for some specs (`mergeAll_perm_iff`).
-/

namespace TensorFlowCore

open List Option

variable {specs : List ParsedName}

namespace DeviceNameUtils

/-- The specs merged in turn, starting from the empty one. -/
def mergeAll (allowSoftPlacement : Bool) (specs : List ParsedName) : Except Status ParsedName :=
  specs.foldlM (fun target other ↦ mergeDevNames target other allowSoftPlacement) {}

/-- The specs give the same outcome in every order: the same merged spec, or a failure. -/
def OrderFree (allowSoftPlacement : Bool) (specs : List ParsedName) : Prop :=
  ∀ specs', specs'.Perm specs →
    (mergeAll allowSoftPlacement specs').toOption = (mergeAll allowSoftPlacement specs).toOption

theorem mergeAll_append_singleton (allow : Bool) (specs : List ParsedName) (other : ParsedName) :
    mergeAll allow (specs ++ [other]) =
      (mergeAll allow specs).bind fun target ↦ mergeDevNames target other allow := by
  simp only [mergeAll, foldlM_append, foldlM_cons, foldlM_nil, bind_pure]
  rfl

/-! ### Components that must agree -/

section Components

variable {β : Type} {f : ParsedName → Option β} {specs specs' : List ParsedName} {v w : Option β}

/-- The value of a component that the specs agree on. -/
structure Agreed (f : ParsedName → Option β) (specs : List ParsedName) (v : Option β) : Prop where
  eq : ∀ spec ∈ specs, f spec = none ∨ f spec = v
  origin : v = none ∨ ∃ spec ∈ specs, f spec = v

theorem Agreed.perm (h : Agreed f specs v) (hperm : specs'.Perm specs) : Agreed f specs' v :=
  ⟨fun spec hspec ↦ h.eq spec (hperm.mem_iff.1 hspec),
    h.origin.imp_right fun ⟨spec, hspec, heq⟩ ↦ ⟨spec, hperm.mem_iff.2 hspec, heq⟩⟩

theorem agreed_nil : Agreed f [] v ↔ v = none :=
  ⟨fun h ↦ h.origin.resolve_right fun ⟨_, hspec, _⟩ ↦ not_mem_nil hspec,
    fun h ↦ ⟨fun _ hspec ↦ absurd hspec not_mem_nil, .inl h⟩⟩

theorem exists_agreed_iff : (∃ v, Agreed f specs v) ↔ Uniform (specs.filterMap f) := by
  constructor
  · rintro ⟨v, hv⟩ x hx y hy
    obtain ⟨a, ha, hax⟩ := mem_filterMap.1 hx
    obtain ⟨b, hb, hby⟩ := mem_filterMap.1 hy
    have hxv : some x = v := hax ▸ (hv.eq a ha).resolve_left (by simp [hax])
    have hyv : some y = v := hby ▸ (hv.eq b hb).resolve_left (by simp [hby])
    exact some.inj (hxv.trans hyv.symm)
  · intro h
    by_cases hnone : ∀ spec ∈ specs, f spec = none
    · exact ⟨none, fun spec hspec ↦ .inl (hnone spec hspec), .inl rfl⟩
    · push Not at hnone
      obtain ⟨spec, hspec, hne⟩ := hnone
      obtain ⟨x, hx⟩ := ne_none_iff_exists'.1 hne
      refine ⟨some x, fun other hother ↦ ?_, .inr ⟨spec, hspec, hx⟩⟩
      cases hy : f other with
      | none => exact .inl rfl
      | some y =>
        exact .inr (congrArg some (h y (mem_filterMap.2 ⟨other, hother, hy⟩) x
          (mem_filterMap.2 ⟨spec, hspec, hx⟩)))

variable [DecidableEq β]

theorem conflicts_eq_false {target other : Option β} :
    conflicts target other = false ↔ target = none ∨ other = none ∨ target = other := by
  rw [conflicts, decide_eq_false_iff_not]
  tauto

/-- One more spec, for a component that must not conflict. -/
theorem agreed_append_singleton {other : ParsedName} :
    Agreed f (specs ++ [other]) v ↔
      ∃ w, Agreed f specs w ∧ conflicts w (f other) = false ∧ v = (f other).or w := by
  have hmem : other ∈ specs ++ [other] := mem_append_right _ (mem_singleton_self _)
  constructor
  · intro h
    have hspecs : ∀ spec ∈ specs, f spec = none ∨ f spec = v := fun spec hspec ↦
      h.eq spec (mem_append_left _ hspec)
    by_cases hnone : ∀ spec ∈ specs, f spec = none
    · refine ⟨none, ⟨fun spec hspec ↦ .inl (hnone spec hspec), .inl rfl⟩,
        conflicts_eq_false.2 (.inl rfl), ?_⟩
      rw [or_none]
      rcases h.origin with rfl | ⟨spec, hspec, rfl⟩
      · exact ((h.eq other hmem).elim id id).symm
      · rcases mem_append.1 hspec with hold | hnew
        · rw [hnone spec hold]
          exact ((h.eq other hmem).elim id (·.trans (hnone spec hold))).symm
        · rw [mem_singleton.1 hnew]
    · push Not at hnone
      obtain ⟨spec, hspec, hne⟩ := hnone
      have hv : f spec = v := (hspecs spec hspec).resolve_left hne
      refine ⟨v, ⟨hspecs, .inr ⟨spec, hspec, hv⟩⟩, conflicts_eq_false.2 ?_, ?_⟩
      · exact .inr ((h.eq other hmem).imp_right Eq.symm)
      · rcases h.eq other hmem with hother | hother
        · rw [hother, none_or]
        · rw [hother, Option.or_self]
  · rintro ⟨w, hw, hconflict, rfl⟩
    have hw' : w = none ∨ f other = none ∨ w = f other := conflicts_eq_false.1 hconflict
    have hor : w = none ∨ w = (f other).or w := by
      rcases hw' with rfl | hother | rfl
      · exact .inl rfl
      · exact .inr (by rw [hother, none_or])
      · exact .inr (by rw [Option.or_self])
    refine ⟨fun spec hspec ↦ ?_, ?_⟩
    · rcases mem_append.1 hspec with hold | hnew
      · rcases hw.eq spec hold with hnone | heq
        · exact .inl hnone
        · exact hor.imp heq.trans heq.trans
      · rw [mem_singleton.1 hnew]
        cases hother : f other with
        | none => exact .inl rfl
        | some y => exact .inr rfl
    · cases hother : f other with
      | none =>
        rw [none_or]
        exact hw.origin.imp_right fun ⟨spec, hspec, heq⟩ ↦
          ⟨spec, mem_append_left _ hspec, heq⟩
      | some y => exact .inr ⟨other, hmem, hother⟩

end Components

/-! ### One merge -/

/-- Nothing conflicts that no placement can change. -/
def Compatible (target other : ParsedName) : Prop :=
  conflicts target.job other.job = false ∧ conflicts target.replica other.replica = false ∧
    conflicts target.task other.task = false

/-- The type and the id after one more merge with soft placement. -/
def settle (kept : Option ByteString × Option ℤ) (other : ParsedName) :
    Option ByteString × Option ℤ :=
  if conflicts kept.1 other.type then (none, none)
  else (other.type.or kept.1, if conflicts kept.2 other.id then none else other.id.or kept.2)

theorem mergeDevNames_eq_ok {target other r : ParsedName} :
    mergeDevNames target other false = .ok r ↔
      Compatible target other ∧ conflicts target.type other.type = false ∧
        conflicts target.id other.id = false ∧
        { job := other.job.or target.job, replica := other.replica.or target.replica,
          task := other.task.or target.task, type := other.type.or target.type,
          id := other.id.or target.id } = r := by
  simp only [mergeDevNames, Compatible, Bool.false_eq_true, if_false]
  split_ifs with hjob hreplica htask htype hid
  · simp [hjob]
  · simp [hreplica]
  · simp [htask]
  · simp [htype]
  · simp [hid]
  · simp [hjob, hreplica, htask, htype, hid]

theorem mergeDevNames_soft_eq_ok {target other r : ParsedName} :
    mergeDevNames target other true = .ok r ↔
      Compatible target other ∧
        { job := other.job.or target.job, replica := other.replica.or target.replica,
          task := other.task.or target.task, type := (settle (target.type, target.id) other).1,
          id := (settle (target.type, target.id) other).2 } = r := by
  simp only [mergeDevNames, Compatible]
  by_cases hjob : conflicts target.job other.job
  · simp [hjob]
  by_cases hreplica : conflicts target.replica other.replica
  · simp [hjob, hreplica]
  by_cases htask : conflicts target.task other.task
  · simp [hjob, hreplica, htask]
  rw [if_neg hjob, if_neg hreplica, if_neg htask]
  rw [Bool.not_eq_true] at hjob hreplica htask
  rw [hjob, hreplica, htask, settle]
  split_ifs with htype hid
  · simp
  · simp
  · simp

/-! ### All merges -/

theorem ok_empty_iff {r : ParsedName} : Except.ok (ε := Status) {} = .ok r ↔
      r.job = none ∧ r.replica = none ∧ r.task = none ∧ r.type = none ∧ r.id = none := by
  obtain ⟨job, replica, task, type, id⟩ := r
  simp [eq_comm]

/-- Without soft placement a component of the result is what the specs agree on. -/
theorem mergeAll_eq_ok {r : ParsedName} : mergeAll false specs = .ok r ↔
      Agreed (·.job) specs r.job ∧ Agreed (·.replica) specs r.replica ∧
        Agreed (·.task) specs r.task ∧ Agreed (·.type) specs r.type ∧ Agreed (·.id) specs r.id := by
  induction specs using reverseRecOn generalizing r with
  | nil =>
    rw [agreed_nil, agreed_nil, agreed_nil, agreed_nil, agreed_nil]
    exact ok_empty_iff
  | append_singleton specs other ih =>
    rw [mergeAll_append_singleton, agreed_append_singleton, agreed_append_singleton,
      agreed_append_singleton, agreed_append_singleton, agreed_append_singleton]
    constructor
    · intro h
      obtain ⟨target, htarget, hmerge⟩ := ExceptPost.bind_eq_ok_iff.1 h
      obtain ⟨hjob, hreplica, htask, htype, hid⟩ := ih.1 htarget
      obtain ⟨⟨hj, hr, ht⟩, hty, hi, rfl⟩ := mergeDevNames_eq_ok.1 hmerge
      exact ⟨⟨_, hjob, hj, rfl⟩, ⟨_, hreplica, hr, rfl⟩, ⟨_, htask, ht, rfl⟩, ⟨_, htype, hty, rfl⟩,
        _, hid, hi, rfl⟩
    · rintro ⟨⟨job, hjob, hj, ejob⟩, ⟨replica, hreplica, hr, ereplica⟩, ⟨task, htask, ht, etask⟩,
        ⟨type, htype, hty, etype⟩, id, hid, hi, eid⟩
      refine ExceptPost.bind_eq_ok_iff.2 ⟨⟨job, replica, task, type, id⟩,
        ih.2 ⟨hjob, hreplica, htask, htype, hid⟩, mergeDevNames_eq_ok.2 ⟨⟨hj, hr, ht⟩, hty, hi, ?_⟩⟩
      rw [← ejob, ← ereplica, ← etask, ← etype, ← eid]

/-- The type and the id that soft placement leaves. -/
def settleAll (specs : List ParsedName) : Option ByteString × Option ℤ :=
  specs.foldl settle (none, none)

theorem settleAll_append_singleton (specs : List ParsedName) (other : ParsedName) :
    settleAll (specs ++ [other]) = settle (settleAll specs) other := by
  rw [settleAll, foldl_append]
  rfl

/-- Jobs, replicas and tasks must agree; type and id give way. -/
theorem mergeAll_soft_eq_ok {r : ParsedName} : mergeAll true specs = .ok r ↔
      Agreed (·.job) specs r.job ∧ Agreed (·.replica) specs r.replica ∧
        Agreed (·.task) specs r.task ∧ (r.type, r.id) = settleAll specs := by
  induction specs using reverseRecOn generalizing r with
  | nil =>
    rw [agreed_nil, agreed_nil, agreed_nil]
    refine ok_empty_iff.trans ?_
    show _ ↔ _ ∧ _ ∧ _ ∧ (r.type, r.id) = (none, none)
    rw [Prod.mk.injEq]
  | append_singleton specs other ih =>
    rw [mergeAll_append_singleton, agreed_append_singleton, agreed_append_singleton,
      agreed_append_singleton, settleAll_append_singleton]
    constructor
    · intro h
      obtain ⟨target, htarget, hmerge⟩ := ExceptPost.bind_eq_ok_iff.1 h
      obtain ⟨hjob, hreplica, htask, hsettle⟩ := ih.1 htarget
      obtain ⟨⟨hj, hr, ht⟩, rfl⟩ := mergeDevNames_soft_eq_ok.1 hmerge
      exact ⟨⟨_, hjob, hj, rfl⟩, ⟨_, hreplica, hr, rfl⟩, ⟨_, htask, ht, rfl⟩, by rw [hsettle]⟩
    · rintro ⟨⟨job, hjob, hj, ejob⟩, ⟨replica, hreplica, hr, ereplica⟩, ⟨task, htask, ht, etask⟩,
        hsettle⟩
      refine ExceptPost.bind_eq_ok_iff.2
        ⟨⟨job, replica, task, (settleAll specs).1, (settleAll specs).2⟩,
        ih.2 ⟨hjob, hreplica, htask, rfl⟩, mergeDevNames_soft_eq_ok.2 ⟨⟨hj, hr, ht⟩, ?_⟩⟩
      rw [← ejob, ← ereplica, ← etask, ← hsettle]

theorem toOption_congr {x y : Except Status ParsedName} (h : ∀ r, x = .ok r ↔ y = .ok r) :
    x.toOption = y.toOption := by
  cases x with
  | ok r => rw [(h r).1 rfl]
  | error e =>
    cases y with
    | ok r => cases (h r).2 rfl
    | error e' => rfl

/-- Without soft placement the order does not matter. -/
theorem orderFree_hard (specs : List ParsedName) : OrderFree false specs := by
  intro specs' hperm
  refine toOption_congr fun r ↦ ?_
  rw [mergeAll_eq_ok, mergeAll_eq_ok]
  constructor
  · rintro ⟨hjob, hreplica, htask, htype, hid⟩
    exact ⟨hjob.perm hperm.symm, hreplica.perm hperm.symm, htask.perm hperm.symm,
      htype.perm hperm.symm, hid.perm hperm.symm⟩
  · rintro ⟨hjob, hreplica, htask, htype, hid⟩
    exact ⟨hjob.perm hperm, hreplica.perm hperm, htask.perm hperm, htype.perm hperm,
      hid.perm hperm⟩

/-- With soft placement the order matters only for the type and the id, and only if nothing else
conflicts. -/
theorem orderFree_soft_iff (specs : List ParsedName) :
    OrderFree true specs ↔
      (Uniform (specs.filterMap (·.job)) ∧ Uniform (specs.filterMap (·.replica)) ∧
          Uniform (specs.filterMap (·.task)) →
        ∀ specs', specs'.Perm specs → settleAll specs' = settleAll specs) := by
  constructor
  · rintro h ⟨hjob, hreplica, htask⟩ specs' hperm
    obtain ⟨job, hjob⟩ := exists_agreed_iff.2 hjob
    obtain ⟨replica, hreplica⟩ := exists_agreed_iff.2 hreplica
    obtain ⟨task, htask⟩ := exists_agreed_iff.2 htask
    have hmerge : mergeAll true specs =
        .ok ⟨job, replica, task, (settleAll specs).1, (settleAll specs).2⟩ :=
      mergeAll_soft_eq_ok.2 ⟨hjob, hreplica, htask, rfl⟩
    have hmerge' : mergeAll true specs' =
        .ok ⟨job, replica, task, (settleAll specs').1, (settleAll specs').2⟩ :=
      mergeAll_soft_eq_ok.2 ⟨hjob.perm hperm, hreplica.perm hperm, htask.perm hperm, rfl⟩
    have heq := h specs' hperm
    rw [hmerge, hmerge'] at heq
    have hname := some.inj heq
    exact Prod.ext (congrArg ParsedName.type hname) (congrArg ParsedName.id hname)
  · intro h specs' hperm
    refine toOption_congr fun r ↦ ?_
    rw [mergeAll_soft_eq_ok, mergeAll_soft_eq_ok]
    constructor
    · rintro ⟨hjob, hreplica, htask, hsettle⟩
      have hjob' := hjob.perm hperm.symm
      have hreplica' := hreplica.perm hperm.symm
      have htask' := htask.perm hperm.symm
      refine ⟨hjob', hreplica', htask', hsettle.trans (h ⟨?_, ?_, ?_⟩ specs' hperm)⟩
      · exact exists_agreed_iff.1 ⟨_, hjob'⟩
      · exact exists_agreed_iff.1 ⟨_, hreplica'⟩
      · exact exists_agreed_iff.1 ⟨_, htask'⟩
    · rintro ⟨hjob, hreplica, htask, hsettle⟩
      refine ⟨hjob.perm hperm, hreplica.perm hperm, htask.perm hperm,
        hsettle.trans (h ⟨?_, ?_, ?_⟩ specs' hperm).symm⟩
      · exact exists_agreed_iff.1 ⟨_, hjob⟩
      · exact exists_agreed_iff.1 ⟨_, hreplica⟩
      · exact exists_agreed_iff.1 ⟨_, htask⟩

/-! ### The type and the id -/

theorem settle_type (kept : Option ByteString × Option ℤ) (other : ParsedName) :
    (settle kept other).1 = other.type.elim kept.1 (cancel kept.1) := by
  obtain ⟨type, id⟩ := kept
  rw [settle]
  rcases htype : other.type with - | t
  · simp [conflicts]
  · rcases type with - | t'
    · rfl
    · by_cases heq : t' = t
      · simp [conflicts, cancel, heq]
      · simp [conflicts, cancel, heq]

theorem settle_id {kept : Option ByteString × Option ℤ} {other : ParsedName}
    (h : conflicts kept.1 other.type = false) :
    (settle kept other).2 = other.id.elim kept.2 (cancel kept.2) := by
  obtain ⟨type, id⟩ := kept
  rw [settle, if_neg (by rw [h]; exact Bool.false_ne_true)]
  rcases hid : other.id with - | i
  · simp [conflicts]
  · rcases id with - | i'
    · rfl
    · by_cases heq : i' = i
      · simp [conflicts, cancel, heq]
      · simp [conflicts, cancel, heq]

theorem filterMap_append_singleton {β : Type} (f : ParsedName → Option β) (specs : List ParsedName)
    (other : ParsedName) :
    (specs ++ [other]).filterMap f = specs.filterMap f ++ (f other).toList := by
  rw [filterMap_append]
  cases h : f other with
  | none => rw [filterMap_cons_none h]; rfl
  | some x => rw [filterMap_cons_some h]; rfl

theorem settleAll_type (specs : List ParsedName) :
    (settleAll specs).1 = cancelAll (specs.filterMap (·.type)) := by
  induction specs using reverseRecOn with
  | nil => rfl
  | append_singleton specs other ih =>
    rw [settleAll_append_singleton, settle_type, filterMap_append_singleton, ih]
    cases other.type with
    | none =>
      rw [toList_none, append_nil]
      rfl
    | some t => exact (cancelAll_append_singleton _ t).symm

/-- The ids are on their own while the types do not conflict. -/
theorem settleAll_id (h : Uniform (specs.filterMap (·.type))) :
    (settleAll specs).2 = cancelAll (specs.filterMap (·.id)) := by
  induction specs using reverseRecOn with
  | nil => rfl
  | append_singleton specs other ih =>
    rw [filterMap_append_singleton] at h
    have hspecs : Uniform (specs.filterMap (·.type)) := fun x hx y hy ↦
      h x (mem_append_left _ hx) y (mem_append_left _ hy)
    have hconflict : conflicts (settleAll specs).1 other.type = false := by
      rw [settleAll_type, conflicts_eq_false]
      cases htype : other.type with
      | none => exact .inr (.inl rfl)
      | some t =>
        cases hkept : cancelAll (specs.filterMap (·.type)) with
        | none => exact .inl rfl
        | some t' =>
          rw [htype] at h
          exact .inr (.inr (congrArg some (h t' (mem_append_left _ (mem_of_cancelAll hkept)) t
            (mem_append_right _ (mem_singleton_self t)))))
    rw [settleAll_append_singleton, settle_id hconflict, filterMap_append_singleton, ih hspecs]
    cases other.id with
    | none =>
      rw [toList_none, append_nil]
      rfl
    | some i => exact (cancelAll_append_singleton _ i).symm

/-- Types that are all different clear one another in pairs, and every time what there is of an
id. -/
theorem foldl_settle_of_nodup (id : Option ℤ)
    (hid : ∀ spec ∈ specs, spec.type = none → spec.id = none)
    (hnodup : (specs.filterMap (·.type)).Nodup) :
    (Even (specs.filterMap (·.type)).length → specs.foldl settle (none, id) =
        (none, if specs.filterMap (·.type) = [] then id else none)) ∧
      (¬ Even (specs.filterMap (·.type)).length →
        ∃ t ∈ specs.filterMap (·.type), (specs.foldl settle (none, id)).1 = some t) := by
  induction specs using reverseRecOn with
  | nil => exact ⟨fun _ ↦ rfl, fun h ↦ absurd Even.zero h⟩
  | append_singleton specs other ih =>
    rw [filterMap_append_singleton] at hnodup ⊢
    obtain ⟨hspecs, -, hne⟩ := nodup_append.1 hnodup
    obtain ⟨heven, hodd⟩ := ih (fun spec hspec ↦ hid spec (mem_append_left _ hspec)) hspecs
    have hother := hid other (mem_append_right _ (mem_singleton_self _))
    rw [foldl_append, foldl_cons, foldl_nil]
    cases htype : other.type with
    | none =>
      -- A spec without a type has no id either, and changes nothing.
      have hsettle : ∀ kept, settle kept other = kept := fun kept ↦ by
        rw [settle, htype, hother htype]
        simp [conflicts]
      rw [toList_none, append_nil, hsettle]
      exact ⟨heven, hodd⟩
    | some t =>
      have hlen : (specs.filterMap (·.type) ++ (some t).toList).length =
          (specs.filterMap (·.type)).length + 1 := length_append
      rw [hlen, Nat.even_add_one, not_not]
      refine ⟨fun h ↦ ?_, fun h ↦ ⟨t, mem_append_right _ (mem_singleton_self t), ?_⟩⟩
      · obtain ⟨t', hmem, hkept⟩ := hodd h
        have hconflict : conflicts (specs.foldl settle (none, id)).1 other.type = true := by
          rw [hkept, htype]
          simpa [conflicts] using hne t' hmem t (by rw [htype]; exact mem_singleton_self t)
        rw [settle, if_pos hconflict, toList_some,
          if_neg (append_ne_nil_of_right_ne_nil _ (cons_ne_nil t []))]
      · rw [settle_type, heven h, htype]
        rfl

/-- After specs without a type, types that clear one another leave nothing. -/
theorem settleAll_append_of_cancels {untyped typed : List ParsedName}
    (huntyped : ∀ spec ∈ untyped, spec.type = none) (htyped : ∀ spec ∈ typed, spec.type ≠ none)
    (hcancels : Cancels (typed.filterMap (·.type))) (hne : typed.filterMap (·.type) ≠ []) :
    settleAll (untyped ++ typed) = (none, none) := by
  have hnone : untyped.filterMap (·.type) = [] := filterMap_eq_nil_iff.2 huntyped
  have htype : (settleAll untyped).1 = none := by
    rw [settleAll_type, hnone]
    rfl
  have hfold := (foldl_settle_of_nodup (settleAll untyped).2
    (fun spec hspec h ↦ absurd h (htyped spec hspec)) hcancels.1).1 hcancels.2
  rw [if_neg hne, ← htype] at hfold
  rw [settleAll, foldl_append]
  exact hfold.trans (by rw [htype])

/-- An id without a type is cleared along with the types that come after it, but stays when it comes
last. -/
theorem exists_orders_of_untyped {spec : ParsedName} (hspec : spec ∈ specs)
    (htype : spec.type = none) (hcancels : Cancels (specs.filterMap (·.type)))
    (hne : specs.filterMap (·.type) ≠ []) :
    ∃ specs₁ specs₂ : List ParsedName, specs₁.Perm specs ∧ specs₂.Perm specs ∧
      settleAll specs₁ = (none, none) ∧ settleAll specs₂ = (none, spec.id) := by
  let untyped := (specs.erase spec).filter fun other ↦ other.type = none
  let typed := (specs.erase spec).filter fun other ↦ !decide (other.type = none)
  have hperm : (spec :: (untyped ++ typed)).Perm specs :=
    ((filter_append_perm _ _).cons spec).trans (perm_cons_erase hspec).symm
  have huntyped : ∀ other ∈ untyped, other.type = none := fun other hother ↦
    of_decide_eq_true (mem_filter.1 hother).2
  have htyped : ∀ other ∈ typed, other.type ≠ none := fun other hother ↦ by
    simpa using (mem_filter.1 hother).2
  have htypes : (typed.filterMap (·.type)).Perm (specs.filterMap (·.type)) := by
    have hfilter := hperm.filterMap (·.type)
    rw [filterMap_cons_none htype, filterMap_append, filterMap_eq_nil_iff.2 huntyped] at hfilter
    exact hfilter
  have hcancels' : Cancels (typed.filterMap (·.type)) :=
    ⟨htypes.nodup_iff.2 hcancels.1, htypes.length_eq ▸ hcancels.2⟩
  have hne' : typed.filterMap (·.type) ≠ [] := fun hnil ↦ hne (by
    rw [hnil] at htypes
    exact nil_perm.1 htypes)
  refine ⟨(spec :: untyped) ++ typed, (untyped ++ typed) ++ [spec], hperm,
    (perm_append_singleton _ _).trans hperm, ?_, ?_⟩
  · exact settleAll_append_of_cancels (forall_mem_cons.2 ⟨htype, huntyped⟩) htyped hcancels' hne'
  · rw [settleAll_append_singleton, settleAll_append_of_cancels huntyped htyped hcancels' hne',
      settle, htype]
    simp [conflicts]

/-- With soft placement the order does not matter for the type and the id if and only if there is
one type at most, and the ids are the same or clear one another, or the types clear one another and
no id comes without a type. -/
theorem settleAll_perm_iff (specs : List ParsedName) :
    (∀ specs', specs'.Perm specs → settleAll specs' = settleAll specs) ↔
      Uniform (specs.filterMap (·.type)) ∧
          (Uniform (specs.filterMap (·.id)) ∨ Cancels (specs.filterMap (·.id))) ∨
        Cancels (specs.filterMap (·.type)) ∧ ∀ spec ∈ specs, spec.type = none → spec.id = none := by
  constructor
  · intro h
    have htypes := (cancelAll_filterMap_perm_iff (·.type) specs).1 fun specs' hperm ↦ by
      rw [← settleAll_type, ← settleAll_type, h specs' hperm]
    by_cases huniform : Uniform (specs.filterMap (·.type))
    · refine .inl ⟨huniform, (cancelAll_filterMap_perm_iff (·.id) specs).1 fun specs' hperm ↦ ?_⟩
      have huniform' : Uniform (specs'.filterMap (·.type)) := fun x hx y hy ↦
        huniform x ((hperm.filterMap _).mem_iff.1 hx) y ((hperm.filterMap _).mem_iff.1 hy)
      rw [← settleAll_id huniform, ← settleAll_id huniform', h specs' hperm]
    · obtain ⟨hnodup, heven⟩ := htypes.resolve_left huniform
      refine .inr ⟨⟨hnodup, heven⟩, fun spec hspec htype ↦ ?_⟩
      by_contra hid
      have hne : specs.filterMap (·.type) ≠ [] := fun hnil ↦ huniform fun x hx ↦ by
        rw [hnil] at hx
        cases hx
      obtain ⟨specs₁, specs₂, hperm₁, hperm₂, hsettle₁, hsettle₂⟩ :=
        exists_orders_of_untyped hspec htype ⟨hnodup, heven⟩ hne
      have heq := (h specs₁ hperm₁).trans (h specs₂ hperm₂).symm
      rw [hsettle₁, hsettle₂] at heq
      exact hid (Prod.mk.inj heq).2.symm
  · rintro (⟨huniform, hids⟩ | ⟨⟨hnodup, heven⟩, hid⟩) specs' hperm
    · have huniform' : Uniform (specs'.filterMap (·.type)) := fun x hx y hy ↦
        huniform x ((hperm.filterMap _).mem_iff.1 hx) y ((hperm.filterMap _).mem_iff.1 hy)
      refine Prod.ext ?_ ?_
      · rw [settleAll_type, settleAll_type]
        exact (cancelAll_perm_iff _).2 (.inl huniform) _ (hperm.filterMap _)
      · rw [settleAll_id huniform, settleAll_id huniform']
        exact (cancelAll_perm_iff _).2 hids _ (hperm.filterMap _)
    · have htypes := hperm.filterMap (·.type)
      have hsettle := (foldl_settle_of_nodup none hid hnodup).1 heven
      have hsettle' := (foldl_settle_of_nodup none
        (fun spec hspec ↦ hid spec (hperm.mem_iff.1 hspec)) (htypes.nodup_iff.2 hnodup)).1
        (htypes.length_eq ▸ heven)
      rw [ite_self] at hsettle hsettle'
      exact hsettle'.trans hsettle.symm

/-- Without soft placement the outcome of merging specs never depends on their order. With soft
placement it does not depend on it if and only if the jobs, the replicas or the tasks conflict, or
the types and the ids can be set and cleared in every order alike: there is one type at most, and
the ids are the same or clear one another in pairs, or the types clear one another in pairs and no
id comes without a type. -/
theorem mergeAll_perm_iff (specs : List ParsedName) :
    OrderFree false specs ∧
      ((∀ allow, OrderFree allow specs) ↔
        (Uniform (specs.filterMap (·.job)) ∧ Uniform (specs.filterMap (·.replica)) ∧
            Uniform (specs.filterMap (·.task)) →
          Uniform (specs.filterMap (·.type)) ∧
              (Uniform (specs.filterMap (·.id)) ∨ Cancels (specs.filterMap (·.id))) ∨
            Cancels (specs.filterMap (·.type)) ∧
              ∀ spec ∈ specs, spec.type = none → spec.id = none)) := by
  refine ⟨orderFree_hard specs, ?_⟩
  rw [Bool.forall_bool, ← settleAll_perm_iff, ← orderFree_soft_iff]
  exact and_iff_right (orderFree_hard specs)

/-- A spec with nothing but an id of a GPU. -/
def gpu (id : ℤ) : ParsedName := { type := some (ascii "GPU"), id := some id }

/-- In `/gpu:0`, `/gpu:1` and `/gpu:1` the last id sets what the one before has cleared. -/
theorem not_orderFree : ¬ ∀ specs allow, OrderFree allow specs := by
  intro h
  have hperm : [gpu 1, gpu 1, gpu 0].Perm [gpu 0, gpu 1, gpu 1] := by decide
  exact absurd (h _ true _ hperm) (by decide)

end DeviceNameUtils

end TensorFlowCore
