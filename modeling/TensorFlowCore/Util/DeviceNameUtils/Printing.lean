import TensorFlowCore.Util.DeviceNameUtils.Grammar

/-!
# Printing device names and reading them back

What `ParsedNameToString` prints is read back when every number has been stored without becoming
negative, and the type is one of the two that have a label of their own
(`parsedNameToString_roundTrip_iff`). `ParseFullName` reads the numbers that fit into an `int`, and
with them every name that `FullName` writes (`parseFullName_numbers_iff`).
-/

namespace TensorFlowCore

open List

namespace DeviceNameUtils

/-! ### Parts for what is printed -/

/-- The number that an `int` is printed as. -/
def Number.ofNat (n : ℕ) (hn : n < 2 ^ 31) : Number where
  digits := decimal n
  ne_nil := decimal_ne_nil n
  isDigit c hc := by
    obtain ⟨hlo, hhi⟩ := mem_decimal hc
    exact decide_eq_true ⟨UInt8.le_iff_toNat_le.2 hlo, UInt8.le_iff_toNat_le.2 hhi⟩
  lt := by
    rw [ofDecimal_decimal]
    omega

theorem Number.value_ofNat {n : ℕ} (hn : n < 2 ^ 31) : (ofNat n hn).value = n := ofDecimal_decimal n

/-- An `int` that is not negative is printed as a number that is stored as itself. -/
theorem exists_number {v : ℤ} (hv : 0 ≤ v ∧ v < 2 ^ 31) :
    ∃ number : Number, number.digits = decimalInt v ∧ int32 number.value = v := by
  have hlt : v.natAbs < 2 ^ 31 := by omega
  refine ⟨Number.ofNat v.natAbs hlt, ?_, ?_⟩
  · rw [decimalInt, if_neg (by omega)]
    rfl
  · rw [Number.value_ofNat, int32_of_lt (by omega) (by omega)]
    omega

/-- An optional component prints as the parts that set it. -/
theorem exists_jobParts {job : Option ByteString} (hjob : ∀ j ∈ job, isJobName j = true) :
    ∃ parts, partsText parts = job.elim [] (ascii "/job:" ++ ·) ∧
      ∀ p : ParsedName, p.job = none → parts.foldl Part.store p = { p with job := job } := by
  cases job with
  | none =>
    refine ⟨[], rfl, fun p hp ↦ ?_⟩
    rw [← hp]
    rfl
  | some j => exact ⟨[.job (some ⟨j, hjob j rfl⟩)], append_nil _, fun p _ ↦ rfl⟩

theorem exists_numberParts {label : ByteString} {part : Option Number → Part}
    {set : ParsedName → Option ℤ → ParsedName}
    (htext : ∀ n, (part (some n)).text = label ++ n.digits)
    (hstore : ∀ p n, (part (some n)).store p = set p (some (int32 n.value)))
    {number : Option ℤ} (hnumber : ∀ v ∈ number, 0 ≤ v ∧ v < 2 ^ 31) :
    ∃ parts, partsText parts = number.elim [] (label ++ decimalInt ·) ∧
      ∀ p, set p none = p → parts.foldl Part.store p = set p number := by
  cases number with
  | none => exact ⟨[], rfl, fun p hp ↦ hp.symm⟩
  | some v =>
    obtain ⟨n, hdigits, hvalue⟩ := exists_number (hnumber v rfl)
    refine ⟨[part (some n)], ?_, fun p _ ↦ ?_⟩
    · rw [partsText_cons, htext, hdigits]
      exact append_nil _
    · rw [foldl_cons, hstore, hvalue]
      rfl

/-- The types that have a label of their own. -/
def labelledTypes : List ByteString := [ascii "CPU", ascii "GPU"]

theorem exists_deviceParts {type : Option ByteString} {id : Option ℤ}
    (htype : ∀ t ∈ type, t ∈ labelledTypes) (hnone : type = none → id = none)
    (hid : ∀ v ∈ id, 0 ≤ v ∧ v < 2 ^ 31) :
    ∃ parts, partsText parts =
        (type.elim [] fun type ↦ ascii "/" ++ type ++ ascii ":" ++ id.elim (ascii "*") decimalInt) ∧
      ∀ p : ParsedName, p.type = none → p.id = none →
        parts.foldl Part.store p = { p with type := type, id := id } := by
  obtain ⟨number, hdigits, hvalue⟩ : ∃ number : Option Number,
      Part.numberText number = id.elim (ascii "*") decimalInt ∧
        (number.map fun n ↦ int32 n.value) = id := by
    cases id with
    | none => exact ⟨none, rfl, rfl⟩
    | some v =>
      obtain ⟨number, hdigits, hvalue⟩ := exists_number (hid v rfl)
      exact ⟨some number, hdigits, by rw [Option.map_some, hvalue]⟩
  cases type with
  | none =>
    refine ⟨[], rfl, fun p htype hid' ↦ ?_⟩
    rw [hnone rfl, ← htype]
    conv_rhs => rw [← hid']
    rfl
  | some t =>
    rw [← hdigits, ← hvalue, Option.elim_some]
    rcases mem_cons.1 (htype t rfl) with rfl | ht
    · refine ⟨[.cpu true number], ?_, fun p _ _ ↦ rfl⟩
      rw [show ascii "/" ++ ascii "CPU" ++ ascii ":" = ascii "/CPU:" by decide]
      exact append_nil _
    · rw [mem_singleton.1 ht]
      refine ⟨[.gpu true number], ?_, fun p _ _ ↦ rfl⟩
      rw [show ascii "/" ++ ascii "GPU" ++ ascii ":" = ascii "/GPU:" by decide]
      exact append_nil _

/-- A name whose components can be printed is read back. -/
theorem parseFullName_parsedNameToString {p : ParsedName} (hjob : ∀ j ∈ p.job, isJobName j = true)
    (hreplica : ∀ v ∈ p.replica, 0 ≤ v ∧ v < 2 ^ 31) (htask : ∀ v ∈ p.task, 0 ≤ v ∧ v < 2 ^ 31)
    (hid : ∀ v ∈ p.id, 0 ≤ v ∧ v < 2 ^ 31) (htype : ∀ t ∈ p.type, t ∈ labelledTypes)
    (hnone : p.type = none → p.id = none) : parseFullName (parsedNameToString p) = some p := by
  obtain ⟨jobs, hjobs, hjobs'⟩ := exists_jobParts hjob
  obtain ⟨replicas, hreplicas, hreplicas'⟩ := @exists_numberParts (ascii "/replica:") Part.replica
    ({ · with replica := · }) (fun _ ↦ rfl) (fun _ _ ↦ rfl) _ hreplica
  obtain ⟨tasks, htasks, htasks'⟩ := @exists_numberParts (ascii "/task:") Part.task
    ({ · with task := · }) (fun _ ↦ rfl) (fun _ _ ↦ rfl) _ htask
  obtain ⟨devices, hdevices, hdevices'⟩ := exists_deviceParts htype hnone hid
  have htext : parsedNameToString p = partsText (jobs ++ replicas ++ tasks ++ devices) := by
    rw [partsText_append, partsText_append, partsText_append, hjobs, hreplicas, htasks, hdevices]
    rfl
  rw [parseFullName_eq_some_iff]
  refine ⟨_, .inr htext, ?_⟩
  rw [Spec.ofParts, ← foldl_store, foldl_append, foldl_append, foldl_append]
  show p = devices.foldl Part.store (tasks.foldl Part.store (replicas.foldl Part.store
    (jobs.foldl Part.store {})))
  rw [hjobs' _ rfl, hreplicas' _ rfl, htasks' _ rfl, hdevices' _ rfl rfl]

/-! ### What cannot be read back -/

/-- The names in a spec are names of jobs and types. -/
theorem ofParts_isJobName (parts : List Part) :
    (∀ j ∈ (Spec.ofParts parts).job, isJobName j = true) ∧
      ∀ t ∈ (Spec.ofParts parts).type, isJobName t = true := by
  induction parts using reverseRecOn with
  | nil =>
    refine ⟨fun j hj ↦ ?_, fun t ht ↦ ?_⟩
    · cases hj
    · cases ht
  | append_singleton parts part ih =>
    have hname : ∀ name : Option Name, ∀ x ∈ name.map (·.1), isJobName x = true :=
      fun name x hx ↦ by
      obtain ⟨n, -, rfl⟩ := Option.map_eq_some_iff.1 hx
      exact n.2
    rw [Spec.ofParts, foldl_append]
    cases part with
    | job name => exact ⟨hname name, ih.2⟩
    | device type id => exact ⟨ih.1, hname type⟩
    | cpu capital id =>
      refine ⟨ih.1, fun t ht ↦ ?_⟩
      cases Option.some.inj ht
      decide
    | gpu capital id =>
      refine ⟨ih.1, fun t ht ↦ ?_⟩
      cases Option.some.inj ht
      decide
    | _ => exact ih

/-- A type comes from a part that names it. -/
theorem exists_part_of_type {t : ByteString} (ht : (Spec.ofParts parts).type = some t) :
    t ∈ labelledTypes ∨ ∃ name id, .device (some name) id ∈ parts ∧ name.1 = t := by
  induction parts using reverseRecOn with
  | nil => cases ht
  | append_singleton parts part ih =>
    have hold : (Spec.ofParts parts).type = some t →
        t ∈ labelledTypes ∨ ∃ name id, .device (some name) id ∈ parts ++ [part] ∧
        name.1 = t := fun h ↦
      (ih h).imp_right fun ⟨name, id, hmem, heq⟩ ↦ ⟨name, id, mem_append_left _ hmem, heq⟩
    rw [Spec.ofParts, foldl_append] at ht
    cases part with
    | device type id =>
      obtain ⟨name, rfl, rfl⟩ := Option.map_eq_some_iff.1 ht
      exact .inr ⟨name, id, mem_append_right _ (mem_singleton_self _), rfl⟩
    | cpu capital id =>
      cases Option.some.inj ht
      exact .inl mem_cons_self
    | gpu capital id =>
      cases Option.some.inj ht
      exact .inl (mem_cons_of_mem _ (mem_singleton_self _))
    | _ => exact hold ht

/-- An id comes from a part about a device. -/
theorem exists_part_of_id {n : ℕ} (hn : (Spec.ofParts parts).id = some n) :
    ∃ part ∈ parts, part.kind ∈ [Kind.device, .cpu, .gpu] := by
  induction parts using reverseRecOn with
  | nil => cases hn
  | append_singleton parts part ih =>
    by_cases hkind : part.kind ∈ [Kind.device, .cpu, .gpu]
    · exact ⟨part, mem_append_right _ (mem_singleton_self _), hkind⟩
    · have hold : (Spec.ofParts parts).id = some n := by
        rw [Spec.ofParts, foldl_append] at hn
        cases part with
        | device => exact absurd (show Kind.device ∈ [Kind.device, .cpu, .gpu] by decide) hkind
        | cpu => exact absurd (show Kind.cpu ∈ [Kind.device, .cpu, .gpu] by decide) hkind
        | gpu => exact absurd (show Kind.gpu ∈ [Kind.device, .cpu, .gpu] by decide) hkind
        | _ => exact hn
      obtain ⟨old, hmem, holdkind⟩ := ih hold
      exact ⟨old, mem_append_left _ hmem, holdkind⟩

/-- Texts are cut at their slashes in one way only. -/
theorem eq_of_flatMap_slash_eq {l l' : List ByteString} (hl : ∀ x ∈ l, (47 : UInt8) ∉ x)
    (hl' : ∀ x ∈ l', (47 : UInt8) ∉ x)
    (h : l.flatMap (fun x ↦ 47 :: x) = l'.flatMap (fun x ↦ 47 :: x)) : l = l' := by
  induction l generalizing l' with
  | nil =>
    cases l' with
    | nil => rfl
    | cons x l' => cases h
  | cons x l ih =>
    cases l' with
    | nil => cases h
    | cons y l' =>
      obtain ⟨hx, hl⟩ := forall_mem_cons.1 hl
      obtain ⟨hy, hl'⟩ := forall_mem_cons.1 hl'
      have hfollows : ∀ l : List ByteString, Follows (l.flatMap fun x ↦ 47 :: x) := fun l ↦ by
        cases l with
        | nil => exact fun c hc ↦ by cases hc
        | cons x l => exact fun c hc ↦ (Option.some.inj hc).symm
      have hcut : ∀ {x : ByteString} {l : List ByteString}, (47 : UInt8) ∉ x →
          (x ++ l.flatMap fun x ↦ 47 :: x).takeWhile (· ≠ 47) = x ∧
            (x ++ l.flatMap fun x ↦ 47 :: x).dropWhile (· ≠ 47) = l.flatMap fun x ↦ 47 :: x :=
        fun {x l} hx ↦ takeWhile_append_of_stop
          (fun c hc ↦ decide_eq_true fun h ↦ hx (h ▸ hc)) fun c hc ↦ by
            rw [hfollows l c hc]
            decide
      have htail : x ++ (l.flatMap fun x ↦ 47 :: x) = y ++ l'.flatMap fun x ↦ 47 :: x :=
        (cons.inj h).2
      have hxy : x = y := by rw [← (hcut (l := l) hx).1, htail, (hcut hy).1]
      rw [hxy, ih hl hl' (by rw [← (hcut (l := l) hx).2, htail, (hcut hy).2])]

/-- What `ParsedNameToString` prints, cut at its slashes. -/
def printedPieces (p : ParsedName) : List ByteString :=
  p.job.elim [] (fun job ↦ [ascii "job:" ++ job]) ++
  p.replica.elim [] (fun replica ↦ [ascii "replica:" ++ decimalInt replica]) ++
  p.task.elim [] (fun task ↦ [ascii "task:" ++ decimalInt task]) ++
  p.type.elim [] fun type ↦ [type ++ ascii ":" ++ p.id.elim (ascii "*") decimalInt]

theorem parsedNameToString_eq (p : ParsedName) :
    parsedNameToString p = (printedPieces p).flatMap fun x ↦ 47 :: x := by
  have helim : ∀ {α : Type} (o : Option α) (f : α → ByteString),
      ((o.elim [] fun x ↦ [f x]).flatMap fun x ↦ 47 :: x) = o.elim [] fun x ↦ 47 :: f x :=
      fun o f ↦ by
    cases o with
    | none => rfl
    | some x => exact append_nil _
  rw [printedPieces, parsedNameToString, flatMap_append, flatMap_append, flatMap_append, helim,
    helim, helim, helim]
  rw [show ascii "/job:" = 47 :: ascii "job:" by decide,
    show ascii "/replica:" = 47 :: ascii "replica:" by decide,
    show ascii "/task:" = 47 :: ascii "task:" by decide]
  rfl

theorem partsText_eq (parts : List Part) :
    partsText parts = (parts.map fun part ↦ (ascii part.label).tail ++ part.body).flatMap
      fun x ↦ 47 :: x := by
  induction parts with
  | nil => rfl
  | cons part parts ih =>
    rw [partsText_cons, part.text_eq.1, ih]
    rfl

theorem mem_printedPieces {p : ParsedName} {x : ByteString} :
    x ∈ printedPieces p ↔
      (∃ j ∈ p.job, x = ascii "job:" ++ j) ∨
      (∃ v ∈ p.replica, x = ascii "replica:" ++ decimalInt v) ∨
        (∃ v ∈ p.task, x = ascii "task:" ++ decimalInt v) ∨
          ∃ t ∈ p.type, x = t ++ ascii ":" ++ p.id.elim (ascii "*") decimalInt := by
  have helim : ∀ {α : Type} (o : Option α) (f : α → ByteString),
      (x ∈ o.elim [] fun y ↦ [f y]) ↔ ∃ y ∈ o, x = f y := fun o f ↦ by
    cases o with
    | none => simp
    | some y => simp
  rw [printedPieces, mem_append, mem_append, mem_append, helim, helim, helim, helim, or_assoc,
    or_assoc]

theorem mem_idText {id : Option ℤ} {c : UInt8} (h : c ∈ id.elim (ascii "*") decimalInt) :
    c = 42 ∨ c = 45 ∨ 48 ≤ c.toNat ∧ c.toNat ≤ 57 := by
  cases id with
  | none => exact .inl (mem_singleton.1 h)
  | some v => exact .inr (mem_decimalInt h)

/-- A name with valid names is printed without further slashes. -/
theorem slash_notMem_printedPieces {p : ParsedName} (hjob : ∀ j ∈ p.job, isJobName j = true)
    (htype : ∀ t ∈ p.type, isJobName t = true) : ∀ x ∈ printedPieces p, (47 : UInt8) ∉ x := by
  have hname : ∀ name, isJobName name = true → (47 : UInt8) ∉ name := fun name h ↦
    Name.notMem ⟨name, h⟩ (by decide) (by decide)
  have hnumber : ∀ v, (47 : UInt8) ∉ decimalInt v := fun v h ↦
    (mem_decimalInt h).elim (by decide) (by decide)
  intro x hx
  rcases mem_printedPieces.1 hx with ⟨j, hj, rfl⟩ | ⟨v, -, rfl⟩ | ⟨v, -, rfl⟩ | ⟨t, ht, rfl⟩
  · rw [mem_append, not_or]
    exact ⟨by decide, hname j (hjob j hj)⟩
  · rw [mem_append, not_or]
    exact ⟨by decide, hnumber v⟩
  · rw [mem_append, not_or]
    exact ⟨by decide, hnumber v⟩
  · rw [mem_append, mem_append, not_or, not_or]
    exact ⟨⟨hname t (htype t ht), by decide⟩, fun h ↦ absurd (mem_idText h) (by decide)⟩

theorem head_eq_of_append_eq {a b s t : ByteString} (ha : a ≠ []) (hb : b ≠ [])
    (h : a ++ s = b ++ t) : a.head? = b.head? := by
  have hhead := congrArg head? h
  rwa [head?_append_of_ne_nil _ ha, head?_append_of_ne_nil _ hb] at hhead

section ReadBack

variable {p : ParsedName} {parts : List Part}
  (hpieces : parts.map (fun part ↦ (ascii part.label).tail ++ part.body) = printedPieces p)
  (hp : p = (Spec.ofParts parts).stored)

include hpieces

/-- There is no sign in a name that is accepted. -/
theorem sign_notMem_printedPieces : ∀ x ∈ printedPieces p, (45 : UInt8) ∉ x := by
  have hlabels : ∀ kind : Kind, ∀ l ∈ kind.labels, (45 : UInt8) ∉ (ascii l).tail := by
    intro kind
    cases kind <;> decide
  rw [← hpieces]
  intro x hx
  obtain ⟨part, -, rfl⟩ := mem_map.1 hx
  rw [mem_append, not_or]
  exact ⟨hlabels _ _ part.label_mem_labels, part.notMem_body (by decide) (by decide)⟩

theorem nonneg_of_mem_printedPieces {v : ℤ} {pre : ByteString}
    (h : pre ++ decimalInt v ∈ printedPieces p) : 0 ≤ v := by
  by_contra hv
  refine sign_notMem_printedPieces hpieces _ h (mem_append_right _ ?_)
  rw [decimalInt, if_pos (by omega)]
  exact mem_cons_self

include hp

/-- An id is not printed without a type. -/
theorem id_eq_none_of_type_eq_none (htype : p.type = none) : p.id = none := by
  by_contra hid
  obtain ⟨v, hv⟩ := Option.ne_none_iff_exists'.1 hid
  rw [hp] at hv
  obtain ⟨n, hn, -⟩ := Option.map_eq_some_iff.1 hv
  obtain ⟨part, hpart, hkind⟩ := exists_part_of_id hn
  have hheads : ∀ kind ∈ [Kind.device, .cpu, .gpu], ∀ l ∈ kind.labels,
      (ascii l).tail.head? ≠ (ascii "job:").head? ∧
      (ascii l).tail.head? ≠ (ascii "replica:").head? ∧
        (ascii l).tail.head? ≠ (ascii "task:").head? := by
    decide
  obtain ⟨hjob, hreplica, htask⟩ := hheads _ hkind _ part.label_mem_labels
  have hlabel := (labels_begin _ _ part.label_mem_labels).2.1
  have hmem : (ascii part.label).tail ++ part.body ∈ printedPieces p :=
    hpieces ▸ mem_map_of_mem hpart
  rcases mem_printedPieces.1 hmem with ⟨j, -, heq⟩ | ⟨v, -, heq⟩ | ⟨v, -, heq⟩ | ⟨t, ht, -⟩
  · exact hjob (head_eq_of_append_eq hlabel (by decide) heq)
  · exact hreplica (head_eq_of_append_eq hlabel (by decide) heq)
  · exact htask (head_eq_of_append_eq hlabel (by decide) heq)
  · rw [htype] at ht
    cases ht

/-- A type without a label of its own is not read back. -/
theorem mem_labelledTypes {t : ByteString} (ht : p.type = some t) : t ∈ labelledTypes := by
  have htype := ht
  rw [hp] at htype
  refine (exists_part_of_type htype).resolve_right ?_
  rintro ⟨name, id, hpart, rfl⟩
  have hmem : ascii "device:" ++ Part.body (.device (some name) id) ∈ printedPieces p := by
    rw [← hpieces, show ascii "device:" = (ascii "/device:").tail by decide]
    exact mem_map_of_mem hpart
  rcases mem_printedPieces.1 hmem with ⟨j, -, heq⟩ | ⟨v, -, heq⟩ | ⟨v, -, heq⟩ | ⟨t, ht', heq⟩
  · exact absurd (head_eq_of_append_eq (by decide) (by decide) heq) (by decide)
  · exact absurd (head_eq_of_append_eq (by decide) (by decide) heq) (by decide)
  · exact absurd (head_eq_of_append_eq (by decide) (by decide) heq) (by decide)
  · -- Up to its first colon the piece is the type, so that the type is `device`.
    cases Option.some.inj (ht.symm.trans ht')
    have hcolon : ∀ s t : ByteString, (58 : UInt8) ∉ s →
        (s ++ (ascii ":" ++ t)).takeWhile (· ≠ 58) = s ∧
          (s ++ (ascii ":" ++ t)).dropWhile (· ≠ 58) = ascii ":" ++ t := fun s t hs ↦
      takeWhile_append_of_stop (fun c hc ↦ decide_eq_true fun h ↦ hs (h ▸ hc)) fun c hc ↦ by
        cases Option.some.inj hc
        decide
    have hname : (58 : UInt8) ∉ name.1 := Name.notMem name (by decide) (by decide)
    rw [show ascii "device:" = ascii "device" ++ ascii ":" by decide, Part.body, append_assoc,
      append_assoc] at heq
    have hdevice : ascii "device" = name.1 := by
      rw [← (hcolon (ascii "device") _ (by decide)).1, heq, (hcolon name.1 _ hname).1]
    have hid := (hcolon (ascii "device") _ (by decide)).2.symm.trans
      ((congrArg (dropWhile (· ≠ 58)) heq).trans (hcolon name.1 _ hname).2)
    have hd : (100 : UInt8) ∈ p.id.elim (ascii "*") decimalInt := by
      rw [← append_cancel_left hid, Part.nameText, Option.elim_some, ← hdevice]
      exact mem_append_left _ (by decide)
    exact absurd (mem_idText hd) (by decide)

end ReadBack

/-! ### The two theorems -/

/-- A spec with numbers that stay, and a type with a label of its own if it has a type or an id. -/
structure Spec.Printable (spec : Spec) : Prop where
  replica : ∀ n ∈ spec.replica, n % 2 ^ 32 < 2 ^ 31
  task : ∀ n ∈ spec.task, n % 2 ^ 32 < 2 ^ 31
  id : ∀ n ∈ spec.id, n % 2 ^ 32 < 2 ^ 31
  type : ∀ t ∈ spec.type, t = ascii "CPU" ∨ t = ascii "GPU"
  id_eq_none : spec.type = none → spec.id = none

/-- A spec whose numbers are those of an `int`. -/
structure Spec.FitsInt (spec : Spec) : Prop where
  replica : ∀ n ∈ spec.replica, n < 2 ^ 31
  task : ∀ n ∈ spec.task, n < 2 ^ 31
  id : ∀ n ∈ spec.id, n < 2 ^ 31

theorem int32_nonneg_iff (n : ℕ) : 0 ≤ int32 n ↔ n % 2 ^ 32 < 2 ^ 31 := by
  rw [int32, Int.bmod]
  split
  · omega
  · omega

theorem int32_eq_self_iff (n : ℕ) : int32 n = n ↔ n < 2 ^ 31 := by
  rw [int32, Int.bmod]
  split
  · omega
  · omega

/-- A name that is read back has numbers and types that can be printed. -/
theorem printable_of_readBack (h : parseFullName (parsedNameToString (Spec.ofParts parts).stored) =
      some (Spec.ofParts parts).stored) : (Spec.ofParts parts).Printable := by
  obtain ⟨hjob, htype⟩ := ofParts_isJobName parts
  obtain ⟨read, hread, hp⟩ := parseFullName_eq_some_iff.1 h
  have hpieces : read.map (fun part ↦ (ascii part.label).tail ++ part.body) =
      printedPieces (Spec.ofParts parts).stored := by
    rcases hread with ⟨hslash, rfl⟩ | htext
    · rw [hp] at hslash
      cases hslash
    · rw [partsText_eq, parsedNameToString_eq] at htext
      refine eq_of_flatMap_slash_eq (fun x hx ↦ ?_) (slash_notMem_printedPieces hjob htype)
        htext.symm
      obtain ⟨part, -, rfl⟩ := mem_map.1 hx
      exact part.text_eq.2.2
  have hstored : ∀ {component : Option ℕ}, ∀ n ∈ component,
      int32 n ∈ component.map fun n : ℕ ↦ int32 n := fun n hn ↦ Option.mem_map_of_mem _ hn
  refine ⟨fun n hn ↦ ?_, fun n hn ↦ ?_, fun n hn ↦ ?_, fun t ht ↦ ?_, fun hnone ↦ ?_⟩
  · exact (int32_nonneg_iff n).1 (nonneg_of_mem_printedPieces hpieces
      (mem_printedPieces.2 (.inr (.inl ⟨_, hstored n hn, rfl⟩))))
  · exact (int32_nonneg_iff n).1 (nonneg_of_mem_printedPieces hpieces
      (mem_printedPieces.2 (.inr (.inr (.inl ⟨_, hstored n hn, rfl⟩)))))
  · cases ht : (Spec.ofParts parts).type with
    | none =>
      have hnone := Option.map_eq_none_iff.1 (id_eq_none_of_type_eq_none hpieces hp ht)
      rw [hnone] at hn
      cases hn
    | some t =>
      have hmem : t ++ ascii ":" ++ (Spec.ofParts parts).stored.id.elim (ascii "*") decimalInt ∈
          printedPieces (Spec.ofParts parts).stored :=
        mem_printedPieces.2 (.inr (.inr (.inr ⟨t, ht, rfl⟩)))
      have hid : (Spec.ofParts parts).stored.id = some (int32 n) := hstored n hn
      rw [hid, Option.elim_some] at hmem
      exact (int32_nonneg_iff n).1 (nonneg_of_mem_printedPieces hpieces hmem)
  · rcases mem_cons.1 (mem_labelledTypes hpieces hp ht) with h | h
    · exact .inl h
    · exact .inr (mem_singleton.1 h)
  · exact Option.map_eq_none_iff.1 (id_eq_none_of_type_eq_none hpieces hp hnone)

theorem readBack_of_printable (h : (Spec.ofParts parts).Printable) :
    parseFullName (parsedNameToString (Spec.ofParts parts).stored) =
      some (Spec.ofParts parts).stored := by
  have hstored : ∀ {component : Option ℕ}, (∀ n ∈ component, n % 2 ^ 32 < 2 ^ 31) →
      ∀ v ∈ component.map fun n : ℕ ↦ int32 n, 0 ≤ v ∧ v < 2 ^ 31 := fun hcomponent v hv ↦ by
    obtain ⟨n, hn, rfl⟩ := Option.map_eq_some_iff.1 hv
    exact ⟨(int32_nonneg_iff n).2 (hcomponent n hn), int32_lt n⟩
  refine parseFullName_parsedNameToString (ofParts_isJobName parts).1 (hstored h.replica)
    (hstored h.task) (hstored h.id) (fun t ht ↦ ?_) fun hnone ↦ ?_
  · rcases h.type t ht with rfl | rfl
    · exact mem_cons_self
    · exact mem_cons_of_mem _ (mem_singleton_self _)
  · exact Option.map_eq_none_iff.2 (h.id_eq_none hnone)

/-- Every accepted name that is printed is read back if and only if what its parts say can be
printed. -/
theorem parsedNameToString_roundTrip_iff (s : ByteString) :
    (∀ p, parseFullName s = some p → parseFullName (parsedNameToString p) = some p) ↔
      ∀ parts, Spells s parts → (Spec.ofParts parts).Printable := by
  constructor
  · intro h parts hparts
    exact printable_of_readBack (h _ (parseFullName_eq_some_iff.2 ⟨parts, hparts, rfl⟩))
  · intro h p hp
    obtain ⟨parts, hparts, rfl⟩ := parseFullName_eq_some_iff.1 hp
    exact readBack_of_printable (h parts hparts)

/-- `/device:FPGA:0` is printed as `/FPGA:0`. -/
theorem not_parsedNameToString_roundTrip : ¬ ∀ s p, parseFullName s = some p →
    parseFullName (parsedNameToString p) = some p := fun h ↦
  absurd (h (ascii "/device:FPGA:0") { type := some (ascii "FPGA"), id := some 0 }
    (by decide +kernel))
    (by decide +kernel)

/-- The numbers that `ParseFullName` returns are the ones that are written in the name. -/
def ReadsNumbers (s : ByteString) : Prop :=
  ∀ p parts, parseFullName s = some p → Spells s parts →
    p.replica = (Spec.ofParts parts).replica.map (↑) ∧ p.task = (Spec.ofParts parts).task.map (↑) ∧
      p.id = (Spec.ofParts parts).id.map (↑)

theorem map_int32_eq_iff (component : Option ℕ) :
    (component.map fun n : ℕ ↦ int32 n) = component.map (↑) ↔ ∀ n ∈ component, n < 2 ^ 31 := by
  cases component with
  | none =>
    refine iff_of_true (by rw [Option.map_none, Option.map_none]) fun n hn ↦ ?_
    cases hn
  | some n =>
    rw [Option.map_some, Option.map_some, Option.some_inj, int32_eq_self_iff]
    exact ⟨fun h m hm ↦ Option.some.inj hm ▸ h, fun h ↦ h n rfl⟩

theorem readsNumbers_iff (s : ByteString) :
    ReadsNumbers s ↔ ∀ parts, Spells s parts → (Spec.ofParts parts).FitsInt := by
  constructor
  · intro h parts hparts
    obtain ⟨hreplica, htask, hid⟩ :=
      h _ parts (parseFullName_eq_some_iff.2 ⟨parts, hparts, rfl⟩) hparts
    exact ⟨(map_int32_eq_iff _).1 hreplica, (map_int32_eq_iff _).1 htask,
      (map_int32_eq_iff _).1 hid⟩
  · intro h p parts hp hparts
    obtain ⟨hreplica, htask, hid⟩ := h parts hparts
    cases Option.some.inj (hp.symm.trans (parseFullName_eq_some_iff.2 ⟨parts, hparts, rfl⟩))
    exact ⟨(map_int32_eq_iff _).2 hreplica, (map_int32_eq_iff _).2 htask,
      (map_int32_eq_iff _).2 hid⟩

/-- A name that `FullName` writes is read back. -/
theorem exists_fullName (job type : Name) {replica task id : ℤ}
    (hreplica : 0 ≤ replica ∧ replica < 2 ^ 31) (htask : 0 ≤ task ∧ task < 2 ^ 31)
    (hid : 0 ≤ id ∧ id < 2 ^ 31) :
    ∃ s, fullName job.1 replica task type.1 id = some s ∧
      parseFullName s = some ⟨some job.1, some replica, some task, some type.1, some id⟩ := by
  obtain ⟨r, hr, hr'⟩ := exists_number hreplica
  obtain ⟨t, ht, ht'⟩ := exists_number htask
  obtain ⟨i, hi, hi'⟩ := exists_number hid
  have htype : type.1 ≠ [] := fun h ↦ by
    have := type.2
    rw [h] at this
    cases this
  refine ⟨_, if_pos ⟨job.2, hreplica.1, htask.1, htype, hid.1⟩, ?_⟩
  refine parseFullName_eq_some_iff.2 ⟨[.job (some job), .replica (some r), .task (some t),
    .device (some type) (some (some i))], .inr ?_, ?_⟩
  · rw [← hr, ← ht, ← hi]
    simp [partsText, Part.text, Part.label, Part.body, Part.nameText, Part.numberText]
  · rw [← hr', ← ht', ← hi']
    rfl

/-- The numbers of a name are read as they are written if and only if they fit into an `int`, and a
name that `FullName` writes is read back. -/
theorem parseFullName_numbers_iff (s : ByteString) :
    (ReadsNumbers s ↔ ∀ parts, Spells s parts → (Spec.ofParts parts).FitsInt) ∧
      ∀ (job type : Name) (replica task id : ℤ), 0 ≤ replica ∧ replica < 2 ^ 31 →
        0 ≤ task ∧ task < 2 ^ 31 → 0 ≤ id ∧ id < 2 ^ 31 →
        ∃ name, fullName job.1 replica task type.1 id = some name ∧
          parseFullName name = some ⟨some job.1, some replica, some task, some type.1, some id⟩ :=
  ⟨readsNumbers_iff s, fun job type _ _ _ hreplica htask hid ↦
    exists_fullName job type hreplica htask hid⟩

/-- `/task:4294967296` is read as `/task:0`. -/
theorem not_readsNumbers : ¬ ∀ s, ReadsNumbers s := by
  intro h
  let n : Number := ⟨ascii "4294967296", by decide, by decide +kernel, by decide +kernel⟩
  have hparse : parseFullName (ascii "/task:4294967296") = some { task := some 0 } := by
    decide +kernel
  have htask := (h _ _ [.task (some n)] hparse (.inr (by decide +kernel))).2.1
  exact absurd htask (by decide)

end DeviceNameUtils

end TensorFlowCore
