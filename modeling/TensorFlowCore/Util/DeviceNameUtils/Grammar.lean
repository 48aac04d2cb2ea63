import TensorFlowCore.Support.PrefixReading
import TensorFlowCore.Util.DeviceNameUtils

/-!
# The grammar of device names

A device name is a sequence of parts in any order, each behind its label, or `/` for the empty one.
`ParseFullName` accepts exactly the names of this grammar, and what it returns is what the parts say
one after the other, with each number stored in an `int` (`parseFullName_eq_some_iff`).
-/

namespace TensorFlowCore

open List Option

namespace DeviceNameUtils

/-! ### Names and numbers -/

/-- The name of a job, or of a type of devices: the two are made of the same bytes. -/
abbrev Name := { name : ByteString // isJobName name = true }

/-- Digits of a number that a `uint64` holds. -/
structure Number where
  digits : ByteString
  ne_nil : digits ≠ []
  isDigit : ∀ c ∈ digits, isDigit c = true
  lt : ofDecimal digits < 2 ^ 64

/-- The number that the digits write. -/
def Number.value (n : Number) : ℕ := ofDecimal n.digits

/-- The digits are read one after the other, and an overflow of the `uint64` is seen. -/
theorem leadingDigits_eq {digits : ByteString} {v : ℕ} (hv : v < 2 ^ 64)
    (hdigits : ∀ c ∈ digits, isDigit c = true) :
    leadingDigits digits v =
      if v * 10 ^ digits.length + ofDecimal digits < 2 ^ 64 then
        some (v * 10 ^ digits.length + ofDecimal digits)
      else none := by
  induction digits generalizing v with
  | nil =>
    rw [leadingDigits, ofDecimal_nil, length_nil, pow_zero, mul_one, add_zero, if_pos hv]
  | cons c digits ih =>
    obtain ⟨hc, hdigits⟩ := forall_mem_cons.1 hdigits
    have hd : c.toNat - 48 < 10 := (digit_eq hc).2
    have hsum : v * 10 ^ (c :: digits).length + ofDecimal (c :: digits) =
        (v * 10 + (c.toNat - 48)) * 10 ^ digits.length + ofDecimal digits := by
      rw [ofDecimal_cons, length_cons, pow_succ]
      ring
    rw [hsum, leadingDigits]
    by_cases hlt : v * 10 + (c.toNat - 48) < 2 ^ 64
    · have hno : ¬ (v * 10 + (c.toNat - 48)) % 2 ^ 64 / 8 < v := by omega
      rw [if_neg hno, Nat.mod_eq_of_lt hlt, ih hlt hdigits]
    · have hoverflow : (v * 10 + (c.toNat - 48)) % 2 ^ 64 / 8 < v := by omega
      have hle : v * 10 + (c.toNat - 48) ≤ (v * 10 + (c.toNat - 48)) * 10 ^ digits.length :=
        Nat.le_mul_of_pos_right _ (by positivity)
      rw [if_pos hoverflow, if_neg (by omega)]

theorem consumeNumber_append (n : Number) (ht : ∀ c ∈ t.head?, isDigit c = false) :
    consumeNumber (n.digits ++ t) = some (int32 n.value, t) := by
  obtain ⟨htake, hdrop⟩ := takeWhile_append_of_stop n.isDigit ht
  rw [consumeNumber, htake, hdrop, if_neg n.ne_nil, leadingDigits_eq (by decide) n.isDigit,
    zero_mul, zero_add, if_pos n.lt]
  rfl

theorem exists_number_of_consumeNumber {v : ℤ} (h : consumeNumber s = some (v, t)) :
    ∃ n : Number, s = n.digits ++ t ∧ v = int32 n.value := by
  have hdigits : ∀ c ∈ s.takeWhile isDigit, isDigit c = true := fun c hc ↦ mem_takeWhile_imp hc
  rw [consumeNumber] at h
  split at h
  · cases h
  · next hne =>
    rw [leadingDigits_eq (by decide) hdigits, zero_mul, zero_add] at h
    split at h
    · next hlt =>
      obtain ⟨rfl, rfl⟩ := Prod.mk.inj (some.inj h)
      exact ⟨⟨_, hne, hdigits, hlt⟩, (takeWhile_append_dropWhile).symm, rfl⟩
    · cases h

/-- A name is read up to a stop that is no byte of a name. -/
theorem consumeName_append (hstops : ∀ c ∈ stops, isAlphaNum c = false ∧ c ≠ 95) (name : Name)
    (ht : ∀ c ∈ t.head?, c ∈ stops) : consumeName stops (name.1 ++ t) = some (name.1, t) := by
  obtain ⟨name, hname⟩ := name
  cases name with
  | nil => cases hname
  | cons c rest =>
    have hname' : isAlpha c = true ∧ ∀ d ∈ rest, isAlphaNum d = true ∨ d = 95 := by
      simpa [isJobName] using hname
    obtain ⟨hc, hrest⟩ := hname'
    have hrest' : ∀ d ∈ rest, decide (d ∉ stops) = true := fun d hd ↦ by
      refine decide_eq_true fun hstop ↦ ?_
      obtain ⟨hnum, hne⟩ := hstops d hstop
      exact (hrest d hd).elim (fun h ↦ by rw [hnum] at h; cases h) hne
    obtain ⟨htake, hdrop⟩ := takeWhile_append_of_stop hrest' fun d hd ↦ by
      simpa using ht d hd
    show consumeName stops (c :: (rest ++ t)) = _
    simp only [consumeName, htake, hdrop]
    refine if_pos ⟨hc, ?_⟩
    simpa using hrest

theorem exists_name_of_consumeName {s x t : ByteString} (h : consumeName stops s = some (x, t)) :
    ∃ name : Name, s = name.1 ++ t ∧ x = name.1 := by
  cases s with
  | nil => cases h
  | cons c rest =>
    simp only [consumeName] at h
    split at h
    · next hname =>
      cases h
      refine ⟨⟨c :: rest.takeWhile fun d ↦ d ∉ stops, ?_⟩, ?_, rfl⟩
      · simpa [isJobName] using hname
      · rw [cons_append, takeWhile_append_dropWhile]
    · cases h

/-! ### Parts -/

/-- A part of a device name; a component without a value is a star, and a device may have no id at
all. -/
inductive Part where
  | job (name : Option Name)
  | replica (number : Option Number)
  | task (number : Option Number)
  | device (type : Option Name) (id : Option (Option Number))
  | cpu (capital : Bool) (id : Option Number)
  | gpu (capital : Bool) (id : Option Number)

/-- What a part is about. -/
inductive Kind where
  | job
  | replica
  | task
  | device
  | cpu
  | gpu
  deriving DecidableEq

/-- The labels of a kind of parts. -/
def Kind.labels : Kind → List String
  | job => ["/job:"]
  | replica => ["/replica:"]
  | task => ["/task:"]
  | device => ["/device:"]
  | cpu => ["/cpu:", "/CPU:"]
  | gpu => ["/gpu:", "/GPU:"]

namespace Part

def kind : Part → Kind
  | job _ => .job
  | replica _ => .replica
  | task _ => .task
  | device _ _ => .device
  | cpu _ _ => .cpu
  | gpu _ _ => .gpu

def label : Part → String
  | job _ => "/job:"
  | replica _ => "/replica:"
  | task _ => "/task:"
  | device _ _ => "/device:"
  | cpu capital _ => if capital then "/CPU:" else "/cpu:"
  | gpu capital _ => if capital then "/GPU:" else "/gpu:"

/-- A name, or a star. -/
def nameText (name : Option Name) : ByteString := name.elim (ascii "*") (·.1)

/-- A number, or a star. -/
def numberText (number : Option Number) : ByteString := number.elim (ascii "*") (·.digits)

/-- What stands behind the label. -/
def body : Part → ByteString
  | job name => nameText name
  | replica number => numberText number
  | task number => numberText number
  | device type id => nameText type ++ id.elim [] (ascii ":" ++ numberText ·)
  | cpu _ id => numberText id
  | gpu _ id => numberText id

def text (part : Part) : ByteString := ascii part.label ++ part.body

end Part

/-- What a device name says, with its numbers as they are written. -/
structure Spec where
  job : Option ByteString := none
  replica : Option ℕ := none
  task : Option ℕ := none
  type : Option ByteString := none
  id : Option ℕ := none

/-- What a device name says after one more part. -/
def Spec.after (spec : Spec) : Part → Spec
  | .job name => { spec with job := name.map (·.1) }
  | .replica number => { spec with replica := number.map (·.value) }
  | .task number => { spec with task := number.map (·.value) }
  | .device type id => { spec with type := type.map (·.1), id := id.elim none (·.map (·.value)) }
  | .cpu _ id => { spec with type := some (ascii "CPU"), id := id.map (·.value) }
  | .gpu _ id => { spec with type := some (ascii "GPU"), id := id.map (·.value) }

/-- What the parts of a device name say. -/
def Spec.ofParts (parts : List Part) : Spec := parts.foldl Spec.after {}

/-- The spec with its numbers stored as an `int`. -/
def Spec.stored (spec : Spec) : ParsedName where
  job := spec.job
  replica := spec.replica.map fun n : ℕ ↦ int32 n
  task := spec.task.map fun n : ℕ ↦ int32 n
  type := spec.type
  id := spec.id.map fun n : ℕ ↦ int32 n

/-- The text of parts in succession. -/
def partsText (parts : List Part) : ByteString := parts.flatMap Part.text

/-- The device name consists of the parts. -/
def Spells (fullname : ByteString) (parts : List Part) : Prop :=
  fullname = ascii "/" ∧ parts = [] ∨ fullname = partsText parts

/-! ### One part -/

theorem consumePrefix_append (pre s : ByteString) : consumePrefix pre (pre ++ s) = some s := by
  rw [consumePrefix, take_left, if_pos rfl, drop_left]

theorem eq_append_of_consumePrefix {pre s t : ByteString} (h : consumePrefix pre s = some t) :
    s = pre ++ t := by
  rw [consumePrefix] at h
  split at h
  · next htake =>
    rw [← some.inj h]
    exact (htake ▸ take_append_drop pre.length s).symm
  · cases h

/-- Texts of which neither begins with the other one are told apart by their beginnings. -/
theorem consumePrefix_append_of_apart {pre pre' : ByteString} (h : ¬ pre <+: pre')
    (h' : ¬ pre' <+: pre) (s : ByteString) : consumePrefix pre (pre' ++ s) = none := by
  rw [consumePrefix, if_neg]
  intro htake
  have hpre : pre <+: pre' ++ s := htake ▸ take_prefix _ _
  have hor := prefix_or_prefix_of_prefix hpre (prefix_append pre' s)
  exact hor.elim h h'

section Components

variable {β : Type} {consume : ByteString → Option (β × ByteString)} {s t : ByteString}

theorem consumeComponent_star (s : ByteString) :
    consumeComponent consume (ascii "*" ++ s) = some (none, s) := by
  rw [consumeComponent, consumePrefix_append]

theorem consumeComponent_of_head {v : β} (hhead : ∀ c ∈ s.head?, c ≠ 42)
    (h : consume s = some (v, t)) : consumeComponent consume s = some (some v, t) := by
  have hstar : consumePrefix (ascii "*") s = none := by
    rw [consumePrefix, if_neg]
    intro htake
    cases s with
    | nil => cases htake
    | cons c s => exact hhead c rfl (cons.inj htake).1
  rw [consumeComponent, hstar, h]
  rfl

theorem consumeComponent_eq_some {v : Option β} (h : consumeComponent consume s = some (v, t)) :
    v = none ∧ s = ascii "*" ++ t ∨ ∃ x, v = some x ∧ consume s = some (x, t) := by
  rw [consumeComponent] at h
  split at h
  · next rest hrest =>
    cases h
    exact .inl ⟨rfl, eq_append_of_consumePrefix hrest⟩
  · obtain ⟨⟨x, rest⟩, hconsume, heq⟩ := map_eq_some_iff.1 h
    cases heq
    exact .inr ⟨x, rfl, hconsume⟩

end Components

/-- What follows a part: nothing, or the label of another one. -/
def Follows (t : ByteString) : Prop := ∀ c ∈ t.head?, c = 47

theorem Number.head_ne_star (n : Number) (t : ByteString) :
    ∀ c ∈ (n.digits ++ t).head?, c ≠ 42 := by
  obtain ⟨c, rest, heq⟩ := exists_cons_of_ne_nil n.ne_nil
  have hdigit := n.isDigit c (heq ▸ mem_cons_self)
  rw [heq]
  rintro d hd rfl
  cases some.inj hd
  exact absurd hdigit (by decide)

theorem Name.head_ne_star (name : Name) (t : ByteString) : ∀ c ∈ (name.1 ++ t).head?, c ≠ 42 := by
  obtain ⟨name, hname⟩ := name
  cases name with
  | nil => cases hname
  | cons c rest =>
    rintro d hd rfl
    cases some.inj hd
    simp only [isJobName, decide_eq_true_eq] at hname
    exact absurd hname.1 (by decide)

theorem numberText_consumed (number : Option Number) (ht : Follows t) :
    consumeComponent consumeNumber (Part.numberText number ++ t) =
      some (number.map fun n ↦ int32 n.value, t) := by
  cases number with
  | none => exact consumeComponent_star t
  | some n =>
    exact consumeComponent_of_head (n.head_ne_star t)
      (consumeNumber_append n fun c hc ↦ by rw [ht c hc]; decide)

theorem exists_numberText {v : Option ℤ} (h : consumeComponent consumeNumber s = some (v, t)) :
    ∃ number, s = Part.numberText number ++ t ∧ v = number.map fun n ↦ int32 n.value := by
  rcases consumeComponent_eq_some h with ⟨hv, hs⟩ | ⟨x, hv, hconsume⟩
  · exact ⟨none, hs, hv⟩
  · obtain ⟨n, hs, hx⟩ := exists_number_of_consumeNumber hconsume
    refine ⟨some n, hs, ?_⟩
    rw [hv, hx, map_some]

theorem nameText_consumed (hstops : ∀ c ∈ stops, isAlphaNum c = false ∧ c ≠ 95) (name : Option Name)
    (ht : ∀ c ∈ t.head?, c ∈ stops) :
    consumeComponent (consumeName stops) (Part.nameText name ++ t) = some (name.map (·.1), t) := by
  cases name with
  | none => exact consumeComponent_star t
  | some name =>
    exact consumeComponent_of_head (Name.head_ne_star name t) (consumeName_append hstops name ht)

theorem exists_nameText {v : Option ByteString}
    (h : consumeComponent (consumeName stops) s = some (v, t)) :
    ∃ name, s = Part.nameText name ++ t ∧ v = name.map (·.1) := by
  rcases consumeComponent_eq_some h with ⟨rfl, rfl⟩ | ⟨x, rfl, hconsume⟩
  · exact ⟨none, rfl, rfl⟩
  · obtain ⟨name, rfl, rfl⟩ := exists_name_of_consumeName hconsume
    exact ⟨some name, rfl, rfl⟩

/-- A type behind its label is read up to the colon of an id, or to the end of the part. -/
theorem device_consumed (type : Option Name) (id : Option (Option Number)) (ht : Follows t) :
    consumeDevice (Part.body (.device type id) ++ t) =
      some ((type.map (·.1), id.elim none (·.map fun n ↦ int32 n.value)), t) := by
  have hstops : ∀ c ∈ [(47 : UInt8), 58], isAlphaNum c = false ∧ c ≠ 95 := by decide +kernel
  cases id with
  | none =>
    have htype := nameText_consumed hstops type fun c hc ↦ by
      rw [ht c hc]
      exact mem_cons_self
    have hcolon : consumePrefix (ascii ":") t = none := by
      rw [consumePrefix, if_neg]
      intro htake
      cases t with
      | nil => cases htake
      | cons c t => exact absurd ((ht c rfl).symm.trans (cons.inj htake).1) (by decide)
    rw [Part.body, elim_none, append_nil, consumeDevice, consumeDeviceType, htype]
    simp only [bind_eq_bind, bind_some, hcolon]
    rfl
  | some number =>
    have htype := nameText_consumed hstops type (t := ascii ":" ++ Part.numberText number ++ t)
      fun c hc ↦ by
        cases some.inj hc
        decide
    have hcolon := consumePrefix_append (ascii ":") (Part.numberText number ++ t)
    rw [Part.body, elim_some, append_assoc, consumeDevice, consumeDeviceType, htype]
    simp only [bind_eq_bind, bind_some, append_assoc, hcolon, numberText_consumed number ht]
    rfl

theorem exists_device {v : Option ByteString × Option ℤ} (h : consumeDevice s = some (v, t)) :
    ∃ type id, s = Part.body (.device type id) ++ t ∧
      v = (type.map (·.1), id.elim none (·.map fun n ↦ int32 n.value)) := by
  rw [consumeDevice, consumeDeviceType] at h
  obtain ⟨⟨x, rest⟩, htype, h⟩ := bind_eq_some_iff.1 h
  obtain ⟨type, rfl, rfl⟩ := exists_nameText htype
  cases hcolon : consumePrefix (ascii ":") rest with
  | none =>
    simp only [hcolon] at h
    cases h
    refine ⟨type, none, ?_, rfl⟩
    rw [Part.body, elim_none, append_nil]
  | some rest' =>
    simp only [hcolon] at h
    obtain ⟨⟨y, rest''⟩, hid, h⟩ := bind_eq_some_iff.1 h
    cases h
    obtain ⟨number, rfl, rfl⟩ := exists_numberText hid
    refine ⟨type, some number, ?_, rfl⟩
    rw [eq_append_of_consumePrefix hcolon, Part.body, elim_some, append_assoc, append_assoc]

/-! ### The parts of a round -/

/-- The step of a round for one kind of parts. -/
def parseKind : Kind → ParsedName × ByteString → Option (ParsedName × ByteString)
  | .job => parseComponent ["/job:"] (consumeComponent consumeJobName) ({ · with job := · })
  | .replica =>
    parseComponent ["/replica:"] (consumeComponent consumeNumber) ({ · with replica := · })
  | .task => parseComponent ["/task:"] (consumeComponent consumeNumber) ({ · with task := · })
  | .device => parseComponent ["/device:"] consumeDevice
      (fun p r ↦ { p with type := r.1, id := r.2 })
  | .cpu => parseComponent ["/cpu:", "/CPU:"] (consumeComponent consumeNumber)
      (fun p id ↦ { p with type := some (ascii "CPU"), id := id })
  | .gpu => parseComponent ["/gpu:", "/GPU:"] (consumeComponent consumeNumber)
      (fun p id ↦ { p with type := some (ascii "GPU"), id := id })

/-- The kinds in the order of a round. -/
def kinds : List Kind := [.job, .replica, .task, .device, .cpu, .gpu]

theorem mem_kinds (kind : Kind) : kind ∈ kinds := by
  cases kind <;> decide

theorem parseRound_eq (p : ParsedName × ByteString) :
    parseRound p = kinds.foldlM (fun p kind ↦ parseKind kind p) p := by
  simp only [kinds, foldlM_cons, foldlM_nil, bind_pure]
  rfl

theorem findLabel_label (part : Part) (s : ByteString) :
    (part.kind.labels.findSome? fun name ↦ consumePrefix (ascii name) (ascii part.label ++ s)) =
      some s := by
  have hcpu : consumePrefix (ascii "/cpu:") (ascii "/CPU:" ++ s) = none :=
    consumePrefix_append_of_apart (by decide) (by decide) s
  have hgpu : consumePrefix (ascii "/gpu:") (ascii "/GPU:" ++ s) = none :=
    consumePrefix_append_of_apart (by decide) (by decide) s
  cases part with
  | cpu capital id =>
    cases capital with
    | false => simp only [Part.kind, Kind.labels, Part.label, findSome?_cons, consumePrefix_append,
        Bool.false_eq_true, if_false]
    | true => simp only [Part.kind, Kind.labels, Part.label, findSome?_cons, consumePrefix_append,
        if_true, hcpu]
  | gpu capital id =>
    cases capital with
    | false => simp only [Part.kind, Kind.labels, Part.label, findSome?_cons, consumePrefix_append,
        Bool.false_eq_true, if_false]
    | true => simp only [Part.kind, Kind.labels, Part.label, findSome?_cons, consumePrefix_append,
        if_true, hgpu]
  | _ => simp only [Part.kind, Kind.labels, Part.label, findSome?_cons, consumePrefix_append]

theorem Part.label_mem_labels (part : Part) : part.label ∈ part.kind.labels := by
  cases part with
  | cpu capital id => cases capital <;> simp [label, kind, Kind.labels]
  | gpu capital id => cases capital <;> simp [label, kind, Kind.labels]
  | _ => exact mem_singleton_self _

/-- No label begins a label of another kind. -/
theorem labels_apart : ∀ kind kind' : Kind, kind ≠ kind' →
    ∀ l ∈ kind.labels, ∀ l' ∈ kind'.labels, ¬ ascii l <+: ascii l' := by
  intro kind kind' hne
  cases kind <;> cases kind' <;> first | exact absurd rfl hne | decide

theorem findLabel_of_kind_ne {part : Part} {kind : Kind} (h : part.kind ≠ kind) (s : ByteString) :
    (kind.labels.findSome? fun name ↦ consumePrefix (ascii name) (ascii part.label ++ s)) =
      none := by
  refine findSome?_eq_none_iff.2 fun name hname ↦ ?_
  have hlabel := part.label_mem_labels
  exact consumePrefix_append_of_apart (labels_apart _ _ h.symm _ hname _ hlabel)
    (labels_apart _ _ h _ hlabel _ hname) s

/-- The components after one more part. -/
def Part.store (p : ParsedName) : Part → ParsedName
  | .job name => { p with job := name.map (·.1) }
  | .replica number => { p with replica := number.map fun n ↦ int32 n.value }
  | .task number => { p with task := number.map fun n ↦ int32 n.value }
  | .device type id =>
    { p with type := type.map (·.1), id := id.elim none (·.map fun n ↦ int32 n.value) }
  | .cpu _ id => { p with type := some (ascii "CPU"), id := id.map fun n ↦ int32 n.value }
  | .gpu _ id => { p with type := some (ascii "GPU"), id := id.map fun n ↦ int32 n.value }

section Components

variable {β : Type} {names : List String} {parse : ByteString → Option (β × ByteString)}
  {set : ParsedName → β → ParsedName} {p q : ParsedName} {s t rest : ByteString}

theorem parseComponent_of_find {v : β}
    (hfind : (names.findSome? fun name ↦ consumePrefix (ascii name) s) = some rest)
    (hparse : parse rest = some (v, t)) :
    parseComponent names parse set (p, s) = some (set p v, t) := by
  rw [parseComponent, hfind]
  show (parse rest).map _ = _
  rw [hparse]
  rfl

theorem parseComponent_of_find_none
    (hfind : (names.findSome? fun name ↦ consumePrefix (ascii name) s) = none) :
    parseComponent names parse set (p, s) = some (p, s) := by
  rw [parseComponent, hfind]

theorem parseComponent_eq_some (h : parseComponent names parse set (p, s) = some (q, t)) :
    q = p ∧ t = s ∨ ∃ name ∈ names, ∃ rest v, s = ascii name ++ rest ∧ parse rest = some (v, t) ∧
      q = set p v := by
  rw [parseComponent] at h
  split at h
  · cases h
    exact .inl ⟨rfl, rfl⟩
  · next rest hfind =>
    obtain ⟨name, hname, hprefix⟩ := exists_of_findSome?_eq_some hfind
    obtain ⟨⟨v, rest'⟩, hparse, heq⟩ := map_eq_some_iff.1 h
    cases heq
    exact .inr ⟨name, hname, rest, v, eq_append_of_consumePrefix hprefix, hparse, rfl⟩

end Components

/-- The step for its kind takes a part. -/
theorem parseKind_text (part : Part) (p : ParsedName) (ht : Follows t) :
    parseKind part.kind (p, part.text ++ t) = some (part.store p, t) := by
  have hjob : ∀ c ∈ [(47 : UInt8)], isAlphaNum c = false ∧ c ≠ 95 := by decide +kernel
  have hfind := findLabel_label part (part.body ++ t)
  rw [Part.text, append_assoc]
  cases part with
  | job name =>
    rw [Part.kind, parseKind]
    exact parseComponent_of_find hfind (nameText_consumed hjob name fun c hc ↦ by
      rw [ht c hc]
      exact mem_cons_self)
  | device type id =>
    rw [Part.kind, parseKind]
    exact parseComponent_of_find hfind (device_consumed type id ht)
  | _ =>
    rw [Part.kind, parseKind]
    exact parseComponent_of_find hfind (numberText_consumed _ ht)

/-- The other steps leave it alone. -/
theorem parseKind_of_kind_ne {part : Part} {kind : Kind} (h : part.kind ≠ kind) (p : ParsedName)
    (t : ByteString) : parseKind kind (p, part.text ++ t) = some (p, part.text ++ t) := by
  have hfind := findLabel_of_kind_ne h (part.body ++ t)
  rw [Part.text, append_assoc]
  cases kind <;> rw [parseKind] <;> exact parseComponent_of_find_none hfind

theorem parseKind_nil (kind : Kind) (p : ParsedName) : parseKind kind (p, []) = some (p, []) := by
  cases kind <;> rfl

/-- A step takes nothing, or one part. -/
theorem exists_part_of_parseKind {kind : Kind} {p q : ParsedName}
    (h : parseKind kind (p, s) = some (q, t)) :
    q = p ∧ t = s ∨ ∃ part : Part, s = part.text ++ t ∧ q = part.store p := by
  cases kind
  all_goals
    rw [parseKind] at h
    refine (parseComponent_eq_some h).imp_right ?_
    rintro ⟨name, hname, rest, v, rfl, hparse, rfl⟩
  case job =>
    obtain ⟨x, rfl, rfl⟩ := exists_nameText hparse
    rw [mem_singleton.1 hname, ← append_assoc]
    exact ⟨.job x, rfl, rfl⟩
  case replica =>
    obtain ⟨x, rfl, rfl⟩ := exists_numberText hparse
    rw [mem_singleton.1 hname, ← append_assoc]
    exact ⟨.replica x, rfl, rfl⟩
  case task =>
    obtain ⟨x, rfl, rfl⟩ := exists_numberText hparse
    rw [mem_singleton.1 hname, ← append_assoc]
    exact ⟨.task x, rfl, rfl⟩
  case device =>
    obtain ⟨type, id, rfl, rfl⟩ := exists_device hparse
    rw [mem_singleton.1 hname, ← append_assoc]
    exact ⟨.device type id, rfl, rfl⟩
  case cpu =>
    obtain ⟨x, rfl, rfl⟩ := exists_numberText hparse
    rw [← append_assoc]
    rcases mem_cons.1 hname with rfl | hname
    · exact ⟨.cpu false x, rfl, rfl⟩
    · rw [mem_singleton.1 hname]
      exact ⟨.cpu true x, rfl, rfl⟩
  case gpu =>
    obtain ⟨x, rfl, rfl⟩ := exists_numberText hparse
    rw [← append_assoc]
    rcases mem_cons.1 hname with rfl | hname
    · exact ⟨.gpu false x, rfl, rfl⟩
    · rw [mem_singleton.1 hname]
      exact ⟨.gpu true x, rfl, rfl⟩

/-! ### All parts -/

theorem partsText_cons (part : Part) (parts : List Part) :
    partsText (part :: parts) = part.text ++ partsText parts := flatMap_cons

theorem partsText_append (parts parts' : List Part) :
    partsText (parts ++ parts') = partsText parts ++ partsText parts' := flatMap_append

theorem Number.notMem (n : Number) {c : UInt8} (hc : isAlphaNum c = false) :
    c ∉ n.digits := fun h ↦ by
  have hdigit := n.isDigit c h
  simp [isAlphaNum, hdigit] at hc

theorem Name.notMem (name : Name) {c : UInt8} (hc : isAlphaNum c = false) (hne : c ≠ 95) :
    c ∉ name.1 := by
  obtain ⟨name, hname⟩ := name
  cases name with
  | nil => exact not_mem_nil
  | cons d rest =>
    have hname' : isAlpha d = true ∧ ∀ d ∈ rest, isAlphaNum d = true ∨ d = 95 := by
      simpa [isJobName] using hname
    intro h
    rcases mem_cons.1 h with rfl | h
    · simp [isAlphaNum, hname'.1] at hc
    · exact (hname'.2 c h).elim (fun hnum ↦ by rw [hc] at hnum; cases hnum) hne

/-- Besides letters, digits and underscores there are only stars and colons behind a label. -/
theorem Part.notMem_body (part : Part) {c : UInt8} (hc : isAlphaNum c = false)
    (hne : c ∉ [(42 : UInt8), 58, 95]) : c ∉ part.body := by
  have hstar : c ∉ ascii "*" := fun h ↦ hne (by rw [mem_singleton.1 h]; decide)
  have hcolon : c ∉ ascii ":" := fun h ↦ hne (by rw [mem_singleton.1 h]; decide)
  have hname : ∀ name, c ∉ nameText name := fun name ↦ by
    cases name with
    | none => exact hstar
    | some name => exact Name.notMem name hc fun h ↦ hne (by rw [h]; decide)
  have hnumber : ∀ number, c ∉ numberText number := fun number ↦ by
    cases number with
    | none => exact hstar
    | some n => exact n.notMem hc
  cases part with
  | job name => exact hname name
  | device type id =>
    rw [body, mem_append, not_or]
    refine ⟨hname type, ?_⟩
    cases id with
    | none => exact not_mem_nil
    | some number =>
      rw [elim_some, mem_append, not_or]
      exact ⟨hcolon, hnumber number⟩
  | _ => exact hnumber _

theorem labels_begin : ∀ kind : Kind, ∀ l ∈ kind.labels,
    ascii l = 47 :: (ascii l).tail ∧ (ascii l).tail ≠ [] ∧ (47 : UInt8) ∉ (ascii l).tail := by
  intro kind
  cases kind <;> decide

/-- A part begins with a slash; behind it there is something, but no other slash. -/
theorem Part.text_eq (part : Part) :
    part.text = 47 :: ((ascii part.label).tail ++ part.body) ∧
      (ascii part.label).tail ++ part.body ≠ [] ∧
      (47 : UInt8) ∉ (ascii part.label).tail ++ part.body := by
  obtain ⟨hslash, hne, hnot⟩ := labels_begin part.kind part.label part.label_mem_labels
  refine ⟨?_, append_ne_nil_of_left_ne_nil hne _, ?_⟩
  · rw [text, ← cons_append, ← hslash]
  · rw [mem_append, not_or]
    exact ⟨hnot, part.notMem_body (by decide) (by decide)⟩

theorem follows_partsText (parts : List Part) : Follows (partsText parts) := by
  cases parts with
  | nil => exact fun c hc ↦ by cases hc
  | cons part parts =>
    rw [partsText_cons, part.text_eq.1]
    rintro d hd
    cases some.inj hd
    rfl

theorem partsText_ne_nil {parts : List Part} (h : parts ≠ []) : partsText parts ≠ [] := by
  obtain ⟨part, parts, rfl⟩ := exists_cons_of_ne_nil h
  rw [partsText_cons, part.text_eq.1]
  exact cons_ne_nil _ _

/-- The steps take parts from the front; if none of them takes one, none is for the first part. -/
theorem exists_taken (steps : List Kind) (p : ParsedName) (parts : List Part) :
    ∃ taken left, parts = taken ++ left ∧
      steps.foldlM (fun p kind ↦ parseKind kind p) (p, partsText parts) =
        some (taken.foldl Part.store p, partsText left) ∧
      (taken = [] → ∀ part ∈ parts.head?, part.kind ∉ steps) := by
  induction steps generalizing p parts with
  | nil => exact ⟨[], parts, rfl, rfl, fun _ _ _ ↦ not_mem_nil⟩
  | cons kind steps ih =>
    rw [foldlM_cons]
    rcases parts with - | ⟨part, parts⟩
    · obtain ⟨taken, left, heq, hfold, -⟩ := ih p []
      refine ⟨taken, left, heq, ?_, fun _ part hpart ↦ by cases hpart⟩
      show (parseKind kind (p, [])).bind _ = _
      rw [parseKind_nil]
      exact hfold
    · by_cases hkind : part.kind = kind
      · obtain ⟨taken, left, rfl, hfold, -⟩ := ih (part.store p) parts
        refine ⟨part :: taken, left, rfl, ?_, fun h ↦ absurd h (cons_ne_nil _ _)⟩
        rw [partsText_cons, ← hkind, parseKind_text part p (follows_partsText _)]
        exact hfold
      · obtain ⟨taken, left, heq, hfold, hnone⟩ := ih p (part :: parts)
        refine ⟨taken, left, heq, ?_, fun h first hfirst ↦ ?_⟩
        · rw [partsText_cons] at hfold ⊢
          rw [parseKind_of_kind_ne hkind]
          exact hfold
        · cases some.inj hfirst
          exact fun hmem ↦ (mem_cons.1 hmem).elim hkind (hnone h part rfl)

/-- Rounds take all parts. -/
theorem parseRounds_partsText {fuel : ℕ} (p : ParsedName) (parts : List Part)
    (hfuel : (partsText parts).length ≤ fuel) :
    parseRounds fuel (p, partsText parts) = some (parts.foldl Part.store p) := by
  induction fuel generalizing p parts with
  | zero =>
    have hparts : parts = [] := by
      by_contra hne
      exact partsText_ne_nil hne (length_eq_zero_iff.1 (Nat.le_zero.1 hfuel))
    rw [hparts]
    rfl
  | succ fuel ih =>
    rw [parseRounds]
    split
    · next hnil =>
      have hparts : parts = [] := by
        by_contra hne
        exact partsText_ne_nil hne hnil
      rw [hparts]
      rfl
    · next hne =>
      obtain ⟨taken, left, rfl, hfold, hnone⟩ := exists_taken kinds p parts
      have htaken : taken ≠ [] := by
        rintro rfl
        rcases left with - | ⟨part, left⟩
        · exact hne rfl
        · exact hnone rfl part rfl (mem_kinds part.kind)
      have hlt : (partsText left).length < (partsText (taken ++ left)).length := by
        rw [partsText_append, length_append]
        have := length_pos_iff.2 (partsText_ne_nil htaken)
        omega
      rw [parseRound_eq, hfold]
      simp only [if_pos hlt]
      rw [ih _ left (by omega), foldl_append]

/-- The steps take some parts. -/
theorem exists_parts_of_steps {steps : List Kind} {p q : ParsedName}
    (h : steps.foldlM (fun p kind ↦ parseKind kind p) (p, s) = some (q, t)) :
    ∃ parts, s = partsText parts ++ t ∧ q = parts.foldl Part.store p := by
  induction steps generalizing p s with
  | nil =>
    cases h
    exact ⟨[], rfl, rfl⟩
  | cons kind steps ih =>
    rw [foldlM_cons] at h
    obtain ⟨⟨q', t'⟩, hstep, hrest⟩ := bind_eq_some_iff.1 h
    obtain ⟨parts, rfl, rfl⟩ := ih hrest
    rcases exists_part_of_parseKind hstep with ⟨rfl, heq⟩ | ⟨part, rfl, rfl⟩
    · exact ⟨parts, heq.symm, rfl⟩
    · exact ⟨part :: parts, by rw [partsText_cons, append_assoc], rfl⟩

/-- By induction on the rounds: each takes parts off the front. -/
theorem exists_parts_of_parseRounds {fuel : ℕ} {p q : ParsedName} {s : ByteString}
    (h : parseRounds fuel (p, s) = some q) :
    ∃ parts, s = partsText parts ∧ q = parts.foldl Part.store p := by
  induction fuel generalizing p s with
  | zero =>
    rw [parseRounds] at h
    split at h
    · next hnil => exact ⟨[], hnil, (some.inj h).symm⟩
    · cases h
  | succ fuel ih =>
    rw [parseRounds] at h
    split at h
    · next hnil => exact ⟨[], hnil, (some.inj h).symm⟩
    · cases hround : parseRound (p, s) with
      | none =>
        rw [hround] at h
        cases h
      | some r =>
        obtain ⟨p', t⟩ := r
        simp only [hround] at h
        split at h
        · obtain ⟨left, rfl, rfl⟩ := ih h
          rw [parseRound_eq] at hround
          obtain ⟨taken, rfl, rfl⟩ := exists_parts_of_steps hround
          exact ⟨taken ++ left, (partsText_append taken left).symm, foldl_append.symm⟩
        · cases h

/-- What is stored in the end is what the parts say, stored. -/
theorem foldl_store (parts : List Part) (spec : Spec) :
    parts.foldl Part.store spec.stored = (parts.foldl Spec.after spec).stored := by
  induction parts generalizing spec with
  | nil => rfl
  | cons part parts ih =>
    rw [foldl_cons, foldl_cons, ← ih]
    congr 1
    cases part with
    | device type id => rcases id with - | - | n <;> rfl
    | job name => rfl
    | replica number => cases number <;> rfl
    | task number => cases number <;> rfl
    | cpu capital number => cases number <;> rfl
    | gpu capital number => cases number <;> rfl

/-- `ParseFullName` accepts the names of the grammar, and returns what their parts say. -/
theorem parseFullName_eq_some_iff {s : ByteString} {p : ParsedName} :
    parseFullName s = some p ↔ ∃ parts, Spells s parts ∧ p = (Spec.ofParts parts).stored := by
  have hstored : ∀ parts, parts.foldl Part.store {} = (Spec.ofParts parts).stored := fun parts ↦
    foldl_store parts {}
  rw [parseFullName]
  constructor
  · intro h
    split at h
    · next hslash => exact ⟨[], .inl ⟨hslash, rfl⟩, (some.inj h).symm⟩
    · obtain ⟨parts, rfl, rfl⟩ := exists_parts_of_parseRounds h
      exact ⟨parts, .inr rfl, hstored parts⟩
  · rintro ⟨parts, ⟨hslash, rfl⟩ | rfl, rfl⟩
    · rw [if_pos hslash]
      rfl
    · rw [if_neg, parseRounds_partsText {} parts le_rfl, hstored]
      intro hslash
      rcases parts with - | ⟨part, parts⟩
      · cases hslash
      · rw [partsText_cons, part.text_eq.1] at hslash
        exact part.text_eq.2.1 (append_eq_nil_iff.1 (cons.inj hslash).2).1

end DeviceNameUtils

end TensorFlowCore
