import TensorFlowCore.Core.Status

/-!
# Fields of CSV records

`DecodeCSVOp::ExtractFields` of `tensorflow/core/kernels/decode_csv_op.cc`. The record is read at
positions, and a read that is not inside of it has no outcome. None happens, whatever the record is
(`extractFields_ne_none`), and a record that was put together from fields, quoted or bare, is taken
apart into them (`extractFields_join`).
-/

namespace TensorFlowCore.DecodeCsv

open List Option

variable {delim : UInt8} {input : ByteString}

/-- What a scan comes to: nothing after a read outside of the record, or else the fields or an
error. -/
abbrev Scan (α : Type) := Option (Except Status α)

def unquotedError : Status :=
  invalidArgument [ascii "Unquoted fields cannot have quotes/CRLFs inside"]

def escapeError : Status :=
  invalidArgument [ascii "Quote inside a string has to be escaped by another quote"]

def closingError : Status :=
  invalidArgument [ascii "Quoted field has to end with quote followed by delim or end"]

/-- The loop over an unquoted field. -/
def bareLoop (delim : UInt8) (input : ByteString) (idx : ℕ) (field : ByteString) :
    Scan (ByteString × ℕ) :=
  if idx < input.length then
    match input[idx]? with
    | none => none
    | some c =>
      if c = delim then some (.ok (field, idx))
      else if c = 34 ∨ c = 10 ∨ c = 13 then some (.error unquotedError)
      else bareLoop delim input (idx + 1) (field ++ [c])
  else some (.ok (field, idx))
termination_by input.length - idx

/-- The loop over a quoted field, which looks one byte ahead at a quote. -/
def quotedLoop (delim : UInt8) (input : ByteString) (idx : ℕ) (field : ByteString) :
    Scan (ByteString × ℕ) :=
  if idx < input.length - 1 then
    match input[idx]? with
    | none => none
    | some c =>
      if c ≠ 34 then quotedLoop delim input (idx + 1) (field ++ [c])
      else
        match input[idx + 1]? with
        | none => none
        | some d =>
          if d = delim then some (.ok (field, idx))
          else if d = 34 then quotedLoop delim input (idx + 2) (field ++ [34])
          else some (.error escapeError)
  else some (.ok (field, idx))
termination_by input.length - idx

/-- There is a quote, with the delimiter or the end behind it. -/
def closes (delim : UInt8) (input : ByteString) (idx : ℕ) : Option Bool :=
  if idx < input.length then
    match input[idx]? with
    | none => none
    | some c =>
      if c = 34 then
        if idx = input.length - 1 then some true else input[idx + 1]?.map fun d ↦ d = delim
      else some false
  else some false

theorem bareLoop_le {field field' : ByteString}
    (h : bareLoop delim input idx field = some (.ok (field', i))) : idx ≤ i := by
  fun_induction bareLoop delim input idx field with
  | case1 => cases h
  | case2 => exact (Prod.mk.inj (Except.ok.inj (some.inj h))).2.le
  | case3 => cases some.inj h
  | case4 idx field hlt c hc hne hclean ih => exact (Nat.le_succ _).trans (ih h)
  | case5 => exact (Prod.mk.inj (Except.ok.inj (some.inj h))).2.le

theorem quotedLoop_le {field field' : ByteString}
    (h : quotedLoop delim input idx field = some (.ok (field', i))) : idx ≤ i := by
  fun_induction quotedLoop delim input idx field with
  | case1 => cases h
  | case2 idx field hlt c hc hne ih => exact (Nat.le_succ _).trans (ih h)
  | case3 => cases h
  | case4 => exact (Prod.mk.inj (Except.ok.inj (some.inj h))).2.le
  | case5 idx field hlt c hc hquote hd hne ih => exact (Nat.le_add_right _ 2).trans (ih h)
  | case6 => cases some.inj h
  | case7 => exact (Prod.mk.inj (Except.ok.inj (some.inj h))).2.le

/-- The loop over the fields. -/
def extractLoop (delim : UInt8) (input : ByteString) (idx : ℕ) (result : List ByteString) :
    Scan (List ByteString) :=
  if idx < input.length then
    match input[idx]? with
    | none => none
    | some c =>
      if c = 10 ∨ c = 13 then extractLoop delim input (idx + 1) result
      else if c = 34 then
        match _h : quotedLoop delim input (idx + 1) [] with
        | none => none
        | some (.error e) => some (.error e)
        | some (.ok (field, i)) =>
          match closes delim input i with
          | none => none
          | some false => some (.error closingError)
          | some true => extractLoop delim input (i + 2) (result ++ [field])
      else
        match _h : bareLoop delim input idx [] with
        | none => none
        | some (.error e) => some (.error e)
        | some (.ok (field, i)) => extractLoop delim input (i + 1) (result ++ [field])
  else some (.ok result)
termination_by input.length - idx
decreasing_by
  · omega
  · have hle := quotedLoop_le _h
    omega
  · have hle := bareLoop_le _h
    omega

/-- `DecodeCSVOp::ExtractFields`. -/
def extractFields (delim : UInt8) (input : ByteString) : Scan (List ByteString) :=
  if input = [] then some (.ok [])
  else
    match extractLoop delim input 0 [] with
    | none => none
    | some (.error e) => some (.error e)
    | some (.ok result) =>
      -- the last field is missing if it is empty
      input[input.length - 1]?.map fun c ↦ .ok (if c = delim then result ++ [[]] else result)

/-- A field and how it is written: in quotes, or bare if nothing in it needs them. -/
structure Written (delim : UInt8) where
  field : ByteString
  quoted : Bool
  bare : quoted = false → ∀ c ∈ field, c ≠ delim ∧ c ≠ 34 ∧ c ≠ 10 ∧ c ≠ 13

/-- Quotes are doubled. -/
def doubled (field : ByteString) : ByteString :=
  field.flatMap fun c ↦ if c = 34 then [34, 34] else [c]

def Written.text (w : Written delim) : ByteString :=
  if w.quoted then 34 :: doubled w.field ++ [34] else w.field

/-- The record with these fields. -/
def join (fields : List (Written delim)) : ByteString :=
  [delim].intercalate (fields.map Written.text)

/-! ### Reads -/

theorem bareLoop_ne_none (idx : ℕ) (field : ByteString) :
    bareLoop delim input idx field ≠ none := by
  fun_induction bareLoop delim input idx field with
  | case1 idx field hlt hc => exact absurd (getElem?_eq_none_iff.1 hc) (Nat.not_le.2 hlt)
  | case4 idx field hlt c hc hne hclean ih => exact ih
  | case2 | case3 | case5 => exact some_ne_none _

theorem quotedLoop_ne_none (idx : ℕ) (field : ByteString) :
    quotedLoop delim input idx field ≠ none := by
  fun_induction quotedLoop delim input idx field with
  | case1 idx field hlt hc =>
    have hle := getElem?_eq_none_iff.1 hc
    omega
  | case3 idx field hlt c hc hquote hd =>
    have hle := getElem?_eq_none_iff.1 hd
    omega
  | case2 idx field hlt c hc hne ih => exact ih
  | case5 idx field hlt c hc hquote hd hne ih => exact ih
  | case4 | case6 | case7 => exact some_ne_none _

theorem closes_ne_none (idx : ℕ) : closes delim input idx ≠ none := by
  rw [closes]
  split
  · next hlt =>
    rw [getElem?_eq_getElem hlt]
    dsimp only
    split_ifs with hquote hlast
    · exact some_ne_none _
    · rw [getElem?_eq_getElem (show idx + 1 < input.length by omega)]
      exact some_ne_none _
    · exact some_ne_none _
  · exact some_ne_none _

theorem extractLoop_ne_none (idx : ℕ) (result : List ByteString) :
    extractLoop delim input idx result ≠ none := by
  fun_induction extractLoop delim input idx result with
  | case1 idx result hlt hc => exact absurd (getElem?_eq_none_iff.1 hc) (Nat.not_le.2 hlt)
  | case2 idx result hlt c hc hbreak ih => exact ih
  | case3 idx result hlt h hc hbreak => exact absurd h (quotedLoop_ne_none _ _)
  | case5 idx result hlt field i h hcloses hc hbreak => exact absurd hcloses (closes_ne_none _)
  | case7 idx result hlt hc hbreak field i h hcloses ih => exact ih
  | case8 idx result hlt c hc hbreak hquote h => exact absurd h (bareLoop_ne_none _ _)
  | case10 idx result hlt c hc hbreak hquote field i h ih => exact ih
  | case4 | case6 | case9 | case11 => exact some_ne_none _

/-- Nothing is read outside of the record. -/
theorem extractFields_ne_none (delim : UInt8) (input : ByteString) :
    extractFields delim input ≠ none := by
  rw [extractFields]
  split
  · exact some_ne_none _
  · next hne =>
    have hpos := length_pos_iff.2 hne
    split
    · next h => exact absurd h (extractLoop_ne_none _ _)
    · exact some_ne_none _
    · rw [getElem?_eq_getElem (show input.length - 1 < input.length by omega)]
      exact some_ne_none _

/-! ### Round trip -/

/-- What a position sees of the record. -/
theorem getElem?_of_drop {c : UInt8} {t : ByteString} (h : input.drop idx = c :: t) :
    idx < input.length ∧ input[idx]? = some c ∧ input.drop (idx + 1) = t ∧
      input.length = idx + 1 + t.length := by
  have hlen := congrArg length h
  rw [length_drop, length_cons] at hlen
  have hlt : idx < input.length := by omega
  rw [drop_eq_getElem_cons hlt] at h
  obtain ⟨hc, ht⟩ := cons.inj h
  exact ⟨hlt, hc ▸ getElem?_eq_getElem hlt, ht, by omega⟩

theorem bareLoop_append {field x t : ByteString} (h : input.drop idx = x ++ t)
    (hx : ∀ c ∈ x, c ≠ delim ∧ c ≠ 34 ∧ c ≠ 10 ∧ c ≠ 13) (ht : ∀ c ∈ t.head?, c = delim) :
    bareLoop delim input idx field = some (.ok (field ++ x, idx + x.length)) := by
  induction x generalizing idx field with
  | nil =>
    rw [append_nil, length_nil, Nat.add_zero, bareLoop]
    cases t with
    | nil => rw [if_neg (Nat.not_lt.2 (drop_eq_nil_iff.1 h))]
    | cons c t =>
      obtain ⟨hlt, hc, -⟩ := getElem?_of_drop h
      rw [if_pos hlt, hc]
      exact if_pos (ht c rfl)
  | cons c x ih =>
    obtain ⟨hlt, hc, hdrop, -⟩ := getElem?_of_drop h
    obtain ⟨⟨hdelim, hquote, hlf, hcr⟩, hx⟩ := forall_mem_cons.1 hx
    rw [bareLoop, if_pos hlt, hc]
    dsimp only
    rw [if_neg hdelim, if_neg (by simp [hquote, hlf, hcr]), ih hdrop hx, append_assoc, length_cons,
      Nat.add_assoc, Nat.add_comm 1]
    rfl

/-- The loop undoes the doubling of quotes and stops at the closing one. -/
theorem quotedLoop_append (hdelim : delim ≠ 34) {field x t : ByteString}
    (h : input.drop idx = doubled x ++ 34 :: t) (ht : ∀ c ∈ t.head?, c = delim) :
    quotedLoop delim input idx field = some (.ok (field ++ x, idx + (doubled x).length)) := by
  induction x generalizing idx field with
  | nil =>
    obtain ⟨hlt, hc, hdrop, hlen⟩ := getElem?_of_drop h
    rw [doubled, flatMap_nil, append_nil, length_nil, Nat.add_zero, quotedLoop]
    cases t with
    | nil => rw [if_neg (by rw [length_nil] at hlen; omega)]
    | cons d t =>
      obtain ⟨-, hd, -, hlen'⟩ := getElem?_of_drop hdrop
      rw [if_pos (by omega), hc]
      dsimp only
      rw [if_neg (by decide), hd]
      exact if_pos (ht d rfl)
  | cons c x ih =>
    by_cases hc : c = 34
    · -- the quote that doubles this one is not the delimiter
      subst hc
      have h' : input.drop idx = 34 :: 34 :: (doubled x ++ 34 :: t) := h
      obtain ⟨-, hfirst, hdrop, -⟩ := getElem?_of_drop h'
      obtain ⟨hlt, hsecond, hdrop, -⟩ := getElem?_of_drop hdrop
      have hlen : (doubled (34 :: x)).length = 2 + (doubled x).length := by
        rw [doubled, flatMap_cons, length_append]
        rfl
      rw [quotedLoop, if_pos (by omega), hfirst]
      dsimp only
      rw [if_neg (by decide), hsecond]
      dsimp only
      rw [if_neg (Ne.symm hdelim), if_pos rfl, @ih (idx + 2) _ hdrop, append_assoc, hlen,
        Nat.add_assoc]
      rfl
    · have hsingle : doubled (c :: x) = c :: doubled x := by
        rw [doubled, flatMap_cons, if_neg hc]
        rfl
      rw [hsingle] at h ⊢
      rw [cons_append] at h
      obtain ⟨hlt, hfirst, hdrop, hlen⟩ := getElem?_of_drop h
      rw [length_append, length_cons] at hlen
      rw [quotedLoop, if_pos (by omega), hfirst]
      dsimp only
      rw [if_pos hc, ih hdrop, append_assoc, length_cons, Nat.add_assoc, Nat.add_comm 1]
      rfl

theorem closes_of_drop {t : ByteString} (h : input.drop idx = 34 :: t)
    (ht : ∀ c ∈ t.head?, c = delim) : closes delim input idx = some true := by
  obtain ⟨hlt, hc, hdrop, hlen⟩ := getElem?_of_drop h
  rw [closes, if_pos hlt, hc]
  dsimp only
  rw [if_pos rfl]
  cases t with
  | nil => rw [if_pos (by rw [length_nil] at hlen; omega)]
  | cons d t =>
    obtain ⟨-, hd, -, hlen'⟩ := getElem?_of_drop hdrop
    rw [if_neg (by omega), hd, map_some, ht d rfl, decide_eq_true rfl]

variable {w : Written delim} {ws : List (Written delim)}

/-- A quoted field. -/
theorem extractLoop_quoted {field : ByteString} {result : List ByteString}
    (hlt : idx < input.length) (hfirst : input[idx]? = some 34)
    (hscan : quotedLoop delim input (idx + 1) [] = some (.ok (field, i)))
    (hcloses : closes delim input i = some true) :
    extractLoop delim input idx result = extractLoop delim input (i + 2) (result ++ [field]) := by
  rw [extractLoop, if_pos hlt, hfirst]
  dsimp only
  rw [if_neg (by decide), if_pos rfl]
  split
  · next h => rw [hscan] at h; cases h
  · next h => rw [hscan] at h; cases h
  · next h =>
    rw [hscan] at h
    obtain ⟨rfl, rfl⟩ := Prod.mk.inj (Except.ok.inj (some.inj h))
    rw [hcloses]

/-- An unquoted field, or an empty one in front of a delimiter. -/
theorem extractLoop_bare {c : UInt8} {field : ByteString} {result : List ByteString}
    (hlt : idx < input.length) (hfirst : input[idx]? = some c) (hc : c ≠ 34 ∧ c ≠ 10 ∧ c ≠ 13)
    (hscan : bareLoop delim input idx [] = some (.ok (field, i))) :
    extractLoop delim input idx result = extractLoop delim input (i + 1) (result ++ [field]) := by
  rw [extractLoop, if_pos hlt, hfirst]
  dsimp only
  rw [if_neg (by simp [hc]), if_neg hc.1]
  split
  · next h => rw [hscan] at h; cases h
  · next h => rw [hscan] at h; cases h
  · next h =>
    rw [hscan] at h
    obtain ⟨rfl, rfl⟩ := Prod.mk.inj (Except.ok.inj (some.inj h))
    rfl

/-- A field and what is behind it. -/
theorem extractLoop_text (hdelim : delim ≠ 34 ∧ delim ≠ 10 ∧ delim ≠ 13) {t : ByteString}
    (result : List ByteString) (h : input.drop idx = w.text ++ t) (ht : ∀ c ∈ t.head?, c = delim)
    (hne : w.text ++ t ≠ []) : ∃ i, input.drop i = t.drop 1 ∧
      extractLoop delim input idx result = extractLoop delim input i (result ++ [w.field]) := by
  by_cases hquoted : w.quoted = true
  · have htext : w.text ++ t = 34 :: (doubled w.field ++ 34 :: t) := by
      rw [Written.text, if_pos hquoted, append_assoc, cons_append]
      rfl
    rw [htext] at h
    obtain ⟨hlt, hfirst, hdrop, -⟩ := getElem?_of_drop h
    have hquote : input.drop (idx + 1 + (doubled w.field).length) = 34 :: t := by
      rw [← drop_drop, hdrop, drop_left]
    have hscan : quotedLoop delim input (idx + 1) [] = _ := quotedLoop_append hdelim.1 hdrop ht
    refine ⟨idx + 1 + (doubled w.field).length + 2, ?_,
      extractLoop_quoted hlt hfirst hscan (closes_of_drop hquote ht)⟩
    rw [← drop_drop, hquote]
    rfl
  · have hbare := w.bare (Bool.eq_false_iff.2 hquoted)
    have htext : w.text = w.field := if_neg hquoted
    rw [htext] at h hne
    have hscan : bareLoop delim input idx [] = _ := bareLoop_append h hbare ht
    obtain ⟨c, rest, heq⟩ := exists_cons_of_ne_nil hne
    have hc : c ≠ 34 ∧ c ≠ 10 ∧ c ≠ 13 := by
      have hmem : c ∈ w.field ++ t := heq ▸ mem_cons_self
      cases hfield : w.field with
      | nil =>
        rw [hfield, nil_append] at heq
        rw [ht c (heq ▸ rfl)]
        exact hdelim
      | cons d field =>
        rw [hfield] at heq
        obtain rfl := (cons.inj heq).1
        exact (hbare d (hfield ▸ mem_cons_self)).2
    rw [heq] at h
    obtain ⟨hlt, hfirst, -, -⟩ := getElem?_of_drop h
    refine ⟨idx + w.field.length + 1, ?_, extractLoop_bare hlt hfirst hc hscan⟩
    rw [← drop_drop, ← drop_drop, h, ← heq, drop_left]

theorem Written.field_eq_nil (h : w.text = []) : w.field = [] := by
  rw [text] at h
  split at h
  · exact absurd h (cons_ne_nil _ _)
  · exact h

/-- The text of a field does not end with the delimiter. -/
theorem Written.getLast?_text (hdelim : delim ≠ 34) {c : UInt8} (h : w.text.getLast? = some c) :
    c ≠ delim := by
  rw [text] at h
  split at h
  · rw [getLast?_concat] at h
    rw [← some.inj h]
    exact hdelim.symm
  · next hquoted => exact (w.bare (Bool.eq_false_iff.2 hquoted) c (mem_of_getLast? h)).1

theorem join_cons_cons (v w : Written delim) (ws : List (Written delim)) :
    join (v :: w :: ws) = v.text ++ delim :: join (w :: ws) := by
  rw [join, map_cons, map_cons, intercalate_cons_cons, append_assoc]
  rfl

theorem join_singleton (w : Written delim) : join [w] = w.text := intercalate_singleton

/-- All fields but a last one that is empty are found, and then the record ends with the
delimiter. -/
theorem extractLoop_join (hdelim : delim ≠ 34 ∧ delim ≠ 10 ∧ delim ≠ 13) (result : List ByteString)
    (hne : ws ≠ []) (h : input.drop idx = join ws) :
    ∃ found, extractLoop delim input idx result = some (.ok (result ++ found)) ∧
      ((found = ws.map Written.field ∧ ∃ c, (join ws).getLast? = some c ∧ c ≠ delim) ∨
        found ++ [[]] = ws.map Written.field ∧
          ((join ws).getLast? = some delim ∨ join ws = [])) := by
  induction ws generalizing idx result with
  | nil => exact absurd rfl hne
  | cons v ws ih =>
    cases ws with
    | nil =>
      rw [join_singleton] at h ⊢
      by_cases hempty : v.text = []
      · rw [hempty] at h
        refine ⟨[], ?_, .inr ⟨?_, .inr hempty⟩⟩
        · rw [extractLoop, if_neg (Nat.not_lt.2 (drop_eq_nil_iff.1 h)), append_nil]
        · rw [map_singleton, Written.field_eq_nil hempty]
          rfl
      · have h' : input.drop idx = v.text ++ [] := by rw [append_nil, h]
        have hne' : v.text ++ [] ≠ [] := by rwa [append_nil]
        obtain ⟨i, hi, hstep⟩ := extractLoop_text hdelim result h' (by simp) hne'
        refine ⟨[v.field], ?_, .inl ⟨rfl, ?_⟩⟩
        · rw [hstep, extractLoop, if_neg (Nat.not_lt.2 (drop_eq_nil_iff.1 hi))]
        · refine ⟨_, getLast?_eq_some_getLast hempty, ?_⟩
          exact Written.getLast?_text hdelim.1 (getLast?_eq_some_getLast hempty)
    | cons w ws =>
      rw [join_cons_cons] at h ⊢
      obtain ⟨i, hi, hstep⟩ := extractLoop_text hdelim result h (by simp) (by simp)
      obtain ⟨found, hfound, hlast⟩ := ih (result ++ [v.field]) (cons_ne_nil w ws) hi
      refine ⟨v.field :: found, ?_, ?_⟩
      · rw [hstep, hfound, append_assoc]
        rfl
      · rw [getLast?_append_of_ne_nil _ (cons_ne_nil _ _)]
        obtain ⟨rfl, c, hc, hcne⟩ | ⟨heq, hend⟩ := hlast
        · refine .inl ⟨rfl, c, ?_, hcne⟩
          rw [getLast?_cons, hc]
          rfl
        · refine .inr ⟨by rw [cons_append, heq]; rfl, .inl ?_⟩
          obtain hend | hend := hend
          · rw [getLast?_cons, hend]
            rfl
          · rw [hend]
            rfl

/-- Fields that were joined are found again. -/
theorem extractFields_join (hdelim : delim ≠ 34 ∧ delim ≠ 10 ∧ delim ≠ 13) (hne : ws ≠ [])
    (hsingle : ∀ w, ws = [w] → w.quoted = true ∨ w.field ≠ []) :
    extractFields delim (join ws) = some (.ok (ws.map Written.field)) := by
  have hjoin : join ws ≠ [] := by
    match ws, hne with
    | [w], _ =>
      rw [join_singleton, Written.text]
      split
      · exact cons_ne_nil _ _
      · next hquoted => exact (hsingle w rfl).resolve_left hquoted
    | v :: w :: ws, _ =>
      rw [join_cons_cons]
      exact append_ne_nil_of_right_ne_nil _ (cons_ne_nil _ _)
  obtain ⟨found, hfound, hlast⟩ := extractLoop_join hdelim [] hne (drop_zero (l := join ws))
  have hget : (join ws)[(join ws).length - 1]? = (join ws).getLast? := getLast?_eq_getElem?.symm
  rw [extractFields, if_neg hjoin, hfound, nil_append]
  dsimp only
  rw [hget]
  obtain ⟨rfl, c, hc, hcne⟩ | ⟨heq, hend⟩ := hlast
  · rw [hc, map_some, if_neg hcne]
  · rw [hend.resolve_right hjoin, map_some, if_pos rfl, heq]

/-- **Fields that were joined are found again**, unless the record would be empty, and no record
makes the scan read outside of it. -/
theorem extractFields_spec (delim : UInt8) :
    (delim ≠ 34 ∧ delim ≠ 10 ∧ delim ≠ 13 → ∀ ws : List (Written delim), ws ≠ [] →
      (∀ w, ws = [w] → w.quoted = true ∨ w.field ≠ []) →
      extractFields delim (join ws) = some (.ok (ws.map Written.field))) ∧
    ∀ input, extractFields delim input ≠ none :=
  ⟨fun hdelim _ hne hsingle ↦ extractFields_join hdelim hne hsingle, extractFields_ne_none delim⟩

/-- A field with a comma and a quote in it is written in quotes, the quote twice. -/
theorem extractFields_quoted :
    extractFields 44 (ascii "\"a,\"\"b\",c") = some (.ok [ascii "a,\"b", ascii "c"]) ∧
      ∀ input, extractFields 44 input ≠ none :=
  ⟨(extractFields_spec 44).1 (by decide)
    [⟨ascii "a,\"b", true, nofun⟩, ⟨ascii "c", false, fun _ c hc ↦ by
      obtain rfl : c = 99 := mem_singleton.1 hc
      decide⟩] (cons_ne_nil _ _)
    (fun _ h ↦ nomatch h), (extractFields_spec 44).2⟩

end TensorFlowCore.DecodeCsv
