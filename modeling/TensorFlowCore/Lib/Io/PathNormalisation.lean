import TensorFlowCore.Lib.Io.Path
import TensorFlowCore.Support.PrefixReading

/-!
# Clean paths are normal

`CleanPath` is the normalisation of the parts of its path, part by part (`cleanPath_eq`). What the
cursor has behind it and before it is all that the proof knows of the string (`Views`): a byte is
never written behind the one that it is copied from, so that what has not been read yet is as it
was.
-/

namespace TensorFlowCore.Io

open List

/-! ### What a cursor sees -/

/-- The bytes written, those still to be read and the limit, with nothing written ahead of `src`. -/
structure Views (c : Cursor) (out rest : ByteString) (limit : ℕ) : Prop where
  out_eq : c.path.take c.dst = out
  rest_eq : c.path.drop c.src = rest
  limit_eq : c.backtrackLimit = limit
  dst_le : c.dst ≤ c.src
  src_le : c.src ≤ c.path.length
  writes_le : ∀ x ∈ c.writes, x.1 ≤ x.2

namespace Views

variable {c : Cursor} {out rest x t : ByteString} {b : UInt8} {limit : ℕ}

theorem dst_eq (h : Views c out rest limit) : c.dst = out.length := by
  rw [← h.out_eq, length_take, Nat.min_eq_left (h.dst_le.trans h.src_le)]

theorem read_eq (h : Views c out rest limit) (i : ℕ) : c.read i = rest.getD i 0 := by
  rw [Cursor.read, ← h.rest_eq, getD, getD, getElem?_drop]

theorem src_lt (h : Views c out (b :: rest) limit) : c.src < c.path.length := by
  have hlen := congrArg length h.rest_eq
  rw [length_drop, length_cons] at hlen
  omega

/-- A byte copied is written at the end, and the rest is what it was. -/
theorem copy (h : Views c out (b :: rest) limit) : Views c.copy (out ++ [b]) rest limit := by
  have hsrc := h.src_lt
  have hdst := h.dst_le
  have hread : c.read 0 = b := h.read_eq 0
  have hlen : (c.path.set c.dst b).length = c.path.length := length_set
  refine ⟨?_, ?_, h.limit_eq, Nat.succ_le_succ hdst, ?_, ?_⟩
  · show (c.path.set c.dst (c.read 0)).take (c.dst + 1) = _
    rw [hread, take_succ_eq_append_getElem (by omega), getElem_set_self, take_set,
      set_eq_of_length_le (by rw [length_take]; omega), h.out_eq]
  · show (c.path.set c.dst (c.read 0)).drop (c.src + 1) = _
    rw [drop_set_of_lt (by omega)]
    have hdrop := h.rest_eq
    rw [drop_eq_getElem_cons hsrc] at hdrop
    exact (cons.inj hdrop).2
  · show c.src + 1 ≤ (c.path.set c.dst (c.read 0)).length
    rw [length_set]
    exact hsrc
  · show ∀ y ∈ (c.dst, c.src) :: c.writes, y.1 ≤ y.2
    exact forall_mem_cons.2 ⟨hdst, h.writes_le⟩

theorem skip (h : Views c out (x ++ rest) limit) : Views (c.skip x.length) out rest limit := by
  have hlen := congrArg length h.rest_eq
  have hsrc := h.src_le
  rw [length_drop, length_append] at hlen
  refine ⟨h.out_eq, ?_, h.limit_eq, h.dst_le.trans (Nat.le_add_right _ _), ?_, h.writes_le⟩
  · show c.path.drop (c.src + x.length) = rest
    rw [← drop_drop, h.rest_eq, drop_left]
  · show c.src + x.length ≤ c.path.length
    omega

theorem copyPart (h : Views c out (x ++ t) limit) (hx : ∀ b ∈ x, b ≠ 0 ∧ b ≠ 47)
    (ht : ∀ b ∈ t.head?, b = 47) : Views c.copyPart (out ++ x) t limit := by
  induction x generalizing c out with
  | nil =>
    have hread : c.read 0 = 0 ∨ c.read 0 = 47 := by
      rw [h.read_eq]
      cases t with
      | nil => exact .inl rfl
      | cons b t => exact .inr (ht b rfl)
    have hstop : ¬(c.read 0 ≠ 0 ∧ c.read 0 ≠ 47) := fun hne ↦ hread.elim hne.1 hne.2
    rwa [Cursor.copyPart, if_neg hstop, append_nil]
  | cons b x ih =>
    obtain ⟨hb, hx⟩ := forall_mem_cons.1 hx
    have hread : c.read 0 = b := h.read_eq 0
    rw [Cursor.copyPart, if_pos (hread ▸ hb)]
    have hrest := ih h.copy hx
    rwa [append_assoc] at hrest

theorem skipSeparators (h : Views c out rest limit) :
    Views c.skipSeparators out (rest.dropWhile (· = 47)) limit := by
  induction rest generalizing c with
  | nil =>
    have hread : c.read 0 ≠ 47 := by rw [h.read_eq]; decide
    rwa [Cursor.skipSeparators, if_neg hread]
  | cons b rest ih =>
    have hread : c.read 0 = b := h.read_eq 0
    rw [Cursor.skipSeparators, hread]
    by_cases hb : b = 47
    · subst hb
      rw [if_pos rfl, dropWhile_cons_of_pos (by decide)]
      exact ih (h.skip (x := [47]))
    · rwa [if_neg hb, dropWhile_cons_of_neg (by simpa using hb)]

/-- Behind a part its separators are skipped. -/
theorem skipOne_skipSeparators (h : Views c out t limit) (ht : ∀ b ∈ t.head?, b = 47) :
    Views c.skipOne.skipSeparators out (t.dropWhile (· = 47)) limit := by
  cases t with
  | nil =>
    have hread : ¬c.read 0 ≠ 0 := not_not.2 (h.read_eq 0)
    rw [Cursor.skipOne, if_neg hread]
    exact h.skipSeparators
  | cons b t =>
    obtain rfl := ht b rfl
    have hread : c.read 0 ≠ 0 := by
      rw [h.read_eq]
      exact (by decide : (47 : UInt8) ≠ 0)
    rw [Cursor.skipOne, if_pos hread, dropWhile_cons_of_pos (by decide)]
    exact (h.skip (x := [47])).skipSeparators

/-- A part is taken back. -/
theorem take (h : Views c out rest limit) {n : ℕ} (hn : n ≤ out.length) :
    Views { c with dst := n } (out.take n) rest limit := by
  refine ⟨?_, h.rest_eq, h.limit_eq, ?_, h.src_le, h.writes_le⟩
  · show c.path.take n = _
    rw [← h.out_eq, take_take, Nat.min_eq_left (h.dst_eq ▸ hn)]
  · exact (h.dst_eq ▸ hn : n ≤ c.dst).trans h.dst_le

end Views

/-! ### Parts -/

variable {c : Cursor} {isAbsolutePath : Bool} {out rest x t : ByteString} {limit : ℕ}

theorem read_one (h : Views c out (x ++ t) limit) (ht : ∀ b ∈ t.head?, b = 47) :
    c.read x.length = 47 ∨ c.read x.length = 0 := by
  rw [h.read_eq, getD, getElem?_append_right le_rfl, Nat.sub_self]
  cases t with
  | nil => exact .inr rfl
  | cons b t => exact .inl (ht b rfl)

theorem views_part_dot (h : Views c out ([46] ++ t) limit) (ht : ∀ b ∈ t.head?, b = 47) :
    Views (c.part isAbsolutePath) out (t.dropWhile (· = 47)) limit := by
  have hfirst : c.read 0 = 46 := h.read_eq 0
  rw [Cursor.part, if_pos ⟨hfirst, read_one h ht⟩]
  exact h.skip.skipOne_skipSeparators ht

/-- The round of a part `..` is that of `parent`. -/
theorem part_dotdot (h : Views c out ([46, 46] ++ t) limit) (ht : ∀ b ∈ t.head?, b = 47) :
    c.part isAbsolutePath = ((c.skip 2).parent isAbsolutePath).skipOne.skipSeparators := by
  have hfirst : c.read 0 = 46 := h.read_eq 0
  have hsecond : c.read 1 = 46 := h.read_eq 1
  have hone : ¬(c.read 0 = 46 ∧ (c.read 1 = 47 ∨ c.read 1 = 0)) := by
    rw [hsecond]
    exact fun hsep ↦ absurd hsep.2 (by decide)
  rw [Cursor.part, if_neg hone, if_pos ⟨hfirst, hsecond, read_one h ht⟩]

/-- A part that cannot be taken back is copied, and never taken back from then on. -/
theorem views_part_keep (h : Views c out ([46, 46] ++ t) limit) (ht : ∀ b ∈ t.head?, b = 47)
    (hlimit : out.length = limit) :
    Views (c.part false) (out ++ [46, 46] ++ t.take 1) (t.dropWhile (· = 47))
      (out ++ [46, 46] ++ t.take 1).length := by
  have hcopy : Views c.copy.copy (out ++ [46] ++ [46]) t limit := h.copy.copy
  have hback : { c.skip 2 with src := (c.skip 2).src - 2 } = c := rfl
  have hdst : ¬(c.skip 2).dst ≠ (c.skip 2).backtrackLimit :=
    not_not.2 (h.dst_eq.trans (hlimit.trans h.limit_eq.symm))
  rw [part_dotdot h ht, Cursor.parent, if_neg hdst, if_pos (by simp), hback]
  rw [append_assoc] at hcopy
  cases t with
  | nil =>
    have hread : c.copy.copy.read 0 = 0 := hcopy.read_eq 0
    dsimp only
    rw [if_neg (not_not.2 hread), take_nil, append_nil]
    refine Views.skipOne_skipSeparators ⟨hcopy.out_eq, hcopy.rest_eq, ?_, hcopy.dst_le,
      hcopy.src_le,
      hcopy.writes_le⟩ ht
    exact hcopy.dst_eq
  | cons b t =>
    obtain rfl := ht b rfl
    have hread : c.copy.copy.read 0 = 47 := hcopy.read_eq 0
    have hnext := hcopy.copy
    have hsrc := hcopy.src_lt
    have hdst' := hcopy.dst_le
    generalize c.copy.copy = c' at hcopy hread hnext hsrc hdst'
    dsimp only
    rw [if_pos (by rw [hread]; decide)]
    -- the separator has been written, and is still to be read: it is the same byte
    have hagain : ({ c'.put with backtrackLimit := c'.put.dst } : Cursor).read 0 = 47 := by
      show (c'.path.set c'.dst (c'.read 0)).getD (c'.src + 0) 0 = 47
      rw [hread, Nat.add_zero, getD, getElem?_set]
      split
      · rw [if_pos (by omega)]
        rfl
      · exact hread
    have hskip : ({ c'.put with backtrackLimit := c'.put.dst } : Cursor).skipOne =
        { c'.copy with backtrackLimit := c'.put.dst } := by
      rw [Cursor.skipOne, if_pos (by rw [hagain]; decide)]
      rfl
    rw [hskip, dropWhile_cons_of_pos (by decide)]
    refine Views.skipSeparators ⟨hnext.out_eq, hnext.rest_eq, ?_, hnext.dst_le, hnext.src_le,
      hnext.writes_le⟩
    exact hnext.dst_eq

/-- A component that is a name is copied, with its slash if it has one. -/
theorem views_part_name (h : Views c out (x ++ t) limit) (ht : ∀ b ∈ t.head?, b = 47)
    (hx : ∀ b ∈ x, b ≠ 0 ∧ b ≠ 47) (hdot : x ≠ [46]) (hdotdot : x ≠ [46, 46]) (hne : x ≠ []) :
    Views (c.part isAbsolutePath) (out ++ x ++ t.take 1) (t.dropWhile (· = 47)) limit := by
  have hread : ∀ i, (hi : i < x.length) → c.read i = x[i] := fun i hi ↦ by
    rw [h.read_eq, getD, getElem?_append_left hi, getElem?_eq_getElem hi]
    rfl
  have hbyte : ∀ i, (hi : i < x.length) → c.read i ≠ 47 ∧ c.read i ≠ 0 := fun i hi ↦ by
    rw [hread i hi]
    exact ⟨(hx _ (getElem_mem hi)).2, (hx _ (getElem_mem hi)).1⟩
  have hone : ¬(c.read 0 = 46 ∧ (c.read 1 = 47 ∨ c.read 1 = 0)) := by
    rintro ⟨hfirst, hend⟩
    match x, hne, hdot, hread, hbyte with
    | [b], _, hdot, hread, _ =>
      exact hdot (congrArg (fun b ↦ [b]) ((hread 0 (by simp)).symm.trans hfirst))
    | _ :: _ :: _, _, _, _, hbyte => exact hend.elim (hbyte 1 (by simp)).1 (hbyte 1 (by simp)).2
  have htwo : ¬(c.read 0 = 46 ∧ c.read 1 = 46 ∧ (c.read 2 = 47 ∨ c.read 2 = 0)) := by
    rintro ⟨hfirst, hsecond, hend⟩
    match x, hne, hdot, hdotdot, hread, hbyte with
    | [b], _, hdot, _, hread, _ =>
      exact hdot (congrArg (fun b ↦ [b]) ((hread 0 (by simp)).symm.trans hfirst))
    | [b, b'], _, _, hdotdot, hread, _ =>
      have hb : b = 46 := (hread 0 (by simp)).symm.trans hfirst
      have hb' : b' = 46 := (hread 1 (by simp)).symm.trans hsecond
      exact hdotdot (by rw [hb, hb'])
    | _ :: _ :: _ :: _, _, _, _, _, hbyte =>
      exact hend.elim (hbyte 2 (by simp)).1 (hbyte 2 (by simp)).2
  have hcopy := h.copyPart hx ht
  rw [Cursor.part, if_neg hone, if_neg htwo]
  dsimp only
  cases t with
  | nil =>
    have hend : ¬c.copyPart.read 0 ≠ 0 := not_not.2 (hcopy.read_eq 0)
    rw [if_neg hend, take_nil, append_nil]
    exact hcopy.skipSeparators
  | cons b t =>
    obtain rfl := ht b rfl
    have hsep : c.copyPart.read 0 ≠ 0 := by
      rw [hcopy.read_eq]
      exact (by decide : (47 : UInt8) ≠ 0)
    rw [if_pos hsep, dropWhile_cons_of_pos (by decide)]
    exact hcopy.copy.skipSeparators

/-! ### Taking back a part -/

/-- The names with a separator behind each of them. -/
def body (names : List ByteString) : ByteString := names.flatMap (· ++ [47])

theorem body_append (xs ys : List ByteString) : body (xs ++ ys) = body xs ++ body ys :=
  flatMap_append

theorem body_singleton (x : ByteString) : body [x] = x ++ [47] := by
  rw [body, flatMap_cons, flatMap_nil, append_nil]

/-- The loop goes back over the bytes of a name, up to the limit or to a separator. -/
theorem backtrack_eq {path a x : ByteString} {n : ℕ} (hpath : path.take n = a ++ x)
    (hx : ∀ b ∈ x, b ≠ 47) (hlimit : limit ≤ a.length)
    (ha : a.length = limit ∨ ∃ y, a = y ++ [47]) :
    Cursor.backtrack path limit (a.length + x.length) = a.length := by
  have hget : ∀ i < (a ++ x).length, path.getD i 0 = (a ++ x).getD i 0 := fun i hi ↦ by
    rw [← hpath] at hi ⊢
    rw [length_take] at hi
    rw [getD, getD, getElem?_take_of_lt (by omega)]
  suffices h : ∀ j ≤ x.length, Cursor.backtrack path limit (a.length + j) = a.length from h _ le_rfl
  intro j hj
  induction j with
  | zero =>
    -- here the part begins
    rw [Nat.add_zero]
    obtain heq | ⟨y, rfl⟩ := ha
    · cases hlen : a.length with
      | zero => rfl
      | succ n => rw [Cursor.backtrack, if_neg fun h ↦ h.1 (hlen ▸ heq)]
    · have hsep : path.getD y.length 0 = 47 := by
        rw [hget _ (by simp), append_assoc, getD, getElem?_append_right le_rfl, Nat.sub_self]
        rfl
      rw [length_append, length_singleton, Cursor.backtrack, if_neg fun h ↦ h.2 hsep]
  | succ j ih =>
    have hbyte : path.getD (a.length + j) 0 ≠ 47 := by
      have hlt : j < x.length := hj
      rw [hget _ (by rw [length_append]; omega), getD, getElem?_append_right (Nat.le_add_right _ _),
        Nat.add_sub_cancel_left, getElem?_eq_getElem hlt]
      exact hx _ (getElem_mem hlt)
    rw [← Nat.add_assoc, Cursor.backtrack, if_pos ⟨by omega, hbyte⟩, ih (Nat.le_of_succ_le hj)]

/-! ### The loop -/

/-- A part that is copied, and that a `..` behind it takes back. -/
structure IsName (x : ByteString) : Prop where
  ne_nil : x ≠ []
  ne_dot : x ≠ [46]
  ne_dotdot : x ≠ [46, 46]
  bytes : ∀ b ∈ x, b ≠ 0 ∧ b ≠ 47

/-- The root and the parts `..` in front of all names. -/
def base (isAbsolutePath : Bool) (k : ℕ) : ByteString :=
  (if isAbsolutePath then [47] else []) ++ body (List.replicate k [46, 46])

/-- The bytes written are those of `k` parts `..` and of the names behind them. At the end of the
path the last separator may be missing. -/
def Written (isAbsolutePath : Bool) (c : Cursor) (k : ℕ) (names : List ByteString)
    (rest : ByteString) : Prop :=
  Views c (base isAbsolutePath k ++ body names) rest (base isAbsolutePath k).length ∨
    rest = [] ∧ (k ≠ 0 ∨ names ≠ []) ∧ ∃ out limit, Views c out [] limit ∧
      out ++ [47] = base isAbsolutePath k ++ body names

/-- What holds whenever the loop over the parts begins a round. -/
structure Loop (isAbsolutePath : Bool) (c : Cursor) (k : ℕ) (names : List ByteString)
    (rest : ByteString) : Prop where
  isName : ∀ x ∈ names, IsName x
  relative : isAbsolutePath = true → k = 0
  nul : ∀ b ∈ rest, b ≠ 0
  head : ∀ b ∈ rest.head?, b ≠ 47
  written : Written isAbsolutePath c k names rest

/-- The parts written, the last one first. -/
def stack (k : ℕ) (names : List ByteString) : List ByteString :=
  names.reverse ++ List.replicate k [46, 46]

theorem push_name {stack : List ByteString} (hx : x ≠ [46, 46]) :
    push isAbsolutePath stack x = x :: stack := if_neg hx

theorem push_dotdot_name {stack : List ByteString} {y : ByteString} (hy : y ≠ [46, 46]) :
    push isAbsolutePath (y :: stack) [46, 46] = stack := by
  rw [push.eq_def, if_pos rfl]
  exact if_neg hy

theorem push_dotdot_replicate (k : ℕ) :
    push false (List.replicate k [46, 46]) [46, 46] = List.replicate (k + 1) [46, 46] := by
  cases k with
  | zero => rfl
  | succ k =>
    rw [push.eq_def, if_pos rfl]
    exact if_pos rfl

variable {k k' : ℕ} {names names' : List ByteString}

/-- A part has been copied, with the separator behind it if there is one. -/
theorem written_of_views (h : Views c (out ++ x ++ t.take 1) (t.dropWhile (· = 47)) limit)
    (ht : ∀ b ∈ t.head?, b = 47) (hfull : base isAbsolutePath k ++ body names = out ++ x ++ [47])
    (hlimit : t ≠ [] → limit = (base isAbsolutePath k).length) (hpos : k ≠ 0 ∨ names ≠ []) :
    Written isAbsolutePath c k names (t.dropWhile (· = 47)) := by
  cases t with
  | nil =>
    rw [take_nil, append_nil] at h
    exact .inr ⟨rfl, hpos, _, _, h, hfull.symm⟩
  | cons b t =>
    obtain rfl := ht b rfl
    have hlimit := hlimit (cons_ne_nil _ _)
    refine .inl ?_
    rw [hfull, ← hlimit]
    exact h

/-- A round takes in one part. -/
theorem Loop.part (h : Loop isAbsolutePath c k names (x ++ t)) (hne : x ≠ [])
    (hx : ∀ b ∈ x, b ≠ 47) (ht : ∀ b ∈ t.head?, b = 47) :
    ∃ k' names', Loop isAbsolutePath (c.part isAbsolutePath) k' names' (t.dropWhile (· = 47)) ∧
      stack k' names' =
        if x = [46] then stack k names else push isAbsolutePath (stack k names) x := by
  have hnul : ∀ b ∈ t.dropWhile (· = 47), b ≠ 0 := fun b hb ↦
    h.nul b (mem_append_right _ ((dropWhile_sublist _).subset hb))
  have hhead : ∀ b ∈ (t.dropWhile (· = 47)).head?, b ≠ 47 := fun b hb ↦ by
    have hstop := head?_dropWhile_not (· = 47) t
    rw [hb] at hstop
    simpa using hstop
  have hv : Views c (base isAbsolutePath k ++ body names) (x ++ t) (base isAbsolutePath k).length :=
    h.written.resolve_right fun hend ↦ hne (append_eq_nil_iff.1 hend.1).1
  by_cases hdot : x = [46]
  · subst hdot
    rw [if_pos rfl]
    exact ⟨k, names, ⟨h.isName, h.relative, hnul, hhead, .inl (views_part_dot hv ht)⟩, rfl⟩
  rw [if_neg hdot]
  by_cases hdotdot : x = [46, 46]
  swap
  · have hbytes : ∀ b ∈ x, b ≠ 0 ∧ b ≠ 47 := fun b hb ↦
      ⟨h.nul b (mem_append_left _ hb), hx b hb⟩
    have hfull : base isAbsolutePath k ++ body (names ++ [x]) =
        base isAbsolutePath k ++ body names ++ x ++ [47] := by
      simp only [body_append, body_singleton, append_assoc]
    refine ⟨k, names ++ [x], ⟨?_, h.relative, hnul, hhead, ?_⟩, ?_⟩
    · rw [forall_mem_append, forall_mem_singleton]
      exact ⟨h.isName, hne, hdot, hdotdot, hbytes⟩
    · exact written_of_views (views_part_name hv ht hbytes hdot hdotdot hne) ht hfull (fun _ ↦ rfl)
        (.inr (append_ne_nil_of_right_ne_nil _ (cons_ne_nil _ _)))
    · rw [push_name hdotdot, stack, reverse_append, stack]
      rfl
  subst hdotdot
  obtain rfl | ⟨ys, y, rfl⟩ := names.eq_nil_or_concat'
  · have hlimit : (base isAbsolutePath k ++ body []).length = (base isAbsolutePath k).length := by
      rw [body, flatMap_nil, append_nil]
    cases isAbsolutePath with
    | true =>
      -- there is nothing above the root
      obtain rfl := h.relative rfl
      have hdst : ¬(c.skip 2).dst ≠ (c.skip 2).backtrackLimit :=
        not_not.2 (hv.dst_eq.trans (hlimit.trans hv.limit_eq.symm))
      have hstay : (c.skip 2).parent true = c.skip 2 := by
        rw [Cursor.parent, if_neg hdst, if_neg (by simp)]
      refine ⟨0, [], ⟨h.isName, h.relative, hnul, hhead, .inl ?_⟩, rfl⟩
      rw [part_dotdot hv ht, hstay]
      exact (hv.skip (x := [46, 46])).skipOne_skipSeparators ht
    | false =>
      have hbase : base false (k + 1) ++ body [] = base false k ++ body [] ++ [46, 46] ++ [47] := by
        rw [base, base, replicate_succ', body_append, body_singleton]
        simp [body]
      refine ⟨k + 1, [], ⟨h.isName, fun h ↦ absurd h Bool.false_ne_true, hnul, hhead, ?_⟩, ?_⟩
      · refine written_of_views (views_part_keep hv ht hlimit) ht hbase (fun hne ↦ ?_)
          (.inl (Nat.succ_ne_zero k))
        obtain ⟨b, t, rfl⟩ := exists_cons_of_ne_nil hne
        obtain rfl := ht b rfl
        rw [body, flatMap_nil, append_nil] at hbase
        exact congrArg length hbase.symm
      · exact (push_dotdot_replicate k).symm
  · -- the last name is taken back
    obtain ⟨hys, hy⟩ := forall_mem_append.1 h.isName
    have hy := hy y (mem_singleton_self y)
    have hout : base isAbsolutePath k ++ body (ys ++ [y]) =
        base isAbsolutePath k ++ body ys ++ y ++ [47] := by
      simp only [body_append, body_singleton, append_assoc]
    rw [hout] at hv
    have hdst := hv.dst_eq
    have hlen : (base isAbsolutePath k ++ body ys ++ y ++ [47]).length =
        (base isAbsolutePath k ++ body ys).length + y.length + 1 := by
      simp only [length_append, length_singleton]
    have hle : (base isAbsolutePath k).length ≤ (base isAbsolutePath k ++ body ys).length := by
      rw [length_append]
      exact Nat.le_add_right _ _
    have hpath : c.path.take (c.dst - 1) = base isAbsolutePath k ++ body ys ++ y := by
      have htake : c.path.take (c.dst - 1) = (c.path.take c.dst).take (c.dst - 1) := by
        rw [take_take, Nat.min_eq_left (Nat.sub_le _ _)]
      rw [htake, hv.out_eq]
      exact take_left' (by rw [hdst, hlen, length_append, Nat.add_sub_cancel])
    have hstop : (base isAbsolutePath k ++ body ys).length = (base isAbsolutePath k).length ∨
        ∃ z, base isAbsolutePath k ++ body ys = z ++ [47] := by
      obtain rfl | ⟨zs, z, rfl⟩ := ys.eq_nil_or_concat'
      · exact .inl (by rw [body, flatMap_nil, append_nil])
      · refine .inr ⟨base isAbsolutePath k ++ body zs ++ z, ?_⟩
        simp only [body_append, body_singleton, append_assoc]
    have hback := backtrack_eq hpath (fun b hb ↦ (hy.bytes b hb).2) hle hstop
    have hparent : (c.skip 2).parent isAbsolutePath =
        { c.skip 2 with dst := (base isAbsolutePath k ++ body ys).length } := by
      have hne : (c.skip 2).dst ≠ (c.skip 2).backtrackLimit := by
        show c.dst ≠ c.backtrackLimit
        rw [hv.limit_eq]
        omega
      rw [Cursor.parent, if_pos hne]
      show { c.skip 2 with dst := Cursor.backtrack c.path c.backtrackLimit (c.dst - 1) } = _
      rw [hv.limit_eq, show c.dst - 1 = (base isAbsolutePath k ++ body ys).length +
        y.length by omega,
        hback]
    have htaken := (hv.skip (x := [46, 46])).take (n := (base isAbsolutePath k ++ body ys).length)
      (by omega)
    rw [append_assoc _ y, take_left] at htaken
    refine ⟨k, ys, ⟨hys, h.relative, hnul, hhead, .inl ?_⟩, ?_⟩
    · rw [part_dotdot hv ht, hparent]
      exact htaken.skipOne_skipSeparators ht
    · rw [stack, stack, reverse_append]
      exact (push_dotdot_name hy.ne_dotdot).symm

/-! ### The parts of a path -/

theorem components_nil : components [] = [] := rfl

theorem components_of_bytes (hne : x ≠ []) (hx : ∀ b ∈ x, b ≠ 47) :
    components x = if x = [46] then [] else [x] := by
  rw [components, splitOn_eq_singleton fun hmem ↦ hx 47 hmem rfl]
  by_cases hdot : x = [46]
  · rw [if_pos hdot, hdot]
    rfl
  · rw [if_neg hdot]
    rw [filter_singleton, decide_eq_true ⟨hne, hdot⟩, cond_true]

theorem components_append_sep (hx : ∀ b ∈ x, b ≠ 47) (t : ByteString) :
    components (x ++ 47 :: t) = components x ++ components t := by
  have hmem : 47 ∉ x := fun hmem ↦ hx 47 hmem rfl
  rw [components, splitOn_append_cons_self_of_not_mem hmem, components, splitOn_eq_singleton hmem,
    components]
  exact filter_append [x] _

theorem components_dropWhile (t : ByteString) :
    components (t.dropWhile (· = 47)) = components t := by
  induction t with
  | nil => rfl
  | cons b t ih =>
    by_cases hb : b = 47
    · subst hb
      rw [dropWhile_cons_of_pos (by decide), ih]
      exact (components_append_sep (x := []) (by simp) t).symm
    · rw [dropWhile_cons_of_neg (by simpa using hb)]

/-- The parts of a path are its first one and those of the rest. -/
theorem components_append (hne : x ≠ []) (hx : ∀ b ∈ x, b ≠ 47) (ht : ∀ b ∈ t.head?, b = 47) :
    components (x ++ t) =
      (if x = [46] then [] else [x]) ++ components (t.dropWhile (· = 47)) := by
  rw [components_dropWhile, ← components_of_bytes hne hx]
  cases t with
  | nil => rw [append_nil, components_nil, append_nil]
  | cons b t =>
    obtain rfl := ht b rfl
    rw [components_append_sep hx]
    rfl

theorem Loop.read_eq (h : Loop isAbsolutePath c k names rest) : c.read 0 = rest.getD 0 0 := by
  obtain hv | ⟨rfl, -, out, limit, hv, -⟩ := h.written
  · exact hv.read_eq 0
  · exact hv.read_eq 0

/-- All rounds together take in all parts. -/
theorem Loop.parts (h : Loop isAbsolutePath c k names rest) :
    ∃ k' names', Loop isAbsolutePath (c.parts isAbsolutePath) k' names' [] ∧
      stack k' names' = (components rest).foldl (push isAbsolutePath) (stack k names) := by
  induction hn : rest.length using Nat.strong_induction_on generalizing c k names rest with
  | h n ih =>
    cases rest with
    | nil =>
      have hread : ¬c.read 0 ≠ 0 := not_not.2 h.read_eq
      rw [Cursor.parts, if_neg hread]
      exact ⟨k, names, h, rfl⟩
    | cons b rest =>
      have hread : c.read 0 ≠ 0 := h.read_eq ▸ h.nul b mem_cons_self
      obtain ⟨x, t, heq, hx, ht⟩ := exists_prefix (· ≠ 47) (b :: rest)
      have hx' : ∀ b ∈ x, b ≠ 47 := fun b hb ↦ by simpa using hx b hb
      have ht' : ∀ b ∈ t.head?, b = 47 := fun b hb ↦ by simpa using ht b hb
      have hne : x ≠ [] := by
        rintro rfl
        rw [nil_append] at heq
        exact h.head b rfl (ht' b (heq ▸ rfl))
      rw [heq] at h hn ⊢
      obtain ⟨k₁, names₁, hpart, hstack⟩ := h.part hne hx' ht'
      have hlen : (t.dropWhile (· = 47)).length < n := by
        have hdrop := (dropWhile_sublist (l := t) (· = 47)).length_le
        have hpos := length_pos_iff.2 hne
        rw [length_append] at hn
        omega
      obtain ⟨k', names', hparts, hfold⟩ := ih _ hlen hpart rfl
      rw [Cursor.parts, if_pos hread]
      refine ⟨k', names', hparts, ?_⟩
      rw [hfold, hstack, components_append hne hx' ht', foldl_append]
      split <;> rfl

/-! ### The path that is returned -/

theorem intercalate_eq_body {parts : List ByteString} (hne : parts ≠ []) :
    [47].intercalate parts ++ [47] = body parts := by
  induction parts with
  | nil => exact absurd rfl hne
  | cons x parts ih =>
    cases parts with
    | nil => rw [intercalate_singleton, body_singleton]
    | cons y parts =>
      rw [intercalate_cons_cons, append_assoc, ih (cons_ne_nil _ _), ← body_singleton,
        ← body_append]
      rfl

/-- A part of a normal path. -/
structure IsPart (x : ByteString) : Prop where
  ne_nil : x ≠ []
  ne_dot : x ≠ [46]
  bytes : ∀ b ∈ x, b ≠ 0 ∧ b ≠ 47

theorem IsName.isPart (h : IsName x) : IsPart x := ⟨h.ne_nil, h.ne_dot, h.bytes⟩

theorem isPart_dotdot : IsPart [46, 46] := ⟨by simp, by simp, by simp⟩

variable {parts : List ByteString}

/-- No separator is behind the last part. -/
theorem exists_last (hne : parts ≠ []) (hparts : ∀ x ∈ parts, IsPart x) :
    ∃ y b, [47].intercalate parts = y ++ [b] ∧ b ≠ 47 := by
  induction parts with
  | nil => exact absurd rfl hne
  | cons x parts ih =>
    obtain ⟨hx, hparts⟩ := forall_mem_cons.1 hparts
    cases parts with
    | nil =>
      obtain rfl | ⟨y, b, rfl⟩ := x.eq_nil_or_concat'
      · exact absurd rfl hx.ne_nil
      · exact ⟨y, b, intercalate_singleton, (hx.bytes b (by simp)).2⟩
    | cons z parts =>
      obtain ⟨y, b, heq, hb⟩ := ih (cons_ne_nil _ _) hparts
      exact ⟨x ++ [47] ++ y, b, by rw [intercalate_cons_cons, heq, ← append_assoc], hb⟩

/-- What the end of `CleanPath` makes of the bytes written. -/
def clip (out : ByteString) : ByteString :=
  if out.length ≠ 0 then
    out.take (if 1 < out.length ∧ out.getD (out.length - 1) 0 = 47 then out.length -
      1 else out.length)
  else [46]

theorem clip_sep {out : ByteString} (hne : out ≠ []) : clip (out ++ [47]) = out := by
  have hlen := length_pos_iff.2 hne
  have hget : (out ++ [47]).getD out.length 0 = 47 := by
    rw [getD, getElem?_append_right le_rfl, Nat.sub_self]
    rfl
  rw [clip, length_append, length_singleton, Nat.add_sub_cancel, if_pos (by omega), hget,
    if_pos ⟨by omega, rfl⟩, take_left]

theorem clip_append {out : ByteString} {b : UInt8} (hb : b ≠ 47) :
    clip (out ++ [b]) = out ++ [b] := by
  have hget : (out ++ [b]).getD out.length 0 = b := by
    rw [getD, getElem?_append_right le_rfl, Nat.sub_self]
    rfl
  rw [clip, length_append, length_singleton, Nat.add_sub_cancel, if_pos (by omega), hget,
    if_neg fun h ↦ hb h.2, take_of_length_le (by rw [length_append, length_singleton])]

/-- The end of `CleanPath` looks at the bytes written only. -/
theorem Views.clip_eq (h : Views c out rest limit) :
    (if c.dst ≠ 0 then
      c.path.take (if 1 < c.dst ∧ c.path.getD (c.dst - 1) 0 = 47 then c.dst - 1 else c.dst)
    else [46]) = clip out := by
  have hdst := h.dst_eq
  have htake : ∀ n ≤ c.dst, c.path.take n = out.take n := fun n hn ↦ by
    rw [← h.out_eq, take_take, Nat.min_eq_left hn]
  rw [clip, ← hdst]
  split
  · next hne =>
    have hget : c.path.getD (c.dst - 1) 0 = out.getD (c.dst - 1) 0 := by
      rw [← h.out_eq, getD, getD, getElem?_take_of_lt (by omega)]
    rw [hget, htake _ (by split <;> omega)]
  · rfl

/-- The parts of the path written. -/
theorem Loop.isPart (h : Loop isAbsolutePath c k names rest) :
    ∀ x ∈ List.replicate k [46, 46] ++ names, IsPart x := by
  rw [forall_mem_append]
  exact ⟨fun x hx ↦ eq_of_mem_replicate hx ▸ isPart_dotdot, fun x hx ↦ (h.isName x hx).isPart⟩

/-- What is returned once all parts are written. -/
theorem Loop.clip_eq (h : Loop isAbsolutePath c k names []) :
    (if c.dst ≠ 0 then
      c.path.take (if 1 < c.dst ∧ c.path.getD (c.dst - 1) 0 = 47 then c.dst - 1 else c.dst)
    else [46]) = render isAbsolutePath (List.replicate k [46, 46] ++ names) := by
  have hbase : base isAbsolutePath k ++ body names =
      (if isAbsolutePath then [47] else []) ++ body (replicate k [46, 46] ++ names) := by
    rw [base, body_append, append_assoc]
  have hpart := h.isPart
  have hwritten := h.written
  by_cases hnil : replicate k [46, 46] ++ names = []
  · -- there are no parts
    obtain ⟨hk, rfl⟩ := append_eq_nil_iff.1 hnil
    obtain rfl := (replicate_eq_nil_iff _).1 hk
    obtain hv | ⟨-, hpos, -⟩ := hwritten
    · rw [hv.clip_eq, hnil]
      cases isAbsolutePath <;> rfl
    · exact absurd hpos (by simp)
  · obtain ⟨y, b, hlast, hb⟩ := exists_last hnil hpart
    have hne : [47].intercalate (replicate k [46, 46] ++ names) ≠ [] := by
      rw [hlast]
      exact append_ne_nil_of_right_ne_nil _ (cons_ne_nil _ _)
    have hrender : render isAbsolutePath (replicate k [46, 46] ++ names) =
        (if isAbsolutePath then [47] else []) ++
          [47].intercalate (replicate k [46, 46] ++ names) := by
      cases isAbsolutePath
      · exact if_neg hnil
      · rfl
    have hfull : base isAbsolutePath k ++ body names =
        render isAbsolutePath (replicate k [46, 46] ++ names) ++ [47] := by
      rw [hbase, hrender, append_assoc, intercalate_eq_body hnil]
    obtain hv | ⟨-, -, out, limit, hv, hout⟩ := hwritten
    · rw [hv.clip_eq, hfull, clip_sep]
      rw [hrender]
      exact append_ne_nil_of_right_ne_nil _ hne
    · obtain rfl := append_cancel_right (hout.trans hfull)
      rw [hv.clip_eq, hrender, hlast, ← append_assoc, clip_append hb]

/-! ### All of it -/

/-- The loop begins behind the separators of the root. -/
theorem loop_start {path : ByteString} (hnul : ∀ b ∈ path, b ≠ 0) :
    Loop (path.getD 0 0 = 47) (Cursor.start path) 0 [] (path.dropWhile (· = 47)) := by
  have hhead : ∀ b ∈ (path.dropWhile (· = 47)).head?, b ≠ 47 := fun b hb ↦ by
    have hstop := head?_dropWhile_not (· = 47) path
    rw [hb] at hstop
    simpa using hstop
  have hnul' : ∀ b ∈ path.dropWhile (· = 47), b ≠ 0 := fun b hb ↦
    hnul b ((dropWhile_sublist _).subset hb)
  refine ⟨by simp, fun _ ↦ rfl, hnul', hhead, .inl ?_⟩
  have hbegin : Views ⟨path, 0, 0, 0, []⟩ [] path 0 :=
    ⟨rfl, rfl, rfl, le_rfl, Nat.zero_le _, by simp⟩
  have hread : (⟨path, 0, 0, 0, []⟩ : Cursor).read 0 = path.getD 0 0 := hbegin.read_eq 0
  rw [Cursor.start, hread]
  cases path with
  | nil => exact hbegin
  | cons b path =>
    by_cases hb : b = 47
    · subst hb
      have hv := hbegin.copy.skipSeparators
      rw [dropWhile_cons_of_pos (by decide)]
      exact ⟨hv.out_eq, hv.rest_eq, hv.dst_eq, hv.dst_le, hv.src_le, hv.writes_le⟩
    · have hfirst : ¬(b :: path).getD 0 0 = 47 := hb
      rw [if_neg hfirst, dropWhile_cons_of_neg (by simpa using hb), decide_eq_false hfirst]
      exact hbegin

theorem head?_eq_iff (path : ByteString) : path.head? = some 47 ↔ path.getD 0 0 = 47 := by
  cases path with
  | nil => decide
  | cons b path => exact Option.some_inj

/-- What the loop has written when it is done. -/
theorem exists_loop_run {path : ByteString} (hnul : ∀ b ∈ path, b ≠ 0) :
    ∃ k names, Loop (path.getD 0 0 = 47) (Cursor.run path) k names [] ∧
      stack k names = (components path).foldl (push (path.getD 0 0 = 47)) [] := by
  obtain ⟨k, names, hloop, hstack⟩ := (loop_start hnul).parts
  rw [components_dropWhile] at hstack
  exact ⟨k, names, hloop, hstack⟩

theorem reverse_stack (k : ℕ) (names : List ByteString) :
    (stack k names).reverse = List.replicate k [46, 46] ++ names := by
  rw [stack, reverse_append, reverse_reverse, reverse_replicate]

/-- The path that is returned has the parts that its normalisation has. -/
theorem exists_parts {path : ByteString} (hnul : ∀ b ∈ path, b ≠ 0) :
    ∃ k names, (∀ x ∈ names, IsName x) ∧ (path.getD 0 0 = 47 → k = 0) ∧
      cleanPath path = render (path.getD 0 0 = 47) (List.replicate k [46, 46] ++ names) ∧
      normalised path = render (path.getD 0 0 = 47) (List.replicate k [46, 46] ++ names) := by
  obtain ⟨k, names, hloop, hstack⟩ := exists_loop_run hnul
  refine ⟨k, names, hloop.isName, fun h ↦ hloop.relative (decide_eq_true h), hloop.clip_eq, ?_⟩
  simp only [normalised, head?_eq_iff]
  rw [← hstack, reverse_stack]

theorem foldl_push_replicate (k : ℕ) :
    (List.replicate k [46, 46]).foldl (push false) [] = List.replicate k [46, 46] := by
  induction k with
  | zero => rfl
  | succ k ih =>
    rw [replicate_succ', foldl_append, ih]
    exact (push_dotdot_replicate k).trans replicate_succ'

theorem foldl_push_names (hnames : ∀ x ∈ names, IsName x) (above : List ByteString) :
    names.foldl (push isAbsolutePath) above = names.reverse ++ above := by
  induction names generalizing above with
  | nil => rfl
  | cons x names ih =>
    obtain ⟨hx, hnames⟩ := forall_mem_cons.1 hnames
    rw [foldl_cons, push_name hx.ne_dotdot, ih hnames, reverse_cons, append_assoc]
    rfl

theorem components_intercalate (hparts : ∀ x ∈ parts, IsPart x) :
    components ([47].intercalate parts) = parts := by
  by_cases hne : parts = []
  · rw [hne]
    rfl
  · rw [components,
      splitOn_intercalate 47 (fun x hx hmem ↦ ((hparts x hx).bytes 47 hmem).2 rfl) hne]
    exact filter_eq_self.2 fun x hx ↦ decide_eq_true ⟨(hparts x hx).ne_nil, (hparts x hx).ne_dot⟩

/-- A normal path is its own normalisation. -/
theorem normalised_render (hnames : ∀ x ∈ names, IsName x) (hk : isAbsolutePath = true → k = 0) :
    normalised (render isAbsolutePath (List.replicate k [46, 46] ++ names)) =
      render isAbsolutePath (List.replicate k [46, 46] ++ names) := by
  have hparts : ∀ x ∈ replicate k [46, 46] ++ names, IsPart x :=
    forall_mem_append.2 ⟨fun x hx ↦ eq_of_mem_replicate hx ▸ isPart_dotdot,
      fun x hx ↦ (hnames x hx).isPart⟩
  have hcomponents := components_intercalate hparts
  cases isAbsolutePath with
  | true =>
    obtain rfl := hk rfl
    rw [replicate_zero, nil_append] at hcomponents ⊢
    have hroot : components (render true names) = names :=
      (components_append_sep (x := []) (by simp) _).trans hcomponents
    have habs : decide ((render true names).head? = some 47) = true := rfl
    rw [normalised, hroot, habs, foldl_push_names hnames, append_nil, reverse_reverse]
  | false =>
    by_cases hnil : replicate k [46, 46] ++ names = []
    · rw [hnil]
      rfl
    · have hrender : render false (replicate k [46, 46] ++ names) =
          [47].intercalate (replicate k [46, 46] ++ names) := if_neg hnil
      have hrel : decide ((render false (replicate k [46, 46] ++ names)).head? = some 47) =
          false := by
        obtain ⟨x, xs, heq⟩ := exists_cons_of_ne_nil hnil
        have hx := hparts x (heq ▸ mem_cons_self)
        obtain ⟨b, y, rfl⟩ := exists_cons_of_ne_nil hx.ne_nil
        rw [hrender, heq, intercalate_cons_cons_left]
        exact decide_eq_false fun h ↦ (hx.bytes b mem_cons_self).2 (Option.some.inj h)
      rw [normalised, hrel, hrender, hcomponents, foldl_append, foldl_push_replicate,
        foldl_push_names hnames, reverse_append, reverse_reverse, reverse_replicate, hrender]

theorem nul_render (hparts : ∀ x ∈ parts, IsPart x) : ∀ b ∈ render isAbsolutePath parts, b ≠ 0 := by
  have hinner : ∀ b ∈ [47].intercalate parts, b ≠ 0 := fun b hb ↦ by
    by_cases hne : parts = []
    · rw [hne] at hb
      exact absurd hb not_mem_nil
    · have hmem : b ∈ body parts := intercalate_eq_body hne ▸ mem_append_left _ hb
      obtain ⟨x, hx, hbx⟩ := mem_flatMap.1 hmem
      obtain hbx | hbx := mem_append.1 hbx
      · exact ((hparts x hx).bytes b hbx).1
      · rw [mem_singleton.1 hbx]
        decide
  rw [render]
  split
  · exact forall_mem_cons.2 ⟨by decide, hinner⟩
  · split
    · simp
    · exact hinner

/-- **`CleanPath` normalises its path**, what it returns is normal, and no byte is written behind
the one that it is copied from. -/
theorem cleanPath_normalises {path : ByteString} (hnul : ∀ b ∈ path, b ≠ 0) :
    cleanPath path = normalised path ∧ cleanPath (cleanPath path) = cleanPath path ∧
      (∀ x ∈ (Cursor.run path).writes, x.1 ≤ x.2) ∧
      (Cursor.run path).dst ≤ (Cursor.run path).src := by
  obtain ⟨k, names, hnames, hk, hclean, hnormal⟩ := exists_parts hnul
  have hparts : ∀ x ∈ replicate k [46, 46] ++ names, IsPart x :=
    forall_mem_append.2 ⟨fun x hx ↦ eq_of_mem_replicate hx ▸ isPart_dotdot,
      fun x hx ↦ (hnames x hx).isPart⟩
  refine ⟨hclean.trans hnormal.symm, ?_, ?_⟩
  · obtain ⟨k', names', -, -, hclean', hnormal'⟩ := exists_parts (nul_render hparts)
    rw [hclean, hclean', ← hnormal']
    exact normalised_render hnames fun h ↦ hk (of_decide_eq_true h)
  · obtain ⟨k', names', hloop, -⟩ := exists_loop_run hnul
    obtain hv | ⟨-, -, out, limit, hv, -⟩ := hloop.written
    · exact ⟨hv.writes_le, hv.dst_le⟩
    · exact ⟨hv.writes_le, hv.dst_le⟩

/-- The `..` takes back the `b` in front of it. -/
theorem cleanPath_normalises_dots : cleanPath (ascii "/a/./b//../c/") = ascii "/a/c" := by
  have hnul : ∀ b ∈ ascii "/a/./b//../c/", b ≠ 0 := by simp [ascii]
  exact (cleanPath_normalises hnul).1.trans (by decide)

end TensorFlowCore.Io
