import Mathlib.Data.List.ModifyLast
import TensorFlowCore.Core.Integers
import TensorFlowCore.Support.Broadcasting

/-!
# `BCast`

`tensorflow/core/util/bcast.cc`: from the shapes of two operands, the shapes and the numbers of
copies with which a binary operation is computed on fewer dimensions, and the axes along which its
gradients are summed. A failed `CHECK` ends the process, so the constructor returns an `Option`; the
products are those of `int64`s.

The constructor walks from the innermost dimension, and it is followed here from the outermost one,
as the reversed vectors are. What it has pushed for some dimensions is what `runs` makes of them
(`foldlM_rounds`): a run of dimensions of the same kind is one column. Merging columns changes
neither what a tile reads nor how many elements there are (`runs_reads`), and this is why the
constructor may do it.
-/

namespace TensorFlowCore

open List RowMajor

/-- `BCast`, with the vectors' entries in `δ`. -/
structure BCast (δ : Type) where
  valid : Bool := true
  xReshape : List δ := []
  xBcast : List δ := []
  yReshape : List δ := []
  yBcast : List δ := []
  result : List δ := []
  output : List δ := []
  gradXReduceIdx : List δ := []
  gradYReduceIdx : List δ := []

namespace BCast

/-- All vectors changed in the same way. -/
def mapVectors {δ ε : Type} (f : List δ → List ε) (b : BCast δ) : BCast ε where
  valid := b.valid
  xReshape := f b.xReshape
  xBcast := f b.xBcast
  yReshape := f b.yReshape
  yBcast := f b.yBcast
  result := f b.result
  output := f b.output
  gradXReduceIdx := f b.gradXReduceIdx
  gradYReduceIdx := f b.gradYReduceIdx

/-! ## The constructor -/

/-- `State`. -/
inductive State
  | unknown | same | xOne | yOne
deriving DecidableEq

/-- How the dimensions `x_i` and `y_i` compare, with `o_i`, `bx_i` and `by_i`. -/
structure Compared where
  curr : State
  o : ℤ
  bx : ℤ
  by' : ℤ

/-- The comparison. -/
def compare (x y : ℤ) : Option Compared :=
  if x = y then some ⟨.same, x, 1, 1⟩
  else if x = 1 then some ⟨.xOne, y, y, 1⟩
  else if y = 1 then some ⟨.yOne, x, 1, x⟩
  else none

/-- `push_back`, for a dimension of `result_`. -/
def pushBack (b : BCast ℤ) (x y : ℤ) (c : Compared) : BCast ℤ :=
  { b with
    result := b.result ++ [c.o]
    xReshape := b.xReshape ++ [x]
    xBcast := b.xBcast ++ [c.bx]
    yReshape := b.yReshape ++ [y]
    yBcast := b.yBcast ++ [c.by'] }

/-- `v.back() *= a`. -/
def mulLast (v : List ℤ) (a : ℤ) : List ℤ := v.modifyLast fun last ↦ int64 (last * a)

/-- The same dimension of `result_` is used once more. -/
def mulBack (b : BCast ℤ) (x y : ℤ) (c : Compared) : BCast ℤ :=
  { b with
    result := mulLast b.result c.o
    xReshape := mulLast b.xReshape x
    xBcast := mulLast b.xBcast c.bx
    yReshape := mulLast b.yReshape y
    yBcast := mulLast b.yBcast c.by' }

/-- The dimension of the output, and the axes along which the gradients are summed. -/
def addOutput (b : BCast ℤ) (axis : ℤ) (bothOne : Prop) [Decidable bothOne] (c : Compared) :
    BCast ℤ :=
  { b with
    output := b.output ++ [c.o]
    gradXReduceIdx :=
      if c.curr = .xOne ∨ bothOne then b.gradXReduceIdx ++ [axis] else b.gradXReduceIdx
    gradYReduceIdx :=
      if c.curr = .yOne ∨ bothOne then b.gradYReduceIdx ++ [axis] else b.gradYReduceIdx }

/-- The variables of the loop. -/
structure Loop where
  i : ℤ
  prev : State
  b : BCast ℤ

/-- One round of the loop. One that has returned does nothing more. -/
def round (fewerDims : Bool) (n : ℤ) (s : Loop) (dims : ℤ × ℤ) : Option Loop :=
  if s.b.valid = false then some s
  else if dims.1 < 0 ∨ dims.2 < 0 then none
  else some <|
    match compare dims.1 dims.2 with
    | none => { s with b := { s.b with valid := false } }
    | some c =>
      let bothOne := c.curr = .same ∧ dims.1 = 1
      let b := s.b.addOutput (n - 1 - s.i) bothOne c
      if bothOne then ⟨s.i + 1, s.prev, if fewerDims then b else b.pushBack dims.1 dims.2 c⟩
      else if fewerDims ∧ s.prev = c.curr then ⟨s.i + 1, c.curr, b.mulBack dims.1 dims.2 c⟩
      else ⟨s.i + 1, c.curr, b.pushBack dims.1 dims.2 c⟩

/-- What is left to do after the loop. -/
def finish (b : BCast ℤ) : BCast ℤ :=
  (if b.result = [] then b.pushBack 1 1 ⟨.same, 1, 1, 1⟩ else b).mapVectors List.reverse

/-- `resize`, which only ever makes the vector longer here. -/
def resize (v : List ℤ) (size : ℕ) : List ℤ := v ++ List.replicate (size - v.length) 1

/-- The constructor. -/
def construct (sx sy : List ℤ) (fewerDims : Bool) : Option (BCast ℤ) :=
  if sx = sy ∧ fewerDims = true then
    let elements := sx.foldl (fun elements dim ↦ int64 (elements * dim)) 1
    some { xReshape := [elements], xBcast := [1], yReshape := [elements], yBcast := [1], result :=
    [elements], output := sx }
  else
    let n := max sx.length sy.length
    (((resize sx.reverse n).zip (resize sy.reverse n)).foldlM (round fewerDims n)
    ⟨0, .unknown, {}⟩).map fun s ↦
      if s.b.valid then s.b.finish else s.b

/-! ## Runs of dimensions -/

/-- Which of the dimensions is broadcast, with the dimension of the output. -/
def kindOf (p : ℕ × ℕ) : State × ℕ :=
  if p.1 = p.2 then (.same, p.1) else if p.1 = 1 then (.xOne, p.2) else (.yOne, p.1)

/-- The dimension of the operand that is broadcast if the kind is `one`. -/
def sizeOn (one : State) (d : State × ℕ) : ℕ := if d.1 = one then 1 else d.2

/-- The number of copies of it. -/
def copiesOn (one : State) (d : State × ℕ) : ℕ := if d.1 = one then d.2 else 1

/-- A dimension in front of a run. -/
def addToRuns (d : State × ℕ) : List (State × ℕ) → List (State × ℕ)
  | [] => [d]
  | r :: runs => if r.1 = d.1 then (d.1, d.2 * r.2) :: runs else d :: r :: runs

/-- The runs, without the dimensions that are `1` on both sides. -/
def runs (ds : List (State × ℕ)) : List (State × ℕ) :=
  (ds.filter (· ≠ (.same, 1))).foldr addToRuns []

/-- The columns of the vectors. -/
def columns (fewerDims : Bool) (ds : List (State × ℕ)) : List (State × ℕ) :=
  if fewerDims then runs ds else ds

/-- There is a column at least. -/
def orOne (cols : List (State × ℕ)) : List (State × ℕ) := if cols = [] then [(.same, 1)] else cols

/-! ### What they read -/

section
variable (one : State)

/-- The places of the operand that are read. -/
def reads (ds : List (State × ℕ)) : List ℕ := tilePlaces (ds.map (sizeOn one)) (ds.map Prod.snd)

/-- The number of its elements. -/
def elements (ds : List (State × ℕ)) : ℕ := (ds.map (sizeOn one)).prod

theorem sizeOn_mul (k : State) (m n : ℕ) :
    sizeOn one (k, m * n) = sizeOn one (k, m) * sizeOn one (k, n) := by
  unfold sizeOn
  split
  · rfl
  · rfl

theorem copiesOn_mul (k : State) (m n : ℕ) :
    copiesOn one (k, m * n) = copiesOn one (k, m) * copiesOn one (k, n) := by
  unfold copiesOn
  split
  · rfl
  · rfl

theorem sizeOn_mul_copiesOn (d : State × ℕ) : sizeOn one d * copiesOn one d = d.2 := by
  unfold sizeOn copiesOn
  split
  · exact Nat.one_mul _
  · exact Nat.mul_one _

theorem sizeOn_le (d : State × ℕ) : sizeOn one d ≤ max 1 d.2 := by
  unfold sizeOn
  split
  · exact le_max_left _ _
  · exact le_max_right _ _

theorem copiesOn_le (d : State × ℕ) : copiesOn one d ≤ max 1 d.2 := by
  unfold copiesOn
  split
  · exact le_max_right _ _
  · exact le_max_left _ _

theorem sizeOn_one_eq (k : State) : sizeOn one (k, 1) = 1 := by
  unfold sizeOn
  split
  · rfl
  · rfl

/-- A dimension that reads as many places as the run does. -/
theorem reads_cons_congr {ds ds' : List (State × ℕ)} (d : State × ℕ)
    (h : reads one ds' = reads one ds ∧ elements one ds' = elements one ds) :
    reads one (d :: ds') = reads one (d :: ds) ∧
    elements one (d :: ds') = elements one (d :: ds) := by
  refine ⟨tilePlaces_cons_congr _ _ h.2 h.1, ?_⟩
  rw [elements, elements, map_cons, map_cons, prod_cons, prod_cons]
  exact congrArg _ h.2

theorem addToRuns_reads (d : State × ℕ) (rs : List (State × ℕ)) :
    reads one (addToRuns d rs) = reads one (d :: rs) ∧
    elements one (addToRuns d rs) = elements one (d :: rs) := by
  cases rs with
  | nil => exact ⟨rfl, rfl⟩
  | cons r rs =>
    rw [addToRuns]
    split
    · next hkind =>
      obtain ⟨k, n⟩ := d
      obtain ⟨k', m⟩ := r
      obtain rfl : k' = k := hkind
      constructor
      · -- both are copied, or both are repeated
        have hboth : (sizeOn one (k', n) = n ∧ sizeOn one (k', m) = m) ∨
            (sizeOn one (k', n) = 1 ∧ sizeOn one (k', m) = 1) := by
          unfold sizeOn
          split
          · exact .inr ⟨rfl, rfl⟩
          · exact .inl ⟨rfl, rfl⟩
        simp only [reads, map_cons, sizeOn_mul]
        exact tilePlaces_merge hboth _ _
      · simp only [elements, map_cons, prod_cons, sizeOn_mul, Nat.mul_assoc]
    · exact ⟨rfl, rfl⟩

/-- The runs read the places that the dimensions read. -/
theorem runs_reads (ds : List (State × ℕ)) :
    reads one (runs ds) = reads one ds ∧ elements one (runs ds) = elements one ds := by
  induction ds with
  | nil => exact ⟨rfl, rfl⟩
  | cons d ds ih =>
    rw [runs] at ih ⊢
    by_cases hd : d = (.same, 1)
    · rw [filter_cons_of_neg (by simpa using hd), hd, ih.1, ih.2]
      simp only [reads, elements, map_cons, sizeOn_one_eq, tilePlaces_one_cons, prod_cons,
        Nat.one_mul, and_self]
    · rw [filter_cons_of_pos (by simpa using hd), foldr_cons]
      obtain ⟨hreads, helements⟩ :=
        addToRuns_reads one d ((ds.filter (· ≠ (.same, 1))).foldr addToRuns [])
      rw [hreads, helements]
      exact reads_cons_congr one d ih

theorem orOne_reads (ds : List (State × ℕ)) :
    reads one (orOne ds) = reads one ds ∧ elements one (orOne ds) = elements one ds := by
  rw [orOne]
  split
  · next hnil =>
    rw [hnil]
    simp only [reads, elements, map_cons, map_nil, sizeOn_one_eq, tilePlaces_one_cons, prod_cons,
      Nat.one_mul, and_self]
  · exact ⟨rfl, rfl⟩

theorem columns_reads (fewerDims : Bool) (ds : List (State × ℕ)) :
    reads one (orOne (columns fewerDims ds)) = reads one ds ∧
      elements one (orOne (columns fewerDims ds)) = elements one ds := by
  obtain ⟨hreads, helements⟩ := orOne_reads one (columns fewerDims ds)
  rw [hreads, helements]
  cases fewerDims with
  | false => exact ⟨rfl, rfl⟩
  | true => exact runs_reads one ds

end

/-! ### How large they are -/

theorem runs_one_cons (ds : List (State × ℕ)) : runs ((.same, 1) :: ds) = runs ds := rfl

theorem runs_cons_of_ne {d : State × ℕ} (hd : d ≠ (.same, 1)) (ds : List (State × ℕ)) :
    runs (d :: ds) = addToRuns d (runs ds) := by
  rw [runs, filter_cons_of_pos (by simpa using hd), foldr_cons, runs]

/-- The first run is the dimension, or the first one was and has got it. -/
theorem head?_addToRuns (d : State × ℕ) (rs : List (State × ℕ)) : (addToRuns d rs).head? = some d ∨
    ∃ r, rs.head? = some r ∧ (addToRuns d rs).head? = some (d.1, d.2 * r.2) := by
  cases rs with
  | nil => exact .inl rfl
  | cons r rs =>
    rw [addToRuns]
    split
    · exact .inr ⟨r, rfl, rfl⟩
    · exact .inl rfl

/-! ### What the loop builds -/

/-- The numbers of the dimensions along which there is one copied element, the first one having the
number `k`. -/
def onesFrom (one : State) (k : ℕ) (ds : List (State × ℕ)) : List ℕ :=
  ((ds.zipIdx k).filter fun p ↦ sizeOn one p.1 = 1).map Prod.snd

theorem onesFrom_cons (one : State) (k : ℕ) (d : State × ℕ) (ds : List (State × ℕ)) :
    onesFrom one k (d :: ds) = if sizeOn one d = 1 then k :: onesFrom one (k + 1) ds else onesFrom
    one (k + 1) ds := by
  rw [onesFrom, zipIdx_cons]
  split
  · next h => rw [filter_cons_of_pos (by exact decide_eq_true h), map_cons, onesFrom]
  · next h => rw [filter_cons_of_neg (by simpa using h), onesFrom]

/-- The vectors for dimensions with `k` ones in front of them. -/
def vectors (cols ds : List (State × ℕ)) (k : ℕ) : BCast ℕ where
  xReshape := cols.map (sizeOn .xOne)
  xBcast := cols.map (copiesOn .xOne)
  yReshape := cols.map (sizeOn .yOne)
  yBcast := cols.map (copiesOn .yOne)
  result := cols.map Prod.snd
  output := ds.map Prod.snd
  gradXReduceIdx := onesFrom .xOne k ds
  gradYReduceIdx := onesFrom .yOne k ds

/-- The entry of a vector for a product. -/
def entry (n : ℕ) : ℤ := int64 n

/-- The vectors with their products as they are computed. -/
def computed (b : BCast ℕ) : BCast ℤ where
  valid := b.valid
  xReshape := b.xReshape.map entry
  xBcast := b.xBcast.map entry
  yReshape := b.yReshape.map entry
  yBcast := b.yBcast.map entry
  result := b.result.map entry
  output := b.output.map Nat.cast
  gradXReduceIdx := b.gradXReduceIdx.map Nat.cast
  gradYReduceIdx := b.gradYReduceIdx.map Nat.cast

theorem entry_of_lt {n : ℕ} (h : n < 2 ^ 63) :
    entry n = n := int64_of_lt (Int.natCast_nonneg n) (by omega)

theorem entry_mul (m n : ℕ) : int64 (entry m * entry n) = entry (m * n) := by
  unfold entry int64
  rw [Int.bmod_mul_bmod, Int.mul_bmod_bmod, Nat.cast_mul]

theorem mulLast_reverse_cons (a m : ℕ) (v : List ℤ) :
    mulLast (entry m :: v).reverse (entry a) = (entry (a * m) :: v).reverse := by
  rw [mulLast, reverse_cons, modifyLast_concat, entry_mul, Nat.mul_comm, reverse_cons]

/-- The dimensions are compatible. -/
def Fit (p : ℕ × ℕ) : Prop := p.1 = p.2 ∨ p.1 = 1 ∨ p.2 = 1

variable {p : ℕ × ℕ}

theorem sizeOn_xOne_kindOf (p : ℕ × ℕ) : sizeOn .xOne (kindOf p) = p.1 := by
  unfold kindOf
  split
  · rfl
  · split
    · next hx => exact hx.symm
    · rfl

theorem sizeOn_yOne_kindOf (h : Fit p) : sizeOn .yOne (kindOf p) = p.2 := by
  unfold kindOf
  split
  · next hsame => exact hsame
  · next hsame =>
    split
    · rfl
    · next hx => exact ((h.resolve_left hsame).resolve_left hx).symm

theorem kindOf_fst_ne (p : ℕ × ℕ) : (kindOf p).1 ≠ .unknown := by
  unfold kindOf
  split
  · exact State.noConfusion
  · split
    · exact State.noConfusion
    · exact State.noConfusion

/-- The result of a comparison. -/
def compared (d : State × ℕ) : Compared := ⟨d.1, d.2, copiesOn .xOne d, copiesOn .yOne d⟩

theorem compare_of_fit (h : Fit p) : compare p.1 p.2 = some (compared (kindOf p)) := by
  unfold compare kindOf
  split
  · next hsame =>
    rw [if_pos (Int.natCast_inj.1 hsame)]
    rfl
  · next hsame =>
    rw [if_neg (mt Int.natCast_inj.2 hsame)]
    split
    · next hx =>
      rw [if_pos (Nat.cast_eq_one.1 hx)]
      rfl
    · next hx =>
      rw [if_neg (mt Nat.cast_eq_one.2 hx)]
      have hy := (h.resolve_left (mt Int.natCast_inj.2 hsame)).resolve_left
        (mt Nat.cast_eq_one.2 hx)
      rw [if_pos (Nat.cast_eq_one.2 hy)]
      rfl

theorem compare_of_not_fit (h : ¬Fit p) : compare p.1 p.2 = none := by
  rw [Fit, not_or, not_or] at h
  unfold compare
  rw [if_neg (mt Int.natCast_inj.1 h.1), if_neg (mt Nat.cast_eq_one.1 h.2.1),
    if_neg (mt Nat.cast_eq_one.1 h.2.2)]

theorem bothOne_iff (p : ℕ × ℕ) :
    ((kindOf p).1 = .same ∧ (p.1 : ℤ) = 1) ↔ kindOf p = (.same, 1) := by
  rw [Nat.cast_eq_one, Prod.ext_iff]
  refine and_congr_right fun hsame ↦ ?_
  have hsize := sizeOn_xOne_kindOf p
  rw [sizeOn, hsame, if_neg (by decide)] at hsize
  rw [hsize]

/-- The axes along which there is one element. -/
theorem axis_iff {one : State} {d : State × ℕ} (hd : d.1 = .same ∨ d.2 ≠ 1) :
    (d.1 = one ∨ d = (.same, 1)) ↔ sizeOn one d = 1 := by
  unfold sizeOn
  split
  · next h => exact ⟨fun _ ↦ rfl, fun _ ↦ .inl h⟩
  · next h =>
    rw [or_iff_right h, Prod.ext_iff]
    refine ⟨fun heq ↦ heq.2, fun hsize ↦ ⟨?_, hsize⟩⟩
    exact hd.resolve_right (not_not_intro hsize)

/-- A dimension of size `1` is one on both sides, or the one that is broadcast. -/
theorem kindOf_snd_ne (p : ℕ × ℕ) : (kindOf p).1 = .same ∨ (kindOf p).2 ≠ 1 := by
  unfold kindOf
  split
  · exact .inl rfl
  · next hsame =>
    refine .inr ?_
    split
    · next hx => exact fun hy ↦ hsame (hx.trans hy.symm)
    · next hx => exact hx

/-- The vectors as they are before they are reversed. -/
def reversed (cols ds : List (State × ℕ)) (k : ℕ) : BCast ℤ :=
  (computed (vectors cols ds k)).mapVectors List.reverse

/-- The loop has done the dimensions `ds`, with `k` ones left in front of them. -/
structure Built (fewerDims : Bool) (k : ℕ) (ds : List (State × ℕ)) (s : Loop) : Prop where
  i_eq : s.i = ds.length
  b_eq : s.b = reversed (columns fewerDims ds) ds k
  prev_eq : fewerDims = true → s.prev = ((runs ds).head?.map Prod.fst).getD .unknown

section
variable (cols ds : List (State × ℕ)) (k : ℕ) (d : State × ℕ)

theorem addOutput_reversed (hd : d.1 = .same ∨ d.2 ≠ 1) :
    (reversed cols ds (k + 1)).addOutput k (d = (.same, 1)) (compared d) =
    reversed cols (d :: ds) k := by
  have haxes : ∀ one, (if d.1 = one ∨
    d = (.same, 1) then (((onesFrom one (k + 1) ds).map Nat.cast).reverse ++ [(k : ℤ)])
      else ((onesFrom one (k + 1) ds).map Nat.cast).reverse) =
      ((onesFrom one k (d :: ds)).map Nat.cast).reverse := fun one ↦ by
    simp only [axis_iff hd, onesFrom_cons]
    split
    · rw [map_cons, reverse_cons]
    · rfl
  unfold addOutput
  congr 1
  · exact reverse_cons.symm
  · exact haxes .xOne
  · exact haxes .yOne

theorem pushBack_reversed (hd : d.2 < 2 ^ 63) :
    (reversed cols ds k).pushBack (sizeOn .xOne d) (sizeOn .yOne d) (compared d) =
      reversed (d :: cols) ds k := by
  have hpush : ∀ f : State × ℕ → ℕ, f d ≤ max 1 d.2 →
      ((cols.map f).map entry).reverse ++ [(f d : ℤ)] = (((d :: cols).map f).map entry).reverse :=
      fun f hf ↦ by
    rw [map_cons, map_cons, reverse_cons, entry_of_lt (by omega)]
  unfold pushBack
  congr 1
  · exact hpush _ (sizeOn_le _ _)
  · exact hpush _ (copiesOn_le _ _)
  · exact hpush _ (sizeOn_le _ _)
  · exact hpush _ (copiesOn_le _ _)
  · exact hpush _ (le_max_right _ _)

theorem mulBack_reversed (n : ℕ) (hd : d.2 < 2 ^ 63) :
    (reversed ((d.1, n) :: cols) ds k).mulBack (sizeOn .xOne d) (sizeOn .yOne d) (compared d) =
      reversed ((d.1, d.2 * n) :: cols) ds k := by
  have hmul : ∀ f : State × ℕ → ℕ, f d ≤ max 1 d.2 → f (d.1, d.2 * n) = f d * f (d.1, n) →
      mulLast ((((d.1, n) :: cols).map f).map entry).reverse (f d) =
        ((((d.1, d.2 * n) :: cols).map f).map entry).reverse := fun f hf hmul ↦ by
    rw [map_cons, map_cons, ← entry_of_lt (show f d < 2 ^ 63 by omega), mulLast_reverse_cons,
      map_cons, map_cons, hmul]
  unfold mulBack
  congr 1
  · exact hmul _ (sizeOn_le _ _) (sizeOn_mul _ _ _ _)
  · exact hmul _ (copiesOn_le _ _) (copiesOn_mul _ _ _ _)
  · exact hmul _ (sizeOn_le _ _) (sizeOn_mul _ _ _ _)
  · exact hmul _ (copiesOn_le _ _) (copiesOn_mul _ _ _ _)
  · exact hmul _ (le_max_right _ _) rfl

end

/-- A round for compatible dimensions adds them. -/
theorem round_built {fewerDims : Bool} {k : ℕ} {ds : List (State × ℕ)} {s : Loop} (hp : Fit p)
    (hx : p.1 < 2 ^ 63) (hy : p.2 < 2 ^ 63) (hs : Built fewerDims (k + 1) ds s) :
    ∃ s', round fewerDims (k + 1 + ds.length : ℕ) s (p.1, p.2) = some s' ∧
    Built fewerDims k (kindOf p :: ds) s' := by
  obtain ⟨i, prev, b⟩ := s
  obtain ⟨hi, hb, hprev⟩ := hs
  dsimp only at hi hb hprev
  subst hi hb
  have hnonneg : ¬((p.1 : ℤ) < 0 ∨ (p.2 : ℤ) < 0) := by omega
  have haxis : ((k + 1 + ds.length : ℕ) : ℤ) - 1 - ds.length = k := by omega
  have hlt : (kindOf p).2 < 2 ^ 63 := by
    unfold kindOf
    split
    · exact hx
    · split
      · exact hy
      · exact hx
  have hkind := kindOf_snd_ne p
  rw [round, if_neg (Bool.noConfusion), if_neg hnonneg, compare_of_fit hp]
  refine ⟨_, rfl, ?_⟩
  dsimp only
  rw [haxis]
  simp only [show (compared (kindOf p)).curr = (kindOf p).1 from rfl, bothOne_iff,
    addOutput_reversed _ _ _ _ hkind]
  rw [← sizeOn_xOne_kindOf p, ← sizeOn_yOne_kindOf hp]
  have hunknown := kindOf_fst_ne p
  generalize kindOf p = d at hlt hunknown
  have hlength : ((d :: ds).length : ℤ) = ds.length + 1 := by rw [length_cons, Nat.cast_succ]
  split
  · -- a dimension that is dropped
    next hone =>
    subst hone
    refine ⟨hlength.symm, ?_, hprev⟩
    cases fewerDims with
    | false => exact pushBack_reversed _ _ _ _ hlt
    | true => rfl
  · next hone =>
    cases fewerDims with
    | false =>
      rw [if_neg (fun h ↦ Bool.noConfusion h.1)]
      exact ⟨hlength.symm, pushBack_reversed _ _ _ _ hlt, fun h ↦ Bool.noConfusion h⟩
    | true =>
      have hcolumns : columns true (d :: ds) = addToRuns d (runs ds) := runs_cons_of_ne hone ds
      have hhead : ∀ rs, ((addToRuns d rs).head?.map Prod.fst).getD .unknown = d.1 := fun rs ↦ by
        obtain hfirst | ⟨_, -, hfirst⟩ := head?_addToRuns d rs
        · rw [hfirst]; rfl
        · rw [hfirst]; rfl
      rw [hprev rfl]
      show Built true k (d :: ds) (if true = true ∧
        _ then ⟨_, _, mulBack (reversed (runs ds) (d :: ds) k) _ _ _⟩
        else ⟨_, _, pushBack (reversed (runs ds) (d :: ds) k) _ _ _⟩)
      have hprev' : d.1 = ((runs (d :: ds)).head?.map Prod.fst).getD .unknown := by
        rw [runs_cons_of_ne hone, hhead]
      split
      · next hsame =>
        refine ⟨hlength.symm, ?_, fun _ ↦ hprev'⟩
        rw [hcolumns]
        generalize runs ds = rs at hsame
        cases rs with
        | nil => exact absurd hsame.2.symm hunknown
        | cons r rs =>
          obtain ⟨k', n⟩ := r
          obtain rfl : k' = d.1 := hsame.2
          rw [addToRuns, if_pos rfl]
          exact mulBack_reversed _ _ _ _ _ hlt
      · next hdiff =>
        refine ⟨hlength.symm, ?_, fun _ ↦ hprev'⟩
        rw [hcolumns]
        generalize runs ds = rs at hdiff
        cases rs with
        | nil => exact pushBack_reversed _ _ _ _ hlt
        | cons r rs =>
          have hne : r.1 ≠ d.1 := fun heq ↦ hdiff ⟨rfl, heq⟩
          rw [addToRuns, if_neg hne]
          exact pushBack_reversed _ _ _ _ hlt

/-- The whole loop, over the dimensions from the innermost one. -/
theorem foldlM_rounds (fewerDims : Bool) (ps : List (ℕ × ℕ)) (k : ℕ)
    (hlt : ∀ p ∈ ps, p.1 < 2 ^ 63 ∧ p.2 < 2 ^ 63) :
    ∃ s, (ps.map fun p ↦ ((p.1 : ℤ), (p.2 : ℤ))).reverse.foldlM
    (round fewerDims (k + ps.length : ℕ)) ⟨0, .unknown, {}⟩ = some s ∧
      ((∀ p ∈ ps, Fit p) → Built fewerDims k (ps.map kindOf) s) ∧
      (¬(∀ p ∈ ps, Fit p) → s.b.valid = false) := by
  induction ps generalizing k with
  | nil =>
    refine ⟨_, rfl, fun _ ↦ ⟨rfl, ?_, fun _ ↦ rfl⟩, fun h ↦ absurd (fun p hp ↦ (by cases hp)) h⟩
    cases fewerDims with
    | false => rfl
    | true => rfl
  | cons p ps ih =>
    obtain ⟨⟨hx, hy⟩, hrest⟩ := forall_mem_cons.1 hlt
    obtain ⟨s, hs, hbuilt, hinvalid⟩ := ih (k + 1) hrest
    have hn : k + (p :: ps).length = k + 1 + ps.length := by rw [length_cons]; omega
    rw [hn, map_cons, reverse_cons, foldlM_append, hs, Option.bind_eq_bind, Option.bind_some,
      foldlM_cons, forall_mem_cons]
    by_cases hall : ∀ p ∈ ps, Fit p
    · have hs := hbuilt hall
      by_cases hp : Fit p
      · obtain ⟨s', hround, hs'⟩ := round_built hp hx hy hs
        rw [length_map] at hround
        rw [hround]
        exact ⟨s', rfl, fun _ ↦ hs', fun h ↦ absurd ⟨hp, hall⟩ h⟩
      · have hnonneg : ¬((p.1 : ℤ) < 0 ∨ (p.2 : ℤ) < 0) := by omega
        have hvalid : s.b.valid ≠ false := by
          rw [hs.b_eq]
          exact Bool.noConfusion
        rw [round, if_neg hvalid, if_neg hnonneg, compare_of_not_fit hp]
        exact ⟨_, rfl, fun h ↦ absurd h.1 hp, fun _ ↦ rfl⟩
    · -- the loop has returned
      rw [round, if_pos (hinvalid hall)]
      exact ⟨s, rfl, fun h ↦ absurd h.2 hall, fun _ ↦ hinvalid hall⟩

theorem mapVectors_reverse_reversed (cols ds : List (State × ℕ)) (k : ℕ) :
    (reversed cols ds k).mapVectors List.reverse = computed (vectors cols ds k) := by
  simp only [reversed, mapVectors, reverse_reverse]

theorem finish_reversed (cols ds : List (State × ℕ)) (k : ℕ) :
    (reversed cols ds k).finish = computed (vectors (orOne cols) ds k) := by
  rw [finish, orOne, ← mapVectors_reverse_reversed]
  congr 1
  by_cases hnil : cols = []
  · rw [if_pos hnil, hnil, if_pos (show (reversed [] ds k).result = [] from rfl)]
    exact pushBack_reversed [] ds k (.same, 1) (by decide)
  · have hresult : (reversed cols ds k).result ≠ [] := fun h ↦ hnil (by
      have hmap := reverse_eq_nil_iff.1 h
      exact map_eq_nil_iff.1 (map_eq_nil_iff.1 hmap))
    rw [if_neg hnil, if_neg hresult]

/-- Products that fit are computed as they are. -/
theorem computed_eq {cols : List (State × ℕ)} (hcols : ∀ d ∈ cols, d.2 < 2 ^ 63)
    (ds : List (State × ℕ)) (k : ℕ) :
    computed (vectors cols ds k) = (vectors cols ds k).mapVectors (List.map Nat.cast) := by
  have hentry : ∀ f : State × ℕ → ℕ, (∀ d, f d ≤ max 1 d.2) →
      (cols.map f).map entry = (cols.map f).map Nat.cast := fun f hf ↦ by
    rw [map_map, map_map]
    refine map_congr_left fun d hd ↦ ?_
    have hlt := hcols d hd
    have hle := hf d
    rw [Function.comp_apply, Function.comp_apply, entry_of_lt (by omega)]
  simp only [computed, vectors, mapVectors]
  rw [hentry _ (sizeOn_le .xOne), hentry _ (copiesOn_le .xOne), hentry _ (sizeOn_le .yOne),
    hentry _ (copiesOn_le .yOne), hentry Prod.snd fun d ↦ le_max_right _ _]

/-! ## What the constructor is for -/

/-- A tensor of the shape that is reshaped, tiled, and reshaped to the output is the broadcast
tensor. -/
def BroadcastsBy (shape reshape bcast output : List ℕ) : Prop :=
  ∀ (α : Type) (t : RowMajor.Tensor α), t.shape = shape →
    ∃ u, (((t.reshape reshape).bind (·.tile bcast)).bind (·.reshape output)) = some u ∧
    u.shape = output ∧
      ∀ index, InRange output index →
        InRange shape (sourceIndex shape index) ∧ u.get? index = t.get? (sourceIndex shape index)

/-- A gradient that is summed along the axes has as many elements as the operand, each of which is
the sum over the indices of the output that read the element. -/
def GradientBy (shape axes output : List ℕ) : Prop :=
  ∀ (β : Type) [AddCommMonoid β] (g : RowMajor.Tensor β), g.shape = output →
    (g.reduceSum axes).data.length = shape.prod ∧
    ∃ u, (g.reduceSum axes).reshape shape = some u ∧ u.shape = shape ∧
      ∀ i, InRange shape i → u.get? i = some (g.sumOver fun index ↦ sourceIndex shape index = i)

/-- What the vectors are for. -/
structure Implements (sx sy : List ℕ) (b : BCast ℕ) : Prop where
  output_eq : b.output = broadcastShape sx sy
  lengths : b.xReshape.length = b.result.length ∧ b.xBcast.length = b.result.length ∧
    b.yReshape.length = b.result.length ∧ b.yBcast.length = b.result.length
  result_x : b.result = List.zipWith (· * ·) b.xReshape b.xBcast
  result_y : b.result = List.zipWith (· * ·) b.yReshape b.yBcast
  broadcasts_x : BroadcastsBy sx b.xReshape b.xBcast b.output
  broadcasts_y : BroadcastsBy sy b.yReshape b.yBcast b.output
  gradient_x : GradientBy sx b.gradXReduceIdx b.output
  gradient_y : GradientBy sy b.gradYReduceIdx b.output

section
variable {one : State} {ds cols : List (State × ℕ)} {shape : List ℕ}

theorem zipWith_columns (one : State) (cols : List (State × ℕ)) :
    List.zipWith (· * ·) (cols.map (sizeOn one)) (cols.map (copiesOn one)) = cols.map Prod.snd := by
  rw [zipWith_map, zipWith_self]
  exact map_congr_left fun d _ ↦ sizeOn_mul_copiesOn one d

theorem forall₂_broadcasts (one : State) (ds : List (State × ℕ)) :
    List.Forall₂ Broadcasts (ds.map (sizeOn one)) (ds.map Prod.snd) := by
  rw [forall₂_map_left_iff, forall₂_map_right_iff, forall₂_same]
  intro d _
  unfold sizeOn
  split
  · exact .inl rfl
  · exact .inr rfl

variable (hsize : ds.map (sizeOn one) = extend ds.length shape) (hlength : shape.length ≤ ds.length)
include hsize hlength

theorem broadcastsBy_columns
    (hcols : reads one cols = reads one ds ∧ elements one cols = elements one ds) :
    BroadcastsBy shape (cols.map (sizeOn one)) (cols.map (copiesOn one)) (ds.map Prod.snd) := by
  have hlen : (ds.map Prod.snd).length = ds.length := length_map _
  intro α t ht
  refine get?_of_tilePlaces_eq (by rw [length_map, length_map]) ?_ ?_ ?_ (hlen ▸ hlength) t ht
  · exact hcols.2.trans (by rw [elements, hsize, prod_extend])
  · rw [zipWith_columns, hlen, ← hsize]
    exact hcols.1
  · rw [hlen, ← hsize]
    exact forall₂_broadcasts one ds

theorem gradientBy_onesFrom : GradientBy shape (onesFrom one 0 ds) (ds.map Prod.snd) := by
  have hlen : (ds.map Prod.snd).length = ds.length := length_map _
  have haxes : ∀ j n, (extend ds.length shape)[j]? = some n → (j ∈ onesFrom one 0 ds ↔ n = 1) := by
    intro j n hj
    rw [← hsize, getElem?_map, Option.map_eq_some_iff] at hj
    obtain ⟨d, hd, rfl⟩ := hj
    rw [onesFrom, mem_map]
    constructor
    · rintro ⟨⟨d', j'⟩, hmem, rfl⟩
      obtain ⟨hd', hone⟩ := mem_filter.1 hmem
      rw [mem_zipIdx_iff_getElem?, hd, Option.some.injEq] at hd'
      exact hd' ▸ of_decide_eq_true hone
    · intro hone
      exact ⟨(d, j), mem_filter.2 ⟨mem_zipIdx_iff_getElem?.2 hd, decide_eq_true hone⟩, rfl⟩
  intro β _ g hg
  have hdata : (g.reduceSum (onesFrom one 0 ds)).data =
      (indices shape).map fun i ↦ g.sumOver fun index ↦ sourceIndex shape index = i :=
    Tensor.reduceSum_data (by rw [hg, hlen]; exact haxes)
      (by rw [hg, hlen, ← hsize]; exact forall₂_broadcasts one ds)
      (by rw [hg, hlen]; exact hlength)
  exact ⟨by rw [hdata, length_map, length_indices], Tensor.exists_reshape_reduceSum hdata⟩

end

/-! ### For two operands -/

section
variable (sx sy : List ℕ)

/-- The dimensions of the output, and which of the operands are broadcast to them. -/
def dimensions : List (State × ℕ) := (aligned sx sy).map kindOf

theorem length_aligned : (aligned sx sy).length = max sx.length sy.length := by
  rw [aligned, length_zip, length_extend (le_max_left _ _), length_extend (le_max_right _ _),
    Nat.min_self]

theorem length_dimensions : (dimensions sx sy).length = max sx.length sy.length := by
  rw [dimensions, length_map, length_aligned]

theorem dimensions_snd : (dimensions sx sy).map Prod.snd = broadcastShape sx sy := by
  rw [dimensions, map_map, broadcastShape_eq]
  refine map_congr_left fun p _ ↦ ?_
  show (kindOf p).2 = _
  unfold kindOf
  split
  · next hsame =>
    split
    · exact hsame
    · rfl
  · split
    · rfl
    · rfl

theorem dimensions_x :
    (dimensions sx sy).map (sizeOn .xOne) = extend (dimensions sx sy).length sx := by
  have hle : (extend (max sx.length sy.length) sx).length ≤
      (extend (max sx.length sy.length) sy).length := by
    rw [length_extend (le_max_left _ _), length_extend (le_max_right _ _)]
  rw [length_dimensions, dimensions, map_map, ← map_fst_zip hle]
  exact map_congr_left fun p _ ↦ sizeOn_xOne_kindOf p

variable {sx sy}

theorem dimensions_y (h : Compatible sx sy) :
    (dimensions sx sy).map (sizeOn .yOne) = extend (dimensions sx sy).length sy := by
  have hle : (extend (max sx.length sy.length) sy).length ≤
      (extend (max sx.length sy.length) sx).length := by
    rw [length_extend (le_max_left _ _), length_extend (le_max_right _ _)]
  rw [length_dimensions, dimensions, map_map, ← map_snd_zip hle]
  exact map_congr_left fun p hp ↦ sizeOn_yOne_kindOf (compatible_iff.1 h p hp)

/-- Vectors with columns that read what the dimensions do. -/
theorem implements_vectors (h : Compatible sx sy) {cols : List (State × ℕ)} {gx gy : List ℕ}
    (hcols : ∀ one, reads one cols = reads one (dimensions sx sy) ∧
      elements one cols = elements one (dimensions sx sy))
    (hgradx : GradientBy sx gx (broadcastShape sx sy))
    (hgrady : GradientBy sy gy (broadcastShape sx sy)) :
    Implements sx sy
    { vectors cols (dimensions sx sy) 0 with gradXReduceIdx := gx, gradYReduceIdx := gy } := by
  have hx := broadcastsBy_columns (dimensions_x sx sy)
    (by rw [length_dimensions]; exact le_max_left _ _) (hcols .xOne)
  have hy := broadcastsBy_columns (dimensions_y h)
    (by rw [length_dimensions]; exact le_max_right _ _) (hcols .yOne)
  refine ⟨dimensions_snd sx sy, ?_, (zipWith_columns _ _).symm, (zipWith_columns _ _).symm, hx,
    hy, ?_, ?_⟩
  · simp only [vectors, length_map, and_self]
  · exact (congrArg (GradientBy sx gx) (dimensions_snd sx sy)).mpr hgradx
  · exact (congrArg (GradientBy sy gy) (dimensions_snd sx sy)).mpr hgrady

/-- The runs of dimensions that are all the same. -/
theorem runs_of_same {ds : List (State × ℕ)} (h : ∀ d ∈ ds, d.1 = .same) :
    orOne (runs ds) = [(.same, (ds.map Prod.snd).prod)] := by
  suffices hruns : (runs ds = [] ∧ (ds.map Prod.snd).prod = 1) ∨
    runs ds = [(.same, (ds.map Prod.snd).prod)] by
    obtain ⟨hnil, hone⟩ | hrun := hruns
    · rw [hnil, hone, orOne, if_pos rfl]
    · rw [hrun, orOne, if_neg (cons_ne_nil _ _)]
  induction ds with
  | nil => exact .inl ⟨rfl, rfl⟩
  | cons d ds ih =>
    obtain ⟨hd, hds⟩ := forall_mem_cons.1 h
    rw [map_cons, prod_cons]
    by_cases hone : d = (.same, 1)
    · rw [hone, runs_one_cons, Nat.one_mul]
      exact ih hds
    · right
      obtain ⟨k, n⟩ := d
      obtain rfl : k = .same := hd
      obtain ⟨hnil, hprod⟩ | hrun := ih hds
      · rw [runs_cons_of_ne hone, hnil, hprod, Nat.mul_one]
        rfl
      · rw [runs_cons_of_ne hone, hrun, addToRuns, if_pos rfl]

theorem foldl_int64_mul (dims : List ℕ) (n : ℕ) :
    (dims.map Nat.cast).foldl (fun elements dim ↦ int64 (elements * dim)) (entry n) =
      entry (n * dims.prod) := by
  induction dims generalizing n with
  | nil => rw [map_nil, foldl_nil, prod_nil, Nat.mul_one]
  | cons d dims ih =>
    have hmul : int64 (entry n * d) = entry (n * d) := by
      unfold entry int64
      rw [Int.bmod_mul_bmod, Nat.cast_mul]
    rw [map_cons, foldl_cons, hmul, ih, prod_cons, Nat.mul_assoc]

/-- The products that the constructor forms are `int64`s: of the dimensions of a run, which is one
of `result_`. -/
def ProductsFit (sx sy : List ℕ) (fewerDims : Bool) : Prop :=
  ∀ d ∈ columns fewerDims (dimensions sx sy), d.2 < 2 ^ 63

theorem orOne_columns_lt {fewerDims : Bool} (hfit : ProductsFit sx sy fewerDims) :
    ∀ d ∈ orOne (columns fewerDims (dimensions sx sy)), d.2 < 2 ^ 63 := by
  rw [orOne]
  split
  · exact forall_mem_singleton.2 (by decide)
  · exact hfit

/-- The vectors of the operands, padded. -/
theorem zip_resize (sx sy : List ℕ) :
    (resize (sx.map Nat.cast).reverse (max sx.length sy.length)).zip
        (resize (sy.map Nat.cast).reverse (max sx.length sy.length)) =
      ((aligned sx sy).map fun p ↦ ((p.1 : ℤ), (p.2 : ℤ))).reverse := by
  have hresize : ∀ (s : List ℕ) (n : ℕ), resize (s.map Nat.cast).reverse n =
      ((extend n s).map Nat.cast).reverse := fun s n ↦ by
    rw [resize, extend, length_reverse, length_map, map_append, reverse_append, map_replicate,
      reverse_replicate, Nat.cast_one]
  have hlength : ((extend (max sx.length sy.length) sx).map (Nat.cast : ℕ → ℤ)).length =
      ((extend (max sx.length sy.length) sy).map (Nat.cast : ℕ → ℤ)).length := by
    rw [length_map, length_map, length_extend (le_max_left _ _), length_extend (le_max_right _ _)]
  rw [hresize, hresize, zip, ← reverse_zipWith hlength, ← zip, aligned, zip_map]
  rfl

theorem construct_same (sx : List ℕ) : construct (sx.map Nat.cast) (sx.map Nat.cast) true = some
    { xReshape := [entry sx.prod], xBcast := [1], yReshape := [entry sx.prod], yBcast := [1]
      result := [entry sx.prod]
      output := sx.map Nat.cast } := by
  have hone : (1 : ℤ) = entry 1 := (entry_of_lt (by decide)).symm
  rw [construct, if_pos ⟨rfl, rfl⟩]
  rw [hone, foldl_int64_mul, Nat.one_mul]

/-- The constructor without its shortcut. -/
theorem construct_of_ne (fewerDims : Bool) (hx : ∀ d ∈ sx, d < 2 ^ 63) (hy : ∀ d ∈ sy, d < 2 ^ 63)
    (hne : ¬(sx.map (Nat.cast : ℕ → ℤ) = sy.map Nat.cast ∧ fewerDims = true)) :
    ∃ b, construct
    (sx.map Nat.cast) (sy.map Nat.cast) fewerDims = some b ∧ (b.valid = true ↔ Compatible sx sy) ∧
      (Compatible sx sy →
        b = computed (vectors (orOne (columns fewerDims (dimensions sx sy))) (dimensions sx sy)
          0)) := by
  have hlt : ∀ p ∈ aligned sx sy, p.1 < 2 ^ 63 ∧ p.2 < 2 ^ 63 := by
    have hextend : ∀ {s : List ℕ} {n : ℕ}, (∀ d ∈ s, d < 2 ^ 63) → ∀ d ∈ extend n s, d < 2 ^ 63 :=
      fun hs d hd ↦ by
      rw [extend, mem_append] at hd
      obtain hone | hmem := hd
      · exact eq_of_mem_replicate hone ▸ (by decide)
      · exact hs d hmem
    rintro ⟨dx, dy⟩ hp
    obtain ⟨hmemx, hmemy⟩ := of_mem_zip hp
    exact ⟨hextend hx dx hmemx, hextend hy dy hmemy⟩
  obtain ⟨s, hs, hbuilt, hinvalid⟩ := foldlM_rounds fewerDims (aligned sx sy) 0 hlt
  rw [Nat.zero_add, length_aligned] at hs
  rw [construct, if_neg hne]
  dsimp only
  rw [length_map, length_map, zip_resize, hs]
  refine ⟨_, rfl, ?_⟩
  dsimp only
  by_cases h : Compatible sx sy
  · have hb := (hbuilt (compatible_iff.1 h)).b_eq
    have hvalid : s.b.valid = true := by rw [hb]; rfl
    rw [if_pos hvalid, hb, finish_reversed]
    exact ⟨iff_of_true rfl h, fun _ ↦ rfl⟩
  · have hvalid : s.b.valid = false := hinvalid (mt compatible_iff.2 h)
    rw [hvalid, if_neg Bool.false_ne_true, hvalid]
    exact ⟨iff_of_false Bool.false_ne_true h, fun hcompatible ↦ absurd hcompatible h⟩

/-- The shortcut makes the column that the loop would have made. -/
theorem implements_same (hfit : ProductsFit sx sx true) :
    ∃ c : BCast ℕ, BCast.mk true [entry sx.prod] [1] [entry sx.prod] [1] [entry sx.prod]
    (sx.map Nat.cast) [] [] =
      c.mapVectors (List.map Nat.cast) ∧ Implements sx sx c := by
  have hsame : ∀ d ∈ dimensions sx sx, d.1 = .same := by
    intro d hd
    obtain ⟨p, hp, rfl⟩ := mem_map.1 hd
    rw [aligned_self] at hp
    obtain ⟨n, -, rfl⟩ := mem_map.1 hp
    rw [kindOf, if_pos rfl]
  have hcols : orOne (runs (dimensions sx sx)) = [(.same, sx.prod)] := by
    rw [runs_of_same hsame, dimensions_snd, broadcastShape_self]
  have hprod : sx.prod < 2 ^ 63 := by
    have hlt := orOne_columns_lt hfit
    rw [columns, if_pos rfl, hcols] at hlt
    exact hlt _ mem_cons_self
  have hgrad : GradientBy sx [] (broadcastShape sx sx) := by
    intro β _ g hg
    rw [broadcastShape_self] at hg
    have hdata := g.reduceSum_nil_data
    rw [hg] at hdata
    exact ⟨by rw [hdata, length_map, length_indices], Tensor.exists_reshape_reduceSum hdata⟩
  refine ⟨_, ?_,
    implements_vectors (compatible_self sx) (fun one ↦ columns_reads one true (dimensions sx sx))
    hgrad hgrad⟩
  rw [columns, if_pos rfl, hcols, vectors, dimensions_snd, broadcastShape_self, entry_of_lt hprod]
  rfl

/-- The constructor finds out whether the shapes are compatible, and its vectors do then what they
are for. -/
theorem construct_implements (sx sy : List ℕ) (fewerDims : Bool) (hx : ∀ d ∈ sx, d < 2 ^ 63)
    (hy : ∀ d ∈ sy, d < 2 ^ 63) :
    ∃ b, construct (sx.map Nat.cast) (sy.map Nat.cast) fewerDims = some b ∧
    (b.valid = true ↔ Compatible sx sy) ∧
      (Compatible sx sy → ProductsFit sx sy fewerDims →
        ∃ c : BCast ℕ, b = c.mapVectors (List.map Nat.cast) ∧ Implements sx sy c) := by
  by_cases hne : sx.map (Nat.cast : ℕ → ℤ) = sy.map Nat.cast ∧ fewerDims = true
  · obtain ⟨heq, rfl⟩ := hne
    obtain rfl : sx = sy := map_injective_iff.2 Nat.cast_injective heq
    exact ⟨_, construct_same sx, iff_of_true rfl (compatible_self sx),
      fun _ hfit ↦ implements_same hfit⟩
  · obtain ⟨b, hb, hvalid, hvectors⟩ := construct_of_ne fewerDims hx hy hne
    refine ⟨b, hb, hvalid, fun h hfit ↦ ?_⟩
    have hgradx :=
      gradientBy_onesFrom (dimensions_x sx sy) (by rw [length_dimensions]; exact le_max_left _ _)
    have hgrady :=
      gradientBy_onesFrom (dimensions_y h) (by rw [length_dimensions]; exact le_max_right _ _)
    rw [dimensions_snd] at hgradx hgrady
    exact ⟨_, (hvectors h).trans (computed_eq (orOne_columns_lt hfit) _ _),
      implements_vectors h (fun one ↦ columns_reads one fewerDims _) hgradx hgrady⟩

theorem implements_matrix : ∃ b, construct [2, 3, 1] [3, 4] true = some b ∧ b.valid = true ∧
    ∃ c : BCast ℕ, b = c.mapVectors (List.map Nat.cast) ∧ Implements [2, 3, 1] [3, 4] c := by
  have h : Compatible [2, 3, 1] [3, 4] := compatible_iff.2 (by decide)
  have hfit : ProductsFit [2, 3, 1] [3, 4] true := by
    unfold ProductsFit
    decide
  obtain ⟨b, hb, hvalid, himplements⟩ :=
    construct_implements [2, 3, 1] [3, 4] true (by decide) (by decide)
  exact ⟨b, hb, hvalid.2 h, himplements h hfit⟩

end

end BCast

end TensorFlowCore
