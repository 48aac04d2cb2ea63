import Mathlib.Data.List.Nodup
import Mathlib.Algebra.BigOperators.Group.List.Basic
import Mathlib.Tactic.Ring

/-!
# Row-major arrays

An array with several dimensions kept in a list, the last dimension varying fastest. `rowMajor` is
the place of an index, `indices` lists the indices in the order of their places, and the two are
inverse to each other (`getElem?_indices`, `rowMajor_inj`). Trailing dimensions of size `1` change
nothing.

`copyBlock` copies a block of one array into another, index by index. It reads and writes
`places` in turn, and what the destination then holds is a matter of these.
-/

namespace RowMajor

open List

/-- The place of an index in an array with dimensions of these sizes. -/
def rowMajor : List ℕ → List ℕ → ℕ
  | _ :: ns, x :: xs => x * ns.prod + rowMajor ns xs
  | _, _ => 0

/-- All indices, in the order of their places. -/
def indices : List ℕ → List (List ℕ)
  | [] => [[]]
  | n :: ns => (List.range n).flatMap fun x ↦ (indices ns).map (x :: ·)

/-- The indices of an array with dimensions of these sizes. -/
def InRange (ns xs : List ℕ) : Prop := List.Forall₂ (fun n x ↦ x < n) ns xs

variable {ns xs ys : List ℕ}

theorem rowMajor_lt (h : InRange ns xs) : rowMajor ns xs < ns.prod := by
  induction h with
  | nil => exact Nat.one_pos
  | @cons n x ns xs hx _ ih =>
    rw [rowMajor, prod_cons]
    calc x * ns.prod + rowMajor ns xs < x * ns.prod + ns.prod := Nat.add_lt_add_left ih _
      _ = (x + 1) * ns.prod := (Nat.succ_mul _ _).symm
      _ ≤ n * ns.prod := Nat.mul_le_mul_right _ hx

theorem rowMajor_inj (hx : InRange ns xs) (hy : InRange ns ys)
    (h : rowMajor ns xs = rowMajor ns ys) : xs = ys := by
  induction hx generalizing ys with
  | nil => cases hy with | nil => rfl
  | @cons n x ns xs _ hxs ih =>
    cases hy with
    | @cons _ y _ ys _ hys =>
      have hxlt := rowMajor_lt hxs
      have hylt := rowMajor_lt hys
      have hpos : 0 < ns.prod := Nat.zero_lt_of_lt hxlt
      simp only [rowMajor] at h
      have hdiv : x = y := by
        have hquot : (x * ns.prod + rowMajor ns xs) / ns.prod =
            (y * ns.prod + rowMajor ns ys) / ns.prod := by rw [h]
        rwa [Nat.mul_comm x, Nat.mul_comm y, Nat.mul_add_div hpos, Nat.mul_add_div hpos,
          Nat.div_eq_of_lt hxlt, Nat.div_eq_of_lt hylt, Nat.add_zero, Nat.add_zero] at hquot
      subst hdiv
      rw [ih hys (Nat.add_left_cancel h)]

theorem mem_indices : xs ∈ indices ns ↔ InRange ns xs := by
  induction ns generalizing xs with
  | nil => simp [indices, InRange]
  | cons n ns ih =>
    rw [indices, mem_flatMap, InRange, forall₂_cons_left_iff]
    constructor
    · rintro ⟨x, hx, hmem⟩
      obtain ⟨xs, hxs, rfl⟩ := mem_map.1 hmem
      exact ⟨x, xs, mem_range.1 hx, ih.1 hxs, rfl⟩
    · rintro ⟨x, xs, hx, hxs, rfl⟩
      exact ⟨x, mem_range.2 hx, mem_map.2 ⟨xs, ih.2 hxs, rfl⟩⟩

theorem length_indices (ns : List ℕ) : (indices ns).length = ns.prod := by
  induction ns with
  | nil => rfl
  | cons n ns ih => simp [indices, length_flatMap, ih]

/-- The blocks of a list made of equally long ones. -/
theorem getElem?_flatMap_range {α : Type*} {f : ℕ → List α} {m n i j : ℕ}
    (hf : ∀ x, (f x).length = m) (hi : i < n) (hj : j < m) :
    ((List.range n).flatMap f)[i * m + j]? = (f i)[j]? := by
  induction n with
  | zero => exact absurd hi (Nat.not_lt_zero i)
  | succ n ih =>
    have hlen : ((range n).flatMap f).length = n * m := by
      simp [length_flatMap, hf]
    rw [range_succ, flatMap_append, flatMap_singleton]
    by_cases hin : i < n
    · have hlt : i * m + j < n * m := by
        calc i * m + j < i * m + m := Nat.add_lt_add_left hj _
          _ = (i + 1) * m := (Nat.succ_mul _ _).symm
          _ ≤ n * m := Nat.mul_le_mul_right _ hin
      rw [getElem?_append_left (by rwa [hlen]), ih hin]
    · obtain rfl : i = n := by omega
      rw [getElem?_append_right (by omega), hlen, Nat.add_sub_cancel_left]

/-- The index that comes at a place is the one whose place it is. -/
theorem getElem?_indices (h : InRange ns xs) : (indices ns)[rowMajor ns xs]? = some xs := by
  induction h with
  | nil => rfl
  | @cons n x ns xs hx hxs ih =>
    rw [indices, rowMajor, getElem?_flatMap_range (m := ns.prod) (fun _ ↦ by
      rw [length_map, length_indices]) hx (rowMajor_lt hxs), getElem?_map, ih]
    rfl

/-- Trailing dimensions of size `1` do not change the place of an index. -/
theorem rowMajor_append_replicate (k : ℕ) (h : ns.length = xs.length) :
    rowMajor (ns ++ List.replicate k 1) (xs ++ List.replicate k 0) = rowMajor ns xs := by
  induction ns generalizing xs with
  | nil =>
    obtain rfl : xs = [] := length_eq_zero_iff.1 h.symm
    induction k with
    | zero => rfl
    | succ k ih =>
      show 0 * (replicate k 1).prod + rowMajor (replicate k 1) (replicate k 0) = 0
      rw [Nat.zero_mul, Nat.zero_add]
      exact ih
  | cons n ns ih =>
    obtain ⟨x, xs, rfl⟩ := exists_cons_of_length_eq_add_one h.symm
    rw [cons_append, cons_append, rowMajor, rowMajor, ih (Nat.succ.inj h), prod_append,
      prod_replicate, Nat.one_pow, Nat.mul_one]

theorem indices_append_replicate (k : ℕ) (ns : List ℕ) :
    indices (ns ++ List.replicate k 1) = (indices ns).map (· ++ List.replicate k 0) := by
  induction ns with
  | nil =>
    induction k with
    | zero => rfl
    | succ k ih =>
      have ih' : indices (replicate k 1) = [replicate k 0] := ih
      show (range 1).flatMap (fun x ↦ (indices (replicate k 1)).map (x :: ·)) = _
      rw [ih']
      rfl
  | cons n ns ih =>
    rw [cons_append, indices, ih, indices, map_flatMap]
    simp only [map_map]
    rfl

section Copy

variable {α : Type*}

/-- The index `start + i`. -/
def shift (start i : List ℕ) : List ℕ := List.zipWith (· + ·) start i

theorem shift_inj {start i j : List ℕ} (hi : i.length = start.length) (hj : j.length = start.length)
    (h : shift start i = shift start j) : i = j := by
  induction start generalizing i j with
  | nil => rw [length_eq_zero_iff.1 hi, length_eq_zero_iff.1 hj]
  | cons x start ih =>
    obtain ⟨a, i, rfl⟩ := exists_cons_of_length_eq_add_one hi
    obtain ⟨b, j, rfl⟩ := exists_cons_of_length_eq_add_one hj
    obtain ⟨hab, hrest⟩ := cons.inj h
    rw [Nat.add_left_cancel hab, ih (Nat.succ.inj hi) (Nat.succ.inj hj) hrest]

/-- One element of a copy: from `start + i` in the source to `start + i` in the destination. -/
def copyAt (sSizes dSizes : List ℕ) (src : List α) (sStart dStart : List ℕ) (dst : List α)
    (i : List ℕ) : List α :=
  match src[rowMajor sSizes (shift sStart i)]? with
  | some x => dst.set (rowMajor dSizes (shift dStart i)) x
  | none => dst

/-- Copy a block with sides of lengths `len`. -/
def copyBlock (sSizes dSizes : List ℕ) (src : List α) (sStart dStart len : List ℕ) (dst : List α) :
    List α :=
  (indices len).foldl (copyAt sSizes dSizes src sStart dStart) dst

/-- The places that are read and those that are written, in turn. -/
def places (sSizes dSizes sStart dStart len : List ℕ) : List (ℕ × ℕ) :=
  (indices len).map fun i ↦ (rowMajor sSizes (shift sStart i), rowMajor dSizes (shift dStart i))

/-- Copy the element at one place to another one. -/
def copyElement (src dst : List α) (p : ℕ × ℕ) : List α :=
  match src[p.1]? with
  | some x => dst.set p.2 x
  | none => dst

variable {sSizes dSizes sStart dStart len : List ℕ} {src dst : List α} {ps : List (ℕ × ℕ)}

theorem copyBlock_eq_foldl : copyBlock sSizes dSizes src sStart dStart len dst =
    (places sSizes dSizes sStart dStart len).foldl (copyElement src) dst := by
  rw [places, foldl_map]
  rfl

@[simp] theorem length_copyElement {p : ℕ × ℕ} : (copyElement src dst p).length = dst.length := by
  unfold copyElement
  split
  · exact length_set
  · rfl

/-- A place that is not written keeps its element. -/
theorem getElem?_foldl_copyElement_of_ne {k : ℕ} (h : ∀ p ∈ ps, p.2 ≠ k) :
    (ps.foldl (copyElement src) dst)[k]? = dst[k]? := by
  induction ps generalizing dst with
  | nil => rfl
  | cons p ps ih =>
    obtain ⟨hp, hps⟩ := forall_mem_cons.1 h
    rw [foldl_cons, ih hps, copyElement]
    split
    · exact getElem?_set_ne hp
    · rfl

/-- A place that is written once has the element of the source. -/
theorem getElem?_foldl_copyElement_of_mem {p : ℕ × ℕ} {x : α} (hsrc : src[p.1]? = some x)
    (hlt : p.2 < dst.length) (hp : p ∈ ps) (hinj : ∀ q ∈ ps, q.2 = p.2 → q = p) :
    (ps.foldl (copyElement src) dst)[p.2]? = some x := by
  induction ps generalizing dst with
  | nil => exact absurd hp not_mem_nil
  | cons q ps ih =>
    obtain ⟨-, hrest⟩ := forall_mem_cons.1 hinj
    rw [foldl_cons]
    by_cases hmem : p ∈ ps
    · exact ih (by rwa [length_copyElement]) hmem hrest
    · obtain rfl : p = q := (mem_cons.1 hp).resolve_right hmem
      have hne : ∀ q ∈ ps, q.2 ≠ p.2 := fun q hq heq ↦ hmem (hrest q hq heq ▸ hq)
      rw [getElem?_foldl_copyElement_of_ne hne, copyElement, hsrc]
      exact getElem?_set_self hlt

/-- Trailing dimensions of size `1` change nothing. -/
theorem places_append_replicate (k : ℕ) (hs : sSizes.length = len.length)
    (hd : dSizes.length = len.length) (hss : sStart.length = len.length)
    (hds : dStart.length = len.length) :
    places (sSizes ++ List.replicate k 1) (dSizes ++ List.replicate k 1)
    (sStart ++ List.replicate k 0)
      (dStart ++ List.replicate k 0) (len ++ List.replicate k 1) =
        places sSizes dSizes sStart dStart len := by
  rw [places, places, indices_append_replicate, map_map]
  refine map_congr_left fun i hi ↦ ?_
  have hlen : len.length = i.length := (mem_indices.1 hi).length_eq
  have hshift : ∀ start : List ℕ, start.length = len.length →
      shift (start ++ replicate k 0) (i ++ replicate k 0) = shift start i ++ replicate k 0 :=
    fun start h ↦ by
      rw [shift, zipWith_append (h.trans hlen), zipWith_replicate, Nat.min_self]
      rfl
  have hlength : ∀ start : List ℕ, start.length = len.length →
      (shift start i).length = len.length :=
    fun start h ↦ by rw [shift, length_zipWith, h, ← hlen, Nat.min_self]
  show (rowMajor _ (shift _ _), rowMajor _ (shift _ _)) = _
  rw [hshift sStart hss, hshift dStart hds,
    rowMajor_append_replicate k (hs.trans (hlength sStart hss).symm),
    rowMajor_append_replicate k (hd.trans (hlength dStart hds).symm)]

end Copy

end RowMajor
