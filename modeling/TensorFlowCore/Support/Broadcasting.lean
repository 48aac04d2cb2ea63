import TensorFlowCore.Support.RowMajor
import Mathlib.Data.List.GetD

/-!
# Broadcasting

A tensor is a shape with its elements in row-major order. It is reshaped, tiled and summed along
some of its axes.

Two shapes are aligned at their last dimensions, a shape that is too short being extended by
dimensions of size `1`. They are compatible if aligned dimensions are equal or one of them is `1`,
and the dimension of the broadcast shape is then the other one. An element of the broadcast tensor
is read at the index that has `0` where the dimension is `1` (`sourceIndex`). This is the same as
tiling (`get?_of_tilePlaces_eq`): what a tile reads is a list of places, and adjacent dimensions
that are both copied, or both repeated, may be merged in it (`tilePlaces_merge`).

To sum over the axes that are repeated is to sum, for each element, over the indices that read it
(`exists_reduceSum`).
-/

namespace RowMajor

open List

variable {α : Type*} {ns ms xs : List ℕ}

/-! ## Tensors -/

/-- A tensor, with its elements in the order of their places. -/
structure Tensor (α : Type*) where
  shape : List ℕ
  data : List α
  length_data : data.length = shape.prod

/-- The index in the tensor that is repeated. -/
def wrap (ns xs : List ℕ) : List ℕ := List.zipWith (fun n x ↦ x % n) ns xs

theorem inRange_wrap {bcast : List ℕ} (hlength : bcast.length = ns.length)
    (h : InRange (List.zipWith (· * ·) ns bcast) xs) : InRange ns (wrap ns xs) := by
  induction ns generalizing bcast xs with
  | nil =>
    rw [zipWith_nil_left, InRange, forall₂_nil_left_iff] at h
    rw [h]
    exact .nil
  | cons n ns ih =>
    obtain ⟨b, bcast, rfl⟩ := exists_cons_of_length_eq_add_one hlength
    rw [zipWith_cons_cons, InRange, forall₂_cons_left_iff] at h
    obtain ⟨x, xs, hx, hxs, rfl⟩ := h
    exact .cons (Nat.mod_lt _ (Nat.pos_of_mul_pos_right (Nat.zero_lt_of_lt hx)))
      (ih (Nat.succ.inj hlength) hxs)

/-- The places that are read to fill a tensor of shape `ms` with copies of one of shape `ns`. -/
def tilePlaces (ns ms : List ℕ) : List ℕ := (indices ms).map fun i ↦ rowMajor ns (wrap ns i)

namespace Tensor

/-- The element at an index. -/
def get? (t : Tensor α) (index : List ℕ) : Option α := t.data[rowMajor t.shape index]?

/-- The same elements in another shape. -/
def reshape (t : Tensor α) (shape : List ℕ) : Option (Tensor α) :=
  if h : t.data.length = shape.prod then some ⟨shape, t.data, h⟩ else none

/-- As many copies of the tensor along each dimension as `bcast` says. -/
def tile (t : Tensor α) (bcast : List ℕ) : Option (Tensor α) :=
  if h : bcast.length = t.shape.length then
    some {
      shape := List.zipWith (· * ·) t.shape bcast
      data := (indices (List.zipWith (· * ·) t.shape bcast)).attach.map fun i ↦
        t.data.get ⟨rowMajor t.shape (wrap t.shape i.1),
          t.length_data ▸ rowMajor_lt (inRange_wrap h (mem_indices.1 i.2))⟩
      length_data := by rw [List.length_map, List.length_attach, length_indices] }
  else none

theorem exists_tile (t : Tensor α) {bcast : List ℕ} (h : bcast.length = t.shape.length) :
    ∃ u, t.tile bcast = some u ∧
      u.data.map some = (tilePlaces t.shape (List.zipWith (· * ·) t.shape bcast)).map
      (t.data[·]?) := by
  refine ⟨_, dif_pos h, ?_⟩
  rw [tilePlaces, map_map, map_map]
  conv_rhs => rw [← attach_map_subtype_val (indices (zipWith (· * ·) t.shape bcast)), map_map]
  refine map_congr_left fun i _ ↦ ?_
  exact (getElem?_eq_getElem _).symm

end Tensor

/-! ## Merging dimensions -/

theorem flatMap_range_mul (m n : ℕ) (f : ℕ → List α) :
    (List.range (m * n)).flatMap f = (List.range m).flatMap fun x ↦ (List.range n).flatMap fun y ↦
      f (x * n + y) := by
  induction m with
  | zero => rw [Nat.zero_mul, range_zero, flatMap_nil, flatMap_nil]
  | succ m ih =>
    rw [Nat.succ_mul, range_add, flatMap_append, ih, range_succ, flatMap_append, flatMap_singleton,
      flatMap_map]

theorem tilePlaces_cons (n m : ℕ) (ns ms : List ℕ) :
    tilePlaces (n :: ns) (m :: ms) =
      (List.range m).flatMap fun x ↦ (tilePlaces ns ms).map (x % n * ns.prod + ·) := by
  rw [tilePlaces, indices, map_flatMap]
  simp only [tilePlaces, map_map]
  rfl

theorem tilePlaces_cons_congr {ns' ms' : List ℕ} (n m : ℕ) (hprod : ns'.prod = ns.prod)
    (h : tilePlaces ns' ms' = tilePlaces ns ms) :
    tilePlaces (n :: ns') (m :: ms') = tilePlaces (n :: ns) (m :: ms) := by
  rw [tilePlaces_cons, tilePlaces_cons, hprod, h]

/-- A dimension of size `1` changes nothing. -/
theorem tilePlaces_one_cons (ns ms : List ℕ) :
    tilePlaces (1 :: ns) (1 :: ms) = tilePlaces ns ms := by
  rw [tilePlaces_cons, range_one, flatMap_singleton, Nat.zero_mod, Nat.zero_mul]
  simp

/-- Two dimensions are merged that are both copied or both repeated. -/
theorem tilePlaces_merge {n n' m m' : ℕ} (h : (n = m ∧ n' = m') ∨ (n = 1 ∧ n' = 1))
    (ns ms : List ℕ) :
    tilePlaces (n * n' :: ns) (m * m' :: ms) = tilePlaces (n :: n' :: ns) (m :: m' :: ms) := by
  rw [tilePlaces_cons, tilePlaces_cons, tilePlaces_cons, flatMap_range_mul]
  refine flatMap_congr fun x hx ↦ ?_
  rw [map_flatMap]
  refine flatMap_congr fun y hy ↦ ?_
  rw [map_map]
  refine map_congr_left fun p _ ↦ ?_
  rw [mem_range] at hx hy
  dsimp only [Function.comp]
  rcases h with ⟨rfl, rfl⟩ | ⟨rfl, rfl⟩
  · have hlt : x * n' + y < n * n' := by
      calc x * n' + y < x * n' + n' := Nat.add_lt_add_left hy _
        _ = (x + 1) * n' := (Nat.succ_mul _ _).symm
        _ ≤ n * n' := Nat.mul_le_mul_right _ hx
    rw [Nat.mod_eq_of_lt hlt, Nat.mod_eq_of_lt hx, Nat.mod_eq_of_lt hy, prod_cons]
    ring
  · simp [Nat.mod_one]

/-! ## Aligned shapes -/

/-- A dimension, counted from the last one. -/
def dimFromLast (shape : List ℕ) (i : ℕ) : ℕ := shape.reverse.getD i 1

/-- Aligned dimensions are equal, or one of them is `1`. -/
def Compatible (sx sy : List ℕ) : Prop :=
  ∀ i, dimFromLast sx i = dimFromLast sy i ∨ dimFromLast sx i = 1 ∨ dimFromLast sy i = 1

/-- The shape that both are broadcast to. -/
def broadcastShape (sx sy : List ℕ) : List ℕ :=
  ((List.range (max sx.length sy.length)).map fun i ↦
    if dimFromLast sx i = 1 then dimFromLast sy i else dimFromLast sx i).reverse

/-- The index that is read for an index of the broadcast tensor. -/
def sourceIndex (shape index : List ℕ) : List ℕ :=
  List.zipWith (fun n i ↦ if n = 1 then 0 else i) shape (index.drop (index.length - shape.length))

/-- The shape with dimensions of size `1` in front of it. -/
def extend (n : ℕ) (shape : List ℕ) : List ℕ := List.replicate (n - shape.length) 1 ++ shape

/-- The aligned dimensions. -/
def aligned (sx sy : List ℕ) : List (ℕ × ℕ) :=
  (extend (max sx.length sy.length) sx).zip (extend (max sx.length sy.length) sy)

/-- A dimension that broadcasts to another one. -/
def Broadcasts (n m : ℕ) : Prop := n = 1 ∨ n = m

variable {sx sy out shape : List ℕ} {n : ℕ}

theorem length_extend (h : shape.length ≤ n) : (extend n shape).length = n := by
  rw [extend, length_append, length_replicate, Nat.sub_add_cancel h]

theorem reverse_extend (h : shape.length ≤ n) :
    (extend n shape).reverse = (List.range n).map (dimFromLast shape) := by
  refine ext_getElem (by rw [length_reverse, length_extend h, length_map, length_range])
    fun i hi hi' ↦ ?_
  rw [getElem_map, getElem_range, dimFromLast]
  simp only [extend, reverse_append, reverse_replicate]
  rw [getElem_append]
  split
  · next hlt => exact (getD_eq_getElem _ _ hlt).symm
  · next hge => rw [getElem_replicate, getD_eq_default _ _ (Nat.le_of_not_lt hge)]

theorem reverse_aligned (sx sy : List ℕ) : (aligned sx sy).reverse =
    (List.range (max sx.length sy.length)).map fun i ↦ (dimFromLast sx i, dimFromLast sy i) := by
  have hx := length_extend (le_max_left sx.length sy.length)
  have hy := length_extend (le_max_right sx.length sy.length)
  rw [aligned, zip, reverse_zipWith (hx.trans hy.symm), reverse_extend (le_max_left _ _),
    reverse_extend (le_max_right _ _), zipWith_map, zipWith_self]

theorem aligned_self (s : List ℕ) : aligned s s = s.map fun d ↦ (d, d) := by
  rw [aligned, extend, max_self, Nat.sub_self, replicate_zero, nil_append, zip, zipWith_self]

theorem compatible_self (s : List ℕ) : Compatible s s := fun _ ↦ .inl rfl

theorem compatible_iff : Compatible sx sy ↔ ∀ p ∈ aligned sx sy, p.1 = p.2 ∨ p.1 = 1 ∨ p.2 = 1 := by
  have hone : ∀ {s : List ℕ} {i : ℕ}, s.length ≤ i → dimFromLast s i = 1 := fun h ↦
    getD_eq_default _ _ (by rwa [length_reverse])
  simp only [← @mem_reverse _ _ (aligned sx sy), reverse_aligned, mem_map, mem_range]
  constructor
  · rintro h _ ⟨i, -, rfl⟩
    exact h i
  · intro h i
    by_cases hi : i < max sx.length sy.length
    · exact h _ ⟨i, hi, rfl⟩
    · rw [Nat.not_lt, max_le_iff] at hi
      exact .inr (.inl (hone hi.1))

theorem broadcastShape_eq :
    broadcastShape sx sy = (aligned sx sy).map fun p ↦ if p.1 = 1 then p.2 else p.1 := by
  rw [broadcastShape, reverse_eq_iff, ← map_reverse, reverse_aligned, map_map]
  rfl

theorem broadcastShape_self (s : List ℕ) : broadcastShape s s = s := by
  rw [broadcastShape_eq, aligned_self, map_map]
  conv_rhs => rw [← map_id s]
  refine map_congr_left fun d _ ↦ ?_
  dsimp only [Function.comp]
  rw [ite_self]
  rfl

theorem prod_extend : (extend n shape).prod = shape.prod := by
  rw [extend, prod_append, prod_replicate, Nat.one_pow, Nat.one_mul]

/-! ## What is read -/

/-- The index of the extended shape that is read is at the place of the one of the shape. -/
theorem rowMajor_wrap_extend (h : shape.length ≤ index.length) :
    rowMajor (extend index.length shape) (wrap (extend index.length shape) index) =
      rowMajor shape (wrap shape (index.drop (index.length - shape.length))) := by
  rw [extend]
  generalize hk : index.length - shape.length = k
  induction k generalizing index with
  | zero => rfl
  | succ k ih =>
    obtain ⟨i, index, rfl⟩ : ∃ i rest, index = i :: rest :=
      exists_cons_of_length_pos (Nat.pos_of_ne_zero fun hzero ↦ by omega)
    rw [length_cons] at hk h
    rw [replicate_succ, cons_append, wrap, zipWith_cons_cons, rowMajor, Nat.mod_one, Nat.zero_mul,
      Nat.zero_add, drop_succ_cons]
    exact ih (by omega) (by omega)

theorem wrap_eq_of_broadcasts (h : List.Forall₂ Broadcasts ns ms) (hin : InRange ms xs) :
    wrap ns xs = List.zipWith (fun n i ↦ if n = 1 then 0 else i) ns xs := by
  induction h generalizing xs with
  | nil => rfl
  | @cons n m ns ms hnm _ ih =>
    obtain ⟨x, xs, hx, hxs, rfl⟩ := forall₂_cons_left_iff.1 hin
    rw [wrap, zipWith_cons_cons, zipWith_cons_cons, ← wrap, ih hxs]
    congr 1
    split
    · next hn => rw [hn, Nat.mod_one]
    · next hn => exact Nat.mod_eq_of_lt ((hnm.resolve_left hn).symm ▸ hx)

/-- An index that is read is one of the tensor. -/
theorem inRange_sourceIndex (h : List.Forall₂ Broadcasts (extend out.length shape) out)
    (hindex : InRange out index) : InRange shape (sourceIndex shape index) := by
  have hlen := hindex.length_eq
  have hdrop := forall₂_drop (out.length - shape.length) h
  rw [extend, drop_left' length_replicate] at hdrop
  have hindex' := forall₂_drop (out.length - shape.length) hindex
  rw [sourceIndex, ← hlen]
  generalize drop (out.length - shape.length) out = ms at hdrop hindex'
  generalize drop (out.length - shape.length) index = xs at hindex'
  clear hindex hlen h
  induction hdrop generalizing xs with
  | nil => exact .nil
  | @cons n m ns ms hnm _ ih =>
    obtain ⟨x, xs, hx, hxs, rfl⟩ := forall₂_cons_left_iff.1 hindex'
    refine .cons ?_ (ih _ hxs)
    dsimp only
    split
    · next hn => exact hn ▸ Nat.one_pos
    · next hn => exact (hnm.resolve_left hn).symm ▸ hx

theorem rowMajor_sourceIndex (h : List.Forall₂ Broadcasts (extend out.length shape) out)
    (hlength : shape.length ≤ out.length) (hindex : InRange out index) :
    rowMajor (extend out.length shape) (wrap (extend out.length shape) index) =
      rowMajor shape (sourceIndex shape index) := by
  have hdrop := forall₂_drop (out.length - shape.length) h
  rw [extend, drop_left' length_replicate] at hdrop
  rw [sourceIndex, hindex.length_eq, rowMajor_wrap_extend (hindex.length_eq ▸ hlength),
    ← hindex.length_eq, wrap_eq_of_broadcasts hdrop (forall₂_drop _ hindex)]

/-- A tensor that is reshaped, tiled, and reshaped again is the broadcast one, if the places that
are read are those of the tiled tensor with the extended shape. -/
theorem get?_of_tilePlaces_eq {reshaped bcast : List ℕ} (hbcast : bcast.length = reshaped.length)
    (hprod : reshaped.prod = shape.prod)
    (hplaces : tilePlaces reshaped (List.zipWith (· * ·) reshaped bcast) =
      tilePlaces (extend out.length shape) out)
    (h : List.Forall₂ Broadcasts (extend out.length shape) out)
    (hlength : shape.length ≤ out.length) (t : Tensor α) (ht : t.shape = shape) :
    ∃ u, (((t.reshape reshaped).bind (·.tile bcast)).bind (·.reshape out)) = some u ∧
    u.shape = out ∧
      ∀ index, InRange out index → InRange shape (sourceIndex shape index) ∧
        u.get? index = t.get? (sourceIndex shape index) := by
  have hdata : t.data.length = reshaped.prod := by rw [t.length_data, ht, hprod]
  obtain ⟨tiled, htiled, hread⟩ := (⟨reshaped, t.data, hdata⟩ : Tensor α).exists_tile hbcast
  rw [hplaces] at hread
  have hout : tiled.data.length = out.prod := by
    have hlen := congrArg length hread
    rwa [length_map, length_map, tilePlaces, length_map, length_indices] at hlen
  refine ⟨⟨out, tiled.data, hout⟩, ?_, rfl, fun index hindex ↦ ⟨inRange_sourceIndex h hindex, ?_⟩⟩
  · rw [Tensor.reshape, dif_pos hdata, Option.bind_some, htiled, Option.bind_some, Tensor.reshape,
      dif_pos hout]
  · have hat := congrArg (·[rowMajor out index]?) hread
    simp only [tilePlaces, getElem?_map, getElem?_indices hindex, Option.map_some] at hat
    rw [rowMajor_sourceIndex h hlength hindex] at hat
    rw [Tensor.get?, Tensor.get?, ht]
    generalize tiled.data[rowMajor out index]? = a at hat ⊢
    cases a with
    | none => cases hat
    | some a => exact Option.some.inj hat

/-! ## Sums along axes -/

/-- What is left of a list without the entries at the axes. -/
def kept (axes l : List ℕ) : List ℕ := (l.zipIdx.filter fun p ↦ p.2 ∉ axes).map Prod.fst

/-- The entries of an index where the dimension is not `1`. -/
def dropOnes (ns xs : List ℕ) : List ℕ := ((ns.zip xs).filter fun p ↦ p.1 ≠ 1).map Prod.snd

theorem dropOnes_one_cons (x : ℕ) (ns xs : List ℕ) :
    dropOnes (1 :: ns) (x :: xs) = dropOnes ns xs := rfl

theorem dropOnes_cons_of_ne (hn : n ≠ 1) (x : ℕ) (ns xs : List ℕ) :
    dropOnes (n :: ns) (x :: xs) = x :: dropOnes ns xs := by
  rw [dropOnes, zip_cons_cons, filter_cons_of_pos (by exact decide_eq_true hn), map_cons, dropOnes]

theorem dropOnes_replicate_append {k : ℕ} (h : k ≤ xs.length) :
    dropOnes (List.replicate k 1 ++ ns) xs = dropOnes ns (xs.drop k) := by
  induction k generalizing xs with
  | zero => rfl
  | succ k ih =>
    obtain ⟨x, xs, rfl⟩ : ∃ x rest, xs = x :: rest :=
      exists_cons_of_length_pos (Nat.zero_lt_of_lt h)
    rw [replicate_succ, cons_append, dropOnes_one_cons, ih (Nat.le_of_succ_le_succ h),
      drop_succ_cons]

theorem kept_nil (l : List ℕ) : kept [] l = l := by
  simp [kept]

/-- Axes that are those of size `1`. -/
theorem kept_eq_dropOnes {axes : List ℕ} (haxes : ∀ j n, ns[j]? = some n → (j ∈ axes ↔ n = 1))
    (hlength : xs.length = ns.length) : kept axes xs = dropOnes ns xs := by
  suffices hfrom : ∀ k, (∀ j n, ns[j]? = some n → (j + k ∈ axes ↔ n = 1)) →
      ((xs.zipIdx k).filter fun p ↦ p.2 ∉ axes).map Prod.fst = dropOnes ns xs from hfrom 0 haxes
  clear haxes
  induction ns generalizing xs with
  | nil =>
    rw [length_eq_zero_iff.1 hlength]
    exact fun _ _ ↦ rfl
  | cons n ns ih =>
    obtain ⟨x, xs, rfl⟩ := exists_cons_of_length_eq_add_one hlength
    intro k haxes
    have hrest := ih (Nat.succ.inj hlength) (k + 1) fun j m hm ↦ by
      rw [← Nat.add_assoc, Nat.add_right_comm]
      exact haxes (j + 1) m hm
    have hfirst : k ∈ axes ↔ n = 1 := by simpa using haxes 0 n rfl
    rw [zipIdx_cons]
    by_cases hn : n = 1
    · rw [filter_cons_of_neg (by simpa using hfirst.2 hn), hrest, hn, dropOnes_one_cons]
    · rw [filter_cons_of_pos (by simpa using mt hfirst.1 hn), map_cons, hrest,
        dropOnes_cons_of_ne hn]

theorem dropOnes_of_broadcasts (h : List.Forall₂ Broadcasts ns ms) :
    dropOnes ns ms = dropOnes ns ns := by
  induction h with
  | nil => rfl
  | @cons n m ns ms hnm _ ih =>
    by_cases hn : n = 1
    · rw [hn, dropOnes_one_cons, dropOnes_one_cons, ih]
    · rw [dropOnes_cons_of_ne hn, dropOnes_cons_of_ne hn, ih, ← hnm.resolve_left hn]

/-- The indices without the entries where the dimension is `1` come in the same order. -/
theorem map_dropOnes_indices (ns : List ℕ) :
    (indices ns).map (dropOnes ns) = indices (dropOnes ns ns) := by
  induction ns with
  | nil => rfl
  | cons n ns ih =>
    rw [indices, map_flatMap]
    by_cases hn : n = 1
    · subst hn
      rw [range_one, flatMap_singleton, map_map, dropOnes_one_cons, ← ih]
      rfl
    · rw [dropOnes_cons_of_ne hn, indices, ← ih]
      refine flatMap_congr fun x _ ↦ ?_
      rw [map_map, map_map]
      exact map_congr_left fun xs _ ↦ dropOnes_cons_of_ne hn x ns xs

theorem dropOnes_inj {ys : List ℕ} (hx : InRange ns xs) (hy : InRange ns ys)
    (h : dropOnes ns xs = dropOnes ns ys) : xs = ys := by
  induction hx generalizing ys with
  | nil => exact (forall₂_nil_left_iff.1 hy).symm
  | @cons n x ns xs hx hxs ih =>
    obtain ⟨y, ys, hylt, hys, rfl⟩ := forall₂_cons_left_iff.1 hy
    by_cases hn : n = 1
    · subst hn
      rw [dropOnes_one_cons, dropOnes_one_cons] at h
      rw [ih hys h, Nat.lt_one_iff.1 hx, Nat.lt_one_iff.1 hylt]
    · rw [dropOnes_cons_of_ne hn, dropOnes_cons_of_ne hn, cons.injEq] at h
      rw [h.1, ih hys h.2]

theorem dropOnes_sourceIndex :
    dropOnes shape (sourceIndex shape index) =
      dropOnes shape (index.drop (index.length - shape.length)) := by
  rw [sourceIndex]
  generalize index.drop (index.length - shape.length) = xs
  induction shape generalizing xs with
  | nil => rfl
  | cons n shape ih =>
    match xs with
    | [] => rfl
    | x :: xs =>
      rw [zipWith_cons_cons]
      by_cases hn : n = 1
      · rw [hn, dropOnes_one_cons, dropOnes_one_cons, ih]
      · rw [dropOnes_cons_of_ne hn, dropOnes_cons_of_ne hn, ih, if_neg hn]

namespace Tensor

variable {β : Type*} [AddCommMonoid β]

/-- The sum of the elements with these indices. -/
def sumOver (t : Tensor β) (p : List ℕ → Prop) [DecidablePred p] : β :=
  ((((indices t.shape).zip t.data).filter fun q ↦ p q.1).map Prod.snd).sum

/-- The sums along the axes. -/
def reduceSum (t : Tensor β) (axes : List ℕ) : Tensor β where
  shape := kept axes t.shape
  data := (indices (kept axes t.shape)).map fun i ↦ t.sumOver fun index ↦ kept axes index = i
  length_data := by rw [List.length_map, length_indices]

theorem sumOver_congr (t : Tensor β) {p q : List ℕ → Prop} [DecidablePred p] [DecidablePred q]
    (h : ∀ index, InRange t.shape index → (p index ↔ q index)) : t.sumOver p = t.sumOver q := by
  rw [sumOver, sumOver]
  congr 2
  refine filter_congr fun r hr ↦ ?_
  rw [decide_eq_decide]
  exact h _ (mem_indices.1 (of_mem_zip hr).1)

/-- A tensor whose elements are sums over the indices of `g` that read them. -/
theorem get?_of_data_eq {g u : Tensor β} (hshape : u.shape = shape)
    (hdata : u.data = (indices shape).map fun i ↦ g.sumOver fun index ↦ sourceIndex shape index = i)
    {i : List ℕ} (hi : InRange shape i) :
    u.get? i = some (g.sumOver fun index ↦ sourceIndex shape index = i) := by
  rw [get?, hshape, hdata, getElem?_map, getElem?_indices hi, Option.map_some]

/-- Sums along the axes of size `1` are sums over the indices that read the same element. -/
theorem reduceSum_data {axes : List ℕ} {g : Tensor β}
    (haxes : ∀ j n, (extend g.shape.length shape)[j]? = some n → (j ∈ axes ↔ n = 1))
    (h : List.Forall₂ Broadcasts (extend g.shape.length shape) g.shape)
    (hlength : shape.length ≤ g.shape.length) :
    (g.reduceSum axes).data =
      (indices shape).map fun i ↦ g.sumOver fun index ↦ sourceIndex shape index = i := by
  have hkept : ∀ index : List ℕ, index.length = g.shape.length →
      kept axes index = dropOnes shape (index.drop (index.length - shape.length)) :=
      fun index hindex ↦ by
    rw [kept_eq_dropOnes haxes (by rw [hindex, length_extend hlength]), extend, hindex]
    exact dropOnes_replicate_append (hindex ▸ Nat.sub_le _ _)
  have hshape : kept axes g.shape = dropOnes shape shape := by
    rw [kept_eq_dropOnes haxes (length_extend hlength).symm, dropOnes_of_broadcasts h, extend,
      dropOnes_replicate_append (by rw [length_append, length_replicate]; omega),
      drop_left' length_replicate]
  show (indices (kept axes g.shape)).map (fun i ↦ g.sumOver fun index ↦ kept axes index = i) = _
  rw [hshape, ← map_dropOnes_indices, map_map]
  refine map_congr_left fun i hi ↦ ?_
  dsimp only [Function.comp]
  refine g.sumOver_congr fun index hindex ↦ ?_
  rw [hkept index hindex.length_eq.symm, ← dropOnes_sourceIndex]
  exact ⟨dropOnes_inj (inRange_sourceIndex h hindex) (mem_indices.1 hi), fun heq ↦ congrArg _ heq⟩

theorem exists_reshape_reduceSum {axes : List ℕ} {g : Tensor β} (hdata : (g.reduceSum axes).data =
      (indices shape).map fun i ↦ g.sumOver fun index ↦ sourceIndex shape index = i) :
    ∃ u, (g.reduceSum axes).reshape shape = some u ∧ u.shape = shape ∧
      ∀ i, InRange shape i →
      u.get? i = some (g.sumOver fun index ↦ sourceIndex shape index = i) := by
  have hlength : (g.reduceSum axes).data.length = shape.prod := by
    rw [hdata, length_map, length_indices]
  exact ⟨⟨shape, _, hlength⟩, dif_pos hlength, rfl, fun i hi ↦ get?_of_data_eq rfl hdata hi⟩

/-- Without axes, for a shape that is broadcast to itself. -/
theorem reduceSum_nil_data (g : Tensor β) : (g.reduceSum []).data =
    (indices g.shape).map fun i ↦ g.sumOver fun index ↦ sourceIndex g.shape index = i := by
  have hsource : ∀ index, InRange g.shape index → sourceIndex g.shape index = index :=
    fun index hindex ↦ by
    rw [sourceIndex, hindex.length_eq, Nat.sub_self, drop_zero]
    generalize g.shape = ns at hindex
    induction hindex with
    | nil => rfl
    | @cons n x ns xs hx _ ih =>
      rw [zipWith_cons_cons, ih]
      split
      · next hn => rw [Nat.lt_one_iff.1 (lt_of_lt_of_eq hx hn)]
      · rfl
  show (indices (kept [] g.shape)).map (fun i ↦ g.sumOver fun index ↦ kept [] index = i) = _
  rw [kept_nil]
  refine map_congr_left fun i _ ↦ g.sumOver_congr fun index hindex ↦ ?_
  rw [kept_nil, hsource index hindex]

end Tensor

end RowMajor
