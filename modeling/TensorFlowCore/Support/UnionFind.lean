import Mathlib.Data.Finset.Card

/-!
# Union-find

A disjoint-set forest with path compression and union by rank. A function `root` says which tree
each member is in (`Represents`): finding a root returns its value and changes no tree, and linking
two roots merges their trees and no others.
-/

namespace TensorFlowCore.UnionFind

open Function Option

/-- A member of a forest: its parent, itself for a root, and a bound for the depth of its tree. -/
structure Cell where
  parent : ℕ
  rank : ℕ := 0
  deriving DecidableEq

/-- The members of a forest. -/
abbrev Forest := ℕ → Option Cell

/-- The root of a member, and the forest with the path to the root compressed. -/
def findRoot : ℕ → Forest → ℕ → Option (ℕ × Forest)
  | 0, _, _ => none
  | fuel + 1, f, x =>
    match f x with
    | none => none
    | some c =>
      if c.parent = x then some (x, f)
      else
        match findRoot fuel f c.parent with
        | none => none
        | some (r, f') => some (r, Function.update f' x ((f' x).map ({ · with parent := r })))

/-- Connect the shallower one of two trees to the root of the other: the new root, the old root and
the forest. -/
def link (f : Forest) (x y : ℕ) (cx cy : Cell) : ℕ × ℕ × Forest :=
  if cx.rank < cy.rank then (y, x, Function.update f x (some { cx with parent := y }))
  else if cy.rank < cx.rank then (x, y, Function.update f y (some { cy with parent := x }))
  else (x, y, Function.update (Function.update f y (some { cy with parent := x })) x
    (some { cx with rank := cx.rank + 1 }))

/-- The members are below `N`, and `root` says in which tree they are. -/
structure Represents (f : Forest) (N : ℕ) (root : ℕ → ℕ) : Prop where
  lt : ∀ {x c}, f x = some c → x < N
  parent : ∀ {x c}, f x = some c → ∃ d, f c.parent = some d ∧ root c.parent = root x ∧
    (c.parent ≠ x → c.rank < d.rank)
  root_eq : ∀ {x c}, f x = some c → c.parent = x → root x = x

variable {f : Forest} {N x y : ℕ} {root : ℕ → ℕ} {c d : Cell}

theorem represents_empty (N : ℕ) (root : ℕ → ℕ) : Represents (fun _ ↦ none) N root :=
  ⟨nofun, nofun, nofun⟩

/-- A new member is the root of its tree. -/
theorem Represents.insert (h : Represents f N root) (hx : f x = none) {M : ℕ} (hN : N ≤ M)
    (hlt : x < M) :
    Represents (Function.update f x (some ⟨x, 0⟩)) M (Function.update root x x) where
  lt {y c} hy := by
    by_cases hyx : y = x
    · exact hyx ▸ hlt
    · rw [update_of_ne hyx] at hy
      exact (h.lt hy).trans_le hN
  parent {y c} hy := by
    by_cases hyx : y = x
    · subst hyx
      rw [update_self] at hy
      cases hy
      exact ⟨_, update_self .., rfl, fun hne ↦ absurd rfl hne⟩
    · rw [update_of_ne hyx] at hy
      obtain ⟨d, hd, hroot, hrank⟩ := h.parent hy
      have hne : c.parent ≠ x := by
        rintro heq
        rw [heq, hx] at hd
        cases hd
      refine ⟨d, ?_, ?_, hrank⟩
      · rw [update_of_ne hne, hd]
      · rw [update_of_ne hne, update_of_ne hyx, hroot]
  root_eq {y c} hy hparent := by
    by_cases hyx : y = x
    · subst hyx
      exact update_self ..
    · rw [update_of_ne hyx] at hy ⊢
      exact h.root_eq hy hparent

/-! ### Finding a root -/

/-- The members with a higher rank. -/
def above (f : Forest) (N k : ℕ) : Finset ℕ := {y ∈ Finset.range N | ∃ d ∈ f y, k < d.rank}

theorem card_above_lt (hy : f y = some d) (hlt : y < N) {k : ℕ} (hk : k < d.rank) :
    (above f N d.rank).card < (above f N k).card := by
  refine Finset.card_lt_card (Finset.ssubset_iff_of_subset ?_ |>.2 ⟨y, ?_, ?_⟩)
  · intro z hz
    obtain ⟨hlt', e, he, hrank⟩ := Finset.mem_filter.1 hz
    exact Finset.mem_filter.2 ⟨hlt', e, he, hk.trans hrank⟩
  · exact Finset.mem_filter.2 ⟨Finset.mem_range.2 hlt, d, hy, hk⟩
  · intro hmem
    obtain ⟨-, e, he, hrank⟩ := Finset.mem_filter.1 hmem
    obtain rfl : e = d := some.inj (he.symm.trans hy)
    exact absurd hrank (Nat.lt_irrefl _)

/-- A member that is no root has a lower rank than the root of its tree. -/
theorem Represents.exists_root (h : Represents f N root) (hx : f x = some c) :
    c.parent = x ∨ ∃ d, f (root x) = some d ∧ d.parent = root x ∧ c.rank < d.rank := by
  induction hm : (above f N c.rank).card using Nat.strong_induction_on generalizing x c with
  | _ m ih =>
    by_cases hself : c.parent = x
    · exact .inl hself
    · obtain ⟨d, hd, hroot, hrank⟩ := h.parent hx
      have hlt := card_above_lt hd (h.lt hd) (hrank hself)
      refine .inr ?_
      obtain hparent | ⟨e, he, heself, herank⟩ := ih _ (hm ▸ hlt) hd rfl
      · have heq : root x = c.parent := hroot.symm.trans (h.root_eq hd hparent)
        rw [heq]
        exact ⟨d, hd, hparent, hrank hself⟩
      · rw [hroot] at he heself
        exact ⟨e, he, heself, (hrank hself).trans herank⟩

/-- The root of a tree is its own parent. -/
theorem Represents.parent_eq (h : Represents f N root) (hx : f x = some c) (hroot : root x = x) :
    c.parent = x := by
  obtain hself | ⟨d, hd, -, hrank⟩ := h.exists_root hx
  · exact hself
  · rw [hroot, hx] at hd
    cases hd
    exact absurd hrank (Nat.lt_irrefl _)

/-- Two forests with the same members of the same ranks. -/
def SameRanks (f f' : Forest) : Prop := ∀ y, (f' y).map Cell.rank = (f y).map Cell.rank

theorem SameRanks.exists_eq {f' : Forest} (h : SameRanks f f') (hy : f y = some d) :
    ∃ d', f' y = some d' ∧ d'.rank = d.rank := by
  have heq := h y
  rw [hy] at heq
  exact map_eq_some_iff.1 heq

section

variable (h : Represents f N root) (hx : f x = some c)
include h hx

/-- Pointing a member to the root of its tree changes no tree. -/
theorem Represents.compress (hroot : f (root x) = some d) (hself : d.parent = root x)
    (hrank : c.rank < d.rank) :
    Represents (Function.update f x (some { c with parent := root x })) N root := by
  have hne : root x ≠ x := by
    intro heq
    rw [heq, hx] at hroot
    cases hroot
    exact Nat.lt_irrefl _ hrank
  refine ⟨fun {y e} hy ↦ ?_, fun {y e} hy ↦ ?_, fun {y e} hy hparent ↦ ?_⟩
  · by_cases hyx : y = x
    · exact hyx ▸ h.lt hx
    · rw [update_of_ne hyx] at hy
      exact h.lt hy
  · by_cases hyx : y = x
    · subst hyx
      rw [update_self] at hy
      cases hy
      refine ⟨d, ?_, h.root_eq hroot hself, fun _ ↦ hrank⟩
      show update f y _ (root y) = some d
      rw [update_of_ne hne, hroot]
    · rw [update_of_ne hyx] at hy
      obtain ⟨e', he', hroot', hrank'⟩ := h.parent hy
      by_cases hparent : e.parent = x
      · rw [hparent] at he' hroot' ⊢
        obtain rfl := some.inj (hx.symm.trans he')
        exact ⟨_, update_self .., hroot', fun hne' ↦ hrank' (hparent ▸ hne')⟩
      · exact ⟨e', by rw [update_of_ne hparent, he'], hroot', hrank'⟩
  · by_cases hyx : y = x
    · subst hyx
      rw [update_self] at hy
      cases hy
      exact absurd hparent hne
    · rw [update_of_ne hyx] at hy
      exact h.root_eq hy hparent

/-- With enough fuel the root of the tree is found, no tree changes, and the rank grows on the
way. -/
theorem Represents.findRoot_eq {fuel : ℕ} (hfuel : (above f N c.rank).card < fuel) :
    ∃ f' d, findRoot fuel f x = some (root x, f') ∧ Represents f' N root ∧ SameRanks f f' ∧
      f' (root x) = some d ∧ d.parent = root x ∧ c.rank ≤ d.rank := by
  induction fuel generalizing x c with
  | zero => exact absurd hfuel (Nat.not_lt_zero _)
  | succ fuel ih =>
    simp only [findRoot, hx]
    split
    · rename_i hself
      have hroot := h.root_eq hx hself
      refine ⟨f, c, by rw [hroot], h, fun _ ↦ rfl, ?_, ?_, le_rfl⟩
      · rw [hroot, hx]
      · rw [hroot, hself]
    · rename_i hself
      obtain ⟨d, hd, hroot, hrank⟩ := h.parent hx
      have hlt := card_above_lt hd (h.lt hd) (hrank hself)
      obtain ⟨f', r, hfind, hrep, hsame, hr, hrself, hle⟩ := ih hd (by omega)
      rw [hroot] at hfind hr hrself
      obtain ⟨c', hc', hcrank⟩ := hsame.exists_eq hx
      have hgrow : c'.rank < r.rank := by
        rw [hcrank]
        exact (hrank hself).trans_le hle
      have hne : root x ≠ x := by
        intro heq
        rw [heq, hc'] at hr
        cases hr
        exact Nat.lt_irrefl _ hgrow
      rw [hfind]
      simp only [hc', map_some]
      refine ⟨_, r, rfl, hrep.compress hc' hr hrself hgrow, fun y ↦ ?_, ?_, hrself, ?_⟩
      · by_cases hyx : y = x
        · subst hyx
          rw [update_self, hx, map_some, map_some, ← hcrank]
        · rw [update_of_ne hyx]
          exact hsame y
      · rw [update_of_ne hne, hr]
      · rw [← hcrank]
        exact hgrow.le

/-- A member for each number below `N` is fuel enough. -/
theorem Represents.findRoot_of_le {fuel : ℕ} (hfuel : N ≤ fuel) :
    ∃ f' d, findRoot fuel f x = some (root x, f') ∧ Represents f' N root ∧ SameRanks f f' ∧
      f' (root x) = some d ∧ d.parent = root x := by
  have hcard : (above f N c.rank).card < N := by
    have hssub : above f N c.rank ⊂ Finset.range N := by
      refine Finset.ssubset_iff_of_subset (Finset.filter_subset _ _) |>.2
        ⟨x, Finset.mem_range.2 (h.lt hx), fun hmem ↦ ?_⟩
      obtain ⟨-, e, he, hrank⟩ := Finset.mem_filter.1 hmem
      obtain rfl : e = c := some.inj (he.symm.trans hx)
      exact absurd hrank (Nat.lt_irrefl _)
    simpa using Finset.card_lt_card hssub
  obtain ⟨f', d, hfind, hrep, hsame, hd, hself, -⟩ := h.findRoot_eq hx (hcard.trans_le hfuel)
  exact ⟨f', d, hfind, hrep, hsame, hd, hself⟩

end

/-! ### Linking two roots -/

/-- The trees when the tree of an old root has been connected to a new root. -/
def merged (root : ℕ → ℕ) (new old : ℕ) (z : ℕ) : ℕ := if root z = old then new else root z

/-- Pointing a root to another root merges their trees. -/
theorem Represents.connect {new old k : ℕ} (h : Represents f N root) (hold : f old = some c)
    (holdSelf : c.parent = old) (hnew : f new = some d) (hnewSelf : d.parent = new)
    (hne : new ≠ old) (hle : d.rank ≤ k) (hlt : c.rank < k) :
    Represents (Function.update (Function.update f old (some { c with parent := new })) new
      (some { d with rank := k })) N (merged root new old) := by
  have hrootOld := h.root_eq hold holdSelf
  have hrootNew := h.root_eq hnew hnewSelf
  have hmergedNew : merged root new old new = new := by
    rw [merged, hrootNew, if_neg hne]
  have hmergedOld : merged root new old old = new := by
    rw [merged, if_pos hrootOld]
  set f' := update (update f old (some { c with parent := new })) new
    (some { d with rank := k }) with hf'
  have hatNew : f' new = some { d with rank := k } := update_self ..
  have hatOld : f' old = some { c with parent := new } := by
    rw [hf', update_of_ne (Ne.symm hne), update_self]
  have hat : ∀ z, z ≠ new → z ≠ old → f' z = f z := fun z hzn hzo ↦ by
    rw [hf', update_of_ne hzn, update_of_ne hzo]
  -- ranks do not fall
  have hranks : ∀ {z e}, f z = some e → ∃ e', f' z = some e' ∧ e.rank ≤ e'.rank := by
    intro z e hz
    by_cases hzn : z = new
    · subst hzn
      obtain rfl := some.inj (hnew.symm.trans hz)
      exact ⟨_, hatNew, hle⟩
    · by_cases hzo : z = old
      · subst hzo
        obtain rfl := some.inj (hold.symm.trans hz)
        exact ⟨_, hatOld, le_rfl⟩
      · exact ⟨e, by rw [hat z hzn hzo, hz], le_rfl⟩
  refine ⟨fun {z e} hz ↦ ?_, fun {z e} hz ↦ ?_, fun {z e} hz hparent ↦ ?_⟩
  · by_cases hzn : z = new
    · exact hzn ▸ h.lt hnew
    · by_cases hzo : z = old
      · exact hzo ▸ h.lt hold
      · exact h.lt (hat z hzn hzo ▸ hz)
  · by_cases hzn : z = new
    · subst hzn
      obtain rfl := some.inj (hatNew.symm.trans hz)
      refine ⟨{ d with rank := k }, ?_, ?_, fun hne' ↦ absurd hnewSelf hne'⟩
      · exact (congrArg f' hnewSelf).trans hatNew
      · exact congrArg (merged root z old) hnewSelf
    · by_cases hzo : z = old
      · subst hzo
        obtain rfl := some.inj (hatOld.symm.trans hz)
        exact ⟨_, hatNew, hmergedNew.trans hmergedOld.symm, fun _ ↦ hlt⟩
      · rw [hat z hzn hzo] at hz
        obtain ⟨e₁, he₁, hroot, hrank⟩ := h.parent hz
        obtain ⟨e₂, he₂, hle₂⟩ := hranks he₁
        refine ⟨e₂, he₂, ?_, fun hne' ↦ (hrank hne').trans_le hle₂⟩
        rw [merged, merged, hroot]
  · by_cases hzn : z = new
    · exact hzn ▸ hmergedNew
    · by_cases hzo : z = old
      · subst hzo
        obtain rfl := some.inj (hatOld.symm.trans hz)
        exact absurd hparent hne
      · rw [hat z hzn hzo] at hz
        rw [merged, h.root_eq hz hparent, if_neg hzo]

/-- Linking two roots merges their trees. -/
theorem Represents.link {cx cy : Cell} (h : Represents f N root) (hx : f x = some cx)
    (hxSelf : cx.parent = x) (hy : f y = some cy) (hySelf : cy.parent = y) (hne : x ≠ y) :
    ∃ new old f', UnionFind.link f x y cx cy = (new, old, f') ∧
      (new = x ∧ old = y ∨ new = y ∧ old = x) ∧ Represents f' N (merged root new old) ∧
      ∀ z, (f' z).isSome = (f z).isSome := by
  have hsome : ∀ (g : Forest) (z : ℕ) (e : Cell), (g z).isSome = true →
      ∀ w, (update g z (some e) w).isSome = (g w).isSome := by
    intro g z e hz w
    by_cases hwz : w = z
    · subst hwz
      rw [update_self, hz, isSome_some]
    · rw [update_of_ne hwz]
  rw [UnionFind.link]
  split
  · rename_i hlt
    refine ⟨y, x, _, rfl, .inr ⟨rfl, rfl⟩, ?_, hsome f x _ (by rw [hx, isSome_some])⟩
    have hconnect := h.connect hx hxSelf hy hySelf (Ne.symm hne) le_rfl hlt
    have hself : update f x (some { cx with parent := y }) y = some cy := by
      rw [update_of_ne (Ne.symm hne), hy]
    rwa [show some { cy with rank := cy.rank } = update f x
      (some { cx with parent := y }) y from hself.symm, update_eq_self] at hconnect
  · rename_i hnlt
    split
    · rename_i hlt
      refine ⟨x, y, _, rfl, .inl ⟨rfl, rfl⟩, ?_, hsome f y _ (by rw [hy, isSome_some])⟩
      have hconnect := h.connect hy hySelf hx hxSelf hne le_rfl hlt
      have hself : update f y (some { cy with parent := x }) x = some cx := by
        rw [update_of_ne hne, hx]
      rwa [show some { cx with rank := cx.rank } = update f y
        (some { cy with parent := x }) x from hself.symm, update_eq_self] at hconnect
    · refine ⟨x, y, _, rfl, .inl ⟨rfl, rfl⟩, ?_, fun z ↦ ?_⟩
      · exact h.connect hy hySelf hx hxSelf hne (Nat.le_succ _) (by omega)
      · rw [hsome _ x _ (by rw [hsome f y _ (by rw [hy, isSome_some]), hx,
          isSome_some]), hsome f y _ (by rw [hy, isSome_some])]

/-! ### Following the parents -/

/-- A member has another one as its parent. -/
def HasParent (f : Forest) (x y : ℕ) : Prop := ∃ c, f x = some c ∧ c.parent = y ∧ y ≠ x

/-- The rank grows along the parents. -/
theorem Represents.rank_lt (h : Represents f N root) (hxy : Relation.TransGen (HasParent f) x y)
    (hx : f x = some c) : ∃ d, f y = some d ∧ c.rank < d.rank := by
  have hstep : ∀ {x y c}, HasParent f x y → f x = some c → ∃ d, f y = some d ∧ c.rank < d.rank := by
    rintro x y c ⟨c', hc', rfl, hne⟩ hc
    obtain rfl := some.inj (hc.symm.trans hc')
    obtain ⟨d, hd, -, hrank⟩ := h.parent hc
    exact ⟨d, hd, hrank hne⟩
  induction hxy with
  | single hstep' => exact hstep hstep' hx
  | tail _ hstep' ih =>
    obtain ⟨d, hd, hlt⟩ := ih
    obtain ⟨e, he, hlt'⟩ := hstep hstep' hd
    exact ⟨e, he, hlt.trans hlt'⟩

/-- The parents lead to no member twice. -/
theorem Represents.acyclic (h : Represents f N root) : ¬Relation.TransGen (HasParent f) x x := by
  intro hxx
  obtain ⟨y, ⟨c, hc, -⟩, -⟩ := Relation.TransGen.head'_iff.1 hxx
  obtain ⟨d, hd, hlt⟩ := h.rank_lt hxx hc
  obtain rfl := some.inj (hc.symm.trans hd)
  exact Nat.lt_irrefl _ hlt

/-! ### Classes -/

/-- A union joins the sets of the two roots and leaves the others apart. -/
theorem merged_eq_iff {new old z w : ℕ} :
    merged root new old z = merged root new old w ↔
      root z = root w ∨ root z = new ∧ root w = old ∨ root z = old ∧ root w = new := by
  rw [merged, merged]
  split
  · split
    · rename_i hz hw
      exact iff_of_true rfl (.inl (hz.trans hw.symm))
    · rename_i hz hw
      constructor
      · exact fun heq ↦ .inr (.inr ⟨hz, heq.symm⟩)
      · rintro (heq | ⟨-, heq⟩ | ⟨-, heq⟩)
        · exact absurd (heq.symm.trans hz) hw
        · exact absurd heq hw
        · exact heq.symm
  · split
    · rename_i hz hw
      constructor
      · exact fun heq ↦ .inr (.inl ⟨heq, hw⟩)
      · rintro (heq | ⟨heq, -⟩ | ⟨heq, -⟩)
        · exact absurd (heq.trans hw) hz
        · exact heq
        · exact absurd heq hz
    · rename_i hz hw
      constructor
      · exact .inl
      · rintro (heq | ⟨-, heq⟩ | ⟨heq, -⟩)
        · exact heq
        · exact absurd heq hw
        · exact absurd heq hz

/-- The trees of the two roots become one, -/
theorem merged_eq_new_iff {new old z : ℕ} :
    merged root new old z = new ↔ root z = new ∨ root z = old := by
  rw [merged]
  split
  · rename_i hz
    exact iff_of_true rfl (.inr hz)
  · rename_i hz
    exact (or_iff_left hz).symm

/-- and the others stay. -/
theorem merged_eq_iff_of_ne {new old r z : ℕ} (hnew : r ≠ new) (hold : r ≠ old) :
    merged root new old z = r ↔ root z = r := by
  rw [merged]
  split
  · rename_i hz
    exact iff_of_false hnew.symm fun h ↦ hold (h.symm.trans hz)
  · rfl

theorem merged_cases (root : ℕ → ℕ) (new old z : ℕ) :
    merged root new old z = new ∨
      merged root new old z = root z ∧ root z ≠ new ∧ root z ≠ old := by
  by_cases hold : root z = old
  · exact .inl (merged_eq_new_iff.2 (.inr hold))
  · by_cases hnew : root z = new
    · exact .inl (merged_eq_new_iff.2 (.inl hnew))
    · exact .inr ⟨(merged_eq_iff_of_ne hnew hold).2 rfl, hnew, hold⟩

open Relation in
/-- One more pair connects two classes. -/
theorem eqvGen_insert {V : Type*} {r : V → V → Prop} {x y a b : V} :
    EqvGen (fun u v ↦ r u v ∨ u = x ∧ v = y) a b ↔
      EqvGen r a b ∨ EqvGen r a x ∧ EqvGen r y b ∨ EqvGen r a y ∧ EqvGen r x b := by
  constructor
  · intro h
    induction h with
    | rel u v huv =>
      obtain huv | ⟨rfl, rfl⟩ := huv
      · exact .inl (.rel _ _ huv)
      · exact .inr (.inl ⟨.refl _, .refl _⟩)
    | refl u => exact .inl (.refl _)
    | symm u v _ ih =>
      obtain h | ⟨h, h'⟩ | ⟨h, h'⟩ := ih
      · exact .inl (h.symm _ _)
      · exact .inr (.inr ⟨h'.symm _ _, h.symm _ _⟩)
      · exact .inr (.inl ⟨h'.symm _ _, h.symm _ _⟩)
    | trans u v w _ _ ih ih' =>
      obtain h | ⟨h, h'⟩ | ⟨h, h'⟩ := ih
      · obtain k | ⟨k, k'⟩ | ⟨k, k'⟩ := ih'
        · exact .inl (h.trans _ _ _ k)
        · exact .inr (.inl ⟨h.trans _ _ _ k, k'⟩)
        · exact .inr (.inr ⟨h.trans _ _ _ k, k'⟩)
      · obtain k | ⟨k, k'⟩ | ⟨k, k'⟩ := ih'
        · exact .inr (.inl ⟨h, h'.trans _ _ _ k⟩)
        · exact .inr (.inl ⟨h, k'⟩)
        · exact .inl (h.trans _ _ _ k')
      · obtain k | ⟨k, k'⟩ | ⟨k, k'⟩ := ih'
        · exact .inr (.inr ⟨h, h'.trans _ _ _ k⟩)
        · exact .inl (h.trans _ _ _ k')
        · exact .inr (.inr ⟨h, k'⟩)
  · have hmono : ∀ {u v}, EqvGen r u v → EqvGen (fun u v ↦ r u v ∨ u = x ∧ v = y) u v := fun h ↦
      h.mono fun _ _ ↦ .inl
    have hxy : EqvGen (fun u v ↦ r u v ∨ u = x ∧ v = y) x y := .rel _ _ (.inr ⟨rfl, rfl⟩)
    rintro (h | ⟨h, h'⟩ | ⟨h, h'⟩)
    · exact hmono h
    · exact (hmono h).trans _ _ _ (hxy.trans _ _ _ (hmono h'))
    · exact (hmono h).trans _ _ _ ((hxy.symm _ _).trans _ _ _ (hmono h'))

open Relation in
/-- What is in no pair is alone in its class. -/
theorem eqvGen_eq_of_forall_not {V : Type*} {r : V → V → Prop} {x a b : V}
    (hx : ∀ z, ¬r x z ∧ ¬r z x) (h : EqvGen r a b) : a = x ↔ b = x := by
  induction h with
  | rel u v huv =>
    refine iff_of_false ?_ ?_
    · rintro rfl
      exact (hx v).1 huv
    · rintro rfl
      exact (hx u).2 huv
  | refl u => exact Iff.rfl
  | symm u v _ ih => exact ih.symm
  | trans u v w _ _ ih ih' => exact ih.trans ih'

end TensorFlowCore.UnionFind
