import TensorFlowCore.Core.Status

/-!
# Clean paths

`CleanPath` of `tensorflow/core/lib/io/path.cc`, which rewrites a copy of its path in place. Bytes
are read at `src` up to the NUL behind the path and written at `dst`, and what has been written in
front of `backtrack_limit` is never taken back. For every byte that is copied the cursor keeps the
position that it was written to and the one that it was read from.
-/

namespace TensorFlowCore.Io

/-- The string that is cleaned, with the positions in it. -/
structure Cursor where
  path : ByteString
  src : ℕ
  dst : ℕ
  backtrackLimit : ℕ
  writes : List (ℕ × ℕ)

namespace Cursor

/-- `src[i]`, where the string ends with a NUL. -/
def read (c : Cursor) (i : ℕ) : UInt8 := c.path.getD (c.src + i) 0

/-- `*dst++ = *src`. -/
def put (c : Cursor) : Cursor :=
  { c with path := c.path.set c.dst (c.read 0), dst := c.dst + 1, writes := (c.dst, c.src) ::
    c.writes }

/-- `src += n`. -/
def skip (c : Cursor) (n : ℕ) : Cursor := { c with src := c.src + n }

/-- `*dst++ = *src++`. -/
def copy (c : Cursor) : Cursor := c.put.skip 1

/-- A read that is no NUL is one inside of the string. -/
theorem src_lt {c : Cursor} (h : c.read 0 ≠ 0) : c.src < c.path.length := by
  by_contra hge
  rw [read, Nat.add_zero, List.getD, List.getElem?_eq_none (Nat.not_lt.1 hge)] at h
  exact h rfl

/-- The loop that copies a part. -/
def copyPart (c : Cursor) : Cursor :=
  if c.read 0 ≠ 0 ∧ c.read 0 ≠ 47 then c.copy.copyPart else c
termination_by c.path.length - c.src
decreasing_by
  have hlt : c.src < c.path.length := src_lt (by rename_i h; exact h.1)
  show (c.path.set _ _).length - (c.src + 1) < _
  rw [List.length_set]
  omega

/-- The loops over consecutive separators. -/
def skipSeparators (c : Cursor) : Cursor := if c.read 0 = 47 then (c.skip 1).skipSeparators else c
termination_by c.path.length - c.src
decreasing_by
  have hlt : c.src < c.path.length := src_lt (by rename_i h; rw [h]; decide)
  show c.path.length - (c.src + 1) < _
  omega

/-- The loop that takes back a part, behind its first `--dst`. -/
def backtrack (path : ByteString) (backtrackLimit : ℕ) : ℕ → ℕ
  | 0 => 0
  | d + 1 =>
    if d + 1 ≠ backtrackLimit ∧ path.getD d 0 ≠ 47 then backtrack path backtrackLimit d else d + 1

/-- What is done about a part `..`, from which `src` has moved on already. -/
def parent (isAbsolutePath : Bool) (c : Cursor) : Cursor :=
  if c.dst ≠ c.backtrackLimit then
    { c with dst := backtrack c.path c.backtrackLimit (c.dst - 1) }
  else if ¬isAbsolutePath then
    let c := { c with src := c.src - 2 }.copy.copy
    let c := if c.read 0 ≠ 0 then c.put else c
    { c with backtrackLimit := c.dst }
  else c

/-- `if (*src) ++src;`. -/
def skipOne (c : Cursor) : Cursor := if c.read 0 ≠ 0 then c.skip 1 else c

/-- One round of the loop over the parts. -/
def part (isAbsolutePath : Bool) (c : Cursor) : Cursor :=
  if c.read 0 = 46 ∧ (c.read 1 = 47 ∨ c.read 1 = 0) then
    (c.skip 1).skipOne.skipSeparators
  else if c.read 0 = 46 ∧ c.read 1 = 46 ∧ (c.read 2 = 47 ∨ c.read 2 = 0) then
    ((c.skip 2).parent isAbsolutePath).skipOne.skipSeparators
  else
    let c := c.copyPart
    (if c.read 0 ≠ 0 then c.copy else c).skipSeparators

/-! ### Progress -/

theorem length_copyPart (c : Cursor) :
    c.copyPart.path.length = c.path.length ∧ c.src ≤ c.copyPart.src := by
  fun_induction copyPart c with
  | case1 c h ih =>
    obtain ⟨hlen, hle⟩ := ih
    exact ⟨hlen.trans List.length_set, (Nat.le_succ _).trans hle⟩
  | case2 c h => exact ⟨rfl, le_rfl⟩

theorem length_skipSeparators (c : Cursor) :
    c.skipSeparators.path = c.path ∧ c.src ≤ c.skipSeparators.src := by
  fun_induction skipSeparators c with
  | case1 c h ih => exact ⟨ih.1, (Nat.le_succ _).trans ih.2⟩
  | case2 c h => exact ⟨rfl, le_rfl⟩

theorem length_skipOne (c : Cursor) : c.skipOne.path = c.path ∧ c.src ≤ c.skipOne.src := by
  rw [skipOne]
  split
  · exact ⟨rfl, Nat.le_succ _⟩
  · exact ⟨rfl, le_rfl⟩

theorem length_parent (isAbsolutePath : Bool) (c : Cursor) (h : 2 ≤ c.src) :
    (c.parent isAbsolutePath).path.length = c.path.length ∧
    (c.parent isAbsolutePath).src = c.src := by
  rw [parent]
  split
  · exact ⟨rfl, rfl⟩
  · split
    · have hsrc : c.src - 2 + 1 + 1 = c.src := by omega
      dsimp only
      split <;> simp only [put, copy, skip, List.length_set, hsrc, and_self]
    · exact ⟨rfl, rfl⟩

/-- Every round moves on. -/
theorem part_progress (isAbsolutePath : Bool) {c : Cursor} (h : c.read 0 ≠ 0) :
    (c.part isAbsolutePath).path.length = c.path.length ∧ c.src < (c.part isAbsolutePath).src := by
  rw [part]
  split_ifs
  · obtain ⟨hpath, hsrc⟩ := length_skipSeparators (c.skip 1).skipOne
    obtain ⟨hpath', hsrc'⟩ := length_skipOne (c.skip 1)
    rw [hpath, hpath']
    exact ⟨rfl, (Nat.lt_succ_self _).trans_le (hsrc'.trans hsrc)⟩
  · obtain ⟨hpath, hsrc⟩ := length_skipSeparators ((c.skip 2).parent isAbsolutePath).skipOne
    obtain ⟨hpath', hsrc'⟩ := length_skipOne ((c.skip 2).parent isAbsolutePath)
    obtain ⟨hlen, hparent⟩ := length_parent isAbsolutePath (c.skip 2) (Nat.le_add_left _ _)
    rw [hpath, hpath', hlen]
    rw [hparent] at hsrc'
    exact ⟨rfl, (Nat.lt_add_of_pos_right (by decide)).trans_le (hsrc'.trans hsrc)⟩
  · obtain ⟨hlen, hle⟩ := length_copyPart c
    dsimp only
    split
    · obtain ⟨hpath, hsrc⟩ := length_skipSeparators c.copyPart.copy
      rw [hpath]
      exact ⟨List.length_set.trans hlen, (Nat.lt_succ_of_le hle).trans_le hsrc⟩
    · next hend =>
      obtain ⟨hpath, hsrc⟩ := length_skipSeparators c.copyPart
      rw [hpath]
      refine ⟨hlen, lt_of_lt_of_le ?_ hsrc⟩
      rw [copyPart]
      split
      · exact (length_copyPart c.copy).2
      · next hstop => rw [copyPart, if_neg hstop] at hend; exact absurd h hend

/-- The loop over the parts. -/
def parts (isAbsolutePath : Bool) (c : Cursor) : Cursor :=
  if c.read 0 ≠ 0 then (c.part isAbsolutePath).parts isAbsolutePath else c
termination_by c.path.length - c.src
decreasing_by
  have h : c.read 0 ≠ 0 := by assumption
  have hlt := src_lt h
  obtain ⟨hlen, hsrc⟩ := part_progress isAbsolutePath h
  omega

/-- The cursor behind the leading separators of an absolute path. -/
def start (uncleanPath : ByteString) : Cursor :=
  let c : Cursor := ⟨uncleanPath, 0, 0, 0, []⟩
  let c := if c.read 0 = 47 then c.copy.skipSeparators else c
  { c with backtrackLimit := c.dst }

/-- The cursor behind the path. -/
def run (uncleanPath : ByteString) : Cursor :=
  (start uncleanPath).parts (uncleanPath.getD 0 0 = 47)

end Cursor

/-- `CleanPath`. -/
def cleanPath (uncleanPath : ByteString) : ByteString :=
  let c := Cursor.run uncleanPath
  if c.dst ≠ 0 then
    c.path.take (if 1 < c.dst ∧ c.path.getD (c.dst - 1) 0 = 47 then c.dst - 1 else c.dst)
  else [46]

/-! ### What it is for -/

/-- The parts of a path that say something. -/
def components (path : ByteString) : List ByteString :=
  (path.splitOn 47).filter fun x ↦ x ≠ [] ∧ x ≠ [46]

/-- One more part behind those of a normal path, the last of which is the first of the list. -/
def push (isAbsolutePath : Bool) (stack : List ByteString) (x : ByteString) : List ByteString :=
  if x = [46, 46] then
    match stack with
    | [] => if isAbsolutePath then [] else [x]
    | y :: stack => if y = [46, 46] then x :: y :: stack else stack
  else x :: stack

/-- The path with the given parts. -/
def render (isAbsolutePath : Bool) (parts : List ByteString) : ByteString :=
  if isAbsolutePath then 47 :: [47].intercalate parts
  else if parts = [] then [46]
  else [47].intercalate parts

/-- A path is absolute or not, and each `..` takes back the part in front of it. -/
def normalised (path : ByteString) : ByteString :=
  render (path.head? = some 47)
    ((components path).foldl (push (path.head? = some 47)) []).reverse

end TensorFlowCore.Io
