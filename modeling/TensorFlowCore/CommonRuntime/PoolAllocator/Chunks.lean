import TensorFlowCore.CommonRuntime.PoolAllocator.Lru

/-!
# Chunks and pointers

`PrepareChunk` writes a prefix at the start of a chunk and, for a large alignment, a second one in
front of the pointer it returns. The pointer is aligned, the bytes that were asked for lie behind
the prefix and inside the chunk (`exists_prepareChunk`), and nothing else is written. What is found
from a pointer depends on the bytes of its chunk in front of it only (`Placed.congr`).
-/

namespace TensorFlowCore.PoolAllocator

open WordMemory

/-- The chunk of a pointer. -/
def Live.owner (a : Live) : ℕ × ℕ := (a.chunk, a.size)

/-- A pointer is placed in its chunk as it should be, and the chunk is found from it. -/
structure Placed (mem : Memory) (a : Live) : Prop where
  aligned : a.alignment ∣ a.ptr
  pos : 0 < a.numBytes
  behind : a.chunk + prefixSize ≤ a.ptr
  inside : a.ptr + a.numBytes ≤ a.chunk + a.size
  findPrefix_eq : findPrefix mem a.ptr = a.chunk
  numBytes_eq : readWord mem a.chunk = a.size

/-- A chunk as the `SubAllocator` gives it. -/
def IsChunk (c : ℕ × ℕ) : Prop := kPoolAlignment ∣ c.1 ∧ 0 < c.1 ∧ c.1 + c.2 ≤ 2 ^ 64

variable {mem mem' : Memory} {a : Live}

theorem Placed.congr (h : Placed mem a) (hmem : AgreeOn mem mem' a.chunk (a.ptr - a.chunk)) :
    Placed mem' a where
  aligned := h.aligned
  pos := h.pos
  behind := h.behind
  inside := h.inside
  findPrefix_eq := by
    have hbehind := h.behind
    rw [prefixSize] at hbehind
    rw [← h.findPrefix_eq]
    refine readWord_congr fun x hlo hhi ↦ hmem x ?_ ?_
    · rw [prefixSize] at hlo; omega
    · rw [prefixSize] at hhi; omega
  numBytes_eq := by
    have hbehind := h.behind
    rw [prefixSize] at hbehind
    rw [← h.numBytes_eq]
    exact readWord_congr fun x hlo hhi ↦ hmem x hlo (by omega)

/-- `PrepareChunk` in a chunk that is large enough. -/
theorem exists_prepareChunk (mem : Memory) {chunk size numBytes k : ℕ}
    (hchunk : IsChunk (chunk, size)) (hpos : 0 < numBytes)
    (hsize : numBytes + (if kPoolAlignment < 2 ^ k then 2 ^ k else 0) + prefixSize ≤ size) :
    ∃ mem' ptr, prepareChunk mem chunk (2 ^ k) size = some (mem', ptr) ∧
      Placed mem' ⟨ptr, 2 ^ k, numBytes, chunk, size⟩ ∧
      ∀ b n, b + n ≤ chunk ∨ chunk + size ≤ b → AgreeOn mem mem' b n := by
  obtain ⟨hdvd, hstart, hend⟩ := hchunk
  rw [kPoolAlignment, prefixSize] at hdvd
  rw [kPoolAlignment, prefixSize] at hsize
  rw [prepareChunk, kPoolAlignment, prefixSize]
  have hword : ∀ v, v < 2 ^ 64 → ∀ m a, readWord (writeWord m a v) a = v :=
    fun v hv m a ↦ readWord_writeWord hv
  by_cases hlarge : 16 < 2 ^ k
  · have hk : 4 ≤ k := by
      by_contra hlt
      have hle : 2 ^ k ≤ 2 ^ 3 := Nat.pow_le_pow_right (by decide) (by omega)
      omega
    rw [if_pos hlarge] at hsize ⊢
    have hk' : k ≤ 64 := by
      by_contra hgt
      have hle : 2 ^ 64 ≤ 2 ^ k := Nat.pow_le_pow_right (by decide) (by omega)
      omega
    have hsum : chunk + 16 + 2 ^ k < 2 ^ 64 := by omega
    obtain ⟨haligned, hle, hlt⟩ := alignDown_spec hsum hk'
    have hmultiple : 16 ∣ alignDown (chunk + 16 + 2 ^ k) (2 ^ k) :=
      (pow_dvd_pow 2 hk).trans haligned
    rw [Nat.mod_eq_of_lt hsum]
    generalize alignDown (chunk + 16 + 2 ^ k) (2 ^ k) = ptr at haligned hle hlt hmultiple ⊢
    -- both are multiples of the size of a prefix, so that the two prefixes do not overlap
    have hbehind : chunk + 32 ≤ ptr := by omega
    rw [if_pos (by omega)]
    refine ⟨_, _, rfl, ⟨haligned, hpos, ?_, ?_, ?_, ?_⟩, fun b n hout ↦ ?_⟩
    · dsimp only
      rw [prefixSize]
      omega
    · dsimp only
      omega
    · rw [findPrefix, prefixSize]
      exact hword _ (by omega) _ _
    · dsimp only
      rw [readWord_writeWord_of_ne (by omega), readWord_writeWord_of_ne (by omega),
        hword _ (by omega)]
    · exact ((agreeOn_writeWord (by omega)).trans (agreeOn_writeWord (by omega))).trans
        (agreeOn_writeWord (by omega))
  · have hk : k ≤ 4 := by
      by_contra hgt
      have hle : 2 ^ 5 ≤ 2 ^ k := Nat.pow_le_pow_right (by decide) (by omega)
      omega
    rw [if_neg hlarge] at hsize ⊢
    refine ⟨_, _, rfl, ⟨?_, hpos, ?_, ?_, ?_, ?_⟩, fun b n hout ↦ ?_⟩
    · exact (pow_dvd_pow 2 hk).trans ((Nat.dvd_add_right hdvd).2 (dvd_refl 16))
    · rw [prefixSize]
    · dsimp only
      omega
    · rw [findPrefix, prefixSize, Nat.add_sub_cancel]
      exact hword _ (by omega) _ _
    · dsimp only
      rw [readWord_writeWord_of_ne (by omega), hword _ (by omega)]
    · exact (agreeOn_writeWord (by omega)).trans (agreeOn_writeWord (by omega))

end TensorFlowCore.PoolAllocator
